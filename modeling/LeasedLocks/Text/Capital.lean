/-!
# Capital forms

Keywords are recognised in any mixture of small and capital letters. The
capital form of a character may be several letters long, and a few characters
outside ASCII have a capital form made of ASCII letters alone.
-/

namespace LeasedLocks

/-- The capital form of a character, as far as it consists of ASCII. A
character whose capital form holds anything else stands for itself: no keyword
contains it either way. -/
def capital (c : Char) : List Char :=
  match c with
  | 'ß' => ['S', 'S']
  | 'ı' => ['I']
  | 'ſ' => ['S']
  | 'ﬀ' => ['F', 'F']
  | 'ﬁ' => ['F', 'I']
  | 'ﬂ' => ['F', 'L']
  | 'ﬃ' => ['F', 'F', 'I']
  | 'ﬄ' => ['F', 'F', 'L']
  | 'ﬅ' => ['S', 'T']
  | 'ﬆ' => ['S', 'T']
  | c => [c.toUpper]

/-- The text with each character replaced by its capital form. -/
def capitals (s : String) : String := String.ofList (s.toList.flatMap capital)

theorem toList_capitals (s : String) :
    (capitals s).toList = s.toList.flatMap capital := by
  simp [capitals]

end LeasedLocks
