import LeasedLocks.Text.Capital

/-!
# Priorities

Five degrees of urgency, from `highest` (level 0) to `lowest` (level 4).
-/

namespace LeasedLocks

/-- The urgency of a request. -/
inductive Priority where
  | highest
  | high
  | medium
  | low
  | lowest
  deriving DecidableEq, Repr

namespace Priority

instance : Inhabited Priority := ⟨medium⟩

def all : List Priority := [highest, high, medium, low, lowest]

/-- The position in the order of urgency; 0 is the most urgent. -/
def level : Priority → Nat
  | highest => 0
  | high => 1
  | medium => 2
  | low => 3
  | lowest => 4

theorem level_injective {p q : Priority} (h : p.level = q.level) : p = q := by
  cases p <;> cases q <;> simp_all [level]

/-- Priorities are ordered by level, the most urgent first. -/
instance : Ord Priority := ⟨fun p q => compare p.level q.level⟩

instance : Std.TransOrd Priority where
  eq_swap := Std.OrientedOrd.eq_swap (α := Nat)
  isLE_trans := Std.TransOrd.isLE_trans (α := Nat)

instance : Std.LawfulEqOrd Priority where
  compare_self := Std.ReflOrd.compare_self (α := Nat)
  eq_of_compare h := level_injective (Std.LawfulEqOrd.eq_of_compare h)

/-- Strictly more urgent. -/
def outranks (p q : Priority) : Bool := p.level < q.level

theorem outranks_iff {p q : Priority} : p.outranks q = true ↔ compare p q = .lt := by
  cases p <;> cases q <;> decide

/-- The word for a priority, as it is written and read. -/
def word : Priority → String
  | highest => "HIGHEST"
  | high => "HIGH"
  | medium => "MEDIUM"
  | low => "LOW"
  | lowest => "LOWEST"

/-- The priority of this exact word. -/
def ofWord? (s : String) : Option Priority := all.find? (·.word == s)

@[simp] theorem ofWord?_word (p : Priority) : ofWord? p.word = some p := by
  cases p <;> decide

/-- The priority meant by a word or a level, in any mixture of capital and
small letters. -/
def ofText? (s : String) : Option Priority :=
  all.find? fun p => capitals s == p.word || capitals s == toString p.level

/-- What is reported for a text that names no priority. -/
def unknownMessage (s : String) : String :=
  "Invalid priority '" ++ s ++ "'. Must be one of: " ++ ", ".intercalate (all.map word)

example : unknownMessage "x" =
    "Invalid priority 'x'. Must be one of: HIGHEST, HIGH, MEDIUM, LOW, LOWEST" := by
  decide +kernel

end Priority

end LeasedLocks
