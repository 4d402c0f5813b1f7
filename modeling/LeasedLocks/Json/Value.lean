import LeasedLocks.Json.Quoted

/-!
# Values

The JSON values that are written, and their two spellings: one without any
blanks, and one with a line for each element.
-/

namespace LeasedLocks

inductive Json where
  | null
  | bool (b : Bool)
  | number (n : Nat)
  | string (s : String)
  | array (items : List Json)
  | object (entries : List (String × Json))

namespace Json

/-- The spelling of what holds no other values. -/
def scalar : Json → List Char
  | bool true => ['t', 'r', 'u', 'e']
  | bool false => ['f', 'a', 'l', 's', 'e']
  | number n => Nat.toDigits 10 n
  | string s => quote s.toList
  | _ => ['n', 'u', 'l', 'l']

mutual

/-- The spelling without blanks. -/
def spell : Json → List Char
  | array items => '[' :: spellItems items ++ [']']
  | object entries => '{' :: spellEntries entries ++ ['}']
  | j => j.scalar

/-- The items, with commas between them. -/
def spellItems : List Json → List Char
  | [] => []
  | [j] => j.spell
  | j :: js => j.spell ++ ',' :: spellItems js

/-- The entries, with commas between them. -/
def spellEntries : List (String × Json) → List Char
  | [] => []
  | [(key, j)] => quote key.toList ++ ':' :: j.spell
  | (key, j) :: rest => quote key.toList ++ ':' :: j.spell ++ ',' :: spellEntries rest

end

/-- The value in one line without blanks. -/
def compact (j : Json) : String := String.ofList j.spell

/-- A new line, indented by two blanks for each level. -/
def newLine (level : Nat) : List Char := '\n' :: List.replicate (2 * level) ' '

mutual

/-- The spelling with a line for each element, `level` levels deep. -/
def spread (level : Nat) : Json → List Char
  | array [] => ['[', ']']
  | array (j :: js) =>
    '[' :: newLine (level + 1) ++ j.spread (level + 1) ++ spreadItems (level + 1) js ++
      newLine level ++ [']']
  | object [] => ['{', '}']
  | object ((key, j) :: rest) =>
    '{' :: newLine (level + 1) ++ quote key.toList ++ [':', ' '] ++ j.spread (level + 1) ++
      spreadEntries (level + 1) rest ++ newLine level ++ ['}']
  | j => j.scalar

/-- The items after the first, each on a line of its own. -/
def spreadItems (level : Nat) : List Json → List Char
  | [] => []
  | j :: js => ',' :: newLine level ++ j.spread level ++ spreadItems level js

/-- The entries after the first, each on a line of its own. -/
def spreadEntries (level : Nat) : List (String × Json) → List Char
  | [] => []
  | (key, j) :: rest =>
    ',' :: newLine level ++ quote key.toList ++ [':', ' '] ++ j.spread level ++
      spreadEntries level rest

end

/-- The value with a line for each element. -/
def pretty (j : Json) : String := String.ofList (j.spread 0)

mutual

/-- How many arrays and objects are nested in each other at the deepest place. -/
def depth : Json → Nat
  | array items => depthOfItems items + 1
  | object entries => depthOfEntries entries + 1
  | _ => 0

def depthOfItems : List Json → Nat
  | [] => 0
  | j :: js => max j.depth (depthOfItems js)

def depthOfEntries : List (String × Json) → Nat
  | [] => 0
  | (_, j) :: rest => max j.depth (depthOfEntries rest)

end

end Json

end LeasedLocks
