import LeasedLocks.Json.Quoted

/-!
# Tokens

The words of JSON. A text is a list of tokens, which ends with `broken` where
the text stops being JSON.
-/

namespace LeasedLocks.Json

/-- A number as far as readers care for it. -/
inductive Numeral where
  /-- A plain integer without sign. -/
  | natural (n : Nat)
  /-- Negative, or with a fraction or an exponent. -/
  | other
  /-- Beyond the largest double. -/
  | tooLarge
  deriving DecidableEq, Repr

inductive Token where
  | openObject
  | closeObject
  | openArray
  | closeArray
  | comma
  | colon
  | null
  | bool (b : Bool)
  | number (n : Numeral)
  /-- A text between quotes; nothing if half of a surrogate pair stands alone. -/
  | string (s : Option String)
  /-- From here on the text is no JSON. -/
  | broken
  deriving DecidableEq, Repr

end LeasedLocks.Json
