import LeasedLocks.Text.Decimal

/-!
# Arguments

How a word on the command line is taken: as a long option after two dashes, as
a short one after one dash, or as it stands.
-/

namespace LeasedLocks

inductive Argument where
  /-- An option by its name, with what stands after an equals sign. -/
  | long (name : String) (value : Option String)
  /-- An option by its letter, and what stands right after it. -/
  | short (letter : Char) (rest : List Char)
  /-- Two dashes: no more options. -/
  | separator
  | plain (word : String)
  deriving DecidableEq, Repr

namespace Argument

/-- How a word is taken. A single dash is a plain word. -/
def ofText (word : String) : Argument :=
  match word.toList with
  | ['-', '-'] => .separator
  | '-' :: '-' :: rest =>
    match rest.span (· != '=') with
    | (name, []) => .long (String.ofList name) none
    | (name, _ :: value) => .long (String.ofList name) (some (String.ofList value))
  | '-' :: letter :: rest => .short letter rest
  | _ => .plain word

/-- A plain word that may be the value of the option before it. -/
def value? (word : String) : Option String :=
  match ofText word with
  | .plain value => some value
  | _ => none

/-- The value that follows the letter of an option directly, if any. -/
def attached? : List Char → Option String
  | [] => none
  | '=' :: value => some (String.ofList value)
  | value => some (String.ofList value)

end Argument

/-- A number of at most 64 bits, which may have a plus before it. -/
def word64? (text : String) : Option Nat :=
  let digits := match text.toList with
    | '+' :: digits => digits
    | digits => digits
  (decimal? digits).filter (· < UInt64.size)

/-- A number of at most 16 bits, which may have a sign before it. -/
def word16? (text : String) : Option Nat :=
  match text.toList with
  | '+' :: digits => (decimal? digits).filter (· < UInt16.size)
  | '-' :: digits => (decimal? digits).filter (· == 0)
  | digits => (decimal? digits).filter (· < UInt16.size)

end LeasedLocks
