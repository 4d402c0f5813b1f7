import LeasedLocks.Json.Token
import LeasedLocks.Text.Decimal

/-!
# Cutting a text into tokens

Blanks between tokens are the space, the tab, and the two line ends.
-/

namespace LeasedLocks.Json

def isGap (c : Char) : Bool := c = ' ' || c = '\n' || c = '\t' || c = '\r'

/-- The least natural number that no double comes near: halfway between the
largest double and the next power of two. -/
def doubleLimit : Nat := Nat.pow 2 1024 - Nat.pow 2 970

/-- Whether `m · 10 ^ up / 10 ^ down` is beyond the doubles, where `m` has at
most `digits` digits. -/
def isTooLarge (m digits up down : Nat) : Bool :=
  if m = 0 then false
  else if down ≤ up then
    let e := up - down
    400 < e || doubleLimit ≤ m * Nat.pow 10 e
  else
    let e := down - up
    e < digits && doubleLimit * Nat.pow 10 e ≤ m

/-- The digits after a point, if there is one; a point needs some. -/
def fractionPart : List Char → Option (List Char × List Char)
  | '.' :: rest =>
    match rest.span Char.isDigit with
    | ([], _) => none
    | (ds, rest) => some (ds, rest)
  | rest => some ([], rest)

/-- The exponent, if there is one, as a power to go up and one to go down. -/
def exponentPart : List Char → Option (Option (Nat × Nat) × List Char)
  | c :: rest =>
    if c = 'e' ∨ c = 'E' then
      let (down, rest) :=
        match rest with
        | '+' :: rest => (false, rest)
        | '-' :: rest => (true, rest)
        | rest => (false, rest)
      match rest.span Char.isDigit with
      | ([], _) => none
      | (ds, rest) =>
        let e := digitsValue ds
        some (some (if down then (0, e) else (e, 0)), rest)
    else some (none, c :: rest)
  | [] => some (none, [])

/-- The number whose digits before the point are `whole`. -/
def numeralAfter (negative : Bool) (whole : List Char) (rest : List Char) :
    Option (Numeral × List Char) := do
  let (part, rest) ← fractionPart rest
  let (exponent, rest) ← exponentPart rest
  let m := digitsValue (whole ++ part)
  let (up, down) := exponent.getD (0, 0)
  let numeral :=
    if isTooLarge m (whole.length + part.length) up (down + part.length) then .tooLarge
    else if negative || !part.isEmpty || exponent.isSome then .other
    else .natural m
  return (numeral, rest)

/-- A number at the start of the text. A zero is not followed by more digits. -/
def numeral? (negative : Bool) : List Char → Option (Numeral × List Char)
  | [] => none
  | '0' :: rest =>
    match rest with
    | c :: _ => if c.isDigit then none else numeralAfter negative ['0'] rest
    | [] => numeralAfter negative ['0'] []
  | c :: rest =>
    if c.isDigit then
      match rest.span Char.isDigit with
      | (ds, rest) => numeralAfter negative (c :: ds) rest
    else none

/-- The first token of a text that starts with no blank, and the text after it. -/
def token? : List Char → Option (Token × List Char)
  | [] => none
  | '{' :: rest => some (.openObject, rest)
  | '}' :: rest => some (.closeObject, rest)
  | '[' :: rest => some (.openArray, rest)
  | ']' :: rest => some (.closeArray, rest)
  | ',' :: rest => some (.comma, rest)
  | ':' :: rest => some (.colon, rest)
  | 'n' :: 'u' :: 'l' :: 'l' :: rest => some (.null, rest)
  | 't' :: 'r' :: 'u' :: 'e' :: rest => some (.bool true, rest)
  | 'f' :: 'a' :: 'l' :: 's' :: 'e' :: rest => some (.bool false, rest)
  | '"' :: rest =>
    (pieces rest).map fun (ps, rest) => (.string ((joinPieces ps).map String.ofList), rest)
  | '-' :: rest => (numeral? true rest).map fun (n, rest) => (.number n, rest)
  | c :: rest => (numeral? false (c :: rest)).map fun (n, rest) => (.number n, rest)

/-- The tokens of a text; each takes at least one character, so that `fuel`
characters are no more than `fuel` tokens. -/
def tokensWithin : Nat → List Char → List Token
  | 0, _ => []
  | fuel + 1, text =>
    match text.dropWhile isGap with
    | [] => []
    | text =>
      match token? text with
      | none => [.broken]
      | some (t, rest) => t :: tokensWithin fuel rest

/-- The tokens of a text. -/
def tokens (text : List Char) : List Token := tokensWithin text.length text

end LeasedLocks.Json
