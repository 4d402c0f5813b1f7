import LeasedLocks.Json.Lexer

/-!
# Reading values

A reader takes one value from the front of a list of tokens. It stops at the
first thing that is wrong, and tells a text that is no JSON from one that is
JSON but not the value expected.
-/

namespace LeasedLocks.Json

/-- Why no value was read. -/
inductive ReadFault where
  /-- The text is no JSON. -/
  | malformed
  /-- The text holds something else than the value expected. -/
  | unfitting
  deriving DecidableEq, Repr

/-- Takes a value from the front of the tokens. -/
abbrev Reader (α : Type) := List Token → Except ReadFault (α × List Token)

namespace Reader

variable {α β σ : Type}

/-- The fault of finding something else than the value expected: it must at
least be the start of a value. -/
def refusal : List Token → ReadFault
  | .openObject :: _ => .unfitting
  | .openArray :: _ => .unfitting
  | .null :: _ => .unfitting
  | .bool _ :: _ => .unfitting
  | .number .tooLarge :: _ => .malformed
  | .number _ :: _ => .unfitting
  | .string (some _) :: _ => .unfitting
  | _ => .malformed

def refuse : Reader α := fun ts => .error (refusal ts)

def map (f : α → β) (r : Reader α) : Reader β := fun ts =>
  match r ts with
  | .error e => .error e
  | .ok (a, rest) => .ok (f a, rest)

def string : Reader String
  | .string (some s) :: rest => .ok (s, rest)
  | ts => refuse ts

def bool : Reader Bool
  | .bool b :: rest => .ok (b, rest)
  | ts => refuse ts

/-- A natural number of at most 64 bits. -/
def word : Reader UInt64
  | .number (.natural n) :: rest =>
    if n < UInt64.size then .ok (UInt64.ofNat n, rest) else .error .unfitting
  | ts => refuse ts

/-- A value, or `null` for none. -/
def optional (r : Reader α) : Reader (Option α)
  | .null :: rest => .ok (none, rest)
  | ts => r.map some ts

/-- Before an element that is not the first there is a comma. -/
def next (first : Bool) (ts : List Token) : Except ReadFault (List Token) :=
  if first then .ok ts
  else
    match ts with
    | .comma :: ts => .ok ts
    | _ => .error .malformed

/-- The items of an array after its bracket; `fuel` bounds their number. -/
def items (r : Reader α) (first : Bool) : Nat → Reader (List α)
  | 0, _ => .error .malformed
  | _ + 1, .closeArray :: rest => .ok ([], rest)
  | fuel + 1, ts =>
    match next first ts with
    | .error e => .error e
    | .ok ts =>
      match r ts with
      | .error e => .error e
      | .ok (a, ts) =>
        match items r false fuel ts with
        | .error e => .error e
        | .ok (as, ts) => .ok (a :: as, ts)

/-- An array, where `level` more levels of nesting are allowed and `r` reads an
item on the level below. -/
def list (level : Nat) (r : Reader α) : Reader (List α)
  | .openArray :: ts =>
    if level = 0 then .error .malformed else items r true (ts.length + 1) ts
  | ts => refuse ts

/-- What may stand next inside a value that is passed over. -/
inductive Place where
  | value
  | itemOrEnd
  | keyOrEnd
  | key
  | colon
  | after
  deriving DecidableEq, Repr

/-- The arrays and objects that are open in a value passed over, and what may
stand next. -/
structure Skipping where
  /-- The innermost first; true for an object. -/
  frames : List Bool
  place : Place

/-- Passing over one token; nothing if it must not stand there. -/
def Skipping.next? (k : Skipping) : Token → Option Skipping
  | .broken => none
  | t =>
    match k.place, t, k.frames with
    | .keyOrEnd, .closeObject, _ :: fs => some ⟨fs, .after⟩
    | .itemOrEnd, .closeArray, _ :: fs => some ⟨fs, .after⟩
    | .keyOrEnd, .string _, fs => some ⟨fs, .colon⟩
    | .key, .string _, fs => some ⟨fs, .colon⟩
    | .colon, .colon, fs => some ⟨fs, .value⟩
    | .after, .comma, true :: fs => some ⟨true :: fs, .key⟩
    | .after, .comma, false :: fs => some ⟨false :: fs, .value⟩
    | .after, .closeObject, true :: fs => some ⟨fs, .after⟩
    | .after, .closeArray, false :: fs => some ⟨fs, .after⟩
    | .value, .openObject, fs | .itemOrEnd, .openObject, fs => some ⟨true :: fs, .keyOrEnd⟩
    | .value, .openArray, fs | .itemOrEnd, .openArray, fs => some ⟨false :: fs, .itemOrEnd⟩
    | .value, .null, fs | .itemOrEnd, .null, fs => some ⟨fs, .after⟩
    | .value, .bool _, fs | .itemOrEnd, .bool _, fs => some ⟨fs, .after⟩
    | .value, .number _, fs | .itemOrEnd, .number _, fs => some ⟨fs, .after⟩
    | .value, .string _, fs | .itemOrEnd, .string _, fs => some ⟨fs, .after⟩
    | _, _, _ => none

/-- Passes over what is left of a value, however deep. -/
def skipFrom (k : Skipping) : List Token → Except ReadFault (List Token)
  | [] => .error .malformed
  | t :: ts =>
    match k.next? t with
    | none => .error .malformed
    | some ⟨[], .after⟩ => .ok ts
    | some k => skipFrom k ts

/-- Passes over one value. -/
def skip : List Token → Except ReadFault (List Token) := skipFrom ⟨[], .value⟩

/-- A field of an object that is read into a draft of type `σ`. -/
structure Field (σ : Type) where
  name : String
  /-- The draft has the field already. -/
  isSet : σ → Bool
  read : σ → Reader σ
  /-- An array that stands for the object may end before this field. -/
  mayBeLeftOut : Bool := false

/-- A field that the draft keeps as an option. -/
def Field.of (name : String) (get : σ → Option β) (set : β → σ → σ) (r : Reader β)
    (mayBeLeftOut : Bool := false) : Field σ where
  name := name
  isSet := fun d => (get d).isSome
  read := fun d => r.map (set · d)
  mayBeLeftOut := mayBeLeftOut

/-- How a record is read: the fields in order, an empty draft, and the record
made from a draft unless a field is missing. -/
structure Record (σ α : Type) where
  fields : List (Field σ)
  draft : σ
  finish : σ → Option α

/-- One entry of an object, from its key on: a known field is read, anything
else is passed over. -/
def entry (fields : List (Field σ)) (d : σ) : Reader σ
  | .string (some key) :: ts =>
    match fields.find? (·.name == key) with
    | some f =>
      if f.isSet d then .error .unfitting
      else
        match ts with
        | .colon :: ts => f.read d ts
        | _ => .error .malformed
    | none =>
      match ts with
      | .colon :: ts => (skip ts).map (d, ·)
      | _ => .error .malformed
  | _ => .error .malformed

/-- The entries of an object after its brace; `fuel` bounds their number. -/
def entries (fields : List (Field σ)) (first : Bool) : Nat → σ → Reader σ
  | 0, _, _ => .error .malformed
  | _ + 1, d, .closeObject :: rest => .ok (d, rest)
  | fuel + 1, d, ts =>
    match next first ts with
    | .error e => .error e
    | .ok ts =>
      match entry fields d ts with
      | .error e => .error e
      | .ok (d, ts) => entries fields false fuel d ts

/-- The fields of a record as items of an array, after its bracket. -/
def positions (first : Bool) : List (Field σ) → σ → Reader σ
  | [], d, .closeArray :: rest => .ok (d, rest)
  | [], _, _ => .error .malformed
  | f :: fs, d, .closeArray :: rest =>
    if f.mayBeLeftOut then positions first fs d (.closeArray :: rest) else .error .unfitting
  | f :: fs, d, ts =>
    match next first ts with
    | .error e => .error e
    | .ok ts =>
      match f.read d ts with
      | .error e => .error e
      | .ok (d, ts) => positions false fs d ts

/-- The record made from a draft that was read. -/
def finished (r : Record σ α) : Except ReadFault (σ × List Token) →
    Except ReadFault (α × List Token)
  | .error e => .error e
  | .ok (d, rest) =>
    match r.finish d with
    | some a => .ok (a, rest)
    | none => .error .unfitting

/-- A record, written as an object or as an array of its fields, where `level`
more levels of nesting are allowed. -/
def record (level : Nat) (r : Record σ α) : Reader α
  | .openObject :: ts =>
    if level = 0 then .error .malformed
    else finished r (entries r.fields true (ts.length + 1) r.draft ts)
  | .openArray :: ts =>
    if level = 0 then .error .malformed
    else finished r (positions true r.fields r.draft ts)
  | ts => refuse ts

/-- One of the words that `find?` knows; also as the only key of an object,
whose value is `null`. -/
def choice (level : Nat) (find? : String → Option α) : Reader α
  | .string (some s) :: ts =>
    match find? s with
    | some a => .ok (a, ts)
    | none => .error .unfitting
  | .openObject :: ts =>
    if level = 0 then .error .malformed
    else
      match ts with
      | .string (some s) :: ts =>
        match find? s with
        | none => .error .unfitting
        | some a =>
          match ts with
          | .colon :: .null :: .closeObject :: ts => .ok (a, ts)
          | .colon :: .null :: _ => .error .malformed
          | .colon :: ts => refuse ts
          | _ => .error .malformed
      | ts => refuse ts
  | _ => .error .malformed

end Reader

/-- How many levels of nesting a text may have. -/
def maxDepth : Nat := 127

/-- The value that a whole text stands for. -/
def parse (r : Reader α) (text : String) : Except ReadFault α :=
  match r (tokens text.toList) with
  | .error e => .error e
  | .ok (a, []) => .ok a
  | .ok _ => .error .malformed

end LeasedLocks.Json
