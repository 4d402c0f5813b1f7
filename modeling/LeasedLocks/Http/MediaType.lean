/-!
# Media types

What the sender of a body declares it to be: a type and a subtype, which may
have a suffix after a plus, and parameters after semicolons. The service takes
JSON only.
-/

namespace LeasedLocks

/-- Type, subtype and suffix of a body, in small letters. -/
structure MediaType where
  type : String
  subtype : String
  suffix : Option String
  deriving DecidableEq, Repr

namespace MediaType

/-- The characters of which the words of a media type are made. -/
def isWordChar (c : Char) : Bool :=
  c.isAlphanum || "!#$%&'*+-.^_`|~".toList.contains c

/-- The characters that may stand between quotes. -/
def isQuotable (c : Char) : Bool := 31 < c.toNat && c.toNat != 127

/-- A place among the parameters. -/
inductive Spot where
  /-- Before a parameter. -/
  | before
  /-- Inside its name. -/
  | name
  /-- Right after the equals sign. -/
  | value
  /-- Inside a value without quotes. -/
  | inside
  /-- Right after the opening quote. -/
  | quote
  /-- Inside a quoted value. -/
  | quoted
  /-- After the closing quote. -/
  | behind
  deriving DecidableEq, Repr

/-- The place after one more character. A quote right after the opening quote
is part of the value. -/
def Spot.next? : Spot → Char → Option Spot
  | .before, c =>
    if c = ' ' then some .before else if isWordChar c then some .name else none
  | .name, c =>
    if c = '=' then some .value else if isWordChar c then some .name else none
  | .value, c =>
    if c = '"' then some .quote else if isWordChar c then some .inside else none
  | .inside, c =>
    if c = ';' then some .before else if isWordChar c then some .inside else none
  | .quote, c => if isQuotable c then some .quoted else none
  | .quoted, c =>
    if c = '"' then some .behind else if isQuotable c then some .quoted else none
  | .behind, c =>
    if c = ';' then some .before else if c = ' ' then some .behind else none

/-- Parameters may end between two of them and within a value without quotes. -/
def Spot.mayEnd : Spot → Bool
  | .before | .value | .inside | .behind => true
  | .name | .quote | .quoted => false

/-- Whether the text after a semicolon is a list of parameters. -/
def areParameters (text : List Char) : Bool :=
  match text.foldlM Spot.next? .before with
  | some spot => spot.mayEnd
  | none => false

/-- The subtype before the last plus and the suffix after it. A plus at the
very start is part of the subtype. -/
def splitSuffix : List Char → List Char × Option (List Char)
  | [] => ([], none)
  | c :: rest =>
    match rest.reverse.span (· != '+') with
    | (suffix, _ :: main) => (c :: main.reverse, some suffix.reverse)
    | (_, []) => (c :: rest, none)

def small (word : List Char) : String := String.ofList (word.map Char.toLower)

/-- The type that a text declares. -/
def ofText? (text : String) : Option MediaType :=
  match text.toList.span isWordChar with
  | (first :: type, '/' :: rest) =>
    let (subtype, suffix) := splitSuffix (rest.takeWhile isWordChar)
    let declared : MediaType := ⟨small (first :: type), small subtype, suffix.map small⟩
    match rest.dropWhile isWordChar with
    | [] => some declared
    | ';' :: parameters =>
      if !subtype.isEmpty && areParameters parameters then some declared else none
    | _ => none
  | _ => none

/-- Whether a body of this type is JSON: the type is `application`, and the
subtype or its suffix is `json`. -/
def isJson (t : MediaType) : Bool :=
  t.type == "application" && (t.subtype == "json" || t.suffix == some "json")

example : ofText? "application/vnd.api+JSON; charset=utf-8" =
    some ⟨"application", "vnd.api", some "json"⟩ := by decide +kernel

example : ofText? "application/json ; charset=utf-8" = none := by decide +kernel

end MediaType

end LeasedLocks
