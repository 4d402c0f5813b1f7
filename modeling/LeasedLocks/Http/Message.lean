import LeasedLocks.Json.Value

/-!
# Requests and responses of the service

What comes in and what goes out, as far as the service looks at it. A response
without a body of its own stands for any that holds no JSON object.
-/

namespace LeasedLocks

/-- How a request went. -/
inductive HttpStatus where
  | ok
  | badRequest
  | unauthorized
  | notFound
  | methodNotAllowed
  | contentTooLarge
  | unsupportedMediaType
  | unprocessableContent
  deriving DecidableEq, Repr

def HttpStatus.code : HttpStatus → Nat
  | ok => 200
  | badRequest => 400
  | unauthorized => 401
  | notFound => 404
  | methodNotAllowed => 405
  | contentTooLarge => 413
  | unsupportedMediaType => 415
  | unprocessableContent => 422

structure HttpRequest where
  method : String
  /-- The path, and what may follow it after a question mark. -/
  target : String
  headers : List (String × String)
  body : String
  deriving DecidableEq, Repr

structure HttpResponse where
  status : HttpStatus
  body : Option Json

namespace HttpRequest

/-- The target up to the query. -/
def path (r : HttpRequest) : String :=
  String.ofList (r.target.toList.takeWhile fun c => c != '?' && c != '#')

/-- Whether a value of a header can be read as text. -/
def isPlain (c : Char) : Bool := (32 ≤ c.toNat && c.toNat < 127) || c == '\t'

/-- The first value of the header of this name, which is given in small
letters; nothing if it cannot be read as text. -/
def header? (r : HttpRequest) (name : String) : Option String := do
  let (_, value) ← r.headers.find? fun (key, _) =>
    key.toList.map Char.toLower == name.toList
  if value.toList.all isPlain then some value else none

end HttpRequest

namespace HttpResponse

/-- A response of which only the status matters. -/
def bare (status : HttpStatus) : HttpResponse := ⟨status, none⟩

def json (body : Json) : HttpResponse := ⟨.ok, some body⟩

/-- A response that wraps what was asked for. -/
def data (content : Json) : HttpResponse :=
  json (.object [("success", .bool true), ("data", content)])

def withoutBody (r : HttpResponse) : HttpResponse := { r with body := none }

end HttpResponse

end LeasedLocks
