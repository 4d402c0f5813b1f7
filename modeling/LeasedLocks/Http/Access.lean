import LeasedLocks.Http.Service

/-!
# Access

With a key set, whoever asks must show it. What a browser asks beforehand with
`OPTIONS` is answered without looking at anything else, and `/health` is open to
everybody.
-/

namespace LeasedLocks

/-- How the key of the service is set. -/
inductive KeySetting where
  | unset
  /-- Something is set that is no text. -/
  | unreadable
  | text (key : String)
  deriving DecidableEq, Repr

namespace KeySetting

/-- A key that is either read as text or not there. -/
instance : Coe (Option String) KeySetting where
  coe
    | none => .unset
    | some key => .text key

/-- The key that must be shown. What is no text asks for none, and neither does the
empty text. -/
def required? : KeySetting → Option String
  | unset => none
  | unreadable => none
  | text key => if key.isEmpty then none else some key

end KeySetting

namespace HttpRequest

/-- The key that comes with the request. -/
def bearer? (r : HttpRequest) : Option (List Char) := do
  let value ← r.header? "authorization"
  let scheme := "Bearer ".toList
  if value.toList.take scheme.length = scheme then some (value.toList.drop scheme.length)
  else none

/-- Whether the request may be answered. -/
def isAdmitted (setting : KeySetting) (r : HttpRequest) : Bool :=
  match setting.required? with
  | none => true
  | some key => r.path == "/health" || r.bearer? == some key.toList

end HttpRequest

/-- The answer to a request of a service whose key is set so. -/
def Authority.answer (setting : KeySetting) (a : Authority) (now : Millis) (r : HttpRequest) :
    HttpResponse × Authority :=
  if r.method = "OPTIONS" then (.bare .ok, a)
  else if r.isAdmitted setting then a.answerOpen now r
  else (.bare .unauthorized, a)

end LeasedLocks
