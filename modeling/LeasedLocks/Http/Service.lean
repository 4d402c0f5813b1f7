import LeasedLocks.Authority
import LeasedLocks.Http.MediaType
import LeasedLocks.Http.Message
import LeasedLocks.Screening
import LeasedLocks.Version
import LeasedLocks.Wire.Message

/-!
# The service

An authority that is spoken to by requests on a few paths. `answerOpen` answers
whoever asks.
-/

namespace LeasedLocks

/-- What the service does when asked. -/
inductive HttpAction where
  /-- Tells how many objects are locked. -/
  | health
  /-- Answers requests for locks. -/
  | request
  /-- Lists the locked objects. -/
  | list
  /-- Takes all locks away. -/
  | clear
  /-- Takes the named locks away. -/
  | release
  /-- Takes the expired locks away. -/
  | sweep
  deriving DecidableEq, Repr

namespace HttpAction

/-- The paths, and what each method does there. -/
def routes : List (String × List (String × HttpAction)) := [
  ("/health", [("GET", health)]),
  ("/locks", [("POST", request), ("GET", list), ("DELETE", clear)]),
  ("/unlocks", [("POST", release)]),
  ("/evict", [("POST", sweep)])]

/-- What a method does on a path. `HEAD` does what `GET` does. -/
def ofRoute (method path : String) : Except HttpStatus HttpAction :=
  match routes.lookup path with
  | none => .error .notFound
  | some methods =>
    match methods.lookup (if method = "HEAD" then "GET" else method) with
    | none => .error .methodNotAllowed
    | some action => .ok action

end HttpAction

namespace HttpRequest

/-- The largest body that is looked at, in bytes: two binary megabytes. -/
def maxBodySize : Nat := 2 * 1024 * 1024

/-- Whether the body is declared to be JSON. -/
def declaresJson (r : HttpRequest) : Bool :=
  match (r.header? "content-type").bind MediaType.ofText? with
  | some type => type.isJson
  | none => false

/-- The body as a value; what it is declared to be is looked at first. -/
def content {α : Type} (r : HttpRequest) (reader : Nat → Json.Reader α) :
    Except HttpStatus α :=
  if !r.declaresJson then .error .unsupportedMediaType
  else if maxBodySize < r.body.utf8ByteSize then .error .contentTooLarge
  else
    match Json.parse (reader Json.maxDepth) r.body with
    | .ok a => .ok a
    | .error .malformed => .error .badRequest
    | .error .unfitting => .error .unprocessableContent

end HttpRequest

/-- A response that tells what is wrong with the items of a message. -/
def HttpResponse.failure (message : String) : HttpResponse :=
  ⟨.badRequest, some (Message.failureToJson message)⟩

namespace Authority

/-- Answers requests for locks if there is no objection to any. -/
def answerRequests (a : Authority) (now : Millis) (rs : List Request) :
    HttpResponse × Authority :=
  match requestsObjection rs with
  | some why => (.failure why, a)
  | none =>
    match a.requestAll rs now with
    | (.ok replies, a) => (.json (Message.repliesToJson replies), a)
    | (.error e, a) => (.failure e.message, a)

/-- Takes the named locks away if there is no objection to any name. -/
def answerReleases (a : Authority) (rs : List Release) : HttpResponse × Authority :=
  match releasesObjection rs with
  | some why => (.failure why, a)
  | none =>
    let (ids, a) := a.releaseAll rs
    (.json (Message.unlockedToJson ids), a)

/-- How many objects are locked, and who answers. -/
def healthToJson (a : Authority) : Json :=
  .object [("status", .string "ok"), ("locked_objects", .number a.table.size),
    ("version", .string version)]

def perform (a : Authority) (now : Millis) (r : HttpRequest) :
    HttpAction → HttpResponse × Authority
  | .health => (.data a.healthToJson, a)
  | .request =>
    match r.content Message.requests with
    | .error status => (.bare status, a)
    | .ok rs => a.answerRequests now rs
  | .list => (.data (.array (a.table.holdings.map Holding.toJson)), a)
  | .clear =>
    let (ids, a) := a.clear
    (.data (Message.unlockedToJson ids), a)
  | .release =>
    match r.content Message.releases with
    | .error status => (.bare status, a)
    | .ok rs => a.answerReleases rs
  | .sweep =>
    let (ids, a) := a.sweep now
    (.data (Message.unlockedToJson ids), a)

/-- The answer to a request, whoever sent it. -/
def answerOpen (a : Authority) (now : Millis) (r : HttpRequest) :
    HttpResponse × Authority :=
  match HttpAction.ofRoute r.method r.path with
  | .error status => (.bare status, a)
  | .ok action =>
    let (response, a) := a.perform now r action
    (if r.method = "HEAD" then response.withoutBody else response, a)

end Authority

end LeasedLocks
