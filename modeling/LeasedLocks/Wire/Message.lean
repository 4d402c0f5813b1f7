import LeasedLocks.Wire.Holding
import LeasedLocks.Wire.Reply

/-!
# Messages

The bodies that the two sides exchange. Each is an object with one field.
-/

namespace LeasedLocks

open Json

namespace Message

/-- Reads an object of which only the field `name` matters. -/
def reader {α : Type} (name : String) (content : Nat → Reader α) (level : Nat) : Reader α :=
  Reader.record level {
    fields := [.of name id (fun x _ => some x) (content (level - 1))]
    draft := none
    finish := id }

/-- Reads an array whose items are read one level below. -/
def listReader {α : Type} (item : Nat → Reader α) (level : Nat) : Reader (List α) :=
  Reader.list level (item (level - 1))

/-- Asks for locks. -/
def requests : Nat → Reader (List Request) := reader "requests" (listReader Request.reader)

/-- Answers a message that asks for locks. -/
def replies : Nat → Reader (List Reply) := reader "responses" (listReader Reply.reader)

/-- Gives locks back. -/
def releases : Nat → Reader (List Release) := reader "requests" (listReader Release.reader)

/-- Lists the objects that were given back. -/
def unlocked : Nat → Reader (List String) :=
  reader "unlocked" (listReader fun _ => Reader.string)

/-- Tells what went wrong. -/
def failure : Nat → Reader String := reader "message" fun _ => Reader.string

def requestsToJson (rs : List Request) : Json :=
  .object [("requests", .array (rs.map Request.toJson))]

def repliesToJson (rs : List Reply) : Json :=
  .object [("responses", .array (rs.map Reply.toJson))]

def releasesToJson (rs : List Release) : Json :=
  .object [("requests", .array (rs.map Release.toJson))]

def unlockedToJson (ids : List String) : Json :=
  .object [("unlocked", .array (ids.map .string))]

def failureToJson (message : String) : Json := .object [("message", .string message)]

end Message

end LeasedLocks
