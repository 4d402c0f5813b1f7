import LeasedLocks.Fault
import LeasedLocks.Reply
import LeasedLocks.Request
import Std.Data.ExtTreeMap

/-!
# Outcomes

What a caller learns about the objects that it asked for: holder, grant and end
of the lease come from the replies, description and priority from its own
requests.
-/

namespace LeasedLocks

/-- The state of one object as the caller sees it. -/
structure Status where
  objectId : String
  description : String
  holder : String
  isGranted : Bool
  autoUnlockAt : Option Millis
  priority : Priority
  deriving DecidableEq, Repr, Inhabited

/-- Joins what was asked for an object with what was answered. -/
def Status.ofAnswer (a : Ask) (x : Answer) : Status where
  objectId := x.objectId
  description := a.description
  holder := x.holder
  isGranted := x.isGranted
  autoUnlockAt := x.autoUnlockAt
  priority := a.priority

/-- The result of a call that asked for locks. -/
structure Outcome where
  /-- The state of each object, by identifier. -/
  statuses : Std.ExtTreeMap String Status
  /-- The time spent waiting for others to give their locks back. -/
  waited : Duration

namespace Outcome

/-- Nothing asked, nothing waited for. -/
protected def empty : Outcome := ⟨∅, .zero⟩

/-- Files the states by identifier; of two with one identifier the later is kept. -/
def ofStatuses (ss : List Status) (waited : Duration) : Outcome :=
  ⟨ss.foldl (fun m s => m.insert s.objectId s) ∅, waited⟩

def get? (o : Outcome) (id : String) : Option Status := o.statuses[id]?

/-- The object was asked for and granted. -/
def isGranted (o : Outcome) (id : String) : Bool := (o.get? id).any Status.isGranted

/-- Every object asked for was granted. -/
def allGranted (o : Outcome) : Bool := o.statuses.values.all Status.isGranted

/-- What was asked for an object; if more than once, what was asked last. -/
def askFor? (asks : List Ask) (id : String) : Option Ask :=
  asks.reverse.find? (·.objectId == id)

/-- The states of the objects in the replies, each of which must have been asked for. -/
def statusesOf (asks : List Ask) : List Answer → Except Fault (List Status)
  | [] => .ok []
  | x :: xs =>
    match askFor? asks x.objectId with
    | none =>
      .error (.unexpectedReply
        ("response for '" ++ x.objectId ++ "' which was never requested"))
    | some a => (statusesOf asks xs).map (.ofAnswer a x :: ·)

/-- The result of a call from its requests and the replies to them. -/
def assemble (requests : List Request) (replies : List Reply) (waited : Duration) :
    Except Fault Outcome :=
  (statusesOf (requests.flatMap Tree.labels) (replies.flatMap Tree.labels)).map
    (ofStatuses · waited)

end Outcome

end LeasedLocks
