import LeasedLocks.Instant
import LeasedLocks.Tree

/-!
# Replies

A reply answers a request node by node, in a tree of the same shape.
-/

namespace LeasedLocks

/-- What is answered for one object. -/
structure Answer where
  objectId : String
  /-- The present holder, or the requester of a free object. -/
  holder : String
  /-- The object was free when it was looked at. -/
  isAvailable : Bool
  /-- The whole tree was granted. -/
  isGranted : Bool
  /-- The end of the holder's lease, or of the one just granted. -/
  autoUnlockAt : Option Millis := none
  deriving DecidableEq, Repr, Inhabited

/-- The answers to a request, in its shape. -/
abbrev Reply := Tree Answer

namespace Reply

def objectId (r : Reply) : String := r.label.objectId

/-- The identifiers in pre-order. -/
def objectIds (r : Reply) : List String := r.labels.map Answer.objectId

def isGranted (r : Reply) : Bool := r.label.isGranted

/-- Every object of the tree was free. -/
def isFree (r : Reply) : Bool := r.labels.all Answer.isAvailable

/-- The identifiers of the objects that somebody else holds, in pre-order. -/
def unavailableIds (r : Reply) : List String :=
  (r.labels.filter (!·.isAvailable)).map Answer.objectId

theorem isFree_iff {r : Reply} : r.isFree = true ↔ r.unavailableIds = [] := by
  simp [isFree, unavailableIds, List.filter_eq_nil_iff]

end Reply

end LeasedLocks
