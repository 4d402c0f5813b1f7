import LeasedLocks.Instant
import LeasedLocks.Priority
import LeasedLocks.Tree

/-!
# Requests

A request asks for an object together with the objects linked to it, as a tree
of which all nodes are locked or none. A release gives objects back.
-/

namespace LeasedLocks

/-- What is asked for one object. -/
structure Ask where
  objectId : String
  description : String := ""
  /-- Who asks; the holder once the object is granted. -/
  requester : String := ""
  priority : Priority := .medium
  /-- The length of the lease, if the requester sets one. -/
  lease : Option Millis := none
  deriving DecidableEq, Repr, Inhabited

/-- A tree of objects to be locked together. -/
abbrev Request := Tree Ask

namespace Request

/-- A request for one object, with nothing else stated. -/
def of (objectId : String) : Request := .node { objectId } []

def objectId (r : Request) : String := r.label.objectId

/-- The identifiers in pre-order. -/
def objectIds (r : Request) : List String := r.labels.map Ask.objectId

/-- Changes what is asked for the root. -/
def alter (f : Ask → Ask) (r : Request) : Request := .node (f r.label) r.linked

def describedAs (r : Request) (description : String) : Request :=
  r.alter ({ · with description })

def requestedBy (r : Request) (requester : String) : Request :=
  r.alter ({ · with requester })

def withPriority (r : Request) (priority : Priority) : Request :=
  r.alter ({ · with priority })

/-- Sets the lease of the root to the whole milliseconds of `d`. -/
def leasedFor (r : Request) (d : Duration) : Request :=
  r.alter ({ · with lease := some (.ofDuration d) })

/-- Adds a subtree after those already there. -/
def linking (r : Request) (other : Request) : Request :=
  .node r.label (r.linked ++ [other])

end Request

/-- Gives one object back and, if `cascade` is set, all that was locked as
linked to it. -/
structure Release where
  objectId : String
  cascade : Bool := false
  deriving DecidableEq, Repr, Inhabited

end LeasedLocks
