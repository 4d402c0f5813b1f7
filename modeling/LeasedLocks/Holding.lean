import LeasedLocks.Request

/-!
# Holdings

The record of one object that is locked.
-/

namespace LeasedLocks

/-- An object that is locked, by whom and for how long. -/
structure Holding where
  objectId : String
  description : String
  holder : String
  priority : Priority
  acquiredAt : Millis
  /-- The end of the lease. -/
  autoUnlockAt : Millis
  /-- The objects that were locked as directly linked to this one, in order. -/
  linkedIds : List String
  deriving DecidableEq, Repr, Inhabited

namespace Holding

/-- The record of the root of a request that is granted at `now`. -/
def ofRequest (r : Request) (lease now : Millis) : Holding where
  objectId := r.label.objectId
  description := r.label.description
  holder := r.label.requester
  priority := r.label.priority
  acquiredAt := now
  autoUnlockAt := .after now lease
  linkedIds := r.linked.map Request.objectId

@[simp] theorem objectId_ofRequest (r : Request) (lease now : Millis) :
    (ofRequest r lease now).objectId = r.objectId := rfl

/-- The lease ended before `now`; at its very end it still holds. -/
def isExpired (h : Holding) (now : Millis) : Bool := h.autoUnlockAt < now

theorem isExpired_iff {h : Holding} {now : Millis} :
    h.isExpired now = true ↔ h.autoUnlockAt < now := by
  simp [isExpired]

/-- Nothing that is granted now has expired now. -/
theorem not_isExpired_ofRequest (r : Request) (lease now : Millis) :
    (ofRequest r lease now).isExpired now = false :=
  decide_eq_false (UInt64.not_lt.mpr (Millis.le_after now lease))

end Holding

end LeasedLocks
