import LeasedLocks.Bulletin
import LeasedLocks.Duration

/-!
# Settings

What the two sides use unless told otherwise.
-/

namespace LeasedLocks

/-- Settings of the side that owns the table. -/
structure AuthoritySettings where
  /-- The lease of nodes that set none: an hour. -/
  defaultLease : Duration := .ofSeconds 3600
  /-- The capacity of each channel of the bulletin. -/
  noticeCapacity : Nat := Bulletin.defaultCapacity
  deriving DecidableEq, Repr, Inhabited

/-- Settings of the side that asks for locks. -/
structure ClientSettings where
  /-- How long an exchange of messages may take: half a minute. -/
  requestTimeout : Duration := .ofSeconds 30
  deriving DecidableEq, Repr, Inhabited

end LeasedLocks
