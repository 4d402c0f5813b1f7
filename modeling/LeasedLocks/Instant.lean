import LeasedLocks.Duration

/-!
# Points in time

Leases are dated in milliseconds of a 64-bit clock. A date that the clock
cannot show is replaced by the last one that it can.
-/

namespace LeasedLocks

/-- A date or a span of the lease clock, in milliseconds. -/
abbrev Millis := UInt64

namespace Millis

/-- The last date that the clock can show. -/
def last : Millis := 18446744073709551615

@[simp] theorem toNat_last : UInt64.toNat last = UInt64.size - 1 := rfl

/-- The date `span` after `start`, or the last one. -/
def after (start span : Millis) : Millis :=
  if start.toNat + span.toNat < UInt64.size then start + span else last

/-- Adding a span stops at the last date. -/
theorem toNat_after (start span : Millis) :
    (after start span).toNat = min (UInt64.size - 1) (start.toNat + span.toNat) := by
  unfold after
  split
  · next h =>
    rw [UInt64.toNat_add, Nat.mod_eq_of_lt h]
    omega
  · next h =>
    rw [toNat_last]
    omega

/-- A lease is never over before it begins. -/
theorem le_after (start span : Millis) : start ≤ after start span := by
  rw [UInt64.le_iff_toNat_le, toNat_after]
  have := UInt64.toNat_lt_size start
  omega

/-- The whole milliseconds of a duration, counted modulo the size of the clock. -/
def ofDuration (d : Duration) : Millis := UInt64.ofNat d.millis

end Millis

end LeasedLocks
