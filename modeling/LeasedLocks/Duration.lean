/-!
# Durations

A length of time, exact to the nanosecond. `Duration.toText` writes it in the
largest unit of which it holds at least one.
-/

namespace LeasedLocks

/-- A length of time in nanoseconds. -/
structure Duration where
  nanos : Nat
  deriving DecidableEq, Repr, Inhabited

namespace Duration

protected def zero : Duration := ⟨0⟩

def ofSeconds (n : Nat) : Duration := ⟨n * 1000000000⟩

def ofMillis (n : Nat) : Duration := ⟨n * 1000000⟩

def ofMicros (n : Nat) : Duration := ⟨n * 1000⟩

/-- Whole seconds and the nanoseconds beyond them. -/
def ofParts (seconds nanos : Nat) : Duration := ⟨seconds * 1000000000 + nanos⟩

def seconds (d : Duration) : Nat := d.nanos / 1000000000

def subsecNanos (d : Duration) : Nat := d.nanos % 1000000000

/-- Whole milliseconds; what is left over is dropped. -/
def millis (d : Duration) : Nat := d.nanos / 1000000

/-- Whole microseconds; what is left over is dropped. -/
def micros (d : Duration) : Nat := d.nanos / 1000

/-- The first whole millisecond by which the duration is over. -/
def ceilMillis (d : Duration) : Nat := (d.nanos + 999999) / 1000000

def isZero (d : Duration) : Bool := d.nanos == 0

protected def min (a b : Duration) : Duration := ⟨Nat.min a.nanos b.nanos⟩

@[simp] theorem millis_ofMillis (n : Nat) : (ofMillis n).millis = n := by
  simp [ofMillis, millis]

@[simp] theorem ceilMillis_ofMillis (n : Nat) : (ofMillis n).ceilMillis = n := by
  simp only [ofMillis, ceilMillis]
  omega

theorem ofParts_seconds_subsecNanos (d : Duration) :
    ofParts d.seconds d.subsecNanos = d := by
  simp only [ofParts, seconds, subsecNanos]
  congr 1
  omega

/-- The decimal digits of a fraction with `places` places, the last place first. -/
def fractionDigits : Nat → Nat → List Char
  | 0, _ => []
  | places + 1, n => Nat.digitChar (n % 10) :: fractionDigits places (n / 10)

/-- A point and the digits of `part` in `places` places without the zeros at
the end, or nothing when the part is zero. -/
def fraction (places part : Nat) : String :=
  match (fractionDigits places part).dropWhile (· == '0') with
  | [] => ""
  | digits => "." ++ String.ofList digits.reverse

/-- The duration in seconds, milliseconds, microseconds or nanoseconds: the
largest unit of which there is at least one, with a fraction where needed. -/
def toText (d : Duration) : String :=
  if 1000000000 ≤ d.nanos then
    toString d.seconds ++ fraction 9 d.subsecNanos ++ "s"
  else if 1000000 ≤ d.nanos then
    toString (d.nanos / 1000000) ++ fraction 6 (d.nanos % 1000000) ++ "ms"
  else if 1000 ≤ d.nanos then
    toString (d.nanos / 1000) ++ fraction 3 (d.nanos % 1000) ++ "µs"
  else
    toString d.nanos ++ "ns"

example : (ofMillis 2050).toText = "2.05s" := by decide +kernel

example : (Duration.mk 1500).toText = "1.5µs" := by decide +kernel

example : Duration.zero.toText = "0ns" := by decide +kernel

end Duration

end LeasedLocks
