import LeasedLocks.Channel
import LeasedLocks.Fault

/-!
# Monitors

A monitor follows a stream of notices while somebody needs it. Whoever finds it
idle opens the stream and sets a reader to work on it; whoever comes while it is
being opened waits for that.
-/

namespace LeasedLocks

/-- What a monitor is doing. -/
inductive Phase where
  | idle
  /-- Somebody is opening the stream. -/
  | starting
  /-- The stream is open, and the next notice to read is at `place`. -/
  | running (place : Nat)
  deriving DecidableEq, Repr

/-- A monitor, how often it was started and stopped, and who reads for it. -/
structure Monitor where
  phase : Phase := .idle
  starts : Nat := 0
  stops : Nat := 0
  /-- The reader that is sent away when the monitor stops. -/
  kept : Option Nat := none
  /-- The readers that were set to work and not sent away, each with a stream of its
  own open. -/
  readers : List Nat := []
  deriving DecidableEq, Repr

namespace Monitor

def isRunning (m : Monitor) : Bool :=
  match m.phase with
  | .running _ => true
  | _ => false

/-- A reader is set to work, named by the start, and kept in place of the one before. -/
def engage (m : Monitor) : Monitor :=
  { m with kept := some m.starts, readers := m.starts :: m.readers }

/-- The reader that is kept is sent away. -/
def dismiss (m : Monitor) : Monitor :=
  { m with kept := none, readers := m.kept.elim m.readers m.readers.erase }

@[simp] theorem phase_dismiss (m : Monitor) : m.dismiss.phase = m.phase := rfl

/-- The stream is open and will be read from `place` on, by a new reader. -/
def start (m : Monitor) (place : Nat) : Monitor :=
  { m with phase := .running place, starts := m.starts + 1 }.engage

/-- Stops a monitor that is running; otherwise nothing happens. -/
def stop (m : Monitor) : Monitor :=
  match m.phase with
  | .running _ => { m with phase := .idle, stops := m.stops + 1 }.dismiss
  | _ => m

/-- Gives up the opening of the stream. -/
def abandon (m : Monitor) : Monitor := { m with phase := .idle }

/-- What a monitor finds where there is a new stream in place of the one that has ended.
A reader at work has to come to the end of its own first, and until then nobody
opens another. -/
def renew {α : Type} (m : Monitor) (c : Channel α) : Channel α :=
  if m.isRunning then c else c.reopen

section

variable {α : Type} (m : Monitor) (c : Channel α)

@[simp] theorem log_renew : (m.renew c).log = c.log := by
  unfold renew
  split <;> rfl

@[simp] theorem sent_renew : (m.renew c).sent = c.sent := by
  rw [Channel.sent, log_renew, Channel.sent]

end

end Monitor

/-- How long it takes to open a stream, and whether that succeeds. -/
structure OpeningPlan where
  /-- In milliseconds. -/
  delay : Nat := 0
  /-- The opening never ends. -/
  stalls : Bool := false
  /-- The opening fails, for this reason. -/
  failure : Option String := none
  /-- Why nobody gets a stream that has ended; without a reason they get it all the same. -/
  whenEnded : Option String := some "closed"
  deriving DecidableEq, Repr

/-- Where streams are opened. -/
structure Source where
  /-- The plan for openings that begin from now on. -/
  plan : OpeningPlan := {}
  /-- How many openings got to the stream, be it closed or not. -/
  opened : Nat := 0
  deriving DecidableEq, Repr

/-- An opening that has begun. -/
structure Opening where
  /-- When it ends, unless it never does. -/
  due : Option Nat
  failure : Option String
  whenEnded : Option String
  deriving DecidableEq, Repr

namespace OpeningPlan

/-- Begins to open a stream. -/
def start (p : OpeningPlan) (now : Nat) : Opening where
  due := if p.stalls then none else some (now + p.delay)
  failure := p.failure
  whenEnded := p.whenEnded

end OpeningPlan

/-- Why this stream is not handed out, if it is not. -/
def Opening.refusal? (o : Opening) (stream : StreamEnd) : Option String :=
  if stream.isClosed then o.whenEnded else none

theorem Opening.refusal?_eq_some_iff {o : Opening} {stream : StreamEnd} {reason : String} :
    o.refusal? stream = some reason ↔ stream.isClosed ∧ o.whenEnded = some reason :=
  Option.ite_none_right_eq_some

/-- How far somebody who needs the monitor has got. -/
inductive Joining where
  /-- Waits for the monitor to be anything but starting. -/
  | waiting
  /-- Opens the stream. -/
  | opening (o : Opening)
  deriving DecidableEq, Repr

/-- What became of the attempt to get the monitor running. -/
inductive Joined where
  | notYet (j : Joining)
  | running
  | failed (e : Fault)
  deriving DecidableEq, Repr

namespace Joining

/-- The moment at which somebody who needs the monitor has to look again. -/
def alarm? : Joining → Option Nat
  | waiting => none
  | opening o => o.due

/-- Whoever opens the stream and gives up leaves the monitor idle. -/
def cancel (m : Monitor) : Joining → Monitor
  | waiting => m
  | opening _ => m.abandon

/-- The next step towards a running monitor; nothing as long as there is
nothing to do but wait. -/
def step (now : Nat) (stream : StreamEnd) (m : Monitor) (s : Source) :
    Joining → Option (Joined × Monitor × Source)
  | waiting =>
    match m.phase with
    | .idle =>
      some (.notYet (.opening (s.plan.start now)), { m with phase := .starting }, s)
    | .starting => none
    | .running _ => some (.running, m, s)
  | opening o =>
    match o.due with
    | none => none
    | some due =>
      if due ≤ now then
        match o.failure with
        | some reason => some (.failed (.noStream reason), m.abandon, s)
        | none =>
          let s := { s with opened := s.opened + 1 }
          match o.refusal? stream with
          | some reason => some (.failed (.noStream reason), m.abandon, s)
          | none => some (.running, m.start stream.place, s)
      else none

end Joining

end LeasedLocks
