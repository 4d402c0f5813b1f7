import LeasedLocks.Monitor

/-!
# Who opens the stream

`Monitor.Tracks` ties a monitor to those who are busy opening its stream: it is
starting exactly while one of them is. While it runs, the reader that is kept is the
only one; otherwise there is none.

## Implementation notes

The phase of a monitor says where its reader is. Which readers were set to work and
which one is kept for the stop is counted apart from it, so that a reader that is
forgotten or kept twice would show.
-/

namespace LeasedLocks

/-- How many openings somebody on the way to a running monitor is busy with. -/
def Joining.openings : Joining → Nat
  | waiting => 0
  | opening _ => 1

/-- How many openings are left when a step towards a running monitor is over. -/
def Joined.openings : Joined → Nat
  | notYet j => j.openings
  | running => 0
  | failed _ => 0

/-- How many steps towards a running monitor somebody can still take. -/
def Joining.stepsLeft : Joining → Nat
  | waiting => 2
  | opening _ => 1

/-- How many steps are left when one is over. -/
def Joined.stepsLeft : Joined → Nat
  | notYet j => j.stepsLeft
  | running => 0
  | failed _ => 0

/-- Exactly `openings` callers are busy opening the stream of a monitor. -/
structure Monitor.Tracks (m : Monitor) (openings : Nat) : Prop where
  openings_eq : openings = if m.phase = .starting then 1 else 0
  /-- Every stream that was opened and not stopped is open. -/
  starts_eq : m.starts = m.stops + if m.isRunning then 1 else 0
  /-- Exactly while the monitor runs a reader is kept. -/
  isSome_kept : m.kept.isSome = m.isRunning
  /-- Nobody reads but the one that is kept. -/
  readers_eq : m.readers = m.kept.toList

variable {m m' : Monitor} {s s' : Source} {j : Joining} {r : Joined} {stream : StreamEnd}
  {now n : Nat}

/-! ## Steps towards a running monitor -/

/-- All that a step towards a running monitor can do. -/
theorem Joining.step_cases (h : j.step now stream m s = some (r, m', s')) :
    (j = .waiting ∧ m.phase = .idle ∧ r = .notYet (.opening (s.plan.start now)) ∧
      m' = { m with phase := .starting } ∧ s' = s) ∨
    (j = .waiting ∧ m.isRunning ∧ r = .running ∧ m' = m ∧ s' = s) ∨
    (∃ o due reason, j = .opening o ∧ o.due = some due ∧ due ≤ now ∧
      r = .failed (.noStream reason) ∧ m' = m.abandon ∧ s'.plan = s.plan) ∨
    (∃ o due, j = .opening o ∧ o.due = some due ∧ due ≤ now ∧ o.refusal? stream = none ∧
      r = .running ∧ m' = m.start stream.place ∧ s'.plan = s.plan) := by
  cases j with
  | waiting =>
      simp only [Joining.step] at h
      split at h
      · next hp =>
          cases h
          exact .inl ⟨rfl, hp, rfl, rfl, rfl⟩
      · cases h
      · next place hp =>
          cases h
          exact .inr (.inl ⟨rfl, by rw [Monitor.isRunning, hp], rfl, rfl, rfl⟩)
  | opening o =>
      simp only [Joining.step] at h
      split at h
      · cases h
      · next due hd =>
          split at h
          · next hle =>
              split at h
              · cases h
                exact .inr (.inr (.inl ⟨o, due, _, rfl, hd, hle, rfl, rfl, rfl⟩))
              · split at h
                · cases h
                  exact .inr (.inr (.inl ⟨o, due, _, rfl, hd, hle, rfl, rfl, rfl⟩))
                · next ho =>
                    cases h
                    exact .inr (.inr (.inr ⟨o, due, rfl, hd, hle, ho, rfl, rfl, rfl⟩))
          · cases h

theorem Joining.stepsLeft_lt (h : j.step now stream m s = some (r, m', s')) :
    r.stepsLeft < j.stepsLeft := by
  rcases step_cases h with ⟨rfl, -, rfl, -⟩ | ⟨rfl, -, rfl, -⟩ | ⟨o, _, _, rfl, -, -, rfl, -⟩ |
    ⟨o, _, rfl, -, -, -, rfl, -⟩
  · exact Nat.one_lt_two
  · exact Nat.two_pos
  · exact Nat.one_pos
  · exact Nat.one_pos

/-- Opening a stream does not change the plan for the next ones. -/
theorem Joining.plan_of_step (h : j.step now stream m s = some (r, m', s')) :
    s'.plan = s.plan := by
  rcases step_cases h with ⟨-, -, -, -, rfl⟩ | ⟨-, -, -, -, rfl⟩ |
    ⟨_, _, _, -, -, -, -, -, hs⟩ | ⟨_, _, -, -, -, -, -, -, hs⟩
  · rfl
  · rfl
  · exact hs
  · exact hs

/-- Whoever fails to get a monitor running failed to open the stream, and leaves it idle. -/
theorem Joining.abandon_of_failed {f : Fault}
    (h : j.step now stream m s = some (.failed f, m', s')) :
    (∃ o, j = .opening o) ∧ (∃ why, f = .noStream why) ∧ m' = m.abandon := by
  rcases step_cases h with ⟨-, -, hr, -⟩ | ⟨-, -, hr, -⟩ | ⟨o, _, why, rfl, -, -, hr, rfl, -⟩ |
    ⟨_, _, -, -, -, -, hr, -⟩
  · cases hr
  · cases hr
  · exact ⟨⟨o, rfl⟩, ⟨why, Joined.failed.inj hr⟩, rfl⟩
  · cases hr

/-- Who waits is blocked only while somebody else opens the stream. -/
theorem Joining.step_waiting_eq_none_iff :
    Joining.step now stream m s .waiting = none ↔ m.phase = .starting := by
  simp only [Joining.step]
  split <;> simp_all

/-- An opening that is due can go on. -/
theorem Joining.step_opening_ne_none {o : Opening} {due : Nat} (hd : o.due = some due)
    (hle : due ≤ now) : Joining.step now stream m s (.opening o) ≠ none := by
  simp only [Joining.step, hd, if_pos hle]
  split
  · simp
  · split <;> simp

/-- A monitor runs once a step towards that says so. -/
theorem Joining.isRunning_of_step (h : j.step now stream m s = some (.running, m', s')) :
    m'.isRunning := by
  rcases step_cases h with ⟨-, -, hr, -⟩ | ⟨-, hm, -, rfl, -⟩ | ⟨_, _, _, -, -, -, hr, -⟩ |
    ⟨_, _, -, -, -, -, -, rfl, -⟩
  · cases hr
  · exact hm
  · cases hr
  · rfl

namespace Monitor

theorem isRunning_iff (m : Monitor) : m.isRunning ↔ ∃ place, m.phase = .running place := by
  unfold isRunning
  split <;> simp_all

@[simp] theorem isRunning_stop (m : Monitor) : m.stop.isRunning = false := by
  cases h : m.phase <;> simp [stop, isRunning, h]

@[simp] theorem starts_stop (m : Monitor) : m.stop.starts = m.starts := by
  unfold stop
  split <;> rfl

/-- Stopping a monitor does not start it. -/
theorem starting_of_stop (h : m.stop.phase = .starting) : m.phase = .starting := by
  unfold stop at h
  split at h
  · cases h
  · exact h

/-- Whoever stops a monitor that runs leaves it idle. -/
theorem running_of_stop {place : Nat} (h : m.stop.phase = .running place) :
    m.phase = .running place := by
  unfold stop at h
  split at h
  · cases h
  · exact h

namespace Tracks

theorem initial : Tracks {} 0 := ⟨rfl, rfl, rfl, rfl⟩

theorem kept_eq_none (h : m.Tracks n) (hm : m.isRunning = false) : m.kept = none := by
  have hkept := h.isSome_kept
  rwa [hm, Option.isSome_eq_false_iff, Option.isNone_iff_eq_none] at hkept

/-- A monitor that does not run has no stream open. -/
theorem readers_eq_nil (h : m.Tracks n) (hm : m.isRunning = false) : m.readers = [] := by
  rw [h.readers_eq, h.kept_eq_none hm, Option.toList_none]

/-- A monitor that runs has exactly one stream open. -/
theorem exists_readers_eq (h : m.Tracks n) (hm : m.isRunning) :
    ∃ reader, m.kept = some reader ∧ m.readers = [reader] := by
  obtain ⟨reader, hkept⟩ := Option.isSome_iff_exists.mp (h.isSome_kept.trans hm)
  exact ⟨reader, hkept, by rw [h.readers_eq, hkept, Option.toList_some]⟩

/-- While somebody opens the stream, the monitor is starting and nobody else does. -/
theorem starting_of_opening {o : Opening} (h : m.Tracks ((Joining.opening o).openings + n)) :
    m.phase = .starting ∧ n = 0 := by
  have heq := h.openings_eq
  split at heq
  · next hp => exact ⟨hp, by simp only [Joining.openings] at heq; omega⟩
  · simp only [Joining.openings] at heq
    omega

theorem stop (h : m.Tracks n) : m.stop.Tracks n := by
  have hopen := h.openings_eq
  have hstarts := h.starts_eq
  cases hp : m.phase with
  | idle => simpa only [Monitor.stop, hp] using h
  | starting => simpa only [Monitor.stop, hp] using h
  | running place =>
      obtain ⟨reader, hkept, hreaders⟩ := h.exists_readers_eq (by rw [isRunning, hp])
      rw [hp] at hopen
      rw [isRunning, hp] at hstarts
      simp only [Monitor.stop, hp]
      refine ⟨hopen, hstarts, rfl, ?_⟩
      rw [dismiss, hkept, hreaders]
      simp

/-- Reading on in the stream is no opening. -/
theorem advance {place : Nat} (h : m.Tracks n) (hp : m.phase = .running place) (next : Nat) :
    Tracks { m with phase := .running next } n := by
  have hopen := h.openings_eq
  have hstarts := h.starts_eq
  have hkept := h.isSome_kept
  rw [hp] at hopen
  rw [isRunning, hp] at hstarts hkept
  exact ⟨hopen, hstarts, hkept, h.readers_eq⟩

/-- Whoever opened the stream leaves the monitor idle. -/
theorem abandon {o : Opening} (h : m.Tracks ((Joining.opening o).openings + n)) :
    m.abandon.Tracks n := by
  obtain ⟨hp, rfl⟩ := h.starting_of_opening
  have hstarts := h.starts_eq
  have hkept := h.isSome_kept
  rw [isRunning, hp] at hstarts hkept
  exact ⟨rfl, hstarts, hkept, h.readers_eq⟩

theorem cancel (h : m.Tracks (j.openings + n)) : (j.cancel m).Tracks n := by
  cases j with
  | waiting =>
      rw [Joining.openings, Nat.zero_add] at h
      exact h
  | opening o => exact h.abandon

theorem step (h : m.Tracks (j.openings + n))
    (hs : j.step now stream m s = some (r, m', s')) : m'.Tracks (r.openings + n) := by
  rcases Joining.step_cases hs with ⟨rfl, hp, rfl, rfl, -⟩ | ⟨rfl, -, rfl, rfl, -⟩ |
    ⟨o, due, reason, rfl, -, -, rfl, rfl, -⟩ | ⟨o, due, rfl, -, -, -, rfl, rfl, -⟩
  · have hopen := h.openings_eq
    have hstarts := h.starts_eq
    have hkept := h.isSome_kept
    rw [hp, if_neg (by simp)] at hopen
    rw [isRunning, hp] at hstarts hkept
    refine ⟨?_, hstarts, hkept, h.readers_eq⟩
    simp only [Joining.openings] at hopen
    simp only [Joined.openings, Joining.openings, if_true]
    omega
  · exact h
  · simpa only [Joined.openings, Nat.zero_add] using h.abandon
  · -- nobody read before, so the new reader is the only one
    obtain ⟨hp, rfl⟩ := h.starting_of_opening
    have hstarts := h.starts_eq
    have hreaders := h.readers_eq_nil (by rw [isRunning, hp])
    rw [isRunning, hp] at hstarts
    exact ⟨rfl, congrArg (· + 1) hstarts, rfl, congrArg (List.cons _) hreaders⟩

end Tracks

end Monitor

end LeasedLocks
