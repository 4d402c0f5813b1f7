import LeasedLocks.Proofs.Monitor
import Mathlib.Algebra.GroupWithZero.Nat
import Mathlib.Data.List.Perm.Basic

/-!
# Many callers of one monitor

Any number of callers need the same monitor, open its stream, are told that it runs,
fail or give up, and somebody may stop it at any moment. In every order of these
events at most one of them opens the stream, one reader at most is at work, and
nobody is left waiting for a monitor that is not starting.
-/

namespace LeasedLocks

/-- Where somebody who needs the monitor is. -/
inductive Caller where
  | joining (j : Joining)
  /-- Was told that the monitor runs. -/
  | served
  | failed (f : Fault)
  /-- Gave up on the way. -/
  | gone
  deriving DecidableEq, Repr

/-- The callers of one monitor, and the stream that it follows. -/
structure MonitorSession where
  now : Nat := 0
  source : Source := {}
  stream : StreamEnd
  monitor : Monitor := {}
  callers : List Caller := []
  deriving DecidableEq

/-- Where a caller is after a step. -/
def Joined.caller : Joined → Caller
  | notYet j => .joining j
  | running => .served
  | failed f => .failed f

/-- How many openings a caller is busy with. -/
def Caller.openings : Caller → Nat
  | joining j => j.openings
  | _ => 0

/-- How many steps a caller can still take. -/
def Caller.stepsLeft : Caller → Nat
  | joining j => j.stepsLeft
  | _ => 0

/-- The opening is over and failed for this reason. -/
def Opening.Fails (o : Opening) (now : Nat) (stream : StreamEnd) (f : Fault) : Prop :=
  (∃ due, o.due = some due ∧ due ≤ now) ∧
    ((∃ reason, o.failure = some reason ∧ f = .noStream reason) ∨
      o.failure = none ∧ ∃ reason, o.refusal? stream = some reason ∧ f = .noStream reason)

/-- Nobody fails but those whose own opening did. -/
theorem Joining.exists_fails_of_step {j : Joining} {now : Nat} {stream : StreamEnd}
    {m m' : Monitor} {s s' : Source} {f : Fault}
    (h : j.step now stream m s = some (.failed f, m', s')) :
    ∃ o, j = .opening o ∧ o.Fails now stream f := by
  cases j with
  | waiting =>
      simp only [Joining.step] at h
      split at h <;> cases h
  | opening o =>
      refine ⟨o, rfl, ?_⟩
      simp only [Joining.step] at h
      split at h
      · cases h
      · next due hd =>
          obtain ⟨hle, h⟩ := Option.ite_none_right_eq_some.mp h
          refine ⟨⟨due, hd, hle⟩, ?_⟩
          split at h
          · next reason ho =>
              cases h
              exact .inl ⟨reason, ho, rfl⟩
          · next ho =>
              split at h
              · next reason hr =>
                  cases h
                  exact .inr ⟨ho, reason, hr, rfl⟩
              · cases h

/-- A quantity of one element of a list and of the others, before and after the element is
replaced. -/
theorem exists_sum_set {α : Type} {l : List α} {i : Nat} {a : α} (g : α → Nat)
    (h : l[i]? = some a) :
    ∃ n, (l.map g).sum = g a + n ∧ ∀ b, ((l.set i b).map g).sum = g b + n := by
  obtain ⟨hlt, rfl⟩ := List.getElem?_eq_some_iff.mp h
  refine ⟨((l.eraseIdx i).map g).sum, ?_, ?_⟩
  · have hp := (List.getElem_cons_eraseIdx_perm hlt).symm
    rw [(hp.map g).sum_nat, List.map_cons, List.sum_cons]
  · intro b
    have hp := List.set_perm_cons_eraseIdx hlt b
    rw [(hp.map g).sum_nat, List.map_cons, List.sum_cons]

namespace MonitorSession

/-- The next step of a caller. -/
def stepCaller (s : MonitorSession) (i : Nat) : Option MonitorSession :=
  match s.callers[i]? with
  | some (.joining j) =>
    (j.step s.now s.stream s.monitor s.source).map fun (r, monitor, source) =>
      { s with monitor, source, callers := s.callers.set i r.caller }
  | _ => none

/-- A caller gives up on the way. -/
def cancel (s : MonitorSession) (i : Nat) : Option MonitorSession :=
  match s.callers[i]? with
  | some (.joining j) =>
    some { s with monitor := j.cancel s.monitor, callers := s.callers.set i .gone }
  | _ => none

/-- Somebody stops the monitor. -/
def stop (s : MonitorSession) : MonitorSession := { s with monitor := s.monitor.stop }

/-- Something that happens to a monitor or to those who need it. -/
inductive Event where
  /-- One more caller. -/
  | call
  | turn (i : Nat)
  | cancel (i : Nat)
  | stop
  /-- The reader goes on to this place. -/
  | read (place : Nat)
  /-- The stream ends somewhere else by now, or is closed. -/
  | feed (stream : StreamEnd)
  | planOpenings (plan : OpeningPlan)
  /-- Time passes until this moment. -/
  | wait (moment : Nat)
  deriving DecidableEq

/-- What an event makes of a session; nothing if it cannot happen. -/
def next (s : MonitorSession) : Event → Option MonitorSession
  | .call => some { s with callers := s.callers ++ [.joining .waiting] }
  | .turn i => s.stepCaller i
  | .cancel i => s.cancel i
  | .stop => some s.stop
  | .read place =>
    if s.monitor.isRunning then
      some { s with monitor := { s.monitor with phase := .running place } }
    else none
  | .feed stream => some { s with stream }
  | .planOpenings plan => some { s with source := { s.source with plan } }
  | .wait moment => if s.now ≤ moment then some { s with now := moment } else none

/-- One event after the other leads from one session to another. -/
inductive Run : MonitorSession → List Event → MonitorSession → Prop where
  | nil (s : MonitorSession) : Run s [] s
  | cons {s s' s'' : MonitorSession} {e : Event} {es : List Event} :
      s.next e = some s' → Run s' es s'' → Run s (e :: es) s''

/-- How many callers open the stream. -/
def openings (s : MonitorSession) : Nat := (s.callers.map Caller.openings).sum

/-- How many steps the callers can still take. -/
def stepsLeft (s : MonitorSession) : Nat := (s.callers.map Caller.stepsLeft).sum

/-- No caller can take a step. -/
def Rests (s : MonitorSession) : Prop := ∀ i, s.next (.turn i) = none

/-- The invariant of all runs: the monitor accounts for those who open its stream. -/
def Sound (s : MonitorSession) : Prop := s.monitor.Tracks s.openings

/-- All that callers can rely on. -/
structure SharesOneStream (s : MonitorSession) : Prop where
  /-- One caller opens the stream while the monitor is starting, and none otherwise. -/
  openings_eq : s.openings = if s.monitor.phase = .starting then 1 else 0
  /-- One reader is kept while the monitor runs, and none otherwise. -/
  isRunning_iff : s.monitor.isRunning ↔ ∃ reader, s.monitor.kept = some reader
  readers_eq : s.monitor.readers = s.monitor.kept.toList
  starts_eq : s.monitor.starts = s.monitor.stops + if s.monitor.isRunning then 1 else 0
  /-- Callers are told that the monitor runs when it does. -/
  served : ∀ {e : Event} {s' : MonitorSession} {k : Nat}, s.next e = some s' →
    s'.callers[k]? = some .served →
      s.callers[k]? = some .served ∨ e = .turn k ∧ s'.monitor.isRunning
  /-- Callers fail only when their own opening does. -/
  failed : ∀ {e : Event} {s' : MonitorSession} {k : Nat} {f : Fault}, s.next e = some s' →
    s'.callers[k]? = some (.failed f) →
      s.callers[k]? = some (.failed f) ∨
        e = .turn k ∧ ∃ o, s.callers[k]? = some (.joining (.opening o)) ∧
          o.Fails s.now s.stream f
  /-- An opening that fails or is given up leaves the monitor idle, counts nothing and
  leaves the readers as they are. -/
  restored : ∀ {e : Event} {s' : MonitorSession} {k : Nat} {o : Opening},
    s.next e = some s' → s.callers[k]? = some (.joining (.opening o)) →
      s'.callers[k]? = some .gone ∨ (∃ f, s'.callers[k]? = some (.failed f)) →
        s'.monitor = { s.monitor with phase := .idle }
  /-- Callers come to rest. -/
  turns_le : ∀ {es : List Event} {s' : MonitorSession}, Run s es s' →
    (∀ e ∈ es, ∃ i, e = .turn i) → es.length ≤ s.stepsLeft
  /-- When they do, nobody is on the way unless the monitor is starting. -/
  rests : s.Rests → ∀ {k : Nat} {j : Joining}, s.callers[k]? = some (.joining j) →
    s.monitor.phase = .starting

variable {s s' s'' : MonitorSession} {e : Event} {es : List Event} {i k n : Nat} {c : Caller}
  {j : Joining} {r : Joined} {o : Opening} {f : Fault} {m m' : Monitor} {src src' : Source}
  {now : Nat} {stream : StreamEnd}

/-! ## Callers one by one -/

/-- A caller on the way takes a step. -/
theorem stepCaller_eq_some (h : s.stepCaller i = some s') :
    ∃ j r source, s.callers[i]? = some (.joining j) ∧
      j.step s.now s.stream s.monitor s.source = some (r, s'.monitor, source) ∧
      s'.callers = s.callers.set i r.caller ∧ s'.callers[i]? = some r.caller := by
  unfold stepCaller at h
  split at h
  · next j hi =>
      obtain ⟨⟨r, monitor, source⟩, hj, rfl⟩ := Option.map_eq_some_iff.mp h
      have hlt := (List.getElem?_eq_some_iff.mp hi).1
      have hself := List.getElem?_set_self (a := r.caller) hlt
      exact ⟨j, r, source, hi, hj, rfl, hself⟩
  · cases h

/-- All that a caller can do. -/
theorem stepCaller_cases (h : s.stepCaller i = some s') :
    (s.callers[i]? = some (.joining .waiting) ∧ s.monitor.phase = .idle ∧
      s' = { s with
        monitor := { s.monitor with phase := .starting }
        callers := s.callers.set i (.joining (.opening (s.source.plan.start s.now))) }) ∨
    (s.callers[i]? = some (.joining .waiting) ∧ s.monitor.isRunning ∧
      s' = { s with callers := s.callers.set i .served }) ∨
    (∃ o f source, s.callers[i]? = some (.joining (.opening o)) ∧ o.Fails s.now s.stream f ∧
      s' = { s with
        monitor := s.monitor.abandon
        source
        callers := s.callers.set i (.failed f) }) ∨
    (∃ o source, s.callers[i]? = some (.joining (.opening o)) ∧
      s' = { s with
        monitor := s.monitor.start s.stream.place
        source
        callers := s.callers.set i .served }) := by
  unfold stepCaller at h
  split at h
  · next j hi =>
      obtain ⟨⟨r, monitor, source⟩, hj, rfl⟩ := Option.map_eq_some_iff.mp h
      rcases Joining.step_cases hj with ⟨rfl, hp, rfl, rfl, rfl⟩ | ⟨rfl, hrun, rfl, rfl, rfl⟩ |
        ⟨o, _, reason, rfl, -, -, rfl, rfl, -⟩ | ⟨o, _, rfl, -, -, -, rfl, rfl, -⟩
      · exact .inl ⟨hi, hp, rfl⟩
      · exact .inr (.inl ⟨hi, hrun, rfl⟩)
      · obtain ⟨_, heq, hf⟩ := Joining.exists_fails_of_step hj
        cases heq
        exact .inr (.inr (.inl ⟨o, _, source, hi, hf, rfl⟩))
      · exact .inr (.inr (.inr ⟨o, source, hi, rfl⟩))
  · cases h

theorem cancel_cases (h : s.cancel i = some s') :
    ∃ j, s.callers[i]? = some (.joining j) ∧
      s' = { s with monitor := j.cancel s.monitor, callers := s.callers.set i .gone } ∧
      s'.callers[i]? = some .gone := by
  unfold cancel at h
  split at h
  · next j hi =>
      cases h
      have hlt := (List.getElem?_eq_some_iff.mp hi).1
      exact ⟨j, hi, rfl, List.getElem?_set_self hlt⟩
  · cases h

/-- A caller moves only in its own turn or when it gives up; new callers come last. -/
theorem callers_of_next (h : s.next e = some s') (k : Nat) :
    s'.callers[k]? = s.callers[k]? ∨ s'.callers[k]? = some (.joining .waiting) ∨
      e = .turn k ∨ e = .cancel k := by
  have hset {i : Nat} (hik : i ≠ k) (c : Caller) :
      (s.callers.set i c)[k]? = s.callers[k]? := List.getElem?_set_ne hik
  cases e with
  | call =>
      cases h
      rw [List.getElem?_append]
      split
      · exact .inl rfl
      · cases hk : k - s.callers.length with
        | zero => exact .inr (.inl rfl)
        | succ n =>
            left
            rw [List.getElem?_eq_none (by simp), List.getElem?_eq_none (by omega)]
  | turn i =>
      by_cases hik : i = k
      · exact .inr (.inr (.inl (hik ▸ rfl)))
      · left
        rcases stepCaller_cases h with ⟨-, -, rfl⟩ | ⟨-, -, rfl⟩ | ⟨_, _, _, -, -, rfl⟩ |
          ⟨_, _, -, rfl⟩ <;>
          exact hset hik _
  | cancel i =>
      by_cases hik : i = k
      · exact .inr (.inr (.inr (hik ▸ rfl)))
      · obtain ⟨j, -, rfl, -⟩ := cancel_cases h
        exact .inl (hset hik _)
  | stop =>
      cases h
      exact .inl rfl
  | read place =>
      obtain ⟨-, h⟩ := Option.ite_none_right_eq_some.mp h
      cases h
      exact .inl rfl
  | feed stream =>
      cases h
      exact .inl rfl
  | planOpenings plan =>
      cases h
      exact .inl rfl
  | wait moment =>
      obtain ⟨-, h⟩ := Option.ite_none_right_eq_some.mp h
      cases h
      exact .inl rfl

/-! ## The invariant -/

theorem sound_initial (stream : StreamEnd) : Sound { stream } := .initial

/-- While a caller opens the stream, the monitor is starting. -/
theorem Sound.starting_of_opening (hs : Sound s)
    (hi : s.callers[i]? = some (.joining (.opening o))) : s.monitor.phase = .starting := by
  obtain ⟨n, hsum, -⟩ := exists_sum_set Caller.openings hi
  rw [Sound, openings, hsum] at hs
  exact (Monitor.Tracks.starting_of_opening (o := o) hs).1

theorem Sound.stepCaller (hs : Sound s) (h : s.stepCaller i = some s') : Sound s' := by
  obtain ⟨j, r, source, hi, hj, hcallers, -⟩ := stepCaller_eq_some h
  obtain ⟨n, hsum, hset⟩ := exists_sum_set Caller.openings hi
  have hr : r.caller.openings = r.openings := by cases r <;> rfl
  rw [Sound, openings, hsum] at hs
  rw [Sound, openings, hcallers, hset, hr]
  exact Monitor.Tracks.step hs hj

theorem Sound.cancel (hs : Sound s) (h : s.cancel i = some s') : Sound s' := by
  obtain ⟨j, hi, rfl, -⟩ := cancel_cases h
  obtain ⟨n, hsum, hset⟩ := exists_sum_set Caller.openings hi
  rw [Sound, openings, hsum] at hs
  rw [Sound, openings, hset, show Caller.gone.openings = 0 from rfl, Nat.zero_add]
  exact Monitor.Tracks.cancel hs

theorem Sound.next (hs : Sound s) (h : s.next e = some s') : Sound s' := by
  cases e with
  | call =>
      cases h
      have hopen : MonitorSession.openings { s with callers := s.callers ++ [.joining .waiting] } =
          s.openings := by
        simp [openings, Caller.openings, Joining.openings]
      rw [Sound, hopen]
      exact hs
  | turn i => exact hs.stepCaller h
  | cancel i => exact hs.cancel h
  | stop =>
      cases h
      exact Monitor.Tracks.stop hs
  | read place =>
      obtain ⟨hrun, h⟩ := Option.ite_none_right_eq_some.mp h
      cases h
      obtain ⟨old, hp⟩ := s.monitor.isRunning_iff.mp hrun
      exact Monitor.Tracks.advance hs hp place
  | feed stream =>
      cases h
      exact hs
  | planOpenings plan =>
      cases h
      exact hs
  | wait moment =>
      obtain ⟨-, h⟩ := Option.ite_none_right_eq_some.mp h
      cases h
      exact hs

theorem Run.sound (h : Run s es s') (hs : Sound s) : Sound s' := by
  induction h with
  | nil s => exact hs
  | cons hn _ ih => exact ih (hs.next hn)

/-! ## What becomes of callers -/

theorem served_of_next (h : s.next e = some s') (hk : s'.callers[k]? = some .served) :
    s.callers[k]? = some .served ∨ e = .turn k ∧ s'.monitor.isRunning := by
  rcases callers_of_next h k with heq | heq | rfl | rfl
  · exact .inl (heq ▸ hk)
  · rw [heq] at hk
    cases hk
  · obtain ⟨j, r, source, -, hj, -, hr⟩ := stepCaller_eq_some h
    rw [hr] at hk
    cases r with
    | notYet j => cases hk
    | running => exact .inr ⟨rfl, Joining.isRunning_of_step hj⟩
    | failed f => cases hk
  · obtain ⟨-, -, -, hgone⟩ := cancel_cases h
    rw [hgone] at hk
    cases hk

theorem failed_of_next (h : s.next e = some s') (hk : s'.callers[k]? = some (.failed f)) :
    s.callers[k]? = some (.failed f) ∨
      e = .turn k ∧ ∃ o, s.callers[k]? = some (.joining (.opening o)) ∧
        o.Fails s.now s.stream f := by
  rcases callers_of_next h k with heq | heq | rfl | rfl
  · exact .inl (heq ▸ hk)
  · rw [heq] at hk
    cases hk
  · obtain ⟨j, r, source, hi, hj, -, hr⟩ := stepCaller_eq_some h
    rw [hr] at hk
    cases r with
    | notYet j => cases hk
    | running => cases hk
    | failed f =>
        cases hk
        obtain ⟨o, rfl, ho⟩ := Joining.exists_fails_of_step hj
        exact .inr ⟨rfl, o, hi, ho⟩
  · obtain ⟨-, -, -, hgone⟩ := cancel_cases h
    rw [hgone] at hk
    cases hk

theorem restored_of_next (h : s.next e = some s')
    (hk : s.callers[k]? = some (.joining (.opening o)))
    (hk' : s'.callers[k]? = some .gone ∨ ∃ f, s'.callers[k]? = some (.failed f)) :
    s'.monitor = s.monitor.abandon := by
  rcases callers_of_next h k with heq | heq | rfl | rfl
  · rw [heq, hk] at hk'
    rcases hk' with hk' | ⟨f, hk'⟩ <;> cases hk'
  · rw [heq] at hk'
    rcases hk' with hk' | ⟨f, hk'⟩ <;> cases hk'
  · rcases stepCaller_cases h with ⟨hi, -, -⟩ | ⟨hi, -, -⟩ | ⟨_, _, _, -, -, rfl⟩ |
      ⟨_, _, hi, rfl⟩
    · rw [hk] at hi
      cases hi
    · rw [hk] at hi
      cases hi
    · rfl
    · have hlt := (List.getElem?_eq_some_iff.mp hi).1
      simp only [List.getElem?_set_self hlt] at hk'
      rcases hk' with hk' | ⟨f, hk'⟩ <;> cases hk'
  · obtain ⟨j, hi, rfl, -⟩ := cancel_cases h
    rw [hk] at hi
    cases hi
    rfl

/-! ## Coming to rest -/

/-- A turn of a caller uses up one of its steps. -/
theorem stepsLeft_lt_of_turn (h : s.next (.turn i) = some s') : s'.stepsLeft < s.stepsLeft := by
  obtain ⟨j, r, source, hi, hj, hcallers, -⟩ := stepCaller_eq_some h
  obtain ⟨n, hsum, hset⟩ := exists_sum_set Caller.stepsLeft hi
  have hr : r.caller.stepsLeft = r.stepsLeft := by cases r <;> rfl
  rw [stepsLeft, stepsLeft, hcallers, hset, hsum, hr]
  exact Nat.add_lt_add_right (Joining.stepsLeft_lt hj) n

theorem Run.length_le_stepsLeft (h : Run s es s') (hes : ∀ e ∈ es, ∃ i, e = .turn i) :
    es.length ≤ s.stepsLeft := by
  induction h with
  | nil s => exact Nat.zero_le _
  | @cons s s' _ e es hn _ ih =>
      obtain ⟨i, rfl⟩ := hes e List.mem_cons_self
      have hlt := stepsLeft_lt_of_turn hn
      have hle := ih fun e he => hes e (List.mem_cons_of_mem _ he)
      calc
        (Event.turn i :: es).length = es.length + 1 := rfl
        _ ≤ s'.stepsLeft + 1 := Nat.succ_le_succ hle
        _ ≤ s.stepsLeft := hlt

/-- Whoever is on the way when callers have come to rest waits for somebody who opens
the stream, or does so itself. -/
theorem Sound.starting_of_rests (hs : Sound s) (hrest : s.Rests)
    (hk : s.callers[k]? = some (.joining j)) : s.monitor.phase = .starting := by
  cases j with
  | waiting =>
      have hstep := hrest k
      simp only [MonitorSession.next, MonitorSession.stepCaller, hk,
        Option.map_eq_none_iff] at hstep
      exact Joining.step_waiting_eq_none_iff.mp hstep
  | opening o => exact hs.starting_of_opening hk

/-- Whatever callers do, in which order they do it and whenever the monitor is
stopped, they share one stream. -/
theorem sharesOneStream_of_run (h : Run { stream } es s) : SharesOneStream s := by
  have hs := h.sound (sound_initial stream)
  constructor
  case openings_eq => exact Monitor.Tracks.openings_eq hs
  case isRunning_iff =>
    rw [← Monitor.Tracks.isSome_kept hs, Option.isSome_iff_exists]
  case readers_eq => exact Monitor.Tracks.readers_eq hs
  case starts_eq => exact Monitor.Tracks.starts_eq hs
  case served => exact served_of_next
  case failed => exact failed_of_next
  case restored => exact restored_of_next
  case turns_le => exact Run.length_le_stepsLeft
  case rests => exact fun hrest _ _ hk => hs.starting_of_rests hrest hk

/-- The first opening is given up, the second one fails, the third one succeeds and is
stopped while somebody waits, who opens the stream again. -/
theorem sharesOneStream_of_reopened :
    ∃ s : MonitorSession,
      Run { stream := ⟨0, false⟩ }
        [.call, .call, .turn 0, .cancel 0, .planOpenings { failure := some "refused" },
          .turn 1, .turn 1, .planOpenings {}, .call, .turn 2, .call, .turn 2, .stop,
          .turn 3, .turn 3] s ∧
      SharesOneStream s ∧
      s.callers = [.gone, .failed (.noStream "refused"), .served, .served] ∧
      s.monitor = ⟨.running 0, 2, 1, some 2, [2]⟩ := by
  have hrun : Run { stream := ⟨0, false⟩ }
      [.call, .call, .turn 0, .cancel 0, .planOpenings { failure := some "refused" },
        .turn 1, .turn 1, .planOpenings {}, .call, .turn 2, .call, .turn 2, .stop,
        .turn 3, .turn 3] _ :=
    .cons rfl <| .cons rfl <| .cons rfl <| .cons rfl <| .cons rfl <| .cons rfl <| .cons rfl <|
      .cons rfl <| .cons rfl <| .cons rfl <| .cons rfl <| .cons rfl <| .cons rfl <|
      .cons rfl <| .cons rfl <| .nil _
  exact ⟨_, hrun, sharesOneStream_of_run hrun, rfl, rfl⟩

end MonitorSession

end LeasedLocks
