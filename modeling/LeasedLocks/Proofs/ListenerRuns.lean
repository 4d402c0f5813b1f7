import LeasedLocks.PriorityWatch.Session
import LeasedLocks.Proofs.Channel
import LeasedLocks.Proofs.MonitorRuns
import Mathlib.Data.Finset.Lattice.Lemmas
import Mathlib.Data.Finset.SDiff

/-!
# Runs of listeners

Listeners register thresholds with one watch and withdraw them again, in every order and
also while the stream is being opened, which may take any time. The thresholds are always
those that the calls so far leave over (`PrioritySession.registered`), and as soon as no
listener is on the way the monitor runs exactly if there are any.

## Implementation notes

A stop has no effect during an opening, so whoever opened the stream looks at the thresholds
again. Two facts carry the induction: a running monitor has thresholds, and thresholds
have a monitor that runs or a listener who will get it running.
-/

namespace LeasedLocks

namespace PriorityWatch

variable {w w' : PriorityWatch} {requested : Channel Request} {source source' : Source}
  {j : Joining} {r : Joined} {now : Nat} {ts : List Threshold}

@[simp] theorem thresholds_stopIfUnused (w : PriorityWatch) :
    w.stopIfUnused.thresholds = w.thresholds := by
  unfold stopIfUnused
  split <;> rfl

/-- A monitor that was looked after runs only for somebody's thresholds. -/
theorem isEmpty_of_stopIfUnused (h : w.stopIfUnused.monitor.isRunning) :
    w.thresholds.isEmpty = false := by
  unfold stopIfUnused at h
  split at h
  · rw [Monitor.isRunning_stop] at h
    cases h
  · next hne => simpa using hne

theorem stopIfUnused_of_isEmpty_eq (h : w.thresholds.isEmpty = false) : w.stopIfUnused = w := by
  rw [stopIfUnused, h]
  rfl

theorem starting_of_stopIfUnused (h : w.stopIfUnused.monitor.phase = .starting) :
    w.monitor.phase = .starting := by
  unfold stopIfUnused at h
  split at h
  · exact Monitor.starting_of_stop h
  · exact h

@[simp] theorem thresholds_observe (w : PriorityWatch) (q : Request) :
    (w.observe q).thresholds = w.thresholds := by
  unfold observe
  split <;> rfl

@[simp] theorem monitor_observe (w : PriorityWatch) (q : Request) :
    (w.observe q).monitor = w.monitor := by
  unfold observe
  split <;> rfl

/-- While the stream is open, the monitor reads on and leaves the thresholds alone. -/
theorem pump_of_isOpen (hopen : requested.isClosed = false) (h : w.pump requested = some w') :
    w.monitor.isRunning ∧ w'.monitor.isRunning ∧ w'.thresholds = w.thresholds := by
  unfold pump at h
  split at h
  · next place hp =>
      refine ⟨w.monitor.isRunning_iff.mpr ⟨place, hp⟩, ?_⟩
      rcases requested.read_cases place with ⟨-, hr⟩ | ⟨q, -, -, hr⟩ | ⟨-, -, hclosed, -⟩ |
        ⟨-, -, -, hr⟩
      · rw [hr] at h
        cases h
        exact ⟨rfl, rfl⟩
      · rw [hr] at h
        cases h
        exact ⟨rfl, thresholds_observe w q⟩
      · rw [hopen] at hclosed
        cases hclosed
      · rw [hr] at h
        cases h
  · cases h

/-- While the stream is open and openings do not fail, a listener either begins to open the
stream or finds it open, and then looks whether there still are thresholds. -/
theorem join_of_isOpen (hopen : requested.isClosed = false)
    (hj : ∀ o, j = .opening o → o.failure = none)
    (h : w.join now requested source j = some (r, w', source')) :
    source'.plan = source.plan ∧
    ((r = .notYet (.opening (source.plan.start now)) ∧ w.monitor.phase = .idle ∧
        w' = { w with monitor := { w.monitor with phase := .starting } }) ∨
      r = .running ∧ ∃ m : Monitor, m.isRunning ∧ w' = { w with monitor := m }.stopIfUnused) := by
  obtain ⟨⟨r, m, source'⟩, hstep, heq⟩ := Option.map_eq_some_iff.mp h
  have hplan := Joining.plan_of_step hstep
  rcases Joining.step_cases hstep with ⟨-, hp, rfl, rfl, rfl⟩ | ⟨-, hm, rfl, rfl, rfl⟩ |
    ⟨o, _, reason, -, -, -, rfl, -, -⟩ | ⟨o, _, -, -, -, -, rfl, rfl, -⟩
  · cases heq
    exact ⟨rfl, .inl ⟨rfl, hp, rfl⟩⟩
  · cases heq
    exact ⟨rfl, .inr ⟨rfl, w.monitor, hm, rfl⟩⟩
  · -- neither the opening nor the stream gives a reason to fail
    obtain ⟨o, rfl, -, ⟨reason, ho, -⟩ | ⟨-, _, hr, -⟩⟩ := Joining.exists_fails_of_step hstep
    · rw [hj o rfl] at ho
      cases ho
    · have hclosed : requested.isClosed = true := (Opening.refusal?_eq_some_iff.mp hr).1
      rw [hopen] at hclosed
      cases hclosed
  · cases heq
    exact ⟨hplan, .inr ⟨rfl, _, rfl, rfl⟩⟩

end PriorityWatch

namespace PrioritySession

/-- Something that happens to a session. -/
inductive Event where
  | listen (name : String) (ts : List Threshold)
  /-- Thresholds are withdrawn. -/
  | withdraw (ts : List Threshold)
  | shutdown
  | announce (rs : List Request)
  | report (q : Request)
  | planOpenings (plan : OpeningPlan)
  /-- The listeners that are done are taken off the list. -/
  | takeOver
  /-- Time passes until this moment. -/
  | wait (moment : Nat)
  /-- A task takes a step. -/
  | turn (task : PriorityTask)

/-- What an event makes of a session; nothing if it cannot happen. Openings may take any
time but are not made to fail, and time does not go back. -/
def next (s : PrioritySession) : Event → Option PrioritySession
  | .listen name ts => some (s.listen name ts)
  | .withdraw ts => some (s.removeThresholds ts)
  | .shutdown => some s.shutdown
  | .announce rs => some (s.announce rs)
  | .report q => some (s.report q)
  | .planOpenings plan => if plan.failure = none then some (s.planOpenings plan) else none
  | .takeOver => some s.takeOver.2
  | .wait moment => if s.now ≤ moment then some { s with now := moment } else none
  | .turn task => s.step task

/-- One event after the other leads from one session to another. -/
inductive Run : PrioritySession → List Event → PrioritySession → Prop where
  | nil (s : PrioritySession) : Run s [] s
  | cons {s s' s'' : PrioritySession} {e : Event} {es : List Event} :
      s.next e = some s' → Run s' es s'' → Run s (e :: es) s''

/-- Lets one event happen after the other. -/
def follow : PrioritySession → List Event → Option PrioritySession
  | s, [] => some s
  | s, e :: es => (s.next e).bind (follow · es)

/-- What a call makes of the set of thresholds. A call that names a blank object is refused
as a whole. -/
def register (pairs : Finset Threshold) : Event → Finset Threshold
  | .listen _ ts => if ts.any fun t => isBlank t.1 then pairs else pairs ∪ ts.toFinset
  | .withdraw ts => pairs \ ts.toFinset
  | .shutdown => ∅
  | _ => pairs

/-- The thresholds that these calls leave over, one call after the other. -/
def registered (es : List Event) : Finset Threshold := es.foldl register ∅

/-- A new watch over a stream that is open, and no plan that openings fail. -/
structure IsFresh (s : PrioritySession) : Prop where
  watch_eq : ∃ capacity, s.watch = .ofCapacity capacity
  listeners_eq : s.listeners = []
  isOpen : s.bulletin.requested.isClosed = false
  failure_eq : s.source.plan.failure = none

/-- A listener is on the way. -/
def isAwaited (s : PrioritySession) : Bool := s.listeners.any (·.2.isJoining)

/-- The invariant of all runs: the thresholds are these pairs. -/
structure Sound (s : PrioritySession) (pairs : Finset Threshold) : Prop where
  mem_iff : ∀ t, t ∈ s.watch.thresholds ↔ t ∈ pairs
  isOpen : s.bulletin.requested.isClosed = false
  failure_eq : s.source.plan.failure = none
  /-- No opening that has begun will fail. -/
  opens : ∀ p ∈ s.listeners, ∀ o, p.2 = .joining (.opening o) → o.failure = none
  /-- A monitor that runs is needed. -/
  needed : s.watch.monitor.isRunning → s.watch.thresholds.isEmpty = false
  /-- Thresholds have a monitor, or will have one. -/
  served : s.watch.thresholds.isEmpty = false → s.watch.monitor.isRunning ∨ s.isAwaited
  /-- Somebody opens the stream of a monitor that is starting. -/
  started : s.watch.monitor.phase = .starting → s.isAwaited

variable {s s' s'' : PrioritySession} {pairs : Finset Threshold} {e : Event} {es : List Event}
  {w : PriorityWatch} {name : String} {ts : List Threshold} {i : Nat}

theorem run_of_follow (h : s.follow es = some s') : Run s es s' := by
  induction es generalizing s with
  | nil =>
      cases h
      exact .nil _
  | cons e es ih =>
      obtain ⟨s₁, hn, h⟩ := Option.bind_eq_some_iff.mp h
      exact .cons hn (ih h)

theorem sound_of_isFresh (h : IsFresh s) : Sound s ∅ := by
  obtain ⟨capacity, hw⟩ := h.watch_eq
  constructor
  case mem_iff => simp [hw, PriorityWatch.ofCapacity]
  case isOpen => exact h.isOpen
  case failure_eq => exact h.failure_eq
  case opens => simp [h.listeners_eq]
  case needed => simp [hw, PriorityWatch.ofCapacity, Monitor.isRunning]
  case served => simp [hw, PriorityWatch.ofCapacity]
  case started => simp [hw, PriorityWatch.ofCapacity]

/-! ## Steps of a session -/

/-- Whoever is put in the place of a listener and on the way is awaited. -/
theorem any_isJoining_set {l : List (String × Listening)} (hi : i < l.length) (name : String)
    (j : Joining) : (l.set i (name, .joining j)).any (·.2.isJoining) = true := by
  apply List.any_eq_true.mpr
  exact ⟨(name, .joining j), List.mem_iff_getElem?.mpr ⟨i, List.getElem?_set_self hi⟩, rfl⟩

/-- Nothing changes but what the watch has read or how its openings will be. -/
theorem Sound.of_watch (hs : Sound s pairs) (hl : s'.listeners = s.listeners)
    (ht : s'.watch.thresholds = s.watch.thresholds)
    (hp : s'.watch.monitor.isRunning = s.watch.monitor.isRunning)
    (hstart : s'.watch.monitor.phase = .starting → s.watch.monitor.phase = .starting)
    (hopen : s'.bulletin.requested.isClosed = false)
    (hfail : s'.source.plan.failure = none) : Sound s' pairs where
  mem_iff := ht ▸ hs.mem_iff
  isOpen := hopen
  failure_eq := hfail
  opens := hl ▸ hs.opens
  needed h := ht ▸ hs.needed (hp ▸ h)
  served h := by
    rw [hp, isAwaited, hl]
    exact hs.served (ht ▸ h)
  started h := by
    rw [isAwaited, hl]
    exact hs.started (hstart h)

/-- A listener who is new on the list is not yet opening the stream. -/
theorem Sound.opens_append (hs : Sound s pairs) {x : Listening}
    (hx : ∀ o, x ≠ .joining (.opening o)) :
    ∀ p ∈ s.listeners ++ [(name, x)], ∀ o, p.2 = .joining (.opening o) → o.failure = none := by
  intro p hp o ho
  rcases List.mem_append.mp hp with hp | hp
  · exact hs.opens p hp o ho
  · rw [List.mem_singleton.mp hp] at ho
    exact absurd ho (hx o)

/-- A listener who was answered at once changes nothing for the others. -/
theorem Sound.answered (hs : Sound s pairs) (r : Except Fault Unit) :
    Sound { s with listeners := s.listeners ++ [(name, .over r)] } pairs where
  mem_iff := hs.mem_iff
  isOpen := hs.isOpen
  failure_eq := hs.failure_eq
  opens := hs.opens_append nofun
  needed := hs.needed
  served h := by simpa [isAwaited, Listening.isJoining] using hs.served h
  started h := by simpa [isAwaited, Listening.isJoining] using hs.started h

theorem Sound.listen (hs : Sound s pairs) (name : String) (ts : List Threshold) :
    Sound (s.listen name ts) (register pairs (.listen name ts)) := by
  by_cases hblank : ts.any fun t => isBlank t.1
  · simp only [PrioritySession.listen, PriorityWatch.listen, register, if_pos hblank]
    exact hs.answered _
  by_cases hnone : ts.isEmpty
  · obtain rfl := List.isEmpty_iff.mp hnone
    have hregister : register pairs (.listen name []) = pairs := by simp [register]
    rw [hregister]
    exact hs.answered _
  simp only [PrioritySession.listen, PriorityWatch.listen, register, if_neg hblank, if_neg hnone]
  have hawaited : isAwaited { s with
      watch := s.watch.addThresholds ts
      listeners := s.listeners ++ [(name, .joining .waiting)] } := by
    simp [isAwaited, Listening.isJoining]
  constructor
  case mem_iff =>
    intro t
    simp [PriorityWatch.addThresholds, hs.mem_iff]
  case isOpen => exact hs.isOpen
  case failure_eq => exact hs.failure_eq
  case opens => exact hs.opens_append nofun
  case needed =>
    intro hrun
    -- what was there before is still there
    obtain ⟨t, ht⟩ := Thresholds.isEmpty_eq_false_iff.mp (hs.needed hrun)
    apply Thresholds.isEmpty_eq_false_iff.mpr
    exact ⟨t, Thresholds.mem_insertAll.mpr (.inl ht)⟩
  case served => exact fun _ => .inr hawaited
  case started => exact fun _ => hawaited

/-- Whoever withdraws thresholds stops a monitor that is not needed any more. -/
theorem Sound.withdraw (hs : Sound s pairs) (ts : List Threshold) :
    Sound (s.removeThresholds ts) (pairs \ ts.toFinset) := by
  let w : PriorityWatch := { s.watch with thresholds := s.watch.thresholds.eraseAll ts }
  have hwatch : (s.removeThresholds ts).watch = w.stopIfUnused := rfl
  have hthresholds : (s.removeThresholds ts).watch.thresholds = s.watch.thresholds.eraseAll ts :=
    w.thresholds_stopIfUnused
  constructor
  case mem_iff =>
    intro t
    rw [hthresholds]
    simp [hs.mem_iff]
  case isOpen => exact hs.isOpen
  case failure_eq => exact hs.failure_eq
  case opens => exact hs.opens
  case needed =>
    intro hrun
    rw [hthresholds]
    exact PriorityWatch.isEmpty_of_stopIfUnused hrun
  case served =>
    intro hne
    rw [hthresholds] at hne
    rw [hwatch, PriorityWatch.stopIfUnused_of_isEmpty_eq hne]
    -- what is left was there before
    obtain ⟨t, ht⟩ := Thresholds.isEmpty_eq_false_iff.mp hne
    apply hs.served
    apply Thresholds.isEmpty_eq_false_iff.mpr
    exact ⟨t, (Thresholds.mem_eraseAll.mp ht).1⟩
  case started =>
    intro hstart
    have hphase : w.monitor.phase = .starting := PriorityWatch.starting_of_stopIfUnused hstart
    exact hs.started hphase

theorem Sound.shutdown (hs : Sound s pairs) : Sound s.shutdown ∅ := by
  constructor
  case mem_iff => simp [PrioritySession.shutdown, PriorityWatch.shutdown]
  case isOpen => exact hs.isOpen
  case failure_eq => exact hs.failure_eq
  case opens => exact hs.opens
  case needed => simp [PrioritySession.shutdown, PriorityWatch.shutdown]
  case served => simp [PrioritySession.shutdown, PriorityWatch.shutdown]
  case started => exact fun h => hs.started (Monitor.starting_of_stop h)

theorem Sound.takeOver (hs : Sound s pairs) : Sound s.takeOver.2 pairs := by
  have hawaited : isAwaited s.takeOver.2 = s.isAwaited := by
    rw [isAwaited, isAwaited, PrioritySession.takeOver, List.any_filter]
    simp
  constructor
  case mem_iff => exact hs.mem_iff
  case isOpen => exact hs.isOpen
  case failure_eq => exact hs.failure_eq
  case opens => exact fun p hp => hs.opens p (List.mem_of_mem_filter hp)
  case needed => exact hs.needed
  case served => exact fun h => hawaited ▸ hs.served h
  case started => exact fun h => hawaited ▸ hs.started h

/-- A listener begins to open the stream, or is done once the monitor runs. -/
theorem Sound.stepListener (hs : Sound s pairs) (h : s.stepListener i = some s') :
    Sound s' pairs := by
  unfold PrioritySession.stepListener at h
  split at h
  · next name j hi =>
      obtain ⟨⟨r, w, source⟩, hj, heq⟩ := Option.map_eq_some_iff.mp h
      obtain ⟨hlt, -⟩ := List.getElem?_eq_some_iff.mp hi
      have hopens : ∀ o, j = .opening o → o.failure = none :=
        fun o ho => hs.opens _ (List.mem_of_getElem? hi) o (congrArg Listening.joining ho)
      obtain ⟨hplan, ⟨rfl, hp, rfl⟩ | ⟨rfl, m, hm, rfl⟩⟩ :=
        PriorityWatch.join_of_isOpen hs.isOpen hopens hj
      · cases heq
        have hawaited := any_isJoining_set hlt name (.opening (s.source.plan.start s.now))
        refine ⟨hs.mem_iff, hs.isOpen, by rw [hplan]; exact hs.failure_eq, ?_, nofun,
          fun _ => .inr hawaited, fun _ => hawaited⟩
        intro p hp o ho
        rcases List.mem_or_eq_of_mem_set hp with hp | rfl
        · exact hs.opens p hp o ho
        · cases ho
          exact hs.failure_eq
      · cases heq
        refine ⟨?_, hs.isOpen, by rw [hplan]; exact hs.failure_eq, ?_, ?_, ?_, ?_⟩
        · simpa using hs.mem_iff
        · intro p hp o ho
          rcases List.mem_or_eq_of_mem_set hp with hp | rfl
          · exact hs.opens p hp o ho
          · cases ho
        · intro hrun
          rw [PriorityWatch.thresholds_stopIfUnused]
          exact PriorityWatch.isEmpty_of_stopIfUnused hrun
        · intro hne
          rw [PriorityWatch.thresholds_stopIfUnused] at hne
          left
          rw [PriorityWatch.stopIfUnused_of_isEmpty_eq hne]
          exact hm
        · intro hstart
          have hphase : m.phase = .starting := PriorityWatch.starting_of_stopIfUnused hstart
          rw [Monitor.isRunning, hphase] at hm
          cases hm
  · cases h

/-- Every event keeps the invariant for the pairs that it registers and withdraws. -/
theorem Sound.next (hs : Sound s pairs) (h : s.next e = some s') :
    Sound s' (register pairs e) := by
  cases e with
  | listen name ts =>
      cases h
      exact hs.listen name ts
  | withdraw ts =>
      cases h
      exact hs.withdraw ts
  | shutdown =>
      cases h
      exact hs.shutdown
  | announce rs =>
      cases h
      have hclosed := (Channel.isClosed_foldl_send rs s.bulletin.requested).trans hs.isOpen
      exact hs.of_watch rfl rfl rfl id hclosed hs.failure_eq
  | report q =>
      cases h
      refine hs.of_watch rfl (s.watch.thresholds_observe q) ?_ ?_ hs.isOpen hs.failure_eq
      · exact congrArg Monitor.isRunning (s.watch.monitor_observe q)
      · intro hstart
        exact (s.watch.monitor_observe q) ▸ hstart
  | planOpenings plan =>
      obtain ⟨hfail, h⟩ := Option.ite_none_right_eq_some.mp h
      cases h
      exact hs.of_watch rfl rfl rfl id hs.isOpen hfail
  | takeOver =>
      cases h
      exact hs.takeOver
  | wait moment =>
      obtain ⟨-, h⟩ := Option.ite_none_right_eq_some.mp h
      cases h
      exact hs.of_watch rfl rfl rfl id hs.isOpen hs.failure_eq
  | turn task =>
      cases task with
      | listener i => exact hs.stepListener h
      | pump =>
          obtain ⟨-, h⟩ := Option.ite_none_left_eq_some.mp h
          obtain ⟨w, hw, rfl⟩ := Option.map_eq_some_iff.mp h
          obtain ⟨hrun, hrun', hthresholds⟩ := PriorityWatch.pump_of_isOpen hs.isOpen hw
          refine hs.of_watch rfl hthresholds (hrun'.trans hrun.symm) ?_ hs.isOpen hs.failure_eq
          intro hstart
          change w.monitor.phase = .starting at hstart
          rw [Monitor.isRunning, hstart] at hrun'
          cases hrun'

theorem Run.sound (h : Run s es s') (hs : Sound s pairs) :
    Sound s' (es.foldl register pairs) := by
  induction h generalizing pairs with
  | nil s => exact hs
  | cons hn _ ih => exact ih (hs.next hn)

/-! ## What every run leaves behind -/

/-- The watch is as the calls so far say. -/
structure MatchesCalls (s : PrioritySession) (es : List Event) : Prop where
  mem_iff : ∀ id p, p ∈ s.watch.thresholdsOf id ↔ (id, p) ∈ registered es
  /-- No object is kept without a priority. -/
  exists_mem : ∀ (id : String) (ps : Std.ExtTreeSet Priority),
    s.watch.thresholds.byId[id]? = some ps → ∃ p, p ∈ ps
  /-- Even while listeners are on the way, the monitor does not run for nothing. -/
  nonempty_of_isRunning : s.watch.monitor.isRunning → (registered es).Nonempty
  /-- When none is, it runs for everything that is registered. -/
  isRunning_iff : s.isAwaited = false →
    (s.watch.monitor.isRunning ↔ (registered es).Nonempty)
  idle_iff : s.isAwaited = false → (s.watch.monitor.phase = .idle ↔ registered es = ∅)

/-- Whatever listeners do, in which order they do it and however long the openings take,
the watch is as their calls so far say. -/
theorem matchesCalls_of_run (h₀ : IsFresh s) (h : Run s es s') : MatchesCalls s' es := by
  have hs : Sound s' (registered es) := h.sound (sound_of_isFresh h₀)
  have hempty : s'.watch.thresholds.isEmpty = false ↔ (registered es).Nonempty :=
    Thresholds.isEmpty_eq_false_iff.trans (exists_congr hs.mem_iff)
  have hrunning (hq : s'.isAwaited = false) :
      s'.watch.monitor.isRunning ↔ (registered es).Nonempty := by
    constructor
    · exact fun hrun => hempty.mp (hs.needed hrun)
    · intro hne
      apply (hs.served (hempty.mpr hne)).resolve_right
      simp [hq]
  constructor
  case mem_iff => exact fun id p => PriorityWatch.mem_thresholdsOf.trans (hs.mem_iff (id, p))
  case exists_mem => exact fun id ps => Thresholds.exists_mem_of_getElem?
  case nonempty_of_isRunning => exact fun hrun => hempty.mp (hs.needed hrun)
  case isRunning_iff => exact hrunning
  case idle_iff =>
    intro hq
    rw [← Finset.not_nonempty_iff_eq_empty, ← hrunning hq, Monitor.isRunning]
    cases hp : s'.watch.monitor.phase with
    | idle => simp
    | starting =>
        have hawaited := hs.started hp
        rw [hq] at hawaited
        cases hawaited
    | running place => simp

/-- A new watch over a bulletin that keeps a single notice. -/
def ofNewWatch : PrioritySession := { bulletin := .ofCapacity 1 }

/-- All thresholds are withdrawn while the first listener still opens the stream, so that
the monitor is stopped as soon as it runs. The second listener waited for that opening and
opens the stream again, for the threshold of the third one. -/
def overlapping : List Event :=
  [.planOpenings { delay := 5 }, .listen "ann" [("report", .high)], .turn (.listener 0),
    .listen "bob" [("draft", .low), ("report", .low)],
    .withdraw [("report", .high), ("draft", .low), ("report", .low)], .wait 5,
    .turn (.listener 0), .listen "cyd" [("figure", .lowest)], .turn (.listener 1), .wait 10,
    .turn (.listener 1), .turn (.listener 2), .announce [Request.of "figure"], .turn .pump]

theorem matchesCalls_of_overlapping : ∃ s, Run ofNewWatch overlapping s ∧
    MatchesCalls s overlapping ∧ s.isAwaited = false ∧ s.watch.monitor.isRunning ∧
    s.watch.monitor.stops = 1 ∧ registered overlapping = {("figure", .lowest)} := by
  have hrest : (ofNewWatch.follow overlapping).map
      (fun s => (s.isAwaited, s.watch.monitor.isRunning, s.watch.monitor.stops)) =
        some (false, true, 1) := by
    decide +kernel
  obtain ⟨s, hs, hrest⟩ := Option.map_eq_some_iff.mp hrest
  have hrun := run_of_follow hs
  have hfresh : IsFresh ofNewWatch := ⟨⟨_, rfl⟩, rfl, rfl, rfl⟩
  simp only [Prod.mk.injEq] at hrest
  obtain ⟨hawaited, hrunning, hstops⟩ := hrest
  exact ⟨s, hrun, matchesCalls_of_run hfresh hrun, hawaited, hrunning, hstops, by decide +kernel⟩

end PrioritySession

end LeasedLocks
