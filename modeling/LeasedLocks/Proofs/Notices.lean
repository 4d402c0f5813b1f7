import LeasedLocks.Proofs.ListenerRuns
import LeasedLocks.Proofs.Schedule

/-!
# Which requests are told of

A watch gives notice of a request at the first node that exceeds a threshold
(`Thresholds.Told`). Tasks that run until none can read all that was announced, and the
notices are those that it calls for (`PrioritySession.log_of_settles`).

## Implementation notes

`PrioritySession.told` holds the notices given so far and those that the requests still to be
read will give. No task changes it: what the monitor reads goes from the second part to the
first. At rest nothing is left to be read.
-/

namespace LeasedLocks

/-! ## What a request gives notice of -/

namespace Thresholds

/-- The node asks for its object more urgently than a threshold says. -/
def IsExceededBy (ts : Thresholds) (a : Ask) : Prop :=
  ∃ p, (a.objectId, p) ∈ ts ∧ a.priority.level < p.level

/-- The notices of requests that were looked at while these thresholds were registered: one
for each request with a node that exceeds a threshold, which names the first such node. -/
inductive Told : List (Thresholds × Request) → List PriorityNotice → Prop where
  | nil : Told [] []
  | notice {ts : Thresholds} {r : Request} {before after : List Ask} {a : Ask}
      {rest : List (Thresholds × Request)} {ns : List PriorityNotice} :
      r.labels = before ++ a :: after → (∀ b ∈ before, ¬ ts.IsExceededBy b) →
        ts.IsExceededBy a → Told rest ns →
          Told ((ts, r) :: rest) (⟨a.objectId, a.priority, r⟩ :: ns)
  | silent {ts : Thresholds} {r : Request} {rest : List (Thresholds × Request)}
      {ns : List PriorityNotice} :
      (∀ a ∈ r.labels, ¬ ts.IsExceededBy a) → Told rest ns → Told ((ts, r) :: rest) ns

/-- The notice of a request, if there is one. -/
def notice? (ts : Thresholds) (r : Request) : Option PriorityNotice :=
  (r.labels.find? fun a => (ts.prioritiesOf a.objectId).toList.any a.priority.outranks).map
    fun a => ⟨a.objectId, a.priority, r⟩

variable {ts : Thresholds} {a : Ask}

theorem any_outranks_iff :
    (ts.prioritiesOf a.objectId).toList.any a.priority.outranks = true ↔ ts.IsExceededBy a := by
  simp [IsExceededBy, mem_iff, Priority.outranks]

/-- Without thresholds there are no notices. -/
theorem notice?_of_isEmpty (h : ts.isEmpty = true) (r : Request) : ts.notice? r = none := by
  rw [notice?, Option.map_eq_none_iff, List.find?_eq_none]
  intro a _
  rw [any_outranks_iff]
  rintro ⟨p, hp, -⟩
  exact isEmpty_iff.mp h _ hp

/-- The notices that are given are those that the requests call for. -/
theorem told_filterMap (xs : List (Thresholds × Request)) :
    Told xs (xs.filterMap fun x => x.1.notice? x.2) := by
  induction xs with
  | nil => exact .nil
  | cons x xs ih =>
      obtain ⟨ts, r⟩ := x
      cases hfind : r.labels.find?
          fun a => (ts.prioritiesOf a.objectId).toList.any a.priority.outranks with
      | none =>
          rw [List.filterMap_cons_none (by rw [notice?, hfind]; rfl)]
          apply Told.silent _ ih
          intro a ha
          rw [← any_outranks_iff]
          exact List.find?_eq_none.mp hfind a ha
      | some a =>
          rw [List.filterMap_cons_some (by rw [notice?, hfind]; rfl)]
          obtain ⟨ha, before, after, heq, hbefore⟩ := List.find?_eq_some_iff_append.mp hfind
          apply Told.notice heq _ (any_outranks_iff.mp ha) ih
          intro b hb
          rw [← any_outranks_iff]
          simpa using hbefore b hb

end Thresholds

namespace PriorityWatch

variable {w w' : PriorityWatch} {requested : Channel Request} {source source' : Source}
  {j : Joining} {r : Joined} {now : Nat}

theorem log_observe (w : PriorityWatch) (r : Request) :
    (w.observe r).notices.log.toList =
      w.notices.log.toList ++ (w.thresholds.notice? r).toList := by
  have hnotice : w.thresholds.notice? r =
      (r.labels.find? w.matchesAsk).map fun a => ⟨a.objectId, a.priority, r⟩ := rfl
  rw [hnotice, observe]
  cases r.labels.find? w.matchesAsk with
  | none => simp
  | some a => simp [Channel.send]

theorem isClosed_observe (w : PriorityWatch) (r : Request) :
    (w.observe r).notices.isClosed = w.notices.isClosed := by
  unfold observe
  split <;> rfl

/-- All that the monitor can do on its own: read a request, notice that it missed some, or
stop at the end of the stream. -/
theorem pump_cases (h : w.pump requested = some w') : ∃ place, w.monitor.phase = .running place ∧
    ((∃ r, requested.read place = (.item r, place + 1) ∧
        w' = { w.observe r with monitor := { w.monitor with phase := .running (place + 1) } }) ∨
      (place < requested.oldest ∧
        w' = { w with monitor := { w.monitor with phase := .running requested.oldest } }) ∨
      (requested.log[place]? = none ∧ requested.isClosed ∧
        w' = { w with monitor := w.monitor.stop })) := by
  unfold pump at h
  split at h
  · next place hp =>
      refine ⟨place, hp, ?_⟩
      rcases requested.read_cases place with ⟨hlt, hr⟩ | ⟨r, -, -, hr⟩ |
        ⟨-, hnone, hclosed, hr⟩ | ⟨-, -, -, hr⟩
      · rw [hr] at h
        cases h
        exact .inr (.inl ⟨hlt, rfl⟩)
      · rw [hr] at h
        cases h
        exact .inl ⟨r, hr, rfl⟩
      · rw [hr] at h
        cases h
        exact .inr (.inr ⟨hnone, hclosed, rfl⟩)
      · rw [hr] at h
        cases h
  · cases h

/-- A monitor at rest that runs has read everything, and the stream is open. -/
theorem pending_of_pump_eq_none {place : Nat} (h : w.pump requested = none)
    (hp : w.monitor.phase = .running place) :
    requested.log.toList.drop place = [] ∧ requested.isClosed = false := by
  simp only [pump, hp] at h
  rcases requested.read_cases place with ⟨-, hr⟩ | ⟨r, -, -, hr⟩ | ⟨-, -, -, hr⟩ |
    ⟨-, hnone, hopen, -⟩
  · rw [hr] at h
    cases h
  · rw [hr] at h
    cases h
  · rw [hr] at h
    cases h
  · exact ⟨Channel.drop_of_none hnone, hopen⟩

theorem stopIfUnused_cases (w : PriorityWatch) : w.stopIfUnused = w ∨
    w.thresholds.isEmpty ∧ w.stopIfUnused = { w with monitor := w.monitor.stop } := by
  unfold stopIfUnused
  split
  · next h => exact .inr ⟨h, rfl⟩
  · exact .inl rfl

/-- All that a step of somebody who listens can do. -/
theorem join_cases (h : w.join now requested source j = some (r, w', source')) :
    ∃ m, w' = { w with monitor := m } ∧
      (j = .waiting ∧ w.monitor.phase = .idle ∧ (∃ o, r = .notYet (.opening o)) ∧
          m.phase = .starting ∨
        (j = .waiting ∧ w.monitor.isRunning ∧ r = .running ∧
          (m = w.monitor ∨ w.thresholds.isEmpty ∧ m = w.monitor.stop)) ∨
        (∃ o, j = .opening o) ∧ (r = .running ∨ ∃ e, r = .failed e) ∧
          (m.phase = .idle ∨ m.phase = .running requested.sent)) := by
  obtain ⟨⟨r', m, source'⟩, hstep, heq⟩ := Option.map_eq_some_iff.mp h
  rcases Joining.step_cases hstep with ⟨rfl, hp, rfl, rfl, -⟩ | ⟨rfl, hm, rfl, rfl, -⟩ |
    ⟨o, _, reason, rfl, -, -, rfl, rfl, -⟩ | ⟨o, _, rfl, -, -, -, rfl, rfl, -⟩
  · cases heq
    exact ⟨_, rfl, .inl ⟨rfl, hp, ⟨_, rfl⟩, rfl⟩⟩
  · have hstop := stopIfUnused_cases { w with monitor := w.monitor }
    cases heq
    rcases hstop with hstop | ⟨hempty, hstop⟩
    · exact ⟨_, hstop, .inr (.inl ⟨rfl, hm, rfl, .inl rfl⟩)⟩
    · exact ⟨_, hstop, .inr (.inl ⟨rfl, hm, rfl, .inr ⟨hempty, rfl⟩⟩)⟩
  · cases heq
    exact ⟨_, rfl, .inr (.inr ⟨⟨o, rfl⟩, .inr ⟨_, rfl⟩, .inl rfl⟩)⟩
  · have hstop := stopIfUnused_cases
      { w with monitor := w.monitor.start requested.streamEnd.place }
    cases heq
    rcases hstop with hstop | ⟨-, hstop⟩
    · exact ⟨_, hstop, .inr (.inr ⟨⟨o, rfl⟩, .inl rfl, .inr rfl⟩)⟩
    · exact ⟨_, hstop, .inr (.inr ⟨⟨o, rfl⟩, .inl rfl, .inl rfl⟩)⟩

end PriorityWatch

namespace Listening

/-- How many openings a listener is busy with. -/
def openings : Listening → Nat
  | .joining j => j.openings
  | .over _ => 0

/-- How many steps a listener can still take. -/
def stepsLeft : Listening → Nat
  | .joining j => j.stepsLeft
  | .over _ => 0

end Listening

/-- Where a listener is after a step. -/
def Joined.listening : Joined → Listening
  | notYet j => .joining j
  | running => .over (.ok ())
  | failed e => .over (.error e)

namespace PrioritySession

/-- How many openings the listeners are busy with. -/
def openings (s : PrioritySession) : Nat := (s.listeners.map (·.2.openings)).sum

/-- The requests that the monitor has still to read. -/
def unread (s : PrioritySession) : List Request :=
  match s.watch.monitor.phase with
  | .running place => s.bulletin.requested.log.toList.drop place
  | _ => []

/-- The notices given so far, and those that the requests still to be read will give. -/
def told (s : PrioritySession) : List PriorityNotice :=
  s.watch.notices.log.toList ++ s.unread.filterMap s.watch.thresholds.notice?

/-- The invariant of all sessions whose watch is kept. -/
structure IsKept (s : PrioritySession) : Prop where
  isDropped_eq : s.isDropped = false
  isOpen : s.watch.notices.isClosed = false
  /-- One listener at most opens the stream, and the monitor is starting then. -/
  openings_le : s.openings ≤ if s.watch.monitor.phase = .starting then 1 else 0
  place_le : ∀ place, s.watch.monitor.phase = .running place →
    place ≤ s.bulletin.requested.sent

/-- The monitor has missed nothing. -/
def KeepsUp (s : PrioritySession) : Prop :=
  ∀ place, s.watch.monitor.phase = .running place → s.bulletin.requested.oldest ≤ place

instance (s : PrioritySession) : Decidable s.KeepsUp :=
  match hp : s.watch.monitor.phase with
  | .idle => .isTrue fun place h => by simp [hp] at h
  | .starting => .isTrue fun place h => by simp [hp] at h
  | .running place =>
    decidable_of_iff (s.bulletin.requested.oldest ≤ place)
      ⟨fun hle next h => by simp_all, fun h => h place hp⟩

variable {s s' : PrioritySession} {i : Nat}

theorem unread_of_not_isRunning (h : s.watch.monitor.isRunning = false) : s.unread = [] := by
  unfold unread
  split
  · next place hp =>
      rw [Monitor.isRunning, hp] at h
      cases h
  · rfl

theorem IsKept.isLost_eq (hs : IsKept s) : s.isLost = false := by
  rw [isLost, hs.isDropped_eq, Bool.false_and]

theorem IsKept.notices_eq (hs : IsKept s) : s.notices = s.watch.notices := by
  rw [notices, hs.isLost_eq]
  rfl

/-! ## Steps of the tasks -/

theorem stepListener_eq_some (h : s.stepListener i = some s') :
    ∃ name j r w source, s.listeners[i]? = some (name, .joining j) ∧
      s.watch.join s.now s.bulletin.requested s.source j = some (r, w, source) ∧
      s' = { s with
        watch := w
        source := source
        listeners := s.listeners.set i (name, r.listening) } := by
  unfold stepListener at h
  split at h
  · next name j hi =>
      obtain ⟨⟨r, w, source⟩, hj, heq⟩ := Option.map_eq_some_iff.mp h
      refine ⟨name, j, r, w, source, hi, hj, ?_⟩
      rw [← heq]
      cases r <;> rfl
  · cases h

/-- A listener takes a step only while nobody else opens the stream. -/
theorem IsKept.openings_of_stepListener (hs : IsKept s) {name : String} {j : Joining}
    (hi : s.listeners[i]? = some (name, .joining j))
    (hj : j = .waiting → s.watch.monitor.phase ≠ .starting) (x : Listening) :
    ((s.listeners.set i (name, x)).map (·.2.openings)).sum = x.openings ∧
      (j ≠ .waiting → s.watch.monitor.phase = .starting) := by
  obtain ⟨n, hsum, hset⟩ := exists_sum_set (fun p : String × Listening => p.2.openings) hi
  have hle : j.openings + n ≤ if s.watch.monitor.phase = .starting then 1 else 0 :=
    hsum ▸ hs.openings_le
  rw [hset]
  change x.openings + n = x.openings ∧ _
  cases j with
  | waiting =>
      rw [if_neg (hj rfl)] at hle
      obtain rfl : n = 0 := by omega
      exact ⟨rfl, fun hne => absurd rfl hne⟩
  | opening o =>
      simp only [Joining.openings] at hle
      split at hle
      · next hp =>
          obtain rfl : n = 0 := by omega
          exact ⟨rfl, fun _ => hp⟩
      · omega

/-- What a step of a listener makes of the session. -/
theorem stepListener_cases (hs : IsKept s) (h : s.stepListener i = some s') :
    ∃ name j x m source, s.listeners[i]? = some (name, .joining j) ∧
      s' = { s with
        watch := { s.watch with monitor := m }
        source := source
        listeners := s.listeners.set i (name, x) } ∧
      x.stepsLeft < j.stepsLeft ∧ s'.openings = x.openings ∧
      (s.watch.monitor.phase = .idle ∧ m.phase = .starting ∧ x.openings = 1 ∨
        (s.watch.monitor.isRunning ∧ x.openings = 0 ∧
          (m = s.watch.monitor ∨ s.watch.thresholds.isEmpty ∧ m = s.watch.monitor.stop)) ∨
        s.watch.monitor.phase = .starting ∧ x.openings = 0 ∧
          (m.phase = .idle ∨ m.phase = .running s.bulletin.requested.sent)) := by
  obtain ⟨name, j, r, w, source, hi, hj, rfl⟩ := stepListener_eq_some h
  obtain ⟨m, rfl, ⟨rfl, hp, ⟨o, rfl⟩, hm⟩ | ⟨rfl, hp, rfl, hm⟩ | ⟨⟨o, rfl⟩, hr, hm⟩⟩ :=
    PriorityWatch.join_cases hj
  · obtain ⟨hopenings, -⟩ := hs.openings_of_stepListener hi (fun _ => by simp [hp])
      (.joining (.opening o))
    exact ⟨name, _, _, m, source, hi, rfl, Nat.one_lt_two, hopenings, .inl ⟨hp, hm, rfl⟩⟩
  · have hne : s.watch.monitor.phase ≠ .starting := by
      obtain ⟨place, heq⟩ := (Monitor.isRunning_iff _).mp hp
      simp [heq]
    obtain ⟨hopenings, -⟩ := hs.openings_of_stepListener hi (fun _ => hne) (.over (.ok ()))
    exact ⟨name, _, _, m, source, hi, rfl, Nat.two_pos, hopenings, .inr (.inl ⟨hp, rfl, hm⟩)⟩
  · have hx : r.listening.stepsLeft = 0 ∧ r.listening.openings = 0 := by
      rcases hr with rfl | ⟨e, rfl⟩
      · exact ⟨rfl, rfl⟩
      · exact ⟨rfl, rfl⟩
    obtain ⟨hopenings, hp⟩ := hs.openings_of_stepListener hi nofun r.listening
    refine ⟨name, _, _, m, source, hi, rfl, ?_, hopenings, .inr (.inr ⟨hp nofun, hx.2, hm⟩)⟩
    rw [hx.1]
    exact Nat.one_pos

/-- What a turn of the monitor makes of the session. -/
theorem step_pump_cases (h : s.step .pump = some s') :
    ∃ w, s.watch.pump s.bulletin.requested = some w ∧ s' = { s with watch := w } := by
  obtain ⟨-, h⟩ := Option.ite_none_left_eq_some.mp h
  obtain ⟨w, hw, rfl⟩ := Option.map_eq_some_iff.mp h
  exact ⟨w, hw, rfl⟩

/-- Only the tasks of a session can ever run in it. -/
theorem mem_tasks_of_step {task : PriorityTask} (h : s.step task = some s') :
    task ∈ system.tasks s := by
  cases task with
  | listener i =>
      obtain ⟨name, j, r, w, source, hi, -⟩ := stepListener_eq_some h
      apply List.mem_append_left
      exact List.mem_map_of_mem (List.mem_range.mpr (List.getElem?_eq_some_iff.mp hi).1)
  | pump => exact List.mem_append_right _ List.mem_cons_self

/-- What all steps of the tasks leave alone. -/
structure Keeps (s s' : PrioritySession) : Prop where
  thresholds_eq : s'.watch.thresholds = s.watch.thresholds
  bulletin_eq : s'.bulletin = s.bulletin
  isKept : IsKept s'

theorem IsKept.stepListener (hs : IsKept s) (h : s.stepListener i = some s') : Keeps s s' := by
  obtain ⟨name, j, x, m, source, -, rfl, -, hopenings, hm⟩ := stepListener_cases hs h
  refine ⟨rfl, rfl, hs.isDropped_eq, hs.isOpen, ?_, ?_⟩
  · rw [hopenings]
    rcases hm with ⟨-, hp, hx⟩ | ⟨-, hx, -⟩ | ⟨-, hx, -⟩
    · rw [if_pos hp, hx]
    · exact hx.trans_le (Nat.zero_le _)
    · exact hx.trans_le (Nat.zero_le _)
  · intro place hp
    change m.phase = .running place at hp
    rcases hm with ⟨-, hm, -⟩ | ⟨-, -, rfl | ⟨-, rfl⟩⟩ | ⟨-, -, hm | hm⟩
    · rw [hm] at hp
      cases hp
    · exact hs.place_le place hp
    · exact hs.place_le place (Monitor.running_of_stop hp)
    · rw [hm] at hp
      cases hp
    · rw [hm] at hp
      cases hp
      exact Nat.le_refl _

theorem IsKept.pump (hs : IsKept s) (h : s.step .pump = some s') : Keeps s s' := by
  obtain ⟨w, hw, rfl⟩ := step_pump_cases h
  obtain ⟨place, hp, hcases⟩ := PriorityWatch.pump_cases hw
  have hopenings : s.openings = 0 := by
    have hle := hs.openings_le
    rw [hp] at hle
    simpa using hle
  rcases hcases with ⟨r, hread, rfl⟩ | ⟨-, rfl⟩ | ⟨-, -, rfl⟩
  · obtain ⟨-, hle, -⟩ := Channel.drop_of_read hread
    refine ⟨s.watch.thresholds_observe r, rfl, hs.isDropped_eq, ?_, ?_, ?_⟩
    · exact (s.watch.isClosed_observe r).trans hs.isOpen
    · exact hopenings.trans_le (Nat.zero_le _)
    · rintro next ⟨⟩
      exact hle
  · refine ⟨rfl, rfl, hs.isDropped_eq, hs.isOpen, hopenings.trans_le (Nat.zero_le _), ?_⟩
    rintro next ⟨⟩
    exact Nat.sub_le _ _
  · refine ⟨rfl, rfl, hs.isDropped_eq, hs.isOpen, hopenings.trans_le (Nat.zero_le _), ?_⟩
    intro next hnext
    exact hs.place_le next (Monitor.running_of_stop hnext)

theorem IsKept.step {task : PriorityTask} (hs : IsKept s) (h : s.step task = some s') :
    Keeps s s' := by
  cases task with
  | listener i => exact hs.stepListener h
  | pump => exact hs.pump h

/-- A monitor that has missed nothing goes on so, and what is told stays the same. -/
theorem told_of_step {task : PriorityTask} (hs : IsKept s) (hk : s.KeepsUp)
    (h : s.step task = some s') : s'.KeepsUp ∧ s'.told = s.told := by
  cases task with
  | listener i =>
      obtain ⟨name, j, x, m, source, -, rfl, -, -, hm⟩ := stepListener_cases hs h
      rcases hm with ⟨hp, hm, -⟩ | ⟨-, -, rfl | ⟨hempty, rfl⟩⟩ | ⟨hp, -, hm | hm⟩
      · refine ⟨?_, ?_⟩
        · intro place hplace
          exact nomatch hm.symm.trans hplace
        · simp only [told, unread, hm, hp]
      · exact ⟨hk, rfl⟩
      · refine ⟨fun place hplace => hk place (Monitor.running_of_stop hplace), ?_⟩
        -- without thresholds nothing would have been told of what is not read any more
        have hnone (rs : List Request) : rs.filterMap s.watch.thresholds.notice? = [] := by
          rw [List.filterMap_eq_nil_iff]
          exact fun r _ => Thresholds.notice?_of_isEmpty hempty r
        simp only [told, hnone]
      · refine ⟨?_, ?_⟩
        · intro place hplace
          exact nomatch hm.symm.trans hplace
        · simp only [told, unread, hm, hp]
      · refine ⟨?_, ?_⟩
        · intro place hplace
          cases hm.symm.trans hplace
          exact Nat.sub_le _ _
        · have hdrop : s.bulletin.requested.log.toList.drop s.bulletin.requested.sent = [] := by
            simp [Channel.sent]
          simp only [told, unread, hm, hp, hdrop]
  | pump =>
      obtain ⟨w, hw, rfl⟩ := step_pump_cases h
      obtain ⟨place, hp, ⟨r, hread, rfl⟩ | ⟨hlt, -⟩ | ⟨hnone, -, rfl⟩⟩ :=
        PriorityWatch.pump_cases hw
      · obtain ⟨-, -, hdrop⟩ := Channel.drop_of_read hread
        refine ⟨?_, ?_⟩
        · rintro next ⟨⟩
          exact Nat.le_succ_of_le (hk place hp)
        · simp only [told, unread, hp, hdrop, List.filterMap_cons, s.watch.log_observe,
            s.watch.thresholds_observe]
          cases s.watch.thresholds.notice? r with
          | none => simp
          | some n => simp
      · exact absurd (hk place hp) (Nat.not_le_of_lt hlt)
      · refine ⟨fun next hnext => hk next (Monitor.running_of_stop hnext), ?_⟩
        rw [told, told, unread_of_not_isRunning (Monitor.isRunning_stop _)]
        simp only [unread, hp, Channel.drop_of_none hnone]

/-! ## Coming to rest -/

/-- Bounds the steps that the tasks can take while nothing else happens. -/
def effort (s : PrioritySession) : Nat :=
  (s.listeners.map (·.2.stepsLeft)).sum * (s.bulletin.requested.sent + 2) +
    match s.watch.monitor.phase with
    | .running place => s.bulletin.requested.sent - place + 1
    | _ => 0

theorem effort_lt_of_step {task : PriorityTask} (hs : IsKept s) (h : s.step task = some s') :
    s'.effort < s.effort := by
  cases task with
  | listener i =>
      obtain ⟨name, j, x, m, source, hi, rfl, hlt, -, -⟩ := stepListener_cases hs h
      obtain ⟨n, hsum, hset⟩ := exists_sum_set (fun p : String × Listening => p.2.stepsLeft) hi
      have hreadings : (match m.phase with
          | .running place => s.bulletin.requested.sent - place + 1
          | _ => 0) ≤ s.bulletin.requested.sent + 1 := by
        split
        · omega
        · exact Nat.zero_le _
      simp only [effort, hsum, hset]
      calc
        _ < (x.stepsLeft + n) * (s.bulletin.requested.sent + 2) +
            (s.bulletin.requested.sent + 2) := by omega
        _ = (x.stepsLeft + n + 1) * (s.bulletin.requested.sent + 2) := (Nat.succ_mul _ _).symm
        _ ≤ (j.stepsLeft + n) * (s.bulletin.requested.sent + 2) :=
          Nat.mul_le_mul_right _ (by omega)
        _ ≤ _ := Nat.le_add_right _ _
  | pump =>
      obtain ⟨w, hw, rfl⟩ := step_pump_cases h
      obtain ⟨place, hp, ⟨r, hread, rfl⟩ | ⟨hlt, rfl⟩ | ⟨-, -, rfl⟩⟩ := PriorityWatch.pump_cases hw
      · obtain ⟨-, hle, -⟩ := Channel.drop_of_read hread
        simp only [effort, hp]
        omega
      · have hle : s.bulletin.requested.oldest ≤ s.bulletin.requested.sent := Nat.sub_le _ _
        simp only [effort, hp]
        omega
      · simp only [effort, Monitor.stop, hp, Monitor.phase_dismiss]
        omega

theorem IsKept.exists_settles (hs : IsKept s) : ∃ s', system.Settles s s' := by
  apply TaskSystem.exists_settles IsKept effort _ s hs
  exact fun hs h => ⟨(hs.step h).isKept, effort_lt_of_step hs h⟩

/-- What the tasks leave behind when they come to rest. -/
theorem IsKept.settles (hs : IsKept s) (h : system.Settles s s') : Keeps s s' := by
  apply h.preserves (Keeps s) _ ⟨rfl, rfl, hs⟩
  intro s₁ s₂ i h₁ h₂
  have hk := h₁.isKept.step h₂
  exact ⟨hk.thresholds_eq.trans h₁.thresholds_eq, hk.bulletin_eq.trans h₁.bulletin_eq, hk.isKept⟩

theorem IsKept.pump_eq_none (hs : IsKept s) (hq : system.Quiescent s) :
    s.watch.pump s.bulletin.requested = none := by
  have hpump := hq .pump
  change (if s.isLost then none else (s.watch.pump s.bulletin.requested).map _) = none at hpump
  rw [hs.isLost_eq] at hpump
  exact Option.map_eq_none_iff.mp hpump

/-- At rest nothing is left to be read. -/
theorem IsKept.unread_eq_nil (hs : IsKept s) (hq : system.Quiescent s) : s.unread = [] := by
  unfold unread
  split
  · next place hp => exact (PriorityWatch.pending_of_pump_eq_none (hs.pump_eq_none hq) hp).1
  · rfl

/-- At rest all has been told. -/
theorem log_of_settles (hs : IsKept s) (hk : s.KeepsUp) (h : system.Settles s s') :
    s'.watch.notices.log.toList = s.told := by
  obtain ⟨hs', -, htold⟩ : IsKept s' ∧ s'.KeepsUp ∧ s'.told = s.told := by
    apply h.preserves (fun t => IsKept t ∧ t.KeepsUp ∧ t.told = s.told) _ ⟨hs, hk, rfl⟩
    rintro s₁ s₂ i ⟨hs₁, hk₁, htold⟩ h₂
    obtain ⟨hk₂, heq⟩ := told_of_step hs₁ hk₁ h₂
    exact ⟨(hs₁.step h₂).isKept, hk₂, heq.trans htold⟩
  rw [← htold, told, hs'.unread_eq_nil h.quiescent]
  simp

end PrioritySession

end LeasedLocks
