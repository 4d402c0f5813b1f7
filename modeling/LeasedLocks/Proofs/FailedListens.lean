import LeasedLocks.Proofs.Audience

/-!
# What a failed call leaves behind

A listener registers its thresholds before it opens the stream. If it is refused for a blank
object, nothing was registered; if the stream cannot be opened, the monitor is idle again and
no start is counted, but the thresholds stay (`PrioritySession.Fails`). They count like those
of a listener who succeeded: requests are told of because of them, and a monitor that somebody
starts later is kept for them.

## Implementation notes

The call is the only one that is made, from its beginning to its end (`Meanwhile`), but it may
find the watch in any state, and tasks may take their turns in any order.
-/

namespace LeasedLocks

namespace PrioritySession

/-- Nothing is asked of the watch, and those who are done stay on the list. -/
def Act.IsAside : Act → Prop
  | .report _ => True
  | .announce _ => True
  | .planOpenings _ => True
  | .close => True
  | .reopen => True
  | .wait _ => True
  | _ => False

/-- From one session to another while nobody makes a call. -/
inductive Meanwhile (s : PrioritySession) : PrioritySession → Prop where
  | refl : Meanwhile s s
  | act {s' : PrioritySession} {a : Act} : Meanwhile s s' → a.IsAside → Meanwhile s (s'.act a)
  | turn {s' s'' : PrioritySession} {task : PriorityTask} :
      Meanwhile s s' → s'.step task = some s'' → Meanwhile s s''

/-- What a call for these thresholds that began in `s` and failed has left behind in `s'`. -/
inductive Fails (s : PrioritySession) (ts : List Threshold) (s' : PrioritySession) : Fault → Prop
  /-- A blank object is found before anything is registered. -/
  | blank : (∃ t ∈ ts, isBlank t.1 = true) →
      (∀ id, s'.watch.thresholdsOf id = s.watch.thresholdsOf id) → Fails s ts s' .blankId
  /-- An opening that fails is no start, but what was registered for it is kept. -/
  | noStream {why : String} : (∀ t ∈ ts, isBlank t.1 = false) →
      (∀ id p, p ∈ s'.watch.thresholdsOf id ↔ p ∈ s.watch.thresholdsOf id ∨ (id, p) ∈ ts) →
      s'.watch.monitor.phase = .idle → s'.watch.monitor.starts = s.watch.monitor.starts →
      (∀ q : Request, s'.watch.notices.sent < (s'.report q).watch.notices.sent ↔
        ∃ a ∈ q.labels, s.watch.thresholds.IsExceededBy a ∨
          ∃ p, (a.objectId, p) ∈ ts ∧ a.priority.level < p.level) →
      (∀ us : List Threshold, (∃ t ∈ ts, t ∉ us) →
        (s'.watch.removeThresholds us).thresholds.isEmpty = false) →
      Fails s ts s' (.noStream why)

/-- How far the only call has got, where the monitor was started so many times before it. -/
inductive Progress (m : Monitor) (starts : Nat) : Listening → Prop where
  | waits : m.starts = starts → Progress m starts (.joining .waiting)
  | opens {o : Opening} : m.phase = .starting → m.starts = starts →
      Progress m starts (.joining (.opening o))
  | listens : Progress m starts (.over (.ok ()))
  | fails {why : String} : m.phase = .idle → m.starts = starts →
      Progress m starts (.over (.error (.noStream why)))

variable {s s' s'' : PrioritySession} {a : Act} {name : String} {ts : List Threshold} {i : Nat}
  {f : Fault} {x : Listening}

/-! ## What happens beside a call -/

/-- What happens beside a call concerns neither thresholds nor the monitor. -/
theorem eq_of_isAside (ha : a.IsAside) (s : PrioritySession) :
    (s.act a).watch.thresholds = s.watch.thresholds ∧
      (s.act a).watch.monitor = s.watch.monitor ∧ (s.act a).listeners = s.listeners := by
  cases a with
  | report r => exact ⟨s.watch.thresholds_observe r, s.watch.monitor_observe r, rfl⟩
  | announce _ | planOpenings _ | close | reopen | wait _ => exact ⟨rfl, rfl, rfl⟩
  | _ => exact ha.elim

/-- Only a monitor that runs reads, and what it reads changes no thresholds. -/
theorem eq_of_pump (h : s.step .pump = some s') :
    s.watch.monitor.isRunning ∧ s'.watch.thresholds = s.watch.thresholds ∧
      s'.watch.monitor.starts = s.watch.monitor.starts ∧ s'.listeners = s.listeners := by
  obtain ⟨w, hw, rfl⟩ := step_pump_cases h
  obtain ⟨place, hp, ⟨r, -, rfl⟩ | ⟨-, rfl⟩ | ⟨-, -, rfl⟩⟩ := PriorityWatch.pump_cases hw
  · refine ⟨(Monitor.isRunning_iff _).mpr ⟨place, hp⟩, s.watch.thresholds_observe r, ?_, rfl⟩
    rfl
  · exact ⟨(Monitor.isRunning_iff _).mpr ⟨place, hp⟩, rfl, rfl, rfl⟩
  · exact ⟨(Monitor.isRunning_iff _).mpr ⟨place, hp⟩, rfl, Monitor.starts_stop _, rfl⟩

theorem not_isJoining_of_unawaited (hq : s.isAwaited = false)
    (hi : s.listeners[i]? = some (name, x)) : x.isJoining = false :=
  Bool.eq_false_iff.mpr (List.any_eq_false.mp hq _ (List.mem_of_getElem? hi))

/-- While nobody calls and nobody is on the way, the thresholds stay as they are. -/
theorem Meanwhile.eq_of_unawaited (h : Meanwhile s s') (hq : s.isAwaited = false) :
    s'.watch.thresholds = s.watch.thresholds ∧ s'.listeners = s.listeners := by
  induction h with
  | refl => exact ⟨rfl, rfl⟩
  | @act s' a _ ha ih =>
      obtain ⟨hthresholds, -, hlisteners⟩ := eq_of_isAside ha s'
      exact ⟨hthresholds.trans ih.1, hlisteners.trans ih.2⟩
  | @turn s' s'' task _ hstep ih =>
      cases task with
      | pump =>
          obtain ⟨-, hthresholds, -, hlisteners⟩ := eq_of_pump hstep
          exact ⟨hthresholds.trans ih.1, hlisteners.trans ih.2⟩
      | listener i =>
          obtain ⟨name, j, _, _, _, hi, -⟩ := stepListener_eq_some hstep
          rw [ih.2] at hi
          cases not_isJoining_of_unawaited hq hi

/-! ## The call -/

/-- A step of the only call. -/
theorem Progress.join {w w' : PriorityWatch} {requested : Channel Request}
    {source source' : Source} {j : Joining} {r : Joined} {now starts : Nat}
    (h : Progress w.monitor starts (.joining j))
    (hj : w.join now requested source j = some (r, w', source')) :
    w'.thresholds = w.thresholds ∧ Progress w'.monitor starts r.listening := by
  obtain ⟨⟨r, m, source'⟩, hstep, heq⟩ := Option.map_eq_some_iff.mp hj
  have hstarts : w.monitor.starts = starts := by
    cases h with
    | waits hstarts => exact hstarts
    | opens _ hstarts => exact hstarts
  cases r with
  | notYet j' =>
      cases heq
      rcases Joining.step_cases hstep with ⟨-, -, hr, rfl, -⟩ | ⟨-, -, hr, -⟩ |
        ⟨_, _, _, -, -, -, hr, -⟩ | ⟨_, _, -, -, -, -, hr, -⟩
      · cases hr
        exact ⟨rfl, .opens rfl hstarts⟩
      all_goals cases hr
  | running =>
      cases heq
      exact ⟨PriorityWatch.thresholds_stopIfUnused _, .listens⟩
  | failed e =>
      cases heq
      obtain ⟨-, ⟨why, rfl⟩, rfl⟩ := Joining.abandon_of_failed hstep
      exact ⟨rfl, .fails rfl hstarts⟩

/-- Reading on does not concern a call that has to do with the monitor. -/
theorem Progress.of_isRunning {m m' : Monitor} {starts : Nat} (h : Progress m starts x)
    (hrun : m.isRunning) (hstarts : m'.starts = m.starts) : Progress m' starts x := by
  obtain ⟨place, hp⟩ := (Monitor.isRunning_iff m).mp hrun
  cases h with
  | waits heq => exact .waits (hstarts.trans heq)
  | opens hphase _ =>
      rw [hp] at hphase
      cases hphase
  | listens => exact .listens
  | fails hphase _ =>
      rw [hp] at hphase
      cases hphase

/-- The only call goes on its way, and its thresholds are those that it registered. -/
theorem Meanwhile.progress {s₀ : PrioritySession} (h : Meanwhile s s') (hq : s₀.isAwaited = false)
    (hlisteners : s.listeners = s₀.listeners ++ [(name, .joining .waiting)])
    (hstarts : s.watch.monitor.starts = s₀.watch.monitor.starts) :
    s'.watch.thresholds = s.watch.thresholds ∧ ∃ x, s'.listeners = s₀.listeners ++ [(name, x)] ∧
      Progress s'.watch.monitor s₀.watch.monitor.starts x := by
  induction h with
  | refl => exact ⟨rfl, _, hlisteners, .waits hstarts⟩
  | @act s' a _ ha ih =>
      obtain ⟨hthresholds, hmonitor, hsame⟩ := eq_of_isAside ha s'
      obtain ⟨heq, x, hx, hprogress⟩ := ih
      refine ⟨hthresholds.trans heq, x, hsame.trans hx, ?_⟩
      rw [hmonitor]
      exact hprogress
  | @turn s' s'' task _ hstep ih =>
      obtain ⟨heq, x, hx, hprogress⟩ := ih
      cases task with
      | pump =>
          obtain ⟨hrun, hthresholds, hcount, hsame⟩ := eq_of_pump hstep
          exact ⟨hthresholds.trans heq, x, hsame.trans hx, hprogress.of_isRunning hrun hcount⟩
      | listener i =>
          obtain ⟨name', j, r, w, source, hi, hj, rfl⟩ := stepListener_eq_some hstep
          have hown := hi
          rw [hx] at hown
          rcases Nat.lt_or_ge i s₀.listeners.length with hlt | hge
          · -- nobody else is on the way
            rw [List.getElem?_append_left hlt] at hown
            cases not_isJoining_of_unawaited hq hown
          · obtain rfl : i = s₀.listeners.length := by
              have hlt := (List.getElem?_eq_some_iff.mp hown).1
              rw [List.length_append, List.length_singleton] at hlt
              omega
            rw [List.getElem?_concat_length] at hown
            cases hown
            obtain ⟨hthresholds, hnext⟩ := hprogress.join hj
            refine ⟨hthresholds.trans heq, r.listening, ?_, hnext⟩
            simp [hx]

/-! ## What is left of it -/

/-- A request is told of exactly if one of its nodes exceeds a threshold. -/
theorem sent_lt_report_iff (s : PrioritySession) (q : Request) :
    s.watch.notices.sent < (s.report q).watch.notices.sent ↔
      ∃ a ∈ q.labels, s.watch.thresholds.IsExceededBy a := by
  have hlog := s.watch.log_observe q
  have hsent : (s.report q).watch.notices.sent =
      s.watch.notices.sent + (s.watch.thresholds.notice? q).toList.length := by
    have hlength := congrArg List.length hlog
    rwa [List.length_append, Array.length_toList, Array.length_toList] at hlength
  rw [hsent]
  constructor
  · intro hlt
    cases hfind : q.labels.find? s.watch.matchesAsk with
    | none =>
        have hnone : s.watch.thresholds.notice? q = none := Option.map_eq_none_iff.mpr hfind
        simp [hnone] at hlt
    | some a =>
        obtain ⟨hmatches, -⟩ := List.find?_eq_some_iff_append.mp hfind
        exact ⟨a, List.mem_of_find?_eq_some hfind, Thresholds.any_outranks_iff.mp hmatches⟩
  · rintro ⟨a, ha, hexceeds⟩
    cases hfind : q.labels.find? s.watch.matchesAsk with
    | none =>
        have hnot := List.find?_eq_none.mp hfind a ha
        exact absurd (Thresholds.any_outranks_iff.mpr hexceeds) hnot
    | some b =>
        have hsome : s.watch.thresholds.notice? q = some ⟨b.objectId, b.priority, q⟩ :=
          Option.map_eq_some_iff.mpr ⟨b, hfind, rfl⟩
        simp [hsome]

/-- A node exceeds one of several thresholds if it exceeds one of those before or one of the
new ones. -/
theorem isExceededBy_insertAll_iff {thresholds : Thresholds} {a : Ask} :
    (thresholds.insertAll ts).IsExceededBy a ↔ thresholds.IsExceededBy a ∨
      ∃ p, (a.objectId, p) ∈ ts ∧ a.priority.level < p.level := by
  simp only [Thresholds.IsExceededBy, Thresholds.mem_insertAll, or_and_right, exists_or]

/-- Whoever is answered at once is on the list, and nothing else changes. -/
theorem Meanwhile.answered {r : Except Fault Unit} (hq : s.isAwaited = false)
    (h : Meanwhile { s with listeners := s.listeners ++ [(name, .over r)] } s')
    (hend : s'.listeners[s.listeners.length]? = some (name, .over (.error f))) :
    r = .error f ∧ s'.watch.thresholds = s.watch.thresholds := by
  have hunawaited : isAwaited { s with listeners := s.listeners ++ [(name, .over r)] } = false := by
    simpa [isAwaited, Listening.isJoining] using hq
  obtain ⟨hthresholds, hlisteners⟩ := h.eq_of_unawaited hunawaited
  rw [hlisteners, List.getElem?_concat_length] at hend
  cases hend
  exact ⟨rfl, hthresholds⟩

/-- Whatever the state of the watch, a call that fails while no other is made leaves nothing
behind if it names a blank object, and its thresholds if the stream cannot be opened. -/
theorem fails_of_meanwhile (hq : s.isAwaited = false) (h : Meanwhile (s.listen name ts) s')
    (hend : s'.listeners[s.listeners.length]? = some (name, .over (.error f))) :
    s.Fails ts s' f := by
  unfold listen PriorityWatch.listen at h
  by_cases hblank : ts.any fun t => isBlank t.1
  · rw [if_pos hblank] at h
    obtain ⟨hr, hthresholds⟩ := h.answered hq hend
    cases hr
    refine .blank (List.any_eq_true.mp hblank) fun id => ?_
    rw [PriorityWatch.thresholdsOf, hthresholds, PriorityWatch.thresholdsOf]
  by_cases hnone : ts.isEmpty
  · rw [if_neg hblank, if_pos hnone] at h
    cases (h.answered hq hend).1
  rw [if_neg hblank, if_neg hnone] at h
  obtain ⟨hthresholds, x, hx, hprogress⟩ := h.progress hq rfl rfl
  change s'.watch.thresholds = s.watch.thresholds.insertAll ts at hthresholds
  rw [hx, List.getElem?_concat_length] at hend
  cases hend
  cases hprogress with
  | fails hidle hstarts =>
      refine .noStream (by simpa using hblank) ?_ hidle hstarts ?_ ?_
      · intro id p
        rw [PriorityWatch.mem_thresholdsOf, PriorityWatch.mem_thresholdsOf, hthresholds]
        exact Thresholds.mem_insertAll
      · intro q
        simp only [sent_lt_report_iff, hthresholds, isExceededBy_insertAll_iff]
      · rintro us ⟨t, ht, hkept⟩
        apply Thresholds.isEmpty_eq_false_iff.mpr
        refine ⟨t, ?_⟩
        rw [PriorityWatch.removeThresholds, PriorityWatch.thresholds_stopIfUnused, hthresholds]
        exact Thresholds.mem_eraseAll.mpr ⟨Thresholds.mem_insertAll.mpr (.inr ht), hkept⟩

theorem Meanwhile.of_takeTurns {tasks : List PriorityTask} (h : Meanwhile s s')
    (ht : system.takeTurns tasks s' = some s'') : Meanwhile s s'' := by
  induction tasks generalizing s' with
  | nil =>
      cases ht
      exact h
  | cons task tasks ih =>
      obtain ⟨s₁, hstep, ht⟩ := Option.bind_eq_some_iff.mp ht
      exact ih (h.turn hstep) ht

/-- The listeners who failed, and those who did not. -/
def verdicts (s : PrioritySession) : List (String × Option Fault) :=
  s.listeners.map fun
    | (name, .over (.error f)) => (name, some f)
    | (name, _) => (name, none)

theorem getElem?_of_verdicts {n : Nat} (h : s.verdicts[n]? = some (name, some f)) :
    s.listeners[n]? = some (name, .over (.error f)) := by
  rw [verdicts, List.getElem?_map] at h
  obtain ⟨⟨name', x⟩, hx, heq⟩ := Option.map_eq_some_iff.mp h
  rcases x with j | e | u
  · cases heq
  · cases heq
    exact hx
  · cases heq

/-- Somebody listened to a stream that has ended since. -/
def ofSilenced : PrioritySession where
  bulletin := (Bulletin.ofCapacity 1).close
  watch := (PriorityWatch.ofCapacity 1).addThresholds [("report", .low)]

/-- Another listener registers a second threshold, and finds the stream closed. -/
theorem fails_of_closed : ∃ s', Meanwhile (ofSilenced.listen "ann" [("report", .high)]) s' ∧
    ofSilenced.Fails [("report", .high)] s' (.noStream "closed") ∧
    s'.watch.thresholdsOf "report" = [.high, .low] := by
  have hturns : ∃ s' ∈ system.takeTurns [.listener 0, .listener 0]
      (ofSilenced.listen "ann" [("report", .high)]),
      s'.verdicts = [("ann", some (.noStream "closed"))] ∧
        s'.watch.thresholdsOf "report" = [.high, .low] := by
    decide +kernel
  obtain ⟨s', hs', hverdicts, hthresholds⟩ := hturns
  have hrun := Meanwhile.refl.of_takeTurns hs'
  have hend : s'.listeners[0]? = some ("ann", .over (.error (.noStream "closed"))) :=
    getElem?_of_verdicts (by rw [hverdicts]; rfl)
  exact ⟨s', hrun, fails_of_meanwhile rfl hrun hend, hthresholds⟩

/-- A new watch whose stream cannot be opened at first. -/
def ofRefused : PrioritySession where
  bulletin := .ofCapacity 1
  watch := .ofCapacity 1
  source := { plan := { failure := some "refused" } }

/-- The only call on a new watch fails and leaves its threshold behind. A request is told of
because of it, and a monitor that somebody else gets running is kept for it after that other
threshold is withdrawn. -/
theorem thresholds_kept_after_failure : ∃ s' s'',
    Meanwhile (ofRefused.listen "ann" [("report", .high)]) s' ∧
    s'.verdicts = [("ann", some (.noStream "refused"))] ∧
    ofRefused.watch.thresholdsOf "report" = [] ∧ s'.watch.thresholdsOf "report" = [.high] ∧
    (s'.report ((Request.of "report").withPriority .highest)).watch.notices.sent =
      s'.watch.notices.sent + 1 ∧
    Meanwhile ((s'.planOpenings {}).listen "bob" [("draft", .low)]) s'' ∧
    s''.verdicts = [("ann", some (.noStream "refused")), ("bob", none)] ∧
    (s''.removeThresholds [("draft", .low)]).watch.monitor.isRunning := by
  have hturns : ∃ s' ∈ system.takeTurns [.listener 0, .listener 0]
      (ofRefused.listen "ann" [("report", .high)]),
      (s'.verdicts = [("ann", some (.noStream "refused"))] ∧
        s'.watch.thresholdsOf "report" = [.high] ∧
        (s'.report ((Request.of "report").withPriority .highest)).watch.notices.sent =
          s'.watch.notices.sent + 1) ∧
      ∃ s'' ∈ system.takeTurns [.listener 1, .listener 1]
        ((s'.planOpenings {}).listen "bob" [("draft", .low)]),
        s''.verdicts = [("ann", some (.noStream "refused")), ("bob", none)] ∧
        (s''.removeThresholds [("draft", .low)]).watch.monitor.isRunning := by
    decide +kernel
  obtain ⟨s', hs', ⟨hverdicts, hthresholds, htold⟩, s'', hs'', hlater, hrunning⟩ := hturns
  exact ⟨s', s'', Meanwhile.refl.of_takeTurns hs', hverdicts, by decide +kernel, hthresholds, htold,
    Meanwhile.refl.of_takeTurns hs'', hlater, hrunning⟩

end PrioritySession

end LeasedLocks
