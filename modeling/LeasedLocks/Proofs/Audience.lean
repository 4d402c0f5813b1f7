import LeasedLocks.Proofs.Notices

/-!
# What an audience gets

Thresholds come and go, the monitor starts and stops, and requests are announced or handed
to the watch directly. After each of these deeds the tasks run until none can. A receiver of
notices that never falls behind gets one notice for every request that was looked at and
exceeds a threshold, in the order in which they were looked at, and no others; looking at
requests changes neither the thresholds nor what the monitor does (`Audience.Run.toldExactly`).
-/

namespace LeasedLocks

/-- Whoever cannot go on cannot go on either while the monitor just reads further. -/
theorem Joining.step_eq_none_of_starting_iff {now : Nat} {stream stream' : StreamEnd}
    {m m' : Monitor} {source source' : Source} {j : Joining}
    (h : j.step now stream m source = none)
    (hm : m'.phase = .starting ↔ m.phase = .starting) :
    j.step now stream' m' source' = none := by
  cases j with
  | waiting =>
      rw [Joining.step_waiting_eq_none_iff] at h ⊢
      exact hm.mpr h
  | opening o =>
      cases hd : o.due with
      | none => simp only [Joining.step, hd]
      | some due =>
          by_cases hle : due ≤ now
          · exact absurd h (Joining.step_opening_ne_none hd hle)
          · simp only [Joining.step, hd, if_neg hle]

namespace PrioritySession

variable {s s' : PrioritySession}

/-! ## Deeds -/

/-- What is done with a watch, or happens around it. -/
inductive Act where
  | listen (name : String) (ts : List Threshold)
  /-- A listener on the way gives up. -/
  | cancel (name : String)
  /-- Thresholds are withdrawn. -/
  | withdraw (ts : List Threshold)
  | shutdown
  /-- One request is handed to the watch directly. -/
  | report (r : Request)
  | announce (rs : List Request)
  | planOpenings (plan : OpeningPlan)
  | close
  | reopen
  /-- The listeners that are done are taken off the list. -/
  | takeOver
  /-- So much time passes. -/
  | wait (span : Nat)

def act (s : PrioritySession) : Act → PrioritySession
  | .listen name ts => s.listen name ts
  | .cancel name => s.cancel name
  | .withdraw ts => s.removeThresholds ts
  | .shutdown => s.shutdown
  | .report r => s.report r
  | .announce rs => s.announce rs
  | .planOpenings plan => s.planOpenings plan
  | .close => s.close
  | .reopen => s.reopen
  | .takeOver => s.takeOver.2
  | .wait span => { s with now := s.now + span }

/-- The requests that the watch looks at because of a deed: one that is handed to it, and
those that are announced while the monitor runs. -/
def observed (s : PrioritySession) : Act → List Request
  | .report r => [r]
  | .announce rs => if s.watch.monitor.isRunning then rs else []
  | _ => []

variable {a : Act}

/-- A deed that has no request looked at: the monitor stays as it is, or is idle and nobody
opens the stream. -/
structure LooksAtNothing (s s' : PrioritySession) : Prop where
  isDropped_eq : s'.isDropped = s.isDropped
  notices_eq : s'.watch.notices = s.watch.notices
  log_eq : s'.bulletin.requested.log = s.bulletin.requested.log
  openings_le : s'.openings ≤ s.openings
  phase_eq : s'.watch.monitor.phase = s.watch.monitor.phase ∨
    s'.watch.monitor.phase = .idle ∧ s'.openings = 0

theorem LooksAtNothing.isKept (h : LooksAtNothing s s') (hs : IsKept s) : IsKept s' where
  isDropped_eq := h.isDropped_eq.trans hs.isDropped_eq
  isOpen := h.notices_eq ▸ hs.isOpen
  openings_le := by
    rcases h.phase_eq with hp | ⟨-, hnone⟩
    · rw [hp]
      exact h.openings_le.trans hs.openings_le
    · exact hnone.trans_le (Nat.zero_le _)
  place_le := by
    intro place hplace
    rw [Channel.sent, h.log_eq]
    rcases h.phase_eq with hp | ⟨hp, -⟩
    · exact hs.place_le place (hp ▸ hplace)
    · rw [hp] at hplace
      cases hplace

theorem LooksAtNothing.told_eq (h : LooksAtNothing s s') (hu : s.unread = []) :
    s'.told = s.watch.notices.log.toList := by
  have hnone : s'.unread = [] := by
    unfold unread at hu ⊢
    rw [h.log_eq]
    rcases h.phase_eq with hp | ⟨hp, -⟩
    · rw [hp]
      exact hu
    · rw [hp]
  rw [told, hnone, h.notices_eq]
  simp

/-- Stopping the monitor has no request looked at. -/
theorem IsKept.phase_stop (hs : IsKept s) :
    s.watch.monitor.stop.phase = s.watch.monitor.phase ∨
      s.watch.monitor.stop.phase = .idle ∧ s.openings = 0 := by
  have hle := hs.openings_le
  unfold Monitor.stop
  split
  · next place hp =>
      rw [hp] at hle
      exact .inr ⟨rfl, by simpa using hle⟩
  · exact .inl rfl

theorem openings_append_of_eq_zero {name : String} {x : Listening} (hx : x.openings = 0) :
    ((s.listeners ++ [(name, x)]).map (·.2.openings)).sum = s.openings := by
  simp [openings, hx]

/-- Those who are left on the list open no more streams than all did, and fewer if one of those
who left did. -/
theorem sum_openings_filter (keep : String × Listening → Bool) (l : List (String × Listening)) :
    ((l.filter keep).map (·.2.openings)).sum ≤ (l.map (·.2.openings)).sum ∧
      ∀ p ∈ l, keep p = false →
        ((l.filter keep).map (·.2.openings)).sum + p.2.openings ≤ (l.map (·.2.openings)).sum := by
  have hsum : ((l.filter keep).map (·.2.openings)).sum +
      ((l.filter (!keep ·)).map (·.2.openings)).sum = (l.map (·.2.openings)).sum := by
    rw [← List.sum_append_nat, ← List.map_append]
    exact ((List.filter_append_perm keep l).map _).sum_nat
  refine ⟨by omega, ?_⟩
  intro p hp hkeep
  have hmem : p ∈ l.filter (!keep ·) := List.mem_filter.mpr ⟨hp, by simp [hkeep]⟩
  obtain ⟨i, hi⟩ := List.mem_iff_getElem?.mp hmem
  obtain ⟨n, hrest, -⟩ := exists_sum_set (fun p : String × Listening => p.2.openings) hi
  omega

theorem looksAtNothing_listen (s : PrioritySession) (name : String) (ts : List Threshold) :
    LooksAtNothing s (s.listen name ts) := by
  unfold listen PriorityWatch.listen
  by_cases hblank : ts.any fun t => isBlank t.1
  · rw [if_pos hblank]
    exact ⟨rfl, rfl, rfl, (openings_append_of_eq_zero rfl).le, .inl rfl⟩
  by_cases hnone : ts.isEmpty
  · rw [if_neg hblank, if_pos hnone]
    exact ⟨rfl, rfl, rfl, (openings_append_of_eq_zero rfl).le, .inl rfl⟩
  · rw [if_neg hblank, if_neg hnone]
    exact ⟨rfl, rfl, rfl, (openings_append_of_eq_zero rfl).le, .inl rfl⟩

theorem IsKept.looksAtNothing_cancel (hs : IsKept s) (name : String) :
    LooksAtNothing s (s.cancel name) := by
  unfold cancel
  split
  · next j hj =>
      obtain ⟨before, after, hl, -⟩ := List.lookup_eq_some_iff.mp hj
      have hmem : (name, Listening.joining j) ∈ s.listeners := by simp [hl]
      obtain ⟨hle, hlt⟩ := sum_openings_filter (·.1 != name) s.listeners
      refine ⟨rfl, rfl, rfl, hle, ?_⟩
      cases j with
      | waiting => exact .inl rfl
      | opening o =>
          -- whoever opens the stream is the only one
          have hone : s.openings ≤ 1 := by
            have := hs.openings_le
            split at this <;> omega
          have hrest := hlt _ hmem (by simp)
          change ((s.listeners.filter (·.1 != name)).map (·.2.openings)).sum + 1 ≤
            s.openings at hrest
          have hnone : ((s.listeners.filter (·.1 != name)).map (·.2.openings)).sum = 0 := by omega
          exact .inr ⟨rfl, hnone⟩
  · exact ⟨rfl, rfl, rfl, Nat.le_refl _, .inl rfl⟩

theorem IsKept.looksAtNothing_withdraw (hs : IsKept s) (ts : List Threshold) :
    LooksAtNothing s (s.removeThresholds ts) := by
  have hcases := PriorityWatch.stopIfUnused_cases
    { s.watch with thresholds := s.watch.thresholds.eraseAll ts }
  change (s.removeThresholds ts).watch = _ ∨ _ ∧ (s.removeThresholds ts).watch = _ at hcases
  rcases hcases with heq | ⟨-, heq⟩
  · exact ⟨rfl, by rw [heq], rfl, Nat.le_refl _, .inl (by rw [heq])⟩
  · refine ⟨rfl, by rw [heq], rfl, Nat.le_refl _, ?_⟩
    rw [heq]
    exact hs.phase_stop

/-- Deeds that have no request looked at. -/
theorem IsKept.looksAtNothing (hs : IsKept s) (hr : ∀ r, a ≠ .report r)
    (ha : ∀ rs, a ≠ .announce rs) : LooksAtNothing s (s.act a) := by
  cases a with
  | listen name ts => exact s.looksAtNothing_listen name ts
  | cancel name => exact hs.looksAtNothing_cancel name
  | withdraw ts => exact hs.looksAtNothing_withdraw ts
  | shutdown => exact ⟨rfl, rfl, rfl, Nat.le_refl _, hs.phase_stop⟩
  | report r => exact absurd rfl (hr r)
  | announce rs => exact absurd rfl (ha rs)
  | planOpenings plan => exact ⟨rfl, rfl, rfl, Nat.le_refl _, .inl rfl⟩
  | close => exact ⟨rfl, rfl, rfl, Nat.le_refl _, .inl rfl⟩
  | reopen => exact ⟨rfl, rfl, Monitor.log_renew _ _, Nat.le_refl _, .inl rfl⟩
  | takeOver =>
      exact ⟨rfl, rfl, rfl, (sum_openings_filter (·.2.isJoining) s.listeners).1, .inl rfl⟩
  | wait span => exact ⟨rfl, rfl, rfl, Nat.le_refl _, .inl rfl⟩

theorem IsKept.report (hs : IsKept s) (r : Request) : IsKept (s.report r) where
  isDropped_eq := hs.isDropped_eq
  isOpen := (s.watch.isClosed_observe r).trans hs.isOpen
  openings_le := by
    change s.openings ≤ if (s.watch.observe r).monitor.phase = .starting then 1 else 0
    rw [s.watch.monitor_observe]
    exact hs.openings_le
  place_le place hp := hs.place_le place (s.watch.monitor_observe r ▸ hp)

theorem IsKept.announce (hs : IsKept s) (rs : List Request) : IsKept (s.announce rs) where
  isDropped_eq := hs.isDropped_eq
  isOpen := hs.isOpen
  openings_le := hs.openings_le
  place_le place hp := (hs.place_le place hp).trans (Channel.sent_le_foldl_send rs _)

theorem IsKept.act (hs : IsKept s) (a : Act) : IsKept (s.act a) := by
  by_cases hr : ∃ r, a = .report r
  · obtain ⟨r, rfl⟩ := hr
    exact hs.report r
  by_cases ha : ∃ rs, a = .announce rs
  · obtain ⟨rs, rfl⟩ := ha
    exact hs.announce rs
  exact (hs.looksAtNothing (not_exists.mp hr) (not_exists.mp ha)).isKept hs

/-- Right after a deed, the requests that it has looked at are told of or still to be read. -/
theorem IsKept.told_act (hs : IsKept s) (hu : s.unread = []) (a : Act) :
    (s.act a).told = s.watch.notices.log.toList ++
      (s.observed a).filterMap s.watch.thresholds.notice? := by
  by_cases hr : ∃ r, a = .report r
  · obtain ⟨r, rfl⟩ := hr
    have hnone : (s.report r).unread = [] := by
      simpa only [unread, PrioritySession.report, s.watch.monitor_observe] using hu
    change (s.report r).told = _ ++ [r].filterMap _
    rw [told, hnone]
    change (s.watch.observe r).notices.log.toList ++ _ = _
    rw [s.watch.log_observe]
    cases h : s.watch.thresholds.notice? r with
    | none => simp [h]
    | some n => simp [h]
  by_cases ha : ∃ rs, a = .announce rs
  · obtain ⟨rs, rfl⟩ := ha
    suffices h : (s.announce rs).unread = s.observed (.announce rs) by
      change s.watch.notices.log.toList ++ (s.announce rs).unread.filterMap _ = _
      rw [h]
      rfl
    simp only [unread, observed, PrioritySession.announce, Channel.log_foldl_send] at hu ⊢
    split
    · next place hp =>
        simp only [hp] at hu
        have hplace := hs.place_le place hp
        have hend := List.drop_eq_nil_iff.mp hu
        simp only [Channel.sent, Array.length_toList] at hplace hend
        rw [if_pos ((Monitor.isRunning_iff _).mpr ⟨place, hp⟩), Array.toList_append,
          List.drop_append, hu, Array.length_toList, Nat.sub_eq_zero_of_le hplace]
        simp
    · next hnot =>
        rw [if_neg]
        intro hrun
        obtain ⟨place, hp⟩ := (Monitor.isRunning_iff _).mp hrun
        exact hnot place hp
  · have hobserved : s.observed a = [] := by
      cases a with
      | report r => exact absurd ⟨r, rfl⟩ hr
      | announce rs => exact absurd ⟨rs, rfl⟩ ha
      | _ => rfl
    rw [(hs.looksAtNothing (not_exists.mp hr) (not_exists.mp ha)).told_eq hu, hobserved]
    simp

/-! ## What looking at requests leaves alone -/

/-- The thresholds and what the monitor does are as before; it may have read on. -/
structure Undisturbed (s s' : PrioritySession) : Prop where
  thresholds_eq : s'.watch.thresholds = s.watch.thresholds
  idle_iff : s'.watch.monitor.phase = .idle ↔ s.watch.monitor.phase = .idle
  starting_iff : s'.watch.monitor.phase = .starting ↔ s.watch.monitor.phase = .starting
  starts_eq : s'.watch.monitor.starts = s.watch.monitor.starts
  stops_eq : s'.watch.monitor.stops = s.watch.monitor.stops
  listeners_eq : s'.listeners = s.listeners

/-- Requests are looked at or announced, and nothing else happens. -/
def Act.IsLook : Act → Prop
  | .report _ => True
  | .announce _ => True
  | _ => False

/-- What is the same right after a look as before, and while the monitor reads. -/
structure SameButRead (s s' : PrioritySession) : Prop extends Undisturbed s s' where
  now_eq : s'.now = s.now
  isClosed_eq : s'.bulletin.requested.isClosed = s.bulletin.requested.isClosed

theorem sameButRead_act (s : PrioritySession) (ha : a.IsLook) : SameButRead s (s.act a) := by
  cases a with
  | report r =>
      have hm := s.watch.monitor_observe r
      refine ⟨⟨s.watch.thresholds_observe r, ?_, ?_, ?_, ?_, rfl⟩, rfl, rfl⟩
      · exact iff_of_eq (congrArg (·.phase = .idle) hm)
      · exact iff_of_eq (congrArg (·.phase = .starting) hm)
      · exact congrArg Monitor.starts hm
      · exact congrArg Monitor.stops hm
  | announce rs =>
      exact ⟨⟨rfl, Iff.rfl, Iff.rfl, rfl, rfl, rfl⟩, rfl,
        Channel.isClosed_foldl_send rs s.bulletin.requested⟩
  | _ => exact ha.elim

/-- After a look at requests in a session at rest, nothing can be done but read on. -/
theorem SameButRead.step {task : PriorityTask} {s₁ s₂ : PrioritySession} (hs : IsKept s)
    (hq : system.Quiescent s) (h : SameButRead s s₁) (hstep : s₁.step task = some s₂) :
    SameButRead s s₂ := by
  cases task with
  | listener i =>
      exfalso
      obtain ⟨name, j, r, w, source, hi, hj, -⟩ := stepListener_eq_some hstep
      have hblocked := hq (.listener i)
      change s.stepListener i = none at hblocked
      rw [h.listeners_eq] at hi
      simp only [stepListener, hi, Option.map_eq_none_iff, PriorityWatch.join] at hblocked
      rw [PriorityWatch.join, h.now_eq,
        Joining.step_eq_none_of_starting_iff hblocked h.starting_iff] at hj
      cases hj
  | pump =>
      obtain ⟨w, hw, rfl⟩ := step_pump_cases hstep
      obtain ⟨place, hp, hcases⟩ := PriorityWatch.pump_cases hw
      have hidle : s.watch.monitor.phase ≠ .idle := by
        rw [ne_eq, ← h.idle_iff, hp]
        nofun
      have hstarting : s.watch.monitor.phase ≠ .starting := by
        rw [ne_eq, ← h.starting_iff, hp]
        nofun
      rcases hcases with ⟨r, -, rfl⟩ | ⟨-, rfl⟩ | ⟨-, hclosed, -⟩
      · refine ⟨⟨?_, ?_, ?_, h.starts_eq, h.stops_eq, h.listeners_eq⟩, h.now_eq, h.isClosed_eq⟩
        · exact (s₁.watch.thresholds_observe r).trans h.thresholds_eq
        · exact iff_of_false nofun hidle
        · exact iff_of_false nofun hstarting
      · refine ⟨⟨h.thresholds_eq, ?_, ?_, h.starts_eq, h.stops_eq, h.listeners_eq⟩, h.now_eq,
          h.isClosed_eq⟩
        · exact iff_of_false nofun hidle
        · exact iff_of_false nofun hstarting
      · -- a monitor at rest would have stopped at the end of the stream
        cases hphase : s.watch.monitor.phase with
        | idle => exact absurd hphase hidle
        | starting => exact absurd hphase hstarting
        | running next =>
            obtain ⟨-, hopen⟩ := PriorityWatch.pending_of_pump_eq_none
              (hs.pump_eq_none hq) hphase
            rw [h.isClosed_eq, hopen] at hclosed
            cases hclosed

theorem IsKept.undisturbed (hs : IsKept s) (hq : system.Quiescent s) (ha : a.IsLook)
    (h : system.Settles (s.act a) s') : Undisturbed s s' := by
  have hlook : SameButRead s s' := by
    apply h.preserves (SameButRead s) _ (s.sameButRead_act ha)
    exact fun h₁ h₂ => SameButRead.step hs hq h₁ h₂
  exact hlook.toUndisturbed

end PrioritySession

/-! ## Audiences -/

/-- A session, and a reader of its notices: where it is in them and what it got so far. -/
structure Audience where
  session : PrioritySession
  place : Nat := 0
  got : List (Reading PriorityNotice) := []

namespace Audience

open PrioritySession

/-- The reader takes the next notice, if there is one. -/
def receive (x : Audience) : Audience :=
  match x.session.notices.read x.place with
  | (.pending, _) => x
  | (found, place) => { x with place, got := x.got ++ [found] }

/-- From one audience to another by these deeds, each in the session that it found; in
between the reader takes notices. Tasks run until none can after every deed, and neither the
monitor nor the reader falls behind. -/
inductive Run : Audience → List (PrioritySession × Act) → Audience → Prop where
  | nil (x : Audience) : Run x [] x
  | act {x y : Audience} {h : List (PrioritySession × Act)} {a : Act} {s : PrioritySession} :
      Run x h y → (y.session.act a).KeepsUp → system.Settles (y.session.act a) s →
      s.notices.oldest ≤ y.place → Run x (h ++ [(y.session, a)]) { y with session := s }
  | receive {x y : Audience} {h : List (PrioritySession × Act)} :
      Run x h y → Run x h y.receive

/-- The requests that were looked at in a history, with the thresholds at that time. -/
def sightings (h : List (PrioritySession × Act)) : List (Thresholds × Request) :=
  h.flatMap fun (s, a) => (s.observed a).map (s.watch.thresholds, ·)

/-- A new watch over any stream, and a reader who is there from the start. -/
structure IsFresh (x : Audience) : Prop where
  watch_eq : ∃ capacity, x.session.watch = .ofCapacity capacity
  listeners_eq : x.session.listeners = []
  isDropped_eq : x.session.isDropped = false
  place_eq : x.place = 0
  got_eq : x.got = []

variable {x y : Audience} {h : List (PrioritySession × Act)}

/-- The invariant of all runs: the reader has got what these requests call for, or can get
it now. -/
structure HasGot (x : Audience) (xs : List (Thresholds × Request)) : Prop where
  isKept : IsKept x.session
  quiescent : system.Quiescent x.session
  oldest_le : x.session.watch.notices.oldest ≤ x.place
  place_le : x.place ≤ x.session.watch.notices.sent
  got_eq : x.got ++ (x.session.watch.notices.log.toList.drop x.place).map .item =
    (xs.filterMap fun p => p.1.notice? p.2).map .item

theorem hasGot_of_isFresh (hx : IsFresh x) : HasGot x [] := by
  obtain ⟨capacity, hw⟩ := hx.watch_eq
  have hlog : x.session.watch.notices.log = #[] := by
    rw [hw]
    rfl
  constructor
  case isKept =>
    refine ⟨hx.isDropped_eq, by rw [hw]; rfl, ?_, ?_⟩
    · rw [openings, hx.listeners_eq]
      exact Nat.zero_le _
    · rw [hw]
      nofun
  case quiescent =>
    intro task
    cases task with
    | listener i =>
        change x.session.stepListener i = none
        rw [stepListener, hx.listeners_eq]
        rfl
    | pump =>
        change (if x.session.isLost then none
          else (x.session.watch.pump x.session.bulletin.requested).map _) = none
        rw [hw]
        split <;> rfl
  case oldest_le =>
    rw [Channel.oldest, Channel.sent, hlog]
    simp
  case place_le =>
    rw [hx.place_eq]
    exact Nat.zero_le _
  case got_eq =>
    rw [hx.got_eq, hlog]
    simp

/-- What is told of after a deed comes behind what was told of before. -/
theorem HasGot.act {xs : List (Thresholds × Request)} {a : Act} {s : PrioritySession}
    (hx : HasGot x xs) (hk : (x.session.act a).KeepsUp)
    (hs : system.Settles (x.session.act a) s) (hle : s.notices.oldest ≤ x.place) :
    HasGot { x with session := s }
      (xs ++ (x.session.observed a).map (x.session.watch.thresholds, ·)) := by
  have hact := hx.isKept.act a
  have hlater := (hact.settles hs).isKept
  have hlog : s.watch.notices.log.toList = x.session.watch.notices.log.toList ++
      (x.session.observed a).filterMap x.session.watch.thresholds.notice? := by
    rw [log_of_settles hact hk hs]
    exact hx.isKept.told_act (hx.isKept.unread_eq_nil hx.quiescent) a
  have hplace : x.place ≤ x.session.watch.notices.log.toList.length := hx.place_le
  constructor
  case isKept => exact hlater
  case quiescent => exact hs.quiescent
  case oldest_le => exact hlater.notices_eq ▸ hle
  case place_le =>
    change x.place ≤ s.watch.notices.log.toList.length
    rw [hlog, List.length_append]
    exact Nat.le_add_right_of_le hplace
  case got_eq =>
    calc
      x.got ++ (s.watch.notices.log.toList.drop x.place).map .item
      _ = (x.got ++ (x.session.watch.notices.log.toList.drop x.place).map .item) ++
            ((x.session.observed a).filterMap x.session.watch.thresholds.notice?).map .item := by
          rw [hlog, List.drop_append_of_le_length hplace, List.map_append, List.append_assoc]
      _ = _ := by
          rw [hx.got_eq, ← List.map_append, List.filterMap_append, List.filterMap_map]
          rfl

/-- A notice that is taken was the next one to come. -/
theorem HasGot.receive {xs : List (Thresholds × Request)} (hx : HasGot x xs) :
    HasGot x.receive xs := by
  have hopen := hx.isKept.isOpen
  unfold Audience.receive
  rw [hx.isKept.notices_eq]
  rcases x.session.watch.notices.read_cases x.place with ⟨hlt, -⟩ | ⟨n, -, -, hr⟩ |
    ⟨-, -, hclosed, -⟩ | ⟨-, -, -, hr⟩
  · exact absurd hx.oldest_le (Nat.not_le_of_lt hlt)
  · rw [hr]
    obtain ⟨-, hle, hdrop⟩ := Channel.drop_of_read hr
    refine ⟨hx.isKept, hx.quiescent, Nat.le_succ_of_le hx.oldest_le, hle, ?_⟩
    rw [← hx.got_eq, hdrop, List.map_cons, List.append_assoc]
    rfl
  · rw [hopen] at hclosed
    cases hclosed
  · rw [hr]
    exact hx

theorem Run.hasGot (hrun : Run x h y) (hx : IsFresh x) : HasGot y (sightings h) := by
  induction hrun with
  | nil => exact hasGot_of_isFresh hx
  | act _ hk hs hle ih =>
      rw [sightings, List.flatMap_append, List.flatMap_singleton]
      exact ih.act hk hs hle
  | receive _ ih => exact ih.receive

/-- What holds of a reader who never fell behind. -/
structure ToldExactly (x : Audience) (h : List (PrioritySession × Act)) : Prop where
  /-- What it got and can get now is one notice for each request that calls for one. -/
  told : ∃ ns, Thresholds.Told (sightings h) ns ∧
    x.got ++ x.session.notices.drain x.place = ns.map .item
  /-- After any deed the tasks come to rest. -/
  settles : ∀ a, ∃ s, system.Settles (x.session.act a) s
  /-- Looking at requests changes neither the thresholds nor what the monitor does. -/
  undisturbed : ∀ (a : Act) (s : PrioritySession), a.IsLook →
    system.Settles (x.session.act a) s → Undisturbed x.session s

/-- Whatever happens to a new watch, a reader who never falls behind is told of the requests
that exceed a threshold, and of no others. -/
theorem Run.toldExactly (hrun : Run x h y) (hx : IsFresh x) : ToldExactly y h := by
  have hy := hrun.hasGot hx
  constructor
  case told =>
    refine ⟨_, Thresholds.told_filterMap (sightings h), ?_⟩
    rw [← hy.got_eq, hy.isKept.notices_eq, Channel.drain, if_neg (Nat.not_lt.mpr hy.oldest_le),
      Nat.max_eq_left hy.oldest_le, hy.isKept.isOpen]
    simp
  case settles => exact fun a => (hy.isKept.act a).exists_settles
  case undisturbed => exact fun a s ha hs => hy.isKept.undisturbed hy.quiescent ha hs

/-- A deed with the steps that the tasks take after it, or a turn of the reader. -/
inductive Scene where
  | act (a : Act) (tasks : List PriorityTask)
  | receive

/-- What a scene makes of an audience and its history; nothing if the tasks do not come to
rest, or somebody falls behind. -/
def next : Audience × List (PrioritySession × Act) → Scene →
    Option (Audience × List (PrioritySession × Act))
  | (x, h), .receive => some (x.receive, h)
  | (x, h), .act a tasks =>
    if (x.session.act a).KeepsUp then
      (system.takeTurns tasks (x.session.act a)).bind fun s =>
        if (system.ready s).isEmpty ∧ s.notices.oldest ≤ x.place then
          some ({ x with session := s }, h ++ [(x.session, a)])
        else none
    else none

theorem run_of_next {p q : Audience × List (PrioritySession × Act)} {scene : Scene}
    (hrun : Run x p.2 p.1) (hnext : next p scene = some q) : Run x q.2 q.1 := by
  obtain ⟨y, h⟩ := p
  cases scene with
  | receive =>
      cases hnext
      exact hrun.receive
  | act a tasks =>
      obtain ⟨hk, hnext⟩ := Option.ite_none_right_eq_some.mp hnext
      obtain ⟨s, hs, hnext⟩ := Option.bind_eq_some_iff.mp hnext
      obtain ⟨⟨hready, hle⟩, hnext⟩ := Option.ite_none_right_eq_some.mp hnext
      cases hnext
      have hq := (TaskSystem.quiescent_iff_ready_eq_nil mem_tasks_of_step).mpr
        (List.isEmpty_iff.mp hready)
      exact hrun.act hk (TaskSystem.settles_of_takeTurns hs hq) hle

theorem run_of_follow {p q : Audience × List (PrioritySession × Act)} {scenes : List Scene}
    (hrun : Run x p.2 p.1) (hscenes : scenes.foldlM next p = some q) : Run x q.2 q.1 := by
  induction scenes generalizing p with
  | nil =>
      cases hscenes
      exact hrun
  | cons scene scenes ih =>
      rw [List.foldlM_cons] at hscenes
      obtain ⟨p₁, hnext, hscenes⟩ := Option.bind_eq_some_iff.mp hscenes
      exact ih (run_of_next hrun hnext) hscenes

/-- Nobody listens yet; only one notice is kept. -/
def ofNewWatch : Audience := { session := { bulletin := .ofCapacity 2, watch := .ofCapacity 1 } }

/-- The root is not urgent at all; what is linked to it is more and more so. -/
def escalating : Request :=
  .node { objectId := "draft", priority := .lowest }
    [.node { objectId := "report", priority := .medium }
      [.node { objectId := "figure", priority := .low } []],
    .node { objectId := "report", priority := .highest } []]

/-- The report has two thresholds, of which the tree exceeds one. While the monitor is stopped
nobody looks at what is announced, and nothing comes of a request that is handed over. -/
def interrupted : List Scene :=
  [.act (.announce [escalating]) [],
    .act (.listen "ann" [("report", .high), ("report", .low), ("figure", .medium)])
      [.listener 0, .listener 0],
    .act (.announce [Request.of "figure", escalating]) [.pump, .pump], .receive,
    .act (.withdraw [("report", .high), ("report", .low), ("figure", .medium)]) [],
    .act (.announce [escalating]) [],
    .act (.report escalating) [],
    .act (.listen "bob" [("report", .medium)]) [.listener 1, .listener 1],
    .act (.report escalating) []]

/-- The object and the priority that are told of. -/
def heard? : Reading PriorityNotice → Option (String × Priority)
  | .item n => some (n.objectId, n.priority)
  | _ => none

theorem toldExactly_of_interrupted : ∃ y h, IsFresh ofNewWatch ∧ Run ofNewWatch h y ∧
    ToldExactly y h ∧ y.session.watch.monitor.stops = 1 ∧
    (y.got ++ y.session.notices.drain y.place).map heard? =
      [some ("report", .medium), some ("report", .highest)] := by
  have hfollow : (interrupted.foldlM next (ofNewWatch, [])).map
      (fun p => (p.1.session.watch.monitor.stops,
        (p.1.got ++ p.1.session.notices.drain p.1.place).map heard?)) =
        some (1, [some ("report", .medium), some ("report", .highest)]) := by
    decide +kernel
  obtain ⟨⟨y, h⟩, hy, hheard⟩ := Option.map_eq_some_iff.mp hfollow
  obtain ⟨hstops, hheard⟩ := Prod.mk.inj hheard
  have hfresh : IsFresh ofNewWatch := ⟨⟨_, rfl⟩, rfl, rfl, rfl, rfl⟩
  have hrun : Run ofNewWatch h y := run_of_follow (p := (ofNewWatch, [])) (.nil _) hy
  exact ⟨y, h, hfresh, hrun, hrun.toldExactly hfresh, hstops, hheard⟩

end Audience

end LeasedLocks
