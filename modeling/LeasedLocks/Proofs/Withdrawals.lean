import LeasedLocks.Proofs.Teardown
import LeasedLocks.Proofs.TicketAccounts

/-!
# Subscriptions that come to nothing

A subscriber on the way may be dropped, or fail to open the stream. Either way it leaves the
opening to others and gives its tickets back one by one, and nothing of it remains
(`UnlockSession.LeavesOnlyOthers`): the books account for the others alone, none of them is told
anything by it, and whoever waited for its opening goes on to open the stream.

## Implementation notes

A subscriber who is dropped and one who fails do the same to the watch. While the tickets come
back, the watch attends to the others and to a subscriber who waits with those that are left,
so whatever happens in between finds it in order.
-/

namespace LeasedLocks

/-! ## Leaving the watch -/

/-- The entry of an object counts those who wait for it. -/
theorem Waitlist.Accounts.count_eq_countP {w : Waitlist} {held : List Ticket} {id : String}
    {e : Entry} (h : w.Accounts held) (he : w.entries[id]? = some e) :
    e.count = held.countP fun t => t.objectId = id ∧ w.outcome? t = none := by
  rw [h.count_eq he, List.count]
  apply List.countP_congr
  intro t ht
  rw [beq_iff_eq, decide_eq_true_iff]
  constructor
  · rintro rfl
    exact ⟨rfl, h.unsettled he⟩
  · rintro ⟨rfl, ho⟩
    obtain ⟨e', he', hg⟩ := h.pending t ht ho
    rw [he] at he'
    cases he'
    rw [hg]

namespace UnlockWatch

variable {w w' : UnlockWatch} {j : Joining}

/-- Whoever fails to open the stream leaves it to others. -/
theorem eq_leave_of_failed {now : Nat} {freed : Channel (List String)} {s s' : Source} {f : Fault}
    (h : w.join now freed s j = some (.failed f, w', s')) :
    w' = w.leave j ∧ ∃ why, f = .noStream why := by
  obtain ⟨hstep, hlist⟩ := join_eq_some h
  obtain ⟨⟨o, rfl⟩, hwhy, hm⟩ := Joining.abandon_of_failed hstep
  refine ⟨?_, hwhy⟩
  cases w' with
  | mk list monitor =>
      cases hlist
      cases hm
      rfl

theorem starts_release (w : UnlockWatch) (t : Ticket) :
    (w.release t).monitor.starts = w.monitor.starts := by
  simp only [release]
  split
  · exact Monitor.starts_stop _
  · rfl

theorem starts_releaseAll (w : UnlockWatch) (ts : List Ticket) :
    (w.releaseAll ts).monitor.starts = w.monitor.starts := by
  induction ts generalizing w with
  | nil => rfl
  | cons t ts ih => exact (ih (w.release t)).trans (starts_release w t)

theorem starts_leave (w : UnlockWatch) (j : Joining) :
    (w.leave j).monitor.starts = w.monitor.starts := by
  cases j <;> rfl

theorem idle_releaseAll (h : w.monitor.phase = .idle) (ts : List Ticket) :
    (w.releaseAll ts).monitor.phase = .idle := by
  induction ts generalizing w with
  | nil => exact h
  | cons t ts ih =>
      apply ih
      simp only [release, Monitor.stop, h, ite_self]

end UnlockWatch

namespace UnlockSession

/-- The subscribers of other names. -/
def others (s : UnlockSession) (name : String) : List (String × Subscription) :=
  s.subscriptions.filter (·.1 != name)

/-- A subscriber ends without success: it is dropped, or it fails to open the stream. -/
inductive Withdraws (s : UnlockSession) (name : String) : UnlockSession → Prop where
  | dropped : Withdraws s name (s.drop name)
  | failed {i : Nat} {f : Fault} {s' : UnlockSession} : s.step (.subscriber i) = some s' →
      s'.subscriptions[i]? = some (name, .failed f) → Withdraws s name s'

/-- A subscriber who waited for the monitor starts to open the stream itself. -/
def StartsOpening (s : UnlockSession) (k : Nat) (s' : UnlockSession) : Prop :=
  ∃ name ts, s.subscriptions[k]? = some (name, .opening ts .waiting) ∧
    s' = { s with
      watch := { s.watch with monitor := { s.watch.monitor with phase := .starting } }
      subscriptions :=
        s.subscriptions.set k (name, .opening ts (.opening (s.source.plan.start s.now))) }

/-- The opening of the stream is left to those who wait for it: they are all that can take a
turn, and whoever does starts to open the stream. -/
structure OpeningIsFree (s : UnlockSession) : Prop where
  idle : s.watch.monitor.phase = .idle
  waiting : ∀ {name : String} {ts : List Ticket} {j : Joining},
    (name, .opening ts j) ∈ s.subscriptions → j = .waiting
  step_iff : ∀ {task : UnlockTask} {s' : UnlockSession},
    s.step task = some s' ↔ ∃ k, task = .subscriber k ∧ s.StartsOpening k s'

/-- A subscriber was on the way with these tickets and ends, and nothing of it remains. -/
structure LeavesOnlyOthers (s : UnlockSession) (name : String) (ts : List Ticket) (j : Joining)
    (s' : UnlockSession) : Prop where
  /-- The others are where they were. -/
  others_eq : s'.others name = s.others name
  /-- An error is all that may be left of it. -/
  gone : ∀ p ∈ s'.subscriptions, p.1 = name → ∃ why, p.2 = .failed (.noStream why)
  held_eq : s'.held = ticketsOf (s.others name)
  /-- Whenever it has given some of its tickets back and keeps the others, the watch attends to
  it as to somebody who waits, and nobody else has been told anything. -/
  midway : ∀ {given kept : List Ticket}, ts = given ++ kept →
    Attends ((s.watch.leave j).releaseAll given) s.bulletin.freed
        ((name, .opening kept .waiting) :: s.others name) ∧
      ∀ t ∈ ticketsOf (s.others name),
        ((s.watch.leave j).releaseAll given).list.outcome? t = s.watch.list.outcome? t
  outcome?_eq : ∀ t ∈ s'.held, s'.watch.list.outcome? t = s.watch.list.outcome? t
  /-- Unless the watch itself is gone, because nobody else held on to it. -/
  yield?_eq : s'.isLost = false → ∀ t ∈ s'.held, s'.yield? t = s.yield? t
  tickets_eq : s'.watch.list.tickets = s'.held.length
  mem_pendingIds_iff : ∀ id : String, id ∈ s'.watch.list.pendingIds ↔
    ∃ t ∈ s'.held, t.objectId = id ∧ s'.watch.list.outcome? t = none
  /-- An entry counts those who wait for its object. -/
  count_eq : ∀ {id : String} {e : Entry}, s'.watch.list.entries[id]? = some e →
    e.count = s'.held.countP fun t => t.objectId = id ∧ s'.watch.list.outcome? t = none
  starts_eq : s'.watch.monitor.starts = s.watch.monitor.starts
  /-- Before its end a turn of its counts as a start only if it succeeds by it. -/
  uncounted : ∀ {i : Nat} {s₁ : UnlockSession},
    s.subscriptions[i]? = some (name, .opening ts j) → s.step (.subscriber i) = some s₁ →
      s₁.watch.monitor.starts ≠ s.watch.monitor.starts →
        s₁.subscriptions[i]? = some (name, .ready (ts.map some))
  idle : s'.held = [] → s'.watch.monitor.phase = .idle
  isFree : ∀ {o : Opening}, j = .opening o → OpeningIsFree s'
  /-- Whatever happens next, those who wait at rest wait for somebody who opens the stream. -/
  awaited : ∀ {es : List Event} {s₂ : UnlockSession} {name' : String} {ts' : List Ticket},
    Run s' es s₂ → system.Quiescent s₂ → (name', .opening ts' .waiting) ∈ s₂.subscriptions →
      ∃ name'' ts'' o, (name'', .opening ts'' (.opening o)) ∈ s₂.subscriptions

/-- Whoever is on the way to a running monitor has tickets. -/
def Armed (l : List (String × Subscription)) : Prop :=
  ∀ p ∈ l, ∀ ts j, p.2 = .opening ts j → ts ≠ []

variable {w w' : UnlockWatch} {freed : Channel (List String)} {s s' : UnlockSession}
  {l : List (String × Subscription)} {name : String} {x y : Subscription}
  {ts given kept : List Ticket} {j : Joining} {e : Event} {es : List Event} {b : Bulletin}

/-! ## The others -/

theorem filter_set {i : Nat} (h : l[i]? = some (name, x)) (y : Subscription) :
    (l.set i (name, y)).filter (·.1 != name) = l.filter (·.1 != name) := by
  induction l generalizing i with
  | nil => cases h
  | cons p l ih =>
      cases i with
      | zero =>
          cases h
          simp
      | succ i => simp only [List.set_cons_succ, List.filter_cons, ih h]

/-- Only those who hold no ticket are left out. -/
theorem ticketsOf_filter (h : ∀ p ∈ l, p.1 = name → p.2.tickets = []) :
    ticketsOf (l.filter (·.1 != name)) = ticketsOf l := by
  induction l with
  | nil => rfl
  | cons p l ih =>
      have hrest := ih fun q hq => h q (List.mem_cons_of_mem p hq)
      by_cases hp : p.1 = name
      · rw [List.filter_cons_of_neg (by simpa using hp), hrest, ticketsOf_cons,
          h p List.mem_cons_self hp, List.nil_append]
      · rw [List.filter_cons_of_pos (by simpa using hp), ticketsOf_cons, ticketsOf_cons, hrest]

theorem mem_of_lookup (h : l.lookup name = some x) : (name, x) ∈ l := by
  obtain ⟨l₁, l₂, rfl, -⟩ := List.lookup_eq_some_iff.mp h
  exact List.mem_append_right l₁ List.mem_cons_self

/-- A name has one subscription. -/
theorem Sound.eq_of_mem (hs : Sound s) (hx : (name, x) ∈ s.subscriptions)
    (hy : (name, y) ∈ s.subscriptions) : x = y :=
  (Prod.mk.inj (List.inj_on_of_nodup_map hs.nodup hx hy rfl)).2

/-- The watch attends to somebody on the way, and to the others. -/
theorem Sound.attends_others (hs : Sound s)
    (hx : s.subscriptions.lookup name = some (.opening ts j)) :
    Attends s.watch s.bulletin.freed ((name, .opening ts j) :: s.others name) := by
  have hl := isLost_eq_false_of_opening (mem_of_lookup hx)
  exact (hs.attends hl).perm (perm_of_lookup hs.nodup hx).1

/-! ## Whoever is on the way has tickets -/

theorem armed_drop (h : Armed s.subscriptions) (name : String) :
    Armed (s.drop name).subscriptions := by
  rw [subscriptions_drop]
  exact fun p hp => h p (List.mem_filter.mp hp).1

theorem armed_subscribe (h : Armed s.subscriptions) (name : String) (ids : List String) :
    Armed (s.subscribe name ids).subscriptions := by
  have hdrop := armed_drop h name
  by_cases hids : ids = []
  · subst hids
    intro p hp ts j hx
    rcases List.mem_append.mp hp with hp | hp
    · exact hdrop p hp ts j hx
    · cases List.mem_singleton.mp hp
      cases hx
  · rw [subscribe_of_nonempty s name hids]
    intro p hp ts j hx
    rcases List.mem_append.mp hp with hp | hp
    · exact hdrop p hp ts j hx
    · cases List.mem_singleton.mp hp
      cases hx
      exact Link.register_ne_nil _ hids

theorem armed_dropAt (h : Armed s.subscriptions) (name : String) (k : Nat) :
    Armed (s.dropAt name k).subscriptions := by
  unfold dropAt
  split
  · intro p hp ts j hx
    obtain ⟨⟨n, x⟩, hq, rfl⟩ := List.mem_map.mp hp
    rw [subscriptions_releaseFrom] at hq
    by_cases hn : n == name
    · simp only [if_pos hn] at hx
      cases hx
    · simp only [if_neg hn] at hx
      exact h (n, x) hq ts j hx
  · exact h

theorem armed_stepSubscriber {i : Nat} (h : Armed s.subscriptions)
    (hstep : s.stepSubscriber i = some s') : Armed s'.subscriptions := by
  obtain ⟨name, ts, j, hi, r, w, source, -, hr⟩ := stepSubscriber_cases hstep
  have hne := h _ (List.mem_of_getElem? hi) ts j rfl
  have hput (x : Subscription) (hx : ∀ ts' j', x = .opening ts' j' → ts' = ts) :
      Armed (s.subscriptions.set i (name, x)) := by
    intro p hp ts' j' heq
    rcases List.mem_or_eq_of_mem_set hp with hp | rfl
    · exact h p hp ts' j' heq
    · exact hx ts' j' heq ▸ hne
  rcases hr with ⟨j', rfl, rfl⟩ | ⟨rfl, rfl⟩ | ⟨f, rfl, rfl⟩
  · exact hput _ fun _ _ heq => (Subscription.opening.inj heq).1.symm
  · exact hput _ fun _ _ heq => nomatch heq
  · exact hput _ fun _ _ heq => nomatch heq

theorem armed_of_next (h : Armed s.subscriptions) (hn : s.next e = some s') :
    Armed s'.subscriptions := by
  cases e with
  | subscribe name ids =>
      obtain ⟨-, hn⟩ := Option.ite_none_left_eq_some.mp hn
      cases hn
      exact armed_subscribe h name ids
  | drop name =>
      cases hn
      exact armed_drop h name
  | dropAt name k =>
      cases hn
      exact armed_dropAt h name k
  | report ids =>
      obtain ⟨-, hn⟩ := Option.ite_none_left_eq_some.mp hn
      cases hn
      unfold report
      split <;> exact h
  | shutdown =>
      obtain ⟨-, hn⟩ := Option.ite_none_left_eq_some.mp hn
      cases hn
      unfold shutdown
      split <;> exact h
  | announce batches =>
      obtain ⟨-, hn⟩ := Option.ite_none_left_eq_some.mp hn
      cases hn
      exact h
  | wait moment =>
      obtain ⟨-, hn⟩ := Option.ite_none_right_eq_some.mp hn
      cases hn
      exact h
  | close | reopen | dropWatch | planOpenings plan =>
      cases hn
      exact h
  | turn task =>
      cases task with
      | subscriber i => exact armed_stepSubscriber h hn
      | pump =>
          obtain ⟨-, w, -, rfl⟩ := step_pump_cases hn
          exact h

theorem Run.armed (h : Run s es s') (ha : Armed s.subscriptions) : Armed s'.subscriptions := by
  induction h with
  | nil => exact ha
  | cons hn _ ih => exact ih (armed_of_next ha hn)

/-! ## Starts -/

/-- A turn counts as a start only if the subscriber succeeds by it. -/
theorem ready_of_starts_ne {i : Nat} (hi : s.subscriptions[i]? = some (name, .opening ts j))
    (h : s.step (.subscriber i) = some s')
    (hne : s'.watch.monitor.starts ≠ s.watch.monitor.starts) :
    s'.subscriptions[i]? = some (name, .ready (ts.map some)) := by
  obtain ⟨name', ts', j', hi', r, w, source, hj, hr⟩ := stepSubscriber_cases h
  rw [hi] at hi'
  cases hi'
  have hlt := (List.getElem?_eq_some_iff.mp hi).1
  have hstep := (UnlockWatch.join_eq_some hj).1
  rcases hr with ⟨j₁, rfl, rfl⟩ | ⟨rfl, rfl⟩ | ⟨f, rfl, rfl⟩
  · -- it goes on to open the stream
    rcases Joining.step_cases hstep with ⟨-, -, -, hm, -⟩ | ⟨-, -, hr, -⟩ |
      ⟨_, _, _, -, -, -, hr, -⟩ | ⟨_, _, -, -, -, -, hr, -⟩
    · exact absurd (congrArg Monitor.starts hm) hne
    all_goals cases hr
  · exact List.getElem?_set_self hlt
  · obtain ⟨-, -, hm⟩ := Joining.abandon_of_failed hstep
    refine absurd ?_ hne
    rw [UnlockWatch.starts_releaseAll, hm]
    rfl

/-! ## The end of a subscription -/

theorem others_drop (s : UnlockSession) (name : String) :
    (s.drop name).others name = (s.drop name).subscriptions := by
  rw [others, subscriptions_drop, List.filter_filter]
  simp only [Bool.and_self]

/-- Both ends do the same to the watch and to the others. -/
theorem Withdraws.eqs (h : s.Withdraws name s') (hs : Sound s)
    (hx : s.subscriptions.lookup name = some (.opening ts j)) :
    s'.watch = (s.watch.leave j).releaseAll ts ∧ s'.others name = s.others name ∧
      (∀ p ∈ s'.subscriptions, p.1 = name → ∃ why, p.2 = .failed (.noStream why)) ∧
      ∃ e, s.next e = some s' := by
  have hmem := mem_of_lookup hx
  have hl := isLost_eq_false_of_opening hmem
  cases h with
  | dropped =>
      refine ⟨?_, ?_, ?_, .drop name, rfl⟩
      · simp only [drop, hx, releaseFrom, hl]
        rfl
      · rw [others_drop, subscriptions_drop, others]
      · intro p hp heq
        rw [subscriptions_drop] at hp
        have hne := (List.mem_filter.mp hp).2
        rw [heq] at hne
        simp at hne
  | @failed i f _ hstep hend =>
      obtain ⟨name', ts', j', hi, r, w, source, hj, hr⟩ := stepSubscriber_cases hstep
      have hlt := (List.getElem?_eq_some_iff.mp hi).1
      rcases hr with ⟨j₁, rfl, rfl⟩ | ⟨rfl, rfl⟩ | ⟨f', rfl, rfl⟩
      · rw [List.getElem?_set_self hlt] at hend
        cases hend
      · rw [List.getElem?_set_self hlt] at hend
        cases hend
      · rw [List.getElem?_set_self hlt] at hend
        cases hend
        cases hs.eq_of_mem hmem (List.mem_of_getElem? hi)
        obtain ⟨rfl, why, rfl⟩ := UnlockWatch.eq_leave_of_failed hj
        refine ⟨rfl, filter_set hi _, ?_, .turn (.subscriber i), hstep⟩
        rintro ⟨name', x⟩ hp rfl
        have hs' := (follows_stepSubscriber hs hstep).sound
        exact ⟨why, hs'.eq_of_mem hp (List.mem_of_getElem? (List.getElem?_set_self hlt))⟩

theorem Withdraws.sound (h : s.Withdraws name s') (hs : Sound s)
    (hx : s.subscriptions.lookup name = some (.opening ts j)) : Sound s' := by
  obtain ⟨-, -, -, e, hn⟩ := h.eqs hs hx
  exact (follows_of_next hs hn).sound

/-- While its tickets come back, the watch attends to the subscriber as to one who waits, and
the others are told nothing. -/
theorem Sound.midway (hs : Sound s)
    (hx : s.subscriptions.lookup name = some (.opening (given ++ kept) j)) :
    Attends ((s.watch.leave j).releaseAll given) s.bulletin.freed
        ((name, .opening kept .waiting) :: s.others name) ∧
      ∀ t ∈ ticketsOf (s.others name),
        ((s.watch.leave j).releaseAll given).list.outcome? t = s.watch.list.outcome? t := by
  have h := hs.attends_others hx
  obtain ⟨hw, hq⟩ := h.stepAside
  obtain ⟨hw', hq'⟩ := hw.releaseAll given ((name, .opening kept .waiting) :: s.others name)
    (List.append_assoc given kept (ticketsOf (s.others name)) ▸ .refl _) rfl (fun t ht => ht)
  refine ⟨hw', ?_⟩
  intro t ht
  have hlt := h.serves.accounts.held_lt t (List.mem_append_right _ ht)
  obtain ⟨-, hund⟩ := (hq.trans hq').kept t (List.mem_append_right _ ht) hlt
  exact hund.outcome?_eq

/-- Nobody but the others holds a ticket then. -/
theorem Withdraws.held_eq (h : s.Withdraws name s') (hs : Sound s)
    (hx : s.subscriptions.lookup name = some (.opening ts j)) :
    s'.held = ticketsOf (s.others name) := by
  obtain ⟨-, hothers, hgone, -⟩ := h.eqs hs hx
  rw [← hothers, others, ticketsOf_filter, held]
  intro p hp hname
  obtain ⟨why, hwhy⟩ := hgone p hp hname
  rw [hwhy]
  rfl

theorem Withdraws.accounts (h : s.Withdraws name s') (hs : Sound s)
    (hx : s.subscriptions.lookup name = some (.opening ts j)) :
    s'.watch.list.Accounts s'.held := by
  rw [h.held_eq hs hx, (h.eqs hs hx).1]
  exact (hs.attends_others hx).leave.1.serves.accounts

theorem Withdraws.outcome?_eq {t : Ticket} (h : s.Withdraws name s') (hs : Sound s)
    (hx : s.subscriptions.lookup name = some (.opening ts j)) (ht : t ∈ s'.held) :
    s'.watch.list.outcome? t = s.watch.list.outcome? t := by
  have hall : s.subscriptions.lookup name = some (.opening (ts ++ []) j) := by
    rw [List.append_nil]
    exact hx
  rw [h.held_eq hs hx] at ht
  rw [(h.eqs hs hx).1]
  exact (hs.midway hall).2 t ht

/-! ## What those who wait do -/

theorem openingsOf_eq_zero_iff (l : List (String × Subscription)) :
    openingsOf l = 0 ↔ ∀ p ∈ l, p.2.openings = 0 := by
  rw [openingsOf, List.sum_eq_zero_iff_forall_eq_nat, List.forall_mem_map]

/-- While the monitor is starting, somebody opens the stream. -/
theorem Attends.exists_opening (h : Attends w freed l) (hp : w.monitor.phase = .starting) :
    ∃ name ts o, (name, .opening ts (.opening o)) ∈ l := by
  have hone := h.serves.tracks.openings_eq
  rw [if_pos hp] at hone
  by_contra hnone
  have hzero : openingsOf l = 0 := by
    rw [openingsOf_eq_zero_iff]
    rintro ⟨name, x⟩ hmem
    cases x with
    | opening ts j =>
        cases j with
        | waiting => rfl
        | opening o => exact absurd ⟨name, ts, o, hmem⟩ hnone
    | failed f => rfl
    | ready ts => rfl
  omega

/-- While the monitor is idle, everybody on the way waits. -/
theorem Attends.waiting_of_idle (h : Attends w freed l) (hidle : w.monitor.phase = .idle)
    (hx : (name, .opening ts j) ∈ l) : j = .waiting := by
  have hnone := h.serves.tracks.openings_eq
  rw [hidle, if_neg (by simp), openingsOf_eq_zero_iff] at hnone
  cases j with
  | waiting => rfl
  | opening o => cases hnone _ hx

/-- The next who finds the monitor idle starts to open the stream, and nobody else can do
anything. -/
theorem Sound.openingIsFree (hs : Sound s) (hidle : s.watch.monitor.phase = .idle) :
    OpeningIsFree s := by
  have hwaiting : ∀ {name ts j}, (name, .opening ts j) ∈ s.subscriptions → j = .waiting :=
    fun hx => (hs.attends (isLost_eq_false_of_opening hx)).waiting_of_idle hidle hx
  refine ⟨hidle, hwaiting, ?_⟩
  intro task s'
  constructor
  · intro h
    cases task with
    | pump =>
        obtain ⟨-, w, hp, -⟩ := step_pump_cases h
        simp only [UnlockWatch.pump, hidle] at hp
        cases hp
    | subscriber k =>
        obtain ⟨name, ts, j, hk, r, w, source, hj, hr⟩ := stepSubscriber_cases h
        cases hwaiting (List.mem_of_getElem? hk)
        simp only [UnlockWatch.join, Joining.step, hidle, Option.map_some] at hj
        cases hj
        rcases hr with ⟨j', hr, rfl⟩ | ⟨hr, -⟩ | ⟨f, hr, -⟩
        · cases hr
          exact ⟨k, rfl, name, ts, hk, rfl⟩
        · cases hr
        · cases hr
  · rintro ⟨k, rfl, name, ts, hk, rfl⟩
    simp only [step, stepSubscriber, hk, UnlockWatch.join, Joining.step, hidle, Option.map_some]

/-- At rest nobody waits for an opening that nobody is busy with. -/
theorem Sound.exists_opening_of_quiescent (hs : Sound s) (hq : system.Quiescent s)
    (hx : (name, .opening ts .waiting) ∈ s.subscriptions) :
    ∃ name' ts' o, (name', .opening ts' (.opening o)) ∈ s.subscriptions := by
  obtain ⟨i, hi⟩ := List.getElem?_of_mem hx
  have hstep : s.step (.subscriber i) = none := hq (.subscriber i)
  simp only [step, stepSubscriber, hi, Option.map_eq_none_iff] at hstep
  have hp := Joining.step_waiting_eq_none_iff.mp (UnlockWatch.join_eq_none_iff.mp hstep)
  exact (hs.attends (isLost_eq_false_of_opening hx)).exists_opening hp

/-- The monitor is idle once those who are on the way are all gone. -/
theorem Attends.phase_eq_idle (h : Attends (w.releaseAll ts) freed l) (hne : ts ≠ [])
    (harmed : Armed l) (hnone : ticketsOf l = []) :
    (w.releaseAll ts).monitor.phase = .idle := by
  have hopen : openingsOf l = 0 := by
    rw [openingsOf_eq_zero_iff]
    rintro ⟨name, x⟩ hmem
    cases x with
    | opening ts j =>
        have hts : ts = [] := List.flatMap_eq_nil_iff.mp hnone _ hmem
        exact absurd hts (harmed _ hmem ts j rfl)
    | failed f => rfl
    | ready ts => rfl
  have hruns : (w.releaseAll ts).RunsForTickets := by
    cases ts with
    | nil => exact absurd rfl hne
    | cons t ts => exact (w.runsForTickets_release t).releaseAll ts
  have hserves := h.serves
  rw [hnone, hopen] at hserves
  exact hruns.phase_eq_idle hserves

/-! ## Nothing remains -/

/-- Whatever happened before, a subscriber who is dropped on the way or fails to open the stream
leaves no trace, and whoever waited for its opening takes it over. -/
theorem leavesOnlyOthers_of_withdraws (hr : Run { bulletin := b } es s)
    (hx : s.subscriptions.lookup name = some (.opening ts j)) (h : s.Withdraws name s') :
    LeavesOnlyOthers s name ts j s' := by
  have hs := hr.sound (sound_initial b)
  have hs' := h.sound hs hx
  have harmed : Armed s.subscriptions := hr.armed fun p hp => nomatch hp
  have hmem := mem_of_lookup hx
  have hheld := h.held_eq hs hx
  have haccounts := h.accounts hs hx
  obtain ⟨hwatch, hothers, hgone, -⟩ := h.eqs hs hx
  constructor
  case others_eq => exact hothers
  case gone => exact hgone
  case held_eq => exact hheld
  case midway =>
    rintro given kept rfl
    exact hs.midway hx
  case outcome?_eq => exact fun t ht => h.outcome?_eq hs hx ht
  case yield?_eq =>
    intro hl' t ht
    have hl := isLost_eq_false_of_opening hmem
    rw [yield?, yield?, h.outcome?_eq hs hx ht, hl, hl']
  case tickets_eq => exact haccounts.tickets_eq
  case mem_pendingIds_iff => exact haccounts.mem_pendingIds_iff
  case count_eq => exact haccounts.count_eq_countP
  case starts_eq => rw [hwatch, UnlockWatch.starts_releaseAll, UnlockWatch.starts_leave]
  case uncounted => exact ready_of_starts_ne
  case idle =>
    intro hnone
    rw [hwatch]
    apply (hs.attends_others hx).leave.1.phase_eq_idle (harmed _ hmem ts j rfl)
    · exact fun p hp => harmed p (List.mem_filter.mp hp).1
    · exact hheld.symm.trans hnone
  case isFree =>
    rintro o rfl
    apply hs'.openingIsFree
    rw [hwatch]
    exact UnlockWatch.idle_releaseAll rfl ts
  case awaited => exact fun hrun hq hx' => (hrun.sound hs').exists_opening_of_quiescent hq hx'

/-- The first of two subscribers who share an entry opens the stream and is refused. The entry
is kept for the other one alone, who starts to open the stream itself. -/
theorem leavesOnlyOthers_of_refused :
    ∃ s s' : UnlockSession,
      Run { bulletin := ⟨{ capacity := 1 }, { capacity := 1 }⟩ }
        [.planOpenings { failure := some "refused" }, .subscribe "a" ["x", "y"],
          .turn (.subscriber 0), .subscribe "b" ["x"]] s ∧
      s.Withdraws "a" s' ∧
      LeavesOnlyOthers s "a" [⟨"x", 1⟩, ⟨"y", 2⟩]
        (.opening ⟨some 0, some "refused", some "closed"⟩) s' ∧
      s.watch.list.entries["x"]? = some ⟨1, 2⟩ ∧ s'.watch.list.entries["x"]? = some ⟨1, 1⟩ ∧
      s'.watch.list.pendingIds = ["x"] ∧ s'.watch.list.tickets = 1 ∧
      ∃ s'', s'.StartsOpening 1 s'' := by
  have hrun : Run { bulletin := ⟨{ capacity := 1 }, { capacity := 1 }⟩ }
      [.planOpenings { failure := some "refused" }, .subscribe "a" ["x", "y"],
        .turn (.subscriber 0), .subscribe "b" ["x"]] _ :=
    .cons rfl (.cons rfl (.cons rfl (.cons rfl (.nil _))))
  have hturn {s s' : UnlockSession} (h : s.step (.subscriber 0) = some s')
      (hend : s'.subscriptions[0]? = some ("a", .failed (.noStream "refused"))) :
      s.Withdraws "a" s' := .failed h hend
  refine ⟨_, _, hrun, hturn rfl rfl,
    leavesOnlyOthers_of_withdraws hrun rfl (hturn rfl rfl), ?_, ?_, ?_, rfl, _, "b", _, rfl, rfl⟩
  · decide +kernel
  · decide +kernel
  · decide +kernel

end UnlockSession

end LeasedLocks
