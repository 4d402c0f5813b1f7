import LeasedLocks.Proofs.SubscriberRuns

/-!
# Subscribers hear of every freed object, once

Whoever subscribed before a batch was announced has the news when the tasks have
come to rest, nobody hears of an object without a notice, and what a ticket yields
stays what it is. The proofs follow a ticket through a run: it is settled by one
event, and that event gives the reason.
-/

namespace LeasedLocks

/-- How many steps a subscriber can still take. -/
def Subscription.stepsLeft : Subscription → Nat
  | opening _ j => j.stepsLeft
  | _ => 0

namespace UnlockSession

/-- An event that says that the object became free, or that notices were missed. -/
def Tells (s : UnlockSession) (id : String) : Event → Prop
  | .report ids => id ∈ ids
  | .turn .pump => s.watch.Hears s.bulletin.freed id
  | _ => False

/-- An event after which nobody is told any more: a shutdown, the end of the
stream, or the loss of the watch. -/
def Cancels (s : UnlockSession) (e : Event) (s' : UnlockSession) : Prop :=
  e = .shutdown ∨ e = .turn .pump ∧ s.watch.reading? s.bulletin.freed = some .closed ∨
    s.isLost = false ∧ s'.isLost

/-- The ticket yields true, or the monitor has yet to read a notice for it. -/
def Promised (s : UnlockSession) (t : Ticket) : Prop :=
  s.yield? t = some true ∨
    s.isLost = false ∧ s.yield? t = none ∧ s.watch.Expects s.bulletin.freed t.objectId

variable {s s' s'' : UnlockSession} {e : Event} {es : List Event} {t : Ticket} {b : Bool}
  {name : String} {ids : List String}

/-! ## What a ticket yields -/

theorem yield?_eq_none_iff (s : UnlockSession) (t : Ticket) :
    s.yield? t = none ↔ s.watch.list.outcome? t = none ∧ s.isLost = false := by
  unfold yield?
  cases s.watch.list.outcome? t <;> cases s.isLost <;> simp

theorem yield?_eq_some_iff (s : UnlockSession) (t : Ticket) (b : Bool) :
    s.yield? t = some b ↔ s.watch.list.outcome? t = some b ∨
      s.watch.list.outcome? t = none ∧ s.isLost ∧ b = false := by
  unfold yield?
  cases s.watch.list.outcome? t <;> cases s.isLost <;> simp [eq_comm]

/-- An event does not change what a ticket yields. -/
theorem Follows.yield?_eq_some (h : Follows s e s') (hy : s.yield? t = some b) :
    s'.yield? t = some b := by
  rw [yield?_eq_some_iff] at hy ⊢
  rcases hy with ho | ⟨ho, hl, rfl⟩
  · exact .inl (h.grows.outcomes ho)
  · obtain ⟨hl', hw⟩ := h.lost hl
    exact .inr ⟨hw ▸ ho, hl', rfl⟩

/-- An event settles a ticket that is kept for a reason only. -/
theorem Follows.settles (hs : Sound s) (h : Follows s e s') (hy : s.yield? t = none)
    (ht : t ∈ s'.held) (hlt : t.generation < s.watch.list.nextGeneration)
    (hy' : s'.yield? t = some b) :
    b = true ∧ Tells s t.objectId e ∨ b = false ∧ Cancels s e s' := by
  obtain ⟨ho, hl⟩ := (yield?_eq_none_iff s t).mp hy
  have hserves := (hs.attends hl).serves
  have hheld := h.holds t ht hlt
  rcases (yield?_eq_some_iff s' t b).mp hy' with ho' | ⟨-, hl', rfl⟩
  · cases h.noticed hl t ht hlt with
    | nothing hund =>
        rw [hund.outcome?_eq, ho] at ho'
        cases ho'
    | @report ids _ hw =>
        have hset := hserves.accounts.outcome?_settleAll_of_held hheld true ids
        rw [hw] at ho'
        change (s.watch.list.settleAll true ids).outcome? t = some b at ho'
        rw [ho', ho] at hset
        by_cases hmem : t.objectId ∈ ids
        · rw [if_pos ⟨rfl, hmem⟩] at hset
          exact .inl ⟨Option.some.inj hset, hmem⟩
        · rw [if_neg fun h => hmem h.2] at hset
          cases hset
    | shutdown hw =>
        rw [hw, hserves.outcome?_shutdown hheld, ho] at ho'
        cases ho'
        exact .inr ⟨rfl, .inl rfl⟩
    | pump hp _ =>
        rcases hserves.outcome?_pump hheld hp with hEq | ⟨-, htrue, hhears⟩ | ⟨-, hfalse, hread⟩
        · rw [hEq, ho] at ho'
          cases ho'
        · rw [htrue] at ho'
          cases ho'
          exact .inl ⟨rfl, hhears⟩
        · rw [hfalse] at ho'
          cases ho'
          exact .inr ⟨rfl, .inr (.inl ⟨rfl, hread⟩)⟩
  · exact .inr ⟨rfl, .inr (.inr ⟨hl, hl'⟩)⟩

/-- Unless it is a shutdown, an event keeps what was promised. -/
theorem Follows.promised (hs : Sound s) (h : Follows s e s') (hp : Promised s t)
    (hne : e ≠ .shutdown) (hl' : s'.isLost = false) (ht : t ∈ s'.held)
    (hlt : t.generation < s.watch.list.nextGeneration) : Promised s' t := by
  rcases hp with hy | ⟨hl, hy, hexp⟩
  · exact .inl (h.yield?_eq_some hy)
  have hserves := (hs.attends hl).serves
  have hheld := h.holds t ht hlt
  cases hy' : s'.yield? t with
  | some b =>
      rcases h.settles hs hy ht hlt hy' with ⟨rfl, -⟩ | ⟨-, hshut | ⟨-, hread⟩ | ⟨-, hlost⟩⟩
      · exact .inl hy'
      · exact absurd hshut hne
      · exact absurd hread hexp.reading?_ne_closed
      · rw [hl'] at hlost
        cases hlost
  | none =>
      refine .inr ⟨hl', hy', ?_⟩
      have ho' := ((yield?_eq_none_iff s' t).mp hy').1
      cases h.noticed hl t ht hlt with
      | nothing hund => exact (hund.expects hexp).mono h.log
      | report hw =>
          rw [hw]
          exact UnlockWatch.Expects.mono hexp h.log
      | shutdown _ => exact absurd rfl hne
      | pump hp hb =>
          rw [hb]
          exact hserves.expects_pump hheld hp hexp ho'

/-! ## Runs -/

theorem sound_initial (b : Bulletin) : Sound { bulletin := b } where
  nodup := List.nodup_nil
  attends _ := ⟨.initial _, fun _ ht => nomatch ht⟩

/-- What every event keeps is kept in a run. -/
theorem Run.preserves (I : UnlockSession → Prop)
    (hI : ∀ {s s' : UnlockSession} {e : Event}, Follows s e s' → I s → I s')
    (hs : Sound s) (h : Run s es s') (h₀ : I s) : I s' := by
  induction h with
  | nil => exact h₀
  | cons hn _ ih =>
      have hf := follows_of_next hs hn
      exact ih hf.sound (hI hf h₀)

theorem Run.sound (hs : Sound s) (h : Run s es s') : Sound s' :=
  h.preserves Sound (fun hf _ => hf.sound) hs hs

theorem Run.isLost (hs : Sound s) (h : Run s es s') (hl : s.isLost) : s'.isLost :=
  h.preserves (fun s => s.isLost) (fun hf hl => (hf.lost hl).1) hs hl

/-- Who holds a ticket that was there before has held it since. -/
theorem Run.holds (hs : Sound s) (h : Run s es s') (ht : t ∈ s'.held)
    (hlt : t.generation < s.watch.list.nextGeneration) : t ∈ s.held := by
  induction h with
  | nil => exact ht
  | cons hn _ ih =>
      have hf := follows_of_next hs hn
      exact hf.holds t (ih hf.sound ht (Nat.lt_of_lt_of_le hlt hf.grows.next_le)) hlt

/-- What a ticket yields never changes. -/
theorem Run.yield?_eq_some (hs : Sound s) (h : Run s es s') (hy : s.yield? t = some b) :
    s'.yield? t = some b :=
  h.preserves (fun s => s.yield? t = some b) (fun hf hy => hf.yield?_eq_some hy) hs hy

/-- A ticket that is settled in a run is settled by one of its events. -/
theorem Run.exists_settles (hs : Sound s) (h : Run s es s') (hy : s.yield? t = none)
    (ht : t ∈ s'.held) (hlt : t.generation < s.watch.list.nextGeneration)
    (hy' : s'.yield? t = some b) :
    ∃ es₁ e es₂ s₁ s₂, es = es₁ ++ e :: es₂ ∧ Run s es₁ s₁ ∧ s₁.next e = some s₂ ∧
      Run s₂ es₂ s' ∧ (b = true ∧ Tells s₁ t.objectId e ∨ b = false ∧ Cancels s₁ e s₂) := by
  induction h with
  | nil s =>
      rw [hy] at hy'
      cases hy'
  | @cons s s₁ s' e es hn hr ih =>
      have hf := follows_of_next hs hn
      have hlt' := Nat.lt_of_lt_of_le hlt hf.grows.next_le
      cases hy₁ : s₁.yield? t with
      | none =>
          obtain ⟨es₁, f, es₂, u, v, rfl, hu, huv, hv, hcause⟩ :=
            ih hf.sound hy₁ ht hlt' hy'
          exact ⟨e :: es₁, f, es₂, u, v, rfl, .cons hn hu, huv, hv, hcause⟩
      | some c =>
          have hEq := hr.yield?_eq_some hf.sound hy₁
          rw [hy'] at hEq
          cases hEq
          have hheld := hr.holds hf.sound ht hlt'
          exact ⟨[], e, es, s, s₁, rfl, .nil s, hn, hr, hf.settles hs hy hheld hlt hy₁⟩

theorem Run.promised (hs : Sound s) (h : Run s es s') (hp : Promised s t)
    (hne : Event.shutdown ∉ es) (hl : s'.isLost = false) (ht : t ∈ s'.held)
    (hlt : t.generation < s.watch.list.nextGeneration) : Promised s' t := by
  induction h with
  | nil => exact hp
  | @cons s s₁ s' e es hn hr ih =>
      have hf := follows_of_next hs hn
      have hlt' := Nat.lt_of_lt_of_le hlt hf.grows.next_le
      have hl₁ : s₁.isLost = false := by
        rw [Bool.eq_false_iff]
        intro hlost
        rw [hr.isLost hf.sound hlost] at hl
        cases hl
      have hne₁ : e ≠ .shutdown := fun hEq => hne (hEq ▸ List.mem_cons_self)
      exact ih hf.sound (hf.promised hs hp hne₁ hl₁ (hr.holds hf.sound ht hlt') hlt)
        (fun hmem => hne (List.mem_cons_of_mem _ hmem)) hl ht hlt'

/-- At rest the monitor has read all that was promised. -/
theorem Promised.yield?_of_quiescent (hp : Promised s t) (hq : system.Quiescent s) :
    s.yield? t = some true := by
  rcases hp with hy | ⟨hl, -, hexp⟩
  · exact hy
  · have hstep : s.step .pump = none := hq .pump
    simp only [step, hl] at hstep
    exact absurd hexp (UnlockWatch.not_expects_of_pump_eq_none (Option.map_eq_none_iff.mp hstep))

/-! ## Coming to rest -/

/-- How many steps these subscribers can still take. -/
def stepsOf (l : List (String × Subscription)) : Nat := (l.map (·.2.stepsLeft)).sum

/-- Bounds the turns that the tasks can take while nothing else happens. -/
def effort (s : UnlockSession) : Nat :=
  stepsOf s.subscriptions * (s.bulletin.freed.sent + 2) + s.watch.readings s.bulletin.freed

theorem stepsOf_set_lt {l : List (String × Subscription)} {i : Nat}
    {p q : String × Subscription} (hp : l[i]? = some p) (hlt : q.2.stepsLeft < p.2.stepsLeft) :
    stepsOf (l.set i q) < stepsOf l := by
  obtain ⟨hl, hset⟩ := perm_of_getElem? hp
  rw [stepsOf, stepsOf, ((hset q).map _).sum_nat, (hl.map _).sum_nat]
  simp only [List.map_cons, List.sum_cons]
  exact Nat.add_lt_add_right hlt _

theorem effort_lt_of_step {task : UnlockTask} (h : s.step task = some s') :
    s'.effort < s.effort := by
  cases task with
  | subscriber i =>
      obtain ⟨name, ts, j, hi, r, w, source, hj, hr⟩ := stepSubscriber_cases h
      have hleft := Joining.stepsLeft_lt (UnlockWatch.join_eq_some hj).1
      have hbound : stepsOf s'.subscriptions < stepsOf s.subscriptions ∧
          s'.bulletin = s.bulletin := by
        rcases hr with ⟨j', rfl, rfl⟩ | ⟨rfl, rfl⟩ | ⟨f, rfl, rfl⟩
        · exact ⟨stepsOf_set_lt hi hleft, rfl⟩
        · exact ⟨stepsOf_set_lt hi hleft, rfl⟩
        · exact ⟨stepsOf_set_lt hi hleft, rfl⟩
      obtain ⟨hlt, hb⟩ := hbound
      have hread := s'.watch.readings_le s'.bulletin.freed
      rw [effort, effort, hb] at *
      calc
        stepsOf s'.subscriptions * (s.bulletin.freed.sent + 2) + s'.watch.readings s.bulletin.freed
        _ < stepsOf s'.subscriptions * (s.bulletin.freed.sent + 2) +
            (s.bulletin.freed.sent + 2) := by omega
        _ = (stepsOf s'.subscriptions + 1) * (s.bulletin.freed.sent + 2) :=
          (Nat.succ_mul _ _).symm
        _ ≤ stepsOf s.subscriptions * (s.bulletin.freed.sent + 2) :=
          Nat.mul_le_mul_right _ hlt
        _ ≤ _ := Nat.le_add_right _ _
  | pump =>
      obtain ⟨-, w, hp, rfl⟩ := step_pump_cases h
      exact Nat.add_lt_add_left (UnlockWatch.readings_lt_of_pump hp) _

/-- Left to themselves, the tasks come to rest. -/
theorem Run.length_le_effort (h : Run s es s') (hturn : ∀ e ∈ es, ∃ task, e = .turn task) :
    es.length ≤ s.effort := by
  induction h with
  | nil => exact Nat.zero_le _
  | cons hn _ ih =>
      obtain ⟨task, rfl⟩ := hturn _ List.mem_cons_self
      have hlt := effort_lt_of_step hn
      have hle := ih fun e he => hturn e (List.mem_cons_of_mem _ he)
      exact Nat.le_trans (Nat.succ_le_succ hle) hlt

/-! ## Delivery -/

theorem mem_confirmedOf {places : List (Option Ticket)} {l : List (String × Subscription)}
    (hx : (name, .ready places) ∈ l) (ht : some t ∈ places) : t ∈ confirmedOf l :=
  List.mem_flatMap.mpr ⟨_, hx, List.mem_filterMap.mpr ⟨_, ht, rfl⟩⟩

/-- What is announced is promised to those who have confirmed tickets for it. -/
theorem Sound.promised_announce {batches : List (List String)} {batch : List String}
    (hs : Sound s) (hl : s.isLost = false) (ht : t ∈ confirmedOf s.subscriptions)
    (hy : s.yield? t ≠ some false) (hbatch : batch ∈ batches) (hid : t.objectId ∈ batch) :
    Promised (s.announce batches) t := by
  have hw := hs.attends hl
  cases hs' : s.yield? t with
  | some b =>
      cases b with
      | true => exact .inl hs'
      | false => exact absurd hs' hy
  | none =>
      refine .inr ⟨hl, hs', ?_⟩
      have hrun := hw.assured t ht ((yield?_eq_none_iff s t).mp hs').1
      obtain ⟨place, hp⟩ := (Monitor.isRunning_iff _).mp hrun
      obtain ⟨k, hk, rfl⟩ := List.getElem_of_mem hbatch
      have hle := hw.serves.place_le hp
      refine ⟨place, s.bulletin.freed.sent + k, batches[k], hp,
        Nat.le_trans hle (Nat.le_add_right _ _), ?_, hid⟩
      rw [log_announce, Channel.sent, Array.getElem?_append_right (Nat.le_add_right _ _)]
      simp [hk]

/-- What subscribers can rely on from here on. -/
structure Delivers (s : UnlockSession) : Prop where
  /-- Whoever subscribes gets a ticket for each object, and none of them is settled. -/
  fresh : ∀ {name : String} {ids : List String} {s' : UnlockSession}, ids ≠ [] →
    s.next (.subscribe name ids) = some s' →
      ∃ ts, (name, .opening ts .waiting) ∈ s'.subscriptions ∧
        ts.map Ticket.objectId = ids ∧ ∀ t ∈ ts, s'.yield? t = none
  /-- While somebody whose subscription succeeded waits, the monitor runs, and the reader
  that it keeps is the only one with a stream open. -/
  watched : ∀ {name : String} {places : List (Option Ticket)} {t : Ticket},
    (name, .ready places) ∈ s.subscriptions → some t ∈ places → s.isLost = false →
      s.yield? t = none →
        s.watch.monitor.isRunning ∧ s.watch.monitor.starts = s.watch.monitor.stops + 1 ∧
          ∃ reader, s.watch.monitor.kept = some reader ∧ s.watch.monitor.readers = [reader]
  /-- Whatever happens after an announcement, if it is no shutdown and the watch is
  not lost, whoever keeps a ticket hears of it before the tasks come to rest. -/
  delivered : ∀ {name : String} {places : List (Option Ticket)} {t : Ticket}
      {batches : List (List String)} {batch : List String} {es : List Event}
      {s₁ s₂ : UnlockSession},
    (name, .ready places) ∈ s.subscriptions → some t ∈ places → s.isLost = false →
      s.yield? t ≠ some false → batch ∈ batches → t.objectId ∈ batch →
        s.next (.announce batches) = some s₁ → Run s₁ es s₂ → .shutdown ∉ es →
          system.Quiescent s₂ → s₂.isLost = false → t ∈ s₂.held → s₂.yield? t = some true
  /-- Left to themselves, the tasks come to rest. -/
  rests : ∃ n, ∀ {es : List Event} {s' : UnlockSession}, Run s es s' →
    (∀ e ∈ es, ∃ task, e = .turn task) → es.length ≤ n
  /-- A ticket comes to yield true only by an event that tells of its object. -/
  told : ∀ {t : Ticket} {es : List Event} {s' : UnlockSession}, t ∈ s.held →
    s.yield? t = none → Run s es s' → t ∈ s'.held → s'.yield? t = some true →
      ∃ es₁ e es₂ s₁ s₂, es = es₁ ++ e :: es₂ ∧ Run s es₁ s₁ ∧ s₁.next e = some s₂ ∧
        Run s₂ es₂ s' ∧ Tells s₁ t.objectId e
  /-- A ticket that is kept comes to yield false only when nobody is told any more. -/
  cancelled : ∀ {t : Ticket} {es : List Event} {s' : UnlockSession}, t ∈ s.held →
    s.yield? t = none → Run s es s' → t ∈ s'.held → s'.yield? t = some false →
      ∃ es₁ e es₂ s₁ s₂, es = es₁ ++ e :: es₂ ∧ Run s es₁ s₁ ∧ s₁.next e = some s₂ ∧
        Run s₂ es₂ s' ∧ Cancels s₁ e s₂
  /-- What a ticket yields never changes. -/
  final : ∀ {t : Ticket} {b : Bool} {es : List Event} {s' : UnlockSession},
    s.yield? t = some b → Run s es s' → s'.yield? t = some b

theorem Sound.fresh {s' : UnlockSession} (hs : Sound s) (hids : ids ≠ [])
    (h : s.next (.subscribe name ids) = some s') :
    ∃ ts, (name, .opening ts .waiting) ∈ s'.subscriptions ∧
      ts.map Ticket.objectId = ids ∧ ∀ t ∈ ts, s'.yield? t = none := by
  obtain ⟨hd, h⟩ := Option.ite_none_left_eq_some.mp h
  cases h
  have hl := isLost_eq_false_of_not_isDropped (s := s) (by simpa using hd)
  obtain ⟨hw, -⟩ := hs.drop hl name
  rw [subscribe_of_nonempty s name hids]
  refine ⟨_, List.mem_append_right _ List.mem_cons_self, Waitlist.objectId_registerAll _ ids, ?_⟩
  intro t ht
  rw [yield?_eq_none_iff]
  constructor
  · change ((s.drop name).watch.list.registerAll ids).2.outcome? t = none
    rw [Waitlist.outcome?, Waitlist.outcomes_registerAll]
    exact Waitlist.outcome?_registerAll hw.serves.accounts ids t ht
  · exact isLost_eq_false_of_opening (List.mem_append_right _ List.mem_cons_self)

/-- Subscribers hear of every object that becomes free, of nothing else, and once. -/
theorem delivers_of_run {b : Bulletin} (h : Run { bulletin := b } es s) : Delivers s := by
  have hs := h.sound (sound_initial b)
  have hlt : ∀ {t}, t ∈ s.held → s.yield? t = none →
      t.generation < s.watch.list.nextGeneration := by
    intro t ht hy
    have hl := ((yield?_eq_none_iff s t).mp hy).2
    exact (hs.attends hl).serves.accounts.held_lt t ht
  constructor
  case fresh => exact fun hids hn => hs.fresh hids hn
  case watched =>
    intro name places t hx ht hl hy
    have hw := hs.attends hl
    have hrun := hw.assured t (mem_confirmedOf hx ht) ((yield?_eq_none_iff s t).mp hy).1
    have hstarts := hw.serves.tracks.starts_eq
    rw [if_pos hrun] at hstarts
    exact ⟨hrun, hstarts, hw.serves.tracks.exists_readers_eq hrun⟩
  case delivered =>
    intro name places t batches batch es s₁ s₂ hx ht hl hy hbatch hid hn hr hne hq hl₂ hheld
    obtain ⟨-, hn'⟩ := Option.ite_none_left_eq_some.mp hn
    cases hn'
    have hconf := mem_confirmedOf hx ht
    have hp := hs.promised_announce hl hconf hy hbatch hid
    have hbound := (hs.attends hl).serves.accounts.held_lt t
      (confirmedOf_subset_ticketsOf _ hconf)
    have hs₁ := (follows_announce hs batches).sound
    exact (hr.promised hs₁ hp hne hl₂ hheld hbound).yield?_of_quiescent hq
  case rests => exact ⟨s.effort, fun hr hturn => hr.length_le_effort hturn⟩
  case told =>
    intro t es s' ht hy hr ht' hy'
    obtain ⟨es₁, e, es₂, s₁, s₂, hes, h₁, hn, h₂, ⟨-, hreports⟩ | ⟨hf, -⟩⟩ :=
      hr.exists_settles hs hy ht' (hlt ht hy) hy'
    · exact ⟨es₁, e, es₂, s₁, s₂, hes, h₁, hn, h₂, hreports⟩
    · cases hf
  case cancelled =>
    intro t es s' ht hy hr ht' hy'
    obtain ⟨es₁, e, es₂, s₁, s₂, hes, h₁, hn, h₂, ⟨hf, -⟩ | ⟨-, hcancels⟩⟩ :=
      hr.exists_settles hs hy ht' (hlt ht hy) hy'
    · cases hf
    · exact ⟨es₁, e, es₂, s₁, s₂, hes, h₁, hn, h₂, hcancels⟩
  case final => exact fun hy hr => hr.yield?_eq_some hs hy

/-- A subscriber misses a batch that names its object, and hears of it. -/
theorem delivers_to_subscriber_behind :
    ∃ s s' : UnlockSession,
      Run { bulletin := ⟨{ capacity := 1 }, { capacity := 1 }⟩ }
        [.subscribe "a" ["x"], .turn (.subscriber 0), .turn (.subscriber 0)] s ∧
      s.yield? ⟨"x", 1⟩ = none ∧ Delivers s ∧
      Run s [.announce [["x"], ["y"]], .turn .pump, .turn .pump] s' ∧
      system.Quiescent s' ∧ s'.yield? ⟨"x", 1⟩ = some true := by
  have hrun : Run { bulletin := ⟨{ capacity := 1 }, { capacity := 1 }⟩ }
      [.subscribe "a" ["x"], .turn (.subscriber 0), .turn (.subscriber 0)] _ :=
    .cons rfl (.cons rfl (.cons rfl (.nil _)))
  refine ⟨_, _, hrun, ?_, delivers_of_run hrun,
    .cons rfl (.cons rfl (.cons rfl (.nil _))), ?_, ?_⟩
  · decide +kernel
  · rintro (i | _)
    · cases i <;> rfl
    · rfl
  · decide +kernel

end UnlockSession

end LeasedLocks
