import LeasedLocks.Proofs.Channel
import LeasedLocks.Proofs.Subscribers

/-!
# Runs of subscribers

The events of a session of subscribers, the runs that they make, and the
invariant of all runs. Whatever happens, either a subscriber does not notice it
or it is a report, a shutdown or a turn of the monitor.
-/

namespace LeasedLocks.UnlockSession

/-- The tickets that are held in a session. -/
def held (s : UnlockSession) : List Ticket := ticketsOf s.subscriptions

/-- Something that happens to a session. -/
inductive Event where
  | subscribe (name : String) (ids : List String)
  | drop (name : String)
  | dropAt (name : String) (k : Nat)
  | report (ids : List String)
  | announce (batches : List (List String))
  | close
  | reopen
  | shutdown
  | dropWatch
  | planOpenings (plan : OpeningPlan)
  /-- Time passes until this moment. -/
  | wait (moment : Nat)
  /-- A task takes a step. -/
  | turn (task : UnlockTask)
  deriving DecidableEq

/-- What an event makes of a session; nothing if it cannot happen. Only those who
still hold on to the watch subscribe, report and shut down, a closed bulletin
announces nothing, and time does not go back. -/
def next (s : UnlockSession) : Event → Option UnlockSession
  | .subscribe name ids => if s.isDropped then none else some (s.subscribe name ids)
  | .drop name => some (s.drop name)
  | .dropAt name k => some (s.dropAt name k)
  | .report ids => if s.isDropped then none else some (s.report ids)
  | .announce batches =>
    if s.bulletin.freed.isClosed then none else some (s.announce batches)
  | .close => some s.close
  | .reopen => some s.reopen
  | .shutdown => if s.isDropped then none else some s.shutdown
  | .dropWatch => some s.dropWatch
  | .planOpenings plan => some (s.planOpenings plan)
  | .wait moment => if s.now ≤ moment then some { s with now := moment } else none
  | .turn task => s.step task

/-- One event after the other leads from one session to another. -/
inductive Run : UnlockSession → List Event → UnlockSession → Prop where
  | nil (s : UnlockSession) : Run s [] s
  | cons {s s' s'' : UnlockSession} {e : Event} {es : List Event} :
      s.next e = some s' → Run s' es s'' → Run s (e :: es) s''

/-- The invariant of all runs: as long as the watch is there, it attends to the
subscribers. -/
structure Sound (s : UnlockSession) : Prop where
  nodup : (s.subscriptions.map Prod.fst).Nodup
  attends : s.isLost = false → Attends s.watch s.bulletin.freed s.subscriptions

variable {w : UnlockWatch} {name : String} {l : List (String × Subscription)} {ts : List Ticket}
  {t : Ticket} {j : Joining} {s s' : UnlockSession} {e : Event} {ids : List String}

/-- What an event can mean to a ticket that is kept. -/
inductive Noticed (s : UnlockSession) (t : Ticket) : Event → UnlockSession → Prop where
  | nothing {e : Event} {s' : UnlockSession} : s.watch.Undisturbed s'.watch t → Noticed s t e s'
  | report {ids : List String} {s' : UnlockSession} :
      s'.watch = s.watch.report ids → Noticed s t (.report ids) s'
  | shutdown {s' : UnlockSession} : s'.watch = s.watch.shutdown → Noticed s t .shutdown s'
  | pump {s' : UnlockSession} :
      s.watch.pump s.bulletin.freed = some s'.watch → s'.bulletin = s.bulletin →
        Noticed s t (.turn .pump) s'

/-- All that is known of a session after an event. -/
structure Follows (s : UnlockSession) (e : Event) (s' : UnlockSession) : Prop where
  sound : Sound s'
  /-- What was announced stays so. -/
  log : ∀ {k : Nat} {batch : List String}, s.bulletin.freed.log[k]? = some batch →
    s'.bulletin.freed.log[k]? = some batch
  /-- A watch that is gone changes no more. -/
  lost : s.isLost → s'.isLost ∧ s'.watch = s.watch
  grows : s.watch.list.Grows s'.watch.list
  /-- Only new tickets come up. -/
  holds : ∀ t ∈ s'.held, t.generation < s.watch.list.nextGeneration → t ∈ s.held
  noticed : s.isLost = false → ∀ t ∈ s'.held,
    t.generation < s.watch.list.nextGeneration → Noticed s t e s'

theorem isLost_iff (s : UnlockSession) :
    s.isLost ↔ s.isDropped ∧ ∀ p ∈ s.subscriptions, p.2.isOpening = false := by
  simp [isLost]

theorem isLost_eq_false_of_not_isDropped (h : s.isDropped = false) : s.isLost = false := by
  rw [isLost, h, Bool.false_and]

theorem isLost_eq_false_of_opening (h : (name, Subscription.opening ts j) ∈ s.subscriptions) :
    s.isLost = false := by
  rw [Bool.eq_false_iff]
  intro hl
  cases ((isLost_iff s).mp hl).2 _ h

/-- An event that nobody with a ticket notices. -/
theorem Follows.of_quiet (hl : s.isLost = false) (hn : (s'.subscriptions.map Prod.fst).Nodup)
    (hb : s'.bulletin = s.bulletin)
    (h : Attends s'.watch s.bulletin.freed s'.subscriptions ∧
      Quiet s.watch s'.watch s.subscriptions s'.subscriptions) : Follows s e s' where
  sound := ⟨hn, fun _ => hb ▸ h.1⟩
  log hk := hb ▸ hk
  lost hlost := by
    rw [hl] at hlost
    cases hlost
  grows := h.2.grows
  holds t ht hlt := (h.2.kept t ht hlt).1
  noticed _ t ht hlt := .nothing (h.2.kept t ht hlt).2

/-- An event that changes neither watch nor subscribers. -/
theorem Follows.of_same (hs : Sound s) (hw : s'.watch = s.watch)
    (hsub : s'.subscriptions = s.subscriptions) (hl : s.isLost → s'.isLost)
    (hsent : s.bulletin.freed.sent ≤ s'.bulletin.freed.sent)
    (hlog : ∀ {k : Nat} {batch : List String}, s.bulletin.freed.log[k]? = some batch →
      s'.bulletin.freed.log[k]? = some batch) : Follows s e s' where
  sound := by
    refine ⟨hsub ▸ hs.nodup, ?_⟩
    intro hl'
    have hl : s.isLost = false := by
      rw [Bool.eq_false_iff]
      intro h
      rw [hl h] at hl'
      cases hl'
    rw [hw, hsub]
    exact ⟨(hs.attends hl).serves.mono hsent, (hs.attends hl).assured⟩
  log := hlog
  lost h := ⟨hl h, hw⟩
  grows := hw ▸ .refl _
  holds t ht _ := by
    rw [held, hsub] at ht
    exact ht
  noticed _ t _ _ := .nothing (hw ▸ .refl _ _)

/-- Those who care for a watch that is gone can only go themselves. -/
theorem Follows.of_lost (hl : s.isLost) (hn : (s'.subscriptions.map Prod.fst).Nodup)
    (hw : s'.watch = s.watch) (hb : s'.bulletin = s.bulletin) (hl' : s'.isLost)
    (hheld : s'.held ⊆ s.held) : Follows s e s' where
  sound := ⟨hn, fun h => by rw [hl'] at h; cases h⟩
  log hk := hb ▸ hk
  lost _ := ⟨hl', hw⟩
  grows := hw ▸ .refl _
  holds t ht _ := hheld ht
  noticed h := by
    rw [hl] at h
    cases h

theorem subscriptions_releaseFrom (s : UnlockSession) (x : Subscription) :
    (s.releaseFrom x).subscriptions = s.subscriptions := by
  unfold releaseFrom
  split <;> rfl

theorem subscriptions_drop (s : UnlockSession) (name : String) :
    (s.drop name).subscriptions = s.subscriptions.filter (·.1 != name) := by
  unfold drop
  split
  · next h =>
      symm
      rw [List.filter_eq_self]
      intro p hp
      rw [bne_comm]
      exact List.lookup_eq_none_iff.mp h p hp
  · exact congrArg _ (s.subscriptions_releaseFrom _)

theorem bulletin_drop (s : UnlockSession) (name : String) :
    (s.drop name).bulletin = s.bulletin := by
  unfold drop
  split
  · rfl
  · simp only [releaseFrom]
    split <;> rfl

theorem isDropped_drop (s : UnlockSession) (name : String) :
    (s.drop name).isDropped = s.isDropped := by
  unfold drop
  split
  · rfl
  · simp only [releaseFrom]
    split <;> rfl

theorem nodup_drop (hs : Sound s) (name : String) :
    ((s.drop name).subscriptions.map Prod.fst).Nodup := by
  rw [subscriptions_drop]
  exact hs.nodup.sublist (List.filter_sublist.map Prod.fst)

theorem Sound.drop (hs : Sound s) (hl : s.isLost = false) (name : String) :
    Attends (s.drop name).watch s.bulletin.freed (s.drop name).subscriptions ∧
      Quiet s.watch (s.drop name).watch s.subscriptions (s.drop name).subscriptions := by
  rw [subscriptions_drop]
  have hw := hs.attends hl
  cases hx : s.subscriptions.lookup name with
  | none =>
      have hsub := subscriptions_drop s name
      simp only [UnlockSession.drop, hx] at hsub ⊢
      rw [← hsub]
      exact ⟨hw, .refl _ _⟩
  | some x =>
      obtain ⟨hp, -⟩ := perm_of_lookup hs.nodup hx
      obtain ⟨hw', hq⟩ := (hw.perm hp).drop
      simp only [UnlockSession.drop, hx, releaseFrom, hl]
      exact ⟨hw', hq.perm hp (.refl _)⟩

/-- A name that nobody else has can be given away. -/
theorem nodup_put (hn : (l.map Prod.fst).Nodup) (name : String) (x : Subscription) :
    (((name, x) :: l.filter (·.1 != name)).map Prod.fst).Nodup := by
  rw [List.map_cons, List.nodup_cons]
  refine ⟨?_, hn.sublist (List.filter_sublist.map Prod.fst)⟩
  intro hmem
  obtain ⟨p, hp, hEq⟩ := List.mem_map.mp hmem
  have := (List.mem_filter.mp hp).2
  rw [hEq] at this
  simp at this

theorem follows_drop (hs : Sound s) (name : String) : Follows s (.drop name) (s.drop name) := by
  cases hl : s.isLost with
  | false => exact .of_quiet hl (nodup_drop hs name) (bulletin_drop s name) (hs.drop hl name)
  | true =>
      refine .of_lost hl (nodup_drop hs name) ?_ (bulletin_drop s name) ?_ ?_
      · unfold drop
        split
        · rfl
        · simp only [releaseFrom, hl, if_true]
      · rw [isLost_iff, isDropped_drop, subscriptions_drop]
        obtain ⟨hd, hnone⟩ := (isLost_iff s).mp hl
        exact ⟨hd, fun p hp => hnone p (List.mem_filter.mp hp).1⟩
      · rw [held, subscriptions_drop]
        intro t ht
        obtain ⟨p, hp, ht⟩ := List.mem_flatMap.mp ht
        exact List.mem_flatMap.mpr ⟨p, (List.mem_filter.mp hp).1, ht⟩

/-- Only those whose subscription succeeded have tickets to give back one by one. -/
theorem dropAt_cases (s : UnlockSession) (name : String) (k : Nat) :
    s.dropAt name k = s ∨ ∃ places, s.subscriptions.lookup name = some (.ready places) := by
  unfold dropAt
  split
  · next places hx => exact .inr ⟨places, hx⟩
  · exact .inl rfl

theorem follows_dropAt (hs : Sound s) (name : String) (k : Nat) :
    Follows s (.dropAt name k) (s.dropAt name k) := by
  rcases dropAt_cases s name k with heq | ⟨places, hx⟩
  · rw [heq]
    exact .of_same hs rfl rfl id (Nat.le_refl _) id
  · obtain ⟨hp, hmap⟩ := perm_of_lookup hs.nodup hx
    have hp' := hmap (fun p => if p.1 == name then (p.1, .ready (places.set k none)) else p)
      (fun p hne => if_neg (by simpa using hne))
    simp only [beq_self_eq_true, if_true] at hp'
    have hn := (hp'.map Prod.fst).nodup_iff.mpr (nodup_put hs.nodup name _)
    cases hl : s.isLost with
    | false =>
        obtain ⟨hw, hq⟩ := ((hs.attends hl).perm hp).dropAt k
        simp only [dropAt, hx, releaseFrom, hl]
        exact .of_quiet hl hn rfl ⟨hw.perm hp'.symm, hq.perm hp hp'⟩
    | true =>
        simp only [dropAt, hx, releaseFrom, hl, if_true]
        refine .of_lost hl hn rfl rfl ?_ ?_
        · obtain ⟨hd, hnone⟩ := (isLost_iff s).mp hl
          rw [isLost_iff]
          refine ⟨hd, ?_⟩
          intro p hmem
          rcases List.mem_cons.mp (hp'.mem_iff.mp hmem) with rfl | hmem
          · rfl
          · exact hnone p (List.mem_filter.mp hmem).1
        · intro t ht
          have hkept := perm_filterMap_set_none places k
          rw [held, (perm_ticketsOf hp).mem_iff]
          rcases List.mem_append.mp ((perm_ticketsOf hp').mem_iff.mp ht) with ht | ht
          · exact List.mem_append_left _
              (hkept.mem_iff.mpr (List.mem_append_right _ ht))
          · exact List.mem_append_right _ ht

/-- The tickets of a new subscriber. -/
theorem subscribe_of_nonempty (s : UnlockSession) (name : String) (hne : ids ≠ []) :
    s.subscribe name ids =
      { s.drop name with
        watch := ((s.drop name).watch.register ids).2
        subscriptions := (s.drop name).subscriptions ++
          [(name, .opening ((s.drop name).watch.register ids).1 .waiting)] } := by
  have hempty : ids.isEmpty = false := by
    rw [List.isEmpty_eq_false_iff]
    exact hne
  simp only [subscribe, hempty]
  rfl

theorem follows_subscribe (hs : Sound s) (hd : s.isDropped = false) (name : String)
    (ids : List String) : Follows s (.subscribe name ids) (s.subscribe name ids) := by
  have hl := isLost_eq_false_of_not_isDropped hd
  obtain ⟨hw, hq⟩ := hs.drop hl name
  have hput (x : Subscription) : ((s.drop name).subscriptions ++ [(name, x)]).Perm
      ((name, x) :: (s.drop name).subscriptions) := List.perm_append_singleton _ _
  have hn (x : Subscription) :
      (((s.drop name).subscriptions ++ [(name, x)]).map Prod.fst).Nodup := by
    rw [((hput x).map Prod.fst).nodup_iff, subscriptions_drop]
    exact nodup_put hs.nodup name x
  by_cases hids : ids = []
  · subst hids
    have hempty : Attends (s.drop name).watch s.bulletin.freed
        ((name, .ready []) :: (s.drop name).subscriptions) := by
      refine ⟨?_, hw.assured⟩
      rw [openingsOf_cons_of_eq_zero name rfl]
      exact hw.serves
    have hquiet : Quiet s.watch (s.drop name).watch s.subscriptions
        ((name, .ready []) :: (s.drop name).subscriptions) := ⟨hq.grows, hq.kept⟩
    exact .of_quiet hl (hn _) (bulletin_drop s name)
      ⟨hempty.perm (hput _).symm, hquiet.perm (.refl _) (hput _)⟩
  · rw [subscribe_of_nonempty s name hids]
    obtain ⟨hw', hq'⟩ := hw.register name ids
    exact .of_quiet hl (hn _) (bulletin_drop s name)
      ⟨hw'.perm (hput _).symm, (hq.trans hq').perm (.refl _) (hput _)⟩

/-- All that a subscriber on the way can do. -/
theorem stepSubscriber_cases {i : Nat} (h : s.stepSubscriber i = some s') :
    ∃ name ts j, s.subscriptions[i]? = some (name, .opening ts j) ∧ ∃ r w source,
      s.watch.join s.now s.bulletin.freed s.source j = some (r, w, source) ∧
      ((∃ j', r = .notYet j' ∧
        s' = { s with
          watch := w
          source
          subscriptions := s.subscriptions.set i (name, .opening ts j') }) ∨
      (r = .running ∧
        s' = { s with
          watch := w
          source
          subscriptions := s.subscriptions.set i (name, .ready (ts.map some)) }) ∨
      (∃ f, r = .failed f ∧
        s' = { s with
          watch := w.releaseAll ts
          source
          subscriptions := s.subscriptions.set i (name, .failed f) })) := by
  unfold stepSubscriber at h
  split at h
  · next name ts j hi =>
      obtain ⟨⟨r, w, source⟩, hj, rfl⟩ := Option.map_eq_some_iff.mp h
      refine ⟨name, ts, j, hi, r, w, source, hj, ?_⟩
      cases r with
      | notYet j' => exact .inl ⟨j', rfl, rfl⟩
      | running => exact .inr (.inl ⟨rfl, rfl⟩)
      | failed f => exact .inr (.inr ⟨f, rfl, rfl⟩)
  · cases h

theorem follows_stepSubscriber {i : Nat} (hs : Sound s) (h : s.stepSubscriber i = some s') :
    Follows s (.turn (.subscriber i)) s' := by
  obtain ⟨name, ts, j, hi, r, w, source, hj, hr⟩ := stepSubscriber_cases h
  have hl := isLost_eq_false_of_opening (List.mem_of_getElem? hi)
  obtain ⟨hp, hset⟩ := perm_of_getElem? hi
  have hw := (hs.attends hl).perm hp
  have hn (x : Subscription) : ((s.subscriptions.set i (name, x)).map Prod.fst).Nodup := by
    rw [((hset (name, x)).map Prod.fst).nodup_iff]
    exact (hp.map Prod.fst).nodup_iff.mp hs.nodup
  rcases hr with ⟨j', rfl, rfl⟩ | ⟨rfl, rfl⟩ | ⟨f, rfl, rfl⟩
  · obtain ⟨hw', hq⟩ := hw.join (x := .opening ts j') hj rfl rfl (.inl rfl)
    exact .of_quiet hl (hn _) rfl ⟨hw'.perm (hset _).symm, hq.perm hp (hset _)⟩
  · have htickets : Subscription.tickets (.ready (ts.map some)) = ts := by
      simp [Subscription.tickets]
    obtain ⟨hw', hq⟩ := hw.join (x := .ready (ts.map some)) hj htickets rfl (.inr rfl)
    exact .of_quiet hl (hn _) rfl ⟨hw'.perm (hset _).symm, hq.perm hp (hset _)⟩
  · obtain ⟨hw', hq⟩ := hw.join_failed hj
    exact .of_quiet hl (hn _) rfl ⟨hw'.perm (hset _).symm, hq.perm hp (hset _)⟩

/-- An event that settles tickets and leaves them with those who hold them. -/
theorem Follows.of_settled (hs : Sound s) (hl : s.isLost = false)
    (hserves : w.Serves s.bulletin.freed s.held (openingsOf s.subscriptions))
    (hassured : ∀ t ∈ confirmedOf s.subscriptions, w.Assured t)
    (hgrows : s.watch.list.Grows w.list)
    (hnoticed : ∀ t, Noticed s t e { s with watch := w }) : Follows s e { s with watch := w } where
  sound := ⟨hs.nodup, fun _ => ⟨hserves, hassured⟩⟩
  log := id
  lost h := by
    rw [hl] at h
    cases h
  grows := hgrows
  holds t ht _ := ht
  noticed _ t _ _ := hnoticed t

theorem follows_report (hs : Sound s) (hl : s.isLost = false) (ids : List String) :
    Follows s (.report ids) (s.report ids) := by
  have hw := hs.attends hl
  simp only [report, hl]
  apply Follows.of_settled hs hl (hw.serves.report ids)
  · intro t ht ho
    exact hw.assured t ht ((hw.serves.accounts.grows_settleAll true ids).outcome?_eq_none ho)
  · exact hw.serves.accounts.grows_settleAll true ids
  · exact fun t => .report rfl

theorem follows_shutdown (hs : Sound s) (hl : s.isLost = false) :
    Follows s .shutdown s.shutdown := by
  have hw := hs.attends hl
  simp only [shutdown, hl]
  apply Follows.of_settled hs hl hw.serves.shutdown
  · exact fun t ht => hw.serves.assured_shutdown (confirmedOf_subset_ticketsOf _ ht)
  · exact hw.serves.accounts.grows_settleAll false _
  · exact fun t => .shutdown rfl

theorem step_pump_cases (h : s.step .pump = some s') :
    s.isLost = false ∧ ∃ w, s.watch.pump s.bulletin.freed = some w ∧
      s' = { s with watch := w } := by
  simp only [step] at h
  split at h
  · cases h
  · next hl =>
      obtain ⟨w, hp, rfl⟩ := Option.map_eq_some_iff.mp h
      exact ⟨by simpa using hl, w, hp, rfl⟩

theorem follows_pump (hs : Sound s) (h : s.step .pump = some s') :
    Follows s (.turn .pump) s' := by
  obtain ⟨hl, w, hp, rfl⟩ := step_pump_cases h
  have hw := hs.attends hl
  apply Follows.of_settled hs hl (hw.serves.pump hp)
  · exact fun t ht => hw.serves.assured_pump (confirmedOf_subset_ticketsOf _ ht) hp
  · exact hw.serves.grows_pump hp
  · exact fun t => .pump hp rfl

/-- Batches are announced behind those that were announced before. -/
theorem log_announce (s : UnlockSession) (batches : List (List String)) :
    (s.announce batches).bulletin.freed.log = s.bulletin.freed.log ++ batches.toArray :=
  Channel.log_foldl_send batches s.bulletin.freed

theorem follows_announce (hs : Sound s) (batches : List (List String)) :
    Follows s (.announce batches) (s.announce batches) := by
  have hlog := log_announce s batches
  refine .of_same hs rfl rfl id ?_ ?_
  · exact Channel.sent_le_foldl_send batches s.bulletin.freed
  · intro k batch hk
    have hlt := (Array.getElem?_eq_some_iff.mp hk).1
    rw [hlog, Array.getElem?_append_left hlt]
    exact hk

/-- What any event makes of a session. -/
theorem follows_of_next (hs : Sound s) (h : s.next e = some s') : Follows s e s' := by
  cases e with
  | subscribe name ids =>
      obtain ⟨hd, h⟩ := Option.ite_none_left_eq_some.mp h
      cases h
      exact follows_subscribe hs (by simpa using hd) name ids
  | drop name =>
      cases h
      exact follows_drop hs name
  | dropAt name k =>
      cases h
      exact follows_dropAt hs name k
  | report ids =>
      obtain ⟨hd, h⟩ := Option.ite_none_left_eq_some.mp h
      cases h
      exact follows_report hs (isLost_eq_false_of_not_isDropped (by simpa using hd)) ids
  | announce batches =>
      obtain ⟨-, h⟩ := Option.ite_none_left_eq_some.mp h
      cases h
      exact follows_announce hs batches
  | close =>
      cases h
      exact .of_same hs rfl rfl id (Nat.le_refl _) id
  | reopen =>
      cases h
      refine .of_same hs rfl rfl id ?_ ?_
      · exact Nat.le_of_eq (Monitor.sent_renew _ _).symm
      · intro k batch hk
        exact (congrArg (·[k]?) (Monitor.log_renew _ _)).trans hk
  | shutdown =>
      obtain ⟨hd, h⟩ := Option.ite_none_left_eq_some.mp h
      cases h
      exact follows_shutdown hs (isLost_eq_false_of_not_isDropped (by simpa using hd))
  | dropWatch =>
      cases h
      refine .of_same hs rfl rfl ?_ (Nat.le_refl _) id
      intro hl
      exact (isLost_iff _).mpr ⟨rfl, ((isLost_iff s).mp hl).2⟩
  | planOpenings plan =>
      cases h
      exact .of_same hs rfl rfl id (Nat.le_refl _) id
  | wait moment =>
      obtain ⟨-, h⟩ := Option.ite_none_right_eq_some.mp h
      cases h
      exact .of_same hs rfl rfl id (Nat.le_refl _) id
  | turn task =>
      cases task with
      | subscriber i => exact follows_stepSubscriber hs h
      | pump => exact follows_pump hs h

end LeasedLocks.UnlockSession
