import LeasedLocks.Proofs.Delivery

/-!
# The waitlist is in order after every event

What subscribers, reports and the monitor do to the waitlist comes down to four
acts: tickets are given out, a ticket is taken back, and some entries or all of them
are settled. Each act keeps the books, also in the middle of an event, so no count
is ever taken below zero and no settled ticket touches the entry of a later one.

## Implementation notes

`UnlockSession.acts` spells out which acts an event consists of. A subscriber who
goes gives its tickets back one by one, and between two of them the waitlist is in
order too.
-/

namespace LeasedLocks

namespace Waitlist

/-- Something that is done to a waitlist. -/
inductive Act where
  | giveOut (ids : List String)
  | takeBack (t : Ticket)
  | settle (freed : Bool) (ids : List String)
  /-- Settles all the entries that there are. -/
  | settleRest (freed : Bool)
  deriving DecidableEq

def perform (w : Waitlist) : Act → Waitlist
  | .giveOut ids => (w.registerAll ids).2
  | .takeBack t => w.release t
  | .settle freed ids => w.settleAll freed ids
  | .settleRest freed => w.settleAll freed w.pendingIds

def performAll (w : Waitlist) (as : List Act) : Waitlist := as.foldl perform w

/-- The tickets that are held after an act. -/
def heldAfter (w : Waitlist) (held : List Ticket) : Act → List Ticket
  | .giveOut ids => (w.registerAll ids).1 ++ held
  | .takeBack t => held.erase t
  | .settle _ _ | .settleRest _ => held

/-- One act after the other, from a waitlist and those who hold tickets to another.
Nobody gives back a ticket that is not held. -/
inductive Trace : Waitlist → List Ticket → List Act → Waitlist → List Ticket → Prop where
  | nil (w : Waitlist) (held : List Ticket) : Trace w held [] w held
  | cons {w v : Waitlist} {held held' : List Ticket} {a : Act} {as : List Act} :
      (∀ t, a = .takeBack t → t ∈ held) →
        Trace (w.perform a) (w.heldAfter held a) as v held' → Trace w held (a :: as) v held'

/-- Taking the ticket back counts nothing below zero, and if it is settled, the entry
that its object may have by now stays as it is. -/
structure CanTakeBack (w : Waitlist) (t : Ticket) : Prop where
  tickets_pos : 0 < w.tickets
  count_pos : ∀ {e : Entry}, w.entries[t.objectId]? = some e →
    e.generation = t.generation → 0 < e.count
  entries_eq : w.outcome? t ≠ none → (w.release t).entries = w.entries

variable {u v w : Waitlist} {held held' held'' rest ts : List Ticket} {t : Ticket} {id : String}
  {a : Act} {as bs : List Act}

/-! ## One act -/

theorem Accounts.perform (h : w.Accounts held) (ha : ∀ t, a = .takeBack t → t ∈ held) :
    (w.perform a).Accounts (w.heldAfter held a) := by
  cases a with
  | giveOut ids => exact h.registerAll ids
  | takeBack t =>
      have hp := List.perm_cons_erase (ha t rfl)
      exact (h.perm hp).release
  | settle freed ids => exact h.settleAll freed ids
  | settleRest freed => exact h.settleAll freed w.pendingIds

theorem Accounts.canTakeBack (h : w.Accounts held) (ht : t ∈ held) : w.CanTakeBack t := by
  constructor
  case tickets_pos =>
    rw [h.tickets_eq]
    exact List.length_pos_of_mem ht
  case count_pos => exact fun he _ => h.count_pos he
  case entries_eq =>
    intro ho
    rcases release_cases w t with ⟨e, he, hg, -⟩ | ⟨e, he, hg, -⟩ | ⟨-, hr⟩
    · exact absurd (h.unsettled he) (hg ▸ ho)
    · exact absurd (h.unsettled he) (hg ▸ ho)
    · rw [hr]

/-- The objects that are pending are those that somebody waits for. -/
theorem Accounts.mem_pendingIds_iff (h : w.Accounts held) (id : String) :
    id ∈ w.pendingIds ↔ ∃ t ∈ held, t.objectId = id ∧ w.outcome? t = none := by
  rw [pendingIds, Std.ExtTreeMap.mem_keys, Std.ExtTreeMap.mem_iff_isSome_getElem?,
    Option.isSome_iff_exists]
  constructor
  · rintro ⟨e, he⟩
    exact ⟨_, h.held_of_entry he, rfl, h.unsettled he⟩
  · rintro ⟨t, ht, rfl, ho⟩
    obtain ⟨e, he, -⟩ := h.pending t ht ho
    exact ⟨e, he⟩

/-! ## One act after the other -/

theorem Trace.eq_performAll (h : Trace w held as v held') : v = w.performAll as := by
  induction h with
  | nil w held => rfl
  | cons _ _ ih => exact ih

theorem Trace.append (h : Trace w held as v held') (h' : Trace v held' bs u held'') :
    Trace w held (as ++ bs) u held'' := by
  induction h with
  | nil w held => exact h'
  | cons ha _ ih => exact .cons ha (ih h')

theorem Trace.split (h : Trace w held (as ++ bs) u held'') :
    ∃ v held', Trace w held as v held' ∧ Trace v held' bs u held'' := by
  induction as generalizing w held with
  | nil => exact ⟨w, held, .nil w held, h⟩
  | cons a as ih =>
      cases h with
      | cons ha h =>
          obtain ⟨v, held', h₁, h₂⟩ := ih h
          exact ⟨v, held', .cons ha h₁, h₂⟩

/-- The books are kept from the first act to the last. -/
theorem Trace.accounts (h : Trace w held as v held') (hw : w.Accounts held) :
    v.Accounts held' := by
  induction h with
  | nil w held => exact hw
  | cons ha _ ih => exact ih (hw.perform ha)

/-- Every ticket that is taken back on the way is covered at that moment. -/
theorem Trace.canTakeBack (h : Trace w held (as ++ .takeBack t :: bs) v held')
    (hw : w.Accounts held) : (w.performAll as).CanTakeBack t := by
  obtain ⟨u, held'', h₁, h₂⟩ := h.split
  have hu := h₁.accounts hw
  rw [h₁.eq_performAll] at hu
  cases h₂ with
  | cons ha _ => exact hu.canTakeBack (ha t rfl)

/-- Somebody gives tickets back, one after the other, and the others keep theirs. -/
theorem exists_trace_takeBack (w : Waitlist) (hp : held.Perm (ts ++ rest)) :
    ∃ held', Trace w held (ts.map .takeBack) (ts.foldl release w) held' ∧ held'.Perm rest := by
  induction ts generalizing w held with
  | nil => exact ⟨held, .nil w held, hp⟩
  | cons t ts ih =>
      have ht : t ∈ held := hp.mem_iff.mpr List.mem_cons_self
      have hp' : (held.erase t).Perm (ts ++ rest) := by
        have := hp.erase t
        rwa [List.cons_append, List.erase_cons_head] at this
      obtain ⟨held', htrace, hrest⟩ := ih (w.release t) hp'
      refine ⟨held', .cons ?_ htrace, hrest⟩
      intro k hk
      cases hk
      exact ht

end Waitlist

theorem UnlockWatch.list_releaseAll (w : UnlockWatch) (ts : List Ticket) :
    (w.releaseAll ts).list = ts.foldl Waitlist.release w.list := by
  induction ts generalizing w with
  | nil => rfl
  | cons t ts ih => exact ih (w.release t)

namespace UnlockSession

/-- What an event does to the waitlist, act by act. -/
def acts (s : UnlockSession) : Event → List Waitlist.Act
  | .subscribe name ids => returned name ++ [.giveOut ids]
  | .drop name => returned name
  | .dropAt name k =>
    match s.subscriptions.lookup name with
    | some (.ready ts) => (Subscription.ready ts[k]?.toList).tickets.map .takeBack
    | _ => []
  | .report ids => [.settle true ids]
  | .shutdown => [.settleRest false]
  | .turn (.subscriber i) =>
    match s.subscriptions[i]? with
    | some (_, .opening ts j) =>
      match s.watch.join s.now s.bulletin.freed s.source j with
      | some (.failed _, _) => ts.map .takeBack
      | _ => []
    | _ => []
  | .turn .pump =>
    match s.watch.reading? s.bulletin.freed with
    | some (.item ids) => [.settle true ids]
    | some (.lagged _) => [.settleRest true]
    | some .closed => [.settleRest false]
    | _ => []
  | .announce _ | .close | .reopen | .dropWatch | .planOpenings _ | .wait _ => []
where
  /-- The tickets of this name come back. -/
  returned (name : String) : List Waitlist.Act :=
    match s.subscriptions.lookup name with
    | some x => x.tickets.map .takeBack
    | none => []

/-- An event leads to this session by its acts, and then its subscribers hold the
tickets that are out. -/
def Traced (s : UnlockSession) (as : List Waitlist.Act) (s' : UnlockSession) : Prop :=
  ∃ held, Waitlist.Trace s.watch.list s.held as s'.watch.list held ∧ held.Perm s'.held

/-- The waitlist of a session is in order, and no event can put it out of order. -/
structure AccountsForHeld (s : UnlockSession) : Prop where
  accounts : s.watch.list.Accounts s.held
  mem_pendingIds_iff : ∀ id : String, id ∈ s.watch.list.pendingIds ↔
    ∃ t ∈ s.held, t.objectId = id ∧ s.watch.list.outcome? t = none
  traced : ∀ {e : Event} {s' : UnlockSession}, s.next e = some s' → Traced s (s.acts e) s'
  /-- Whatever comes before it in the same event, a ticket that is taken back is
  covered. -/
  canTakeBack : ∀ {e : Event} {s' : UnlockSession} {as bs : List Waitlist.Act} {t : Ticket},
    s.next e = some s' → s.acts e = as ++ .takeBack t :: bs →
      (s.watch.list.performAll as).CanTakeBack t

variable {s s' : UnlockSession} {e : Event} {es : List Event} {b : Bulletin} {name : String}
  {ids : List String}

/-! ## The acts of an event -/

/-- An event that leaves the waitlist and the subscribers alone. -/
theorem Traced.of_same (hw : s'.watch.list = s.watch.list)
    (hsub : s'.subscriptions = s.subscriptions) : Traced s [] s' := by
  refine ⟨s.held, hw ▸ .nil _ _, ?_⟩
  rw [held, held, hsub]

/-- An event that settles entries. -/
theorem Traced.of_settled {a : Waitlist.Act} (hsub : s'.subscriptions = s.subscriptions)
    (hw : s'.watch.list = s.watch.list.perform a)
    (ha : s.watch.list.heldAfter s.held a = s.held) (hback : ∀ t, a ≠ .takeBack t) :
    Traced s [a] s' := by
  refine ⟨s.held, .cons (fun t ht => absurd ht (hback t)) ?_, ?_⟩
  · rw [ha, hw]
    exact .nil _ _
  · rw [held, held, hsub]

/-- An event in which tickets come back. -/
theorem Traced.of_returned {ts : List Ticket} (hw : s'.watch.list = ts.foldl .release s.watch.list)
    (hp : s.held.Perm (ts ++ s'.held)) : Traced s (ts.map .takeBack) s' := by
  rw [Traced, hw]
  exact s.watch.list.exists_trace_takeBack hp

theorem traced_drop (hs : Sound s) (hl : s.isLost = false) (name : String) :
    Traced s (s.acts (.drop name)) (s.drop name) := by
  simp only [acts, acts.returned]
  cases hx : s.subscriptions.lookup name with
  | none =>
      have hdrop : s.drop name = s := by simp only [UnlockSession.drop, hx]
      rw [hdrop]
      exact .of_same rfl rfl
  | some x =>
      apply Traced.of_returned
      · simp only [UnlockSession.drop, hx, releaseFrom, hl]
        cases x <;> exact UnlockWatch.list_releaseAll _ _
      · rw [held, held, subscriptions_drop]
        exact perm_ticketsOf (perm_of_lookup hs.nodup hx).1

theorem traced_subscribe (hs : Sound s) (hl : s.isLost = false) (name : String)
    (ids : List String) : Traced s (s.acts (.subscribe name ids)) (s.subscribe name ids) := by
  obtain ⟨held', htrace, hp⟩ := traced_drop hs hl name
  have hlist : (s.subscribe name ids).watch.list =
      (s.drop name).watch.list.perform (.giveOut ids) := by
    by_cases hids : ids = []
    · subst hids
      rfl
    · rw [subscribe_of_nonempty s name hids]
      rfl
  have hgive : Waitlist.Trace (s.drop name).watch.list held' [.giveOut ids]
      (s.subscribe name ids).watch.list
      (((s.drop name).watch.list.registerAll ids).1 ++ held') := by
    rw [hlist]
    exact .cons (fun t ht => nomatch ht) (.nil _ _)
  refine ⟨_, htrace.append hgive, ?_⟩
  · have hput (x : Subscription) :
        (ticketsOf ((s.drop name).subscriptions ++ [(name, x)])).Perm
          (x.tickets ++ (s.drop name).held) :=
      perm_ticketsOf (List.perm_append_singleton _ _)
    by_cases hids : ids = []
    · subst hids
      exact hp.trans (hput (.ready [])).symm
    · rw [subscribe_of_nonempty s name hids]
      exact (hp.append_left _).trans (hput (.opening _ .waiting)).symm

theorem traced_dropAt (hs : Sound s) (hl : s.isLost = false) (name : String) (k : Nat) :
    Traced s (s.acts (.dropAt name k)) (s.dropAt name k) := by
  cases hx : s.subscriptions.lookup name with
  | none =>
      simp only [acts, dropAt, hx]
      exact .of_same rfl rfl
  | some x =>
      cases x with
      | opening ts j =>
          simp only [acts, dropAt, hx]
          exact .of_same rfl rfl
      | failed f =>
          simp only [acts, dropAt, hx]
          exact .of_same rfl rfl
      | ready places =>
          obtain ⟨hp, hmap⟩ := perm_of_lookup hs.nodup hx
          have hp' := hmap
            (fun p => if p.1 == name then (p.1, .ready (places.set k none)) else p)
            (fun p hne => if_neg (by simpa using hne))
          simp only [beq_self_eq_true, if_true] at hp'
          simp only [acts, dropAt, hx, releaseFrom, hl]
          apply Traced.of_returned
          · exact UnlockWatch.list_releaseAll _ _
          · have hplaces := perm_filterMap_set_none places k
            calc
              List.Perm s.held (places.filterMap id ++ _) := perm_ticketsOf hp
              List.Perm _ (_ ++ _) := hplaces.append_right _
              _ = _ ++ (_ ++ _) := List.append_assoc _ _ _
              List.Perm _ _ := (perm_ticketsOf hp').symm.append_left _

theorem traced_stepSubscriber {i : Nat} (h : s.stepSubscriber i = some s') :
    Traced s (s.acts (.turn (.subscriber i))) s' := by
  obtain ⟨name, ts, j, hi, r, w, source, hj, hr⟩ := stepSubscriber_cases h
  obtain ⟨hp, hset⟩ := perm_of_getElem? hi
  have hlist := (UnlockWatch.join_eq_some hj).2
  -- whoever is not turned away keeps the tickets
  have hkept (x : Subscription) (hx : x.tickets = ts) :
      s.held.Perm (ticketsOf (s.subscriptions.set i (name, x))) := by
    refine (perm_ticketsOf hp).trans (.trans ?_ (perm_ticketsOf (hset (name, x))).symm)
    rw [ticketsOf_cons, ticketsOf_cons, hx]
    exact .refl _
  rcases hr with ⟨j', rfl, rfl⟩ | ⟨rfl, rfl⟩ | ⟨f, rfl, rfl⟩
  · simp only [acts, hi, hj]
    exact ⟨s.held, hlist ▸ .nil _ _, hkept _ rfl⟩
  · simp only [acts, hi, hj]
    exact ⟨s.held, hlist ▸ .nil _ _, hkept _ (by simp [Subscription.tickets])⟩
  · simp only [acts, hi, hj]
    apply Traced.of_returned
    · rw [← hlist]
      exact UnlockWatch.list_releaseAll _ _
    · have hrest := perm_ticketsOf (hset (name, .failed f))
      exact (perm_ticketsOf hp).trans (hrest.symm.append_left ts)

theorem traced_pump (h : s.step .pump = some s') : Traced s (s.acts (.turn .pump)) s' := by
  obtain ⟨-, w, hw, rfl⟩ := step_pump_cases h
  rcases UnlockWatch.pump_cases hw with ⟨_, _, -, -, hread, rfl⟩ | ⟨_, _, -, -, hread, rfl⟩ |
    ⟨_, -, -, hread, rfl⟩ <;>
  · simp only [acts, hread]
    exact .of_settled rfl rfl rfl (fun t ht => nomatch ht)

/-- Every event comes down to its acts. -/
theorem traced_of_next (hs : Sound s) (hl : s.isLost = false) (h : s.next e = some s') :
    Traced s (s.acts e) s' := by
  cases e with
  | subscribe name ids =>
      obtain ⟨-, h⟩ := Option.ite_none_left_eq_some.mp h
      cases h
      exact traced_subscribe hs hl name ids
  | drop name =>
      cases h
      exact traced_drop hs hl name
  | dropAt name k =>
      cases h
      exact traced_dropAt hs hl name k
  | report ids =>
      obtain ⟨-, h⟩ := Option.ite_none_left_eq_some.mp h
      cases h
      simp only [report, hl]
      exact .of_settled rfl rfl rfl (fun t ht => by cases ht)
  | announce batches =>
      obtain ⟨-, h⟩ := Option.ite_none_left_eq_some.mp h
      cases h
      exact .of_same rfl rfl
  | close | reopen =>
      cases h
      exact .of_same rfl rfl
  | shutdown =>
      obtain ⟨-, h⟩ := Option.ite_none_left_eq_some.mp h
      cases h
      simp only [shutdown, hl]
      exact .of_settled rfl rfl rfl (fun t ht => by cases ht)
  | dropWatch =>
      cases h
      exact .of_same rfl rfl
  | planOpenings plan =>
      cases h
      exact .of_same rfl rfl
  | wait moment =>
      obtain ⟨-, h⟩ := Option.ite_none_right_eq_some.mp h
      cases h
      exact .of_same rfl rfl
  | turn task =>
      cases task with
      | subscriber i => exact traced_stepSubscriber h
      | pump => exact traced_pump h

/-- Whatever happened to a session, its waitlist is in order as long as it is there:
it counts the tickets that are out, each entry counts those who wait for it, and
every ticket that comes back next is covered. -/
theorem accountsForHeld_of_run (hr : Run { bulletin := b } es s) (hl : s.isLost = false) :
    AccountsForHeld s := by
  have hs := hr.sound (sound_initial b)
  have haccounts := (hs.attends hl).serves.accounts
  constructor
  case accounts => exact haccounts
  case mem_pendingIds_iff => exact haccounts.mem_pendingIds_iff
  case traced => exact fun h => traced_of_next hs hl h
  case canTakeBack =>
    intro e s' as bs t h has
    obtain ⟨held', htrace, -⟩ := traced_of_next hs hl h
    rw [has] at htrace
    exact htrace.canTakeBack haccounts

/-- One subscriber was told and has not gone yet, and another one waits for the same
object again. When the first one goes, its ticket is covered and the new entry stays. -/
theorem accountsForHeld_of_resubscribed :
    ∃ s : UnlockSession,
      Run { bulletin := ⟨{ capacity := 1 }, { capacity := 1 }⟩ }
        [.subscribe "a" ["x", "x"], .turn (.subscriber 0), .turn (.subscriber 0),
          .report ["x"], .subscribe "b" ["x"]] s ∧
      s.isLost = false ∧ AccountsForHeld s ∧
      s.watch.list.entries["x"]? = some ⟨2, 1⟩ ∧ s.watch.list.tickets = 3 ∧
      s.acts (.drop "a") = [.takeBack ⟨"x", 1⟩, .takeBack ⟨"x", 1⟩] ∧
      (s.drop "a").watch.list.entries["x"]? = some ⟨2, 1⟩ ∧
      (s.drop "a").watch.list.tickets = 1 := by
  have hrun : Run { bulletin := ⟨{ capacity := 1 }, { capacity := 1 }⟩ }
      [.subscribe "a" ["x", "x"], .turn (.subscriber 0), .turn (.subscriber 0),
        .report ["x"], .subscribe "b" ["x"]] _ :=
    .cons rfl (.cons rfl (.cons rfl (.cons rfl (.cons rfl (.nil _)))))
  refine ⟨_, hrun, rfl, accountsForHeld_of_run hrun rfl, ?_, rfl, ?_, ?_, ?_⟩ <;> decide +kernel

end UnlockSession

end LeasedLocks
