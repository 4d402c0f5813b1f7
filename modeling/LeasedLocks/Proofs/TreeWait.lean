import LeasedLocks.Proofs.Exchange
import LeasedLocks.Proofs.UnlockWatch
import LeasedLocks.TreeWait

/-!
# Waits over one watch

All waits of a client share its watch over freed objects. A step of one of them
keeps the books of the watch and does not disturb the tickets of the others,
whatever becomes of its messages.

## Implementation notes

The waits of a client are a list up to order. Whoever takes a step is brought to
the front, so that one lemma serves the calls of a client and the trees of a call.
-/

namespace LeasedLocks

/-- The channel of freed objects that the client of a link follows. -/
def Link.freed (l : Link) : Channel (List String) := (l.client.bulletin l.authority).freed

/-- From one link to a later one, as far as the bulletins are concerned. -/
structure Link.Onward (l l' : Link) : Prop where
  announces : l.authority.Announces l'.authority
  own_eq_none : l.client.own = none → l'.client.own = none
  sent_le : l.freed.sent ≤ l'.freed.sent

namespace TreeWait

/-- How many openings a wait is busy with. -/
def openings (t : TreeWait) : Nat :=
  match t.stage with
  | .arming _ j => j.openings
  | _ => 0

/-- The tickets that these waits hold. -/
def ticketsOf (ts : List TreeWait) : List Ticket := ts.flatMap tickets

/-- How many openings these waits are busy with. -/
def openingsOf (ts : List TreeWait) : Nat := (ts.map openings).sum

/-- All that a wait can do in one step. -/
inductive Steps (c : Clock) (t : TreeWait) (l : Link) : TreeProgress → Link → Prop where
  | ends : Steps c t l (.ended (.ok t.latest)) (t.leave l)
  | arms : t.stage = .round → Steps c t l (.goesOn (t.arm l).1) (t.arm l).2
  | joins {armed : List Ticket} {j j' : Joining} {l' : Link} : t.stage = .arming armed j →
      l.joinUnlocks c.now j = some (.notYet j', l') →
        Steps c t l (.goesOn { t with stage := .arming armed j' }) l'
  | joined {armed : List Ticket} {j : Joining} {l' : Link} : t.stage = .arming armed j →
      l.joinUnlocks c.now j = some (.running, l') →
        Steps c t l (.goesOn (t.askAgain c.now armed l').1) (t.askAgain c.now armed l').2
  | failed {armed : List Ticket} {j : Joining} {e : Fault} {l' : Link} :
      t.stage = .arming armed j → l.joinUnlocks c.now j = some (.failed e, l') →
        Steps c t l (.ended (.error e)) (leave { t with stage := .arming armed .waiting } l')
  | asks {armed : List Ticket} {x x' : Exchange (List Reply)} {l' : Link} :
      t.stage = .asking armed x → l.ask c [t.request] x = some (.notYet x', l') →
        Steps c t l (.goesOn { t with stage := .asking armed x' }) l'
  | settles {armed : List Ticket} {x : Exchange (List Reply)} {y : Exchanged (List Reply)}
      {result : Except Fault (Option Reply)} {l' : Link} : t.stage = .asking armed x →
      l.ask c [t.request] x = some (y, l') → Steps c t l (.ended result) (t.leave l')
  | parks {armed : List Ticket} {x : Exchange (List Reply)} {replies : List Reply}
      {reply : Reply} {l' : Link} : t.stage = .asking armed x →
      l.ask c [t.request] x = some (.answered (.ok replies), l') → reply ∈ replies →
        Steps c t l (.goesOn (t.park armed reply l').1) (t.park armed reply l').2
  | wakes : t.stage = .parked → allFreed? l.client.unlocks.list t.blocking = some true →
      Steps c t l (.goesOn { t with stage := .round }) l

end TreeWait

/-- The waits that are left after a step. -/
def TreeProgress.waits : TreeProgress → List TreeWait
  | goesOn t => [t]
  | ended _ => []

/-- The watch of a link's client serves these waits. -/
def Link.Serves (l : Link) (ts : List TreeWait) : Prop :=
  l.client.unlocks.Serves l.freed (TreeWait.ticketsOf ts) (TreeWait.openingsOf ts)

variable {l l' l'' : Link} {c : Clock} {t : TreeWait} {ts ts' rest : List TreeWait}
  {r : TreeProgress} {now deadline : Nat} {j : Joining} {k : Ticket}

namespace TreeWait

/-! ## What a wait holds -/

theorem books_of_round (h : t.stage = .round) : t.tickets = t.blocking ∧ t.openings = 0 := by
  constructor
  · rw [tickets, h]
  · rw [openings, h]

theorem books_of_arming {armed : List Ticket} (h : t.stage = .arming armed j) :
    t.tickets = armed ++ t.blocking ∧ t.openings = j.openings := by
  constructor
  · rw [tickets, h]
  · rw [openings, h]

theorem books_of_asking {armed : List Ticket} {x : Exchange (List Reply)}
    (h : t.stage = .asking armed x) : t.tickets = armed ++ t.blocking ∧ t.openings = 0 := by
  constructor
  · rw [tickets, h]
  · rw [openings, h]

theorem books_of_parked (h : t.stage = .parked) : t.tickets = t.blocking ∧ t.openings = 0 := by
  constructor
  · rw [tickets, h]
  · rw [openings, h]

/-- Whoever waits for all tickets hears of the first one that did not become free. -/
theorem allFreed?_cases (w : Waitlist) (ks : List Ticket) :
    (allFreed? w ks = some true ∧ ∀ k ∈ ks, w.outcome? k = some true) ∨
      ∃ k ∈ ks, w.outcome? k ≠ some true ∧ allFreed? w ks = w.outcome? k := by
  induction ks with
  | nil => exact .inl ⟨rfl, fun _ hk => nomatch hk⟩
  | cons k ks ih =>
      by_cases ho : w.outcome? k = some true
      · have htail : allFreed? w (k :: ks) = allFreed? w ks := by
          simp only [allFreed?, ho]
        rw [htail]
        rcases ih with ⟨hall, hfreed⟩ | ⟨m, hm, hne, heq⟩
        · refine .inl ⟨hall, fun m hm => ?_⟩
          rcases List.mem_cons.mp hm with rfl | hm
          · exact ho
          · exact hfreed m hm
        · exact .inr ⟨m, List.mem_cons_of_mem _ hm, hne, heq⟩
      · refine .inr ⟨k, List.mem_cons_self, ho, ?_⟩
        unfold allFreed?
        split
        · contradiction
        · next hvoid => exact hvoid.symm
        · next hnone => exact hnone.symm

/-- Whoever is woken was told of every ticket that its object became free. -/
theorem outcome?_of_allFreed? {w : Waitlist} {ks : List Ticket}
    (h : allFreed? w ks = some true) : ∀ k ∈ ks, w.outcome? k = some true := by
  rcases allFreed?_cases w ks with ⟨-, hfreed⟩ | ⟨k, -, hne, heq⟩
  · exact hfreed
  · exact absurd (heq.symm.trans h) hne

/-- Whoever still waits for tickets waits for one of them. -/
theorem exists_unsettled {w : Waitlist} {ks : List Ticket} (h : allFreed? w ks = none) :
    ∃ k ∈ ks, w.outcome? k = none := by
  rcases allFreed?_cases w ks with ⟨hall, -⟩ | ⟨k, hk, -, heq⟩
  · cases hall.symm.trans h
  · exact ⟨k, hk, heq.symm.trans h⟩

/-- Whoever holds good tickets is not told that no news will come. -/
theorem allFreed?_ne_some_false {w : Waitlist} {ks : List Ticket}
    (h : ∀ k ∈ ks, w.outcome? k ≠ some false) : allFreed? w ks ≠ some false := by
  intro hvoid
  rcases allFreed?_cases w ks with ⟨hall, -⟩ | ⟨k, hk, -, heq⟩
  · cases hall.symm.trans hvoid
  · exact h k hk (heq.symm.trans hvoid)

/-! ## What a wait can do -/

/-- With the answer a wait ends with a fault, or it has the reply to its tree: it ends when
the tree is granted and parks when it is refused. -/
theorem answered_cases (t : TreeWait) (armed : List Ticket)
    (answer : Except Fault (List Reply)) (l : Link) :
    (∃ e, t.answered armed answer l = t.stop l (.error e)) ∨
      ∃ replies reply, answer = .ok replies ∧ reply ∈ replies ∧
        reply.objectIds = t.request.objectIds ∧
        (reply.isGranted = true ∧ t.answered armed answer l = t.stop l (.ok (some reply)) ∨
          reply.isGranted = false ∧ t.answered armed answer l =
            (.goesOn (t.park armed reply l).1, (t.park armed reply l).2)) := by
  unfold answered
  split
  · exact .inl ⟨_, rfl⟩
  · next replies hcheck =>
      cases answer with
      | error e => cases hcheck
      | ok replies' =>
          have hEq : replies = replies' := eq_of_checkReplies hcheck
          subst hEq
          split
          · exact .inl ⟨_, rfl⟩
          · next reply hlast =>
              have hreply := List.mem_of_getLast? hlast
              have hids : reply.objectIds = t.request.objectIds := by
                obtain ⟨y, rfl, hy⟩ := (fits_of_checkReplies hcheck).eq_singleton
                rwa [List.mem_singleton.mp hreply]
              refine .inr ⟨replies, reply, rfl, hreply, hids, ?_⟩
              split
              · next hgranted => exact .inl ⟨hgranted, rfl⟩
              · next hrefused => exact .inr ⟨Bool.eq_false_iff.mpr hrefused, rfl⟩

theorem steps_of_answered {armed : List Ticket} {x : Exchange (List Reply)}
    {answer : Except Fault (List Reply)} (hstage : t.stage = .asking armed x)
    (ha : l.ask c [t.request] x = some (.answered answer, l')) :
    Steps c t l (t.answered armed answer l').1 (t.answered armed answer l').2 := by
  rcases t.answered_cases armed answer l' with
    ⟨e, heq⟩ | ⟨replies, reply, rfl, hreply, -, ⟨-, heq⟩ | ⟨-, heq⟩⟩
  · rw [heq]
    exact .settles hstage ha
  · rw [heq]
    exact .settles hstage ha
  · rw [heq]
    exact .parks hstage ha hreply

theorem steps_of_step (h : t.step c deadline l = some (r, l')) : Steps c t l r l' := by
  have hends {t : TreeWait} : t.timeUp c.now deadline l = some (r, l') → Steps c t l r l' := by
    intro h
    obtain ⟨-, h⟩ := Option.ite_none_right_eq_some.mp h
    cases h
    exact .ends
  unfold step at h
  split at h
  · next hstage =>
      split at h
      · cases h
        exact .ends
      · cases h
        exact .arms hstage
  · next armed j hstage =>
      split at h
      · exact hends h
      · next hj =>
          cases h
          exact .joins hstage hj
      · next hj =>
          cases h
          exact .joined hstage hj
      · next hj =>
          cases h
          exact .failed hstage hj
  · next armed x hstage =>
      split at h
      · exact hends h
      · next ha =>
          cases h
          exact .asks hstage ha
      · next answer l₁ ha =>
          have hs := steps_of_answered hstage ha
          rw [Option.some.inj h] at hs
          exact hs
      · next ha =>
          cases h
          exact .settles hstage ha
  · next hstage =>
      split at h
      · next hfreed =>
          cases h
          exact .wakes hstage hfreed
      · cases h
        exact .ends
      · exact hends h

end TreeWait

namespace Link

/-! ## What a step does to the link -/

theorem Onward.refl (l : Link) : Onward l l := ⟨.refl _, fun h => h, Nat.le_refl _⟩

theorem Onward.trans (h : Onward l l') (h' : Onward l' l'') : Onward l l'' :=
  ⟨h.announces.trans h'.announces, fun ho => h'.own_eq_none (h.own_eq_none ho),
    Nat.le_trans h.sent_le h'.sent_le⟩

/-- A client goes on following the bulletin that it followed. -/
theorem Onward.of_own_eq (h : l.authority.Announces l'.authority)
    (ho : l'.client.own = l.client.own) : Onward l l' := by
  refine ⟨h, fun hn => ho.trans hn, ?_⟩
  simp only [freed, Client.bulletin, ho]
  cases l.client.own with
  | some b => exact Nat.le_refl _
  | none =>
      obtain ⟨batches, hlog, -⟩ := h.batches
      simp only [Option.getD_none, Channel.sent, ← Array.length_toList, hlog]
      exact List.length_append ▸ Nat.le_add_right _ _

theorem freed_of_own_eq_none (h : l.client.own = none) : l.freed = l.authority.bulletin.freed := by
  simp only [freed, Client.bulletin, h]
  rfl

/-- A message changes the authority as requests do, and nothing at the client. -/
theorem ask_eq_some {rs : List Request} {x : Exchange (List Reply)}
    {y : Exchanged (List Reply)} (h : l.ask c rs x = some (y, l')) :
    l'.client = l.client ∧ l.authority.Announces l'.authority ∧
      x.step (l.client.route.passRequests c rs) c.now l.authority = some (y, l'.authority) := by
  obtain ⟨⟨y, a⟩, hstep, hEq⟩ := Option.map_eq_some_iff.mp h
  cases hEq
  refine ⟨rfl, ?_, hstep⟩
  rw [Exchange.authority_of_step hstep]
  split
  · exact Route.announces_passRequests _ c rs _
  · exact .refl _

theorem joinUnlocks_eq_some {r : Joined} (h : l.joinUnlocks now j = some (r, l')) :
    ∃ unlocks source,
      l.client.unlocks.join now l.freed l.client.source j = some (r, unlocks, source) ∧
        l' = { l with client := { l.client with unlocks, source } } := by
  obtain ⟨⟨r, unlocks, source⟩, hstep, hEq⟩ := Option.map_eq_some_iff.mp h
  cases hEq
  exact ⟨unlocks, source, hstep, rfl⟩

theorem onward_joinUnlocks {r : Joined} (h : l.joinUnlocks now j = some (r, l')) :
    Onward l l' := by
  obtain ⟨unlocks, source, -, rfl⟩ := joinUnlocks_eq_some h
  exact .of_own_eq (.refl _) rfl

theorem onward_ask {rs : List Request} {x : Exchange (List Reply)}
    {y : Exchanged (List Reply)} (h : l.ask c rs x = some (y, l')) : Onward l l' := by
  obtain ⟨hclient, hann, -⟩ := ask_eq_some h
  exact .of_own_eq hann (by rw [hclient])

/-- Changes of a client that leave its bulletin alone. -/
theorem onward_client (l : Link) {client : Client} (ho : client.own = l.client.own) :
    Onward l { l with client } := .of_own_eq (.refl _) ho

/-! ## The books are kept -/

theorem Serves.perm (h : l.Serves ts) (hp : ts.Perm ts') : l.Serves ts' := by
  have hopen : TreeWait.openingsOf ts = TreeWait.openingsOf ts' := (hp.map _).sum_nat
  unfold Serves
  rw [← hopen]
  exact UnlockWatch.Serves.perm h (hp.flatMap_right _)

/-- The watch serves on when the bulletin goes on. -/
theorem Serves.onward (h : l.Serves ts) (ho : Onward l l')
    (hu : l'.client.unlocks = l.client.unlocks) : l'.Serves ts := by
  unfold Serves
  rw [hu]
  exact UnlockWatch.Serves.mono h ho.sent_le

/-- A wait in front, with its tickets and openings on their own. -/
theorem serves_cons_iff : l.Serves (t :: rest) ↔
    l.client.unlocks.Serves l.freed (t.tickets ++ TreeWait.ticketsOf rest)
      (t.openings + TreeWait.openingsOf rest) := by
  simp [Serves, TreeWait.ticketsOf, TreeWait.openingsOf]

/-- What a wait that goes on has to show for itself, and the others do not notice. -/
structure Carries (l l' : Link) (new rest : List TreeWait) : Prop where
  serves : l'.Serves (new ++ rest)
  onward : Onward l l'
  undisturbed : ∀ k ∈ TreeWait.ticketsOf rest,
    l.client.unlocks.Undisturbed l'.client.unlocks k

/-- Whoever leaves gives back the tickets and leaves the opening to others. -/
theorem Serves.leave (h : l.Serves (t :: rest)) : Carries l (t.leave l) [] rest := by
  have honward : Onward l (t.leave l) := onward_client l rfl
  rw [serves_cons_iff] at h
  have hstage : t.openings = 0 ∧ t.leave l = l.withUnlocks (l.client.unlocks.releaseAll t.tickets) ∨
      ∃ armed j, t.stage = .arming armed j ∧ t.openings = j.openings ∧
        t.leave l = l.withUnlocks ((l.client.unlocks.leave j).releaseAll t.tickets) := by
    unfold TreeWait.leave TreeWait.openings
    cases hs : t.stage with
    | arming armed j => exact .inr ⟨armed, j, rfl, rfl, rfl⟩
    | round => exact .inl ⟨rfl, rfl⟩
    | asking armed x => exact .inl ⟨rfl, rfl⟩
    | parked => exact .inl ⟨rfl, rfl⟩
  rcases hstage with ⟨hopen, hleave⟩ | ⟨armed, j, -, hopen, hleave⟩
  · rw [hopen, Nat.zero_add] at h
    rw [hleave]
    exact ⟨h.releaseAll, hleave ▸ honward, fun k hk => h.undisturbed_releaseAll hk⟩
  · rw [hopen] at h
    have h' := h.leave
    rw [hleave]
    refine ⟨h'.releaseAll, hleave ▸ honward, ?_⟩
    intro k hk
    exact (h.undisturbed_leave k).trans (h'.undisturbed_releaseAll hk)

/-- One change after the other. -/
theorem Carries.after {new : List TreeWait} (ho : Onward l l')
    (hu : ∀ k ∈ TreeWait.ticketsOf rest, l.client.unlocks.Undisturbed l'.client.unlocks k)
    (h : Carries l' l'' new rest) : Carries l l'' new rest :=
  ⟨h.serves, ho.trans h.onward, fun k hk => (hu k hk).trans (h.undisturbed k hk)⟩

/-- Nothing happens to the watch, and the wait keeps its tickets. -/
theorem Serves.carries_of_unlocks_eq {t' : TreeWait} (h : l.Serves (t :: rest))
    (ho : Onward l l') (hu : l'.client.unlocks = l.client.unlocks)
    (htickets : t'.tickets = t.tickets) (hopen : t'.openings = t.openings) :
    Carries l l' [t'] rest := by
  refine ⟨?_, ho, fun k _ => hu ▸ .refl _ k⟩
  have h' := h.onward ho hu
  rw [serves_cons_iff] at h'
  change l'.Serves (t' :: rest)
  rw [serves_cons_iff, htickets, hopen]
  exact h'

/-- Whoever needs the monitor keeps the tickets through a step towards it. -/
theorem Serves.join {r : Joined} {armed : List Ticket} (h : l.Serves (t :: rest))
    (hstage : t.stage = .arming armed j) (hj : l.joinUnlocks now j = some (r, l')) :
    l'.client.unlocks.Serves l'.freed (armed ++ t.blocking ++ TreeWait.ticketsOf rest)
        (r.openings + TreeWait.openingsOf rest) ∧
      Onward l l' ∧ ∀ k, l.client.unlocks.Undisturbed l'.client.unlocks k := by
  obtain ⟨htickets, hopen⟩ := TreeWait.books_of_arming hstage
  rw [serves_cons_iff, htickets, hopen] at h
  have honward := onward_joinUnlocks hj
  obtain ⟨unlocks, source, hstep, rfl⟩ := joinUnlocks_eq_some hj
  exact ⟨UnlockWatch.Serves.join h hstep, honward, UnlockWatch.Serves.undisturbed_join h hstep⟩

/-- The tickets of a round are parted into those that are kept and the others. -/
theorem perm_park (t : TreeWait) (armed : List Ticket) (p : Ticket → Bool)
    (others : List Ticket) :
    (armed ++ t.blocking ++ others).Perm
      (armed.filter (!p ·) ++ t.blocking ++ (armed.filter p ++ others)) := by
  have hparted := List.filter_append_perm p armed
  calc
    List.Perm (armed ++ t.blocking ++ others)
        (armed.filter p ++ armed.filter (!p ·) ++ t.blocking ++ others) :=
      (hparted.symm.append_right _).append_right _
    _ = armed.filter p ++ (armed.filter (!p ·) ++ t.blocking) ++ others := by
      rw [List.append_assoc (armed.filter p)]
    List.Perm _ (armed.filter (!p ·) ++ t.blocking ++ armed.filter p ++ others) :=
      List.perm_append_comm.append_right _
    _ = _ := List.append_assoc _ _ _

/-- Whoever parks does not disturb the tickets that are kept. -/
theorem Serves.park {armed : List Ticket} {x : Exchange (List Reply)}
    (h : l.Serves (t :: rest)) (hstage : t.stage = .asking armed x) (reply : Reply) :
    (t.park armed reply l).2.Serves ((t.park armed reply l).1 :: rest) ∧
      ∀ k ∈ (t.park armed reply l).1.blocking ++ TreeWait.ticketsOf rest,
        l.client.unlocks.Undisturbed (t.park armed reply l).2.client.unlocks k := by
  obtain ⟨htickets, hopen⟩ := TreeWait.books_of_asking hstage
  rw [serves_cons_iff, htickets, hopen] at h
  have hparted := UnlockWatch.Serves.perm h
    (perm_park t armed (fun k => reply.unavailableIds.contains k.objectId) _)
  exact ⟨serves_cons_iff.mpr hparted.releaseAll, fun k hk => hparted.undisturbed_releaseAll hk⟩

theorem Serves.steps (h : l.Serves (t :: rest)) (hs : t.Steps c l r l') :
    Carries l l' r.waits rest := by
  cases hs with
  | ends => exact h.leave
  | arms hstage =>
      obtain ⟨htickets, hopen⟩ := TreeWait.books_of_round hstage
      refine ⟨?_, onward_client l rfl, fun k _ => l.client.unlocks.undisturbed_register _ k⟩
      rw [serves_cons_iff, htickets, hopen] at h
      have hreg := h.register t.request.objectIds
      rw [← List.append_assoc] at hreg
      exact serves_cons_iff.mpr hreg
  | @joins armed j j' l' hstage hj =>
      obtain ⟨hserves, ho, hu⟩ := h.join hstage hj
      exact ⟨serves_cons_iff.mpr hserves, ho, fun k _ => hu k⟩
  | @joined armed j l₁ hstage hj =>
      obtain ⟨hserves, ho, hu⟩ := h.join hstage hj
      have ho' : Onward l₁ (t.askAgain c.now armed l₁).2 := onward_client l₁ rfl
      have hserves' := hserves.mono ho'.sent_le
      exact ⟨serves_cons_iff.mpr hserves', ho.trans ho', fun k _ => hu k⟩
  | @failed armed j e l₁ hstage hj =>
      obtain ⟨hserves, ho, hu⟩ := h.join hstage hj
      have hserves' : l₁.Serves ({ t with stage := .arming armed .waiting } :: rest) :=
        serves_cons_iff.mpr hserves
      exact hserves'.leave.after ho fun k _ => hu k
  | @asks armed x x' l' hstage ha =>
      obtain ⟨htickets, hopen⟩ := TreeWait.books_of_asking hstage
      apply h.carries_of_unlocks_eq (onward_ask ha) (by rw [(ask_eq_some ha).1])
      · exact htickets.symm
      · exact hopen.symm
  | @settles armed x y result l₁ hstage ha =>
      have hu : l₁.client.unlocks = l.client.unlocks := by rw [(ask_eq_some ha).1]
      have hserves := h.onward (onward_ask ha) hu
      exact hserves.leave.after (onward_ask ha) fun k _ => hu ▸ .refl _ k
  | @parks armed x replies reply l₁ hstage ha hreply =>
      have hu : l₁.client.unlocks = l.client.unlocks := by rw [(ask_eq_some ha).1]
      have hserves := h.onward (onward_ask ha) hu
      obtain ⟨hparked, hund⟩ := hserves.park hstage reply
      exact Carries.after (onward_ask ha) (fun k _ => hu ▸ .refl _ k)
        ⟨hparked, onward_client l₁ rfl, fun k hk => hund k (List.mem_append_right _ hk)⟩
  | wakes hstage hfreed =>
      obtain ⟨htickets, hopen⟩ := TreeWait.books_of_parked hstage
      apply h.carries_of_unlocks_eq (.refl l) rfl
      · exact htickets.symm
      · exact hopen.symm

end Link

end LeasedLocks
