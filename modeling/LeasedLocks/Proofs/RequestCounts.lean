import LeasedLocks.Proofs.GoodTickets
import LeasedLocks.Proofs.Messages
import LeasedLocks.Proofs.Refusals
import LeasedLocks.Proofs.ReportedGrants

/-!
# Waiting does not poll

A call asks for a tree once when it begins and once more when it begins to wait. Every
further message for the tree follows a notice of the client's stream: the tickets of a round
are new when it begins, so whoever is woken was told something since (`TreeWait.AccountedFor`).

## Implementation notes

The notices are counted from the beginning of the call. A wait accounts for all messages for
its tree by the notices that came before its present round, and as soon as one of its
tickets is good, by one notice more. This is kept whatever the other calls of the client do,
also if they share the entries of its waitlist.
-/

namespace LeasedLocks

/-- What was read says that objects became free, or that some notices were missed. -/
def Reading.isNews {α : Type} : Reading α → Bool
  | item _ => true
  | lagged _ => true
  | pending => false
  | closed => false

namespace World

/-- With this event the stream of the client at place `i` delivers some news. -/
def delivers (i : Nat) (w : World) : Event → Bool
  | .turn (.freedPump j) =>
    j == i && (w.link? i).any fun l => (l.client.unlocks.reading? l.freed).any Reading.isNews
  | _ => false

/-- The call at place `k` has begun and is not over. -/
def goesOn (k : Nat) (w : World) : Bool := w.calls[k]?.any (!·.state.isOver)

/-- How often the stream of the client at place `i` delivers some news in the course of these
events, as long as the call at place `k` goes on. -/
def deliveries (i k : Nat) : World → List Event → Nat
  | _, [] => 0
  | w, e :: es =>
    (w.goesOn k && w.delivers i e).toNat + ((w.next e).map (deliveries i k · es)).getD 0

end World

/-- How many of these messages ask for the tree with this root. -/
def asksFor (id : String) (ms : List (Nat × List String)) : Nat := ms.countP (·.2.contains id)

namespace TreeWait

/-- The tree that is waited for, by its first object. -/
def root (t : TreeWait) : String := t.request.objectId

/-- The tickets that were taken for the round that a wait is in. -/
def current (t : TreeWait) : List Ticket :=
  match t.stage with
  | .round => []
  | .arming armed _ => armed
  | .asking armed _ => armed
  | .parked => t.blocking

/-- How often the tree was asked for in the round that a wait is in. -/
def askedNow (t : TreeWait) : Nat :=
  match t.stage with
  | .round => 0
  | .arming _ _ => 0
  | .asking _ _ => 1
  | .parked => 1

/-- All messages for the tree are accounted for: one with which the call began, one for the
round that the wait is in, and for every other one a notice that was delivered. -/
structure AccountedFor (t : TreeWait) (l : Link) (asked delivered : Nat) : Prop where
  le : asked ≤ delivered + 1 + t.askedNow
  /-- A notice that came in the present round is not needed yet. -/
  le_of_freed : ∀ k ∈ t.current, l.client.unlocks.list.outcome? k = some true →
    asked ≤ delivered + t.askedNow

end TreeWait

/-- A call that asks for all trees at once has asked for none of them before. -/
def CallState.AsksOnce (ms : List (Nat × List String)) : CallState → Prop
  | locking requests _ (.asking _) =>
    (requests.map Request.objectId).Nodup ∧ ∀ r ∈ requests, asksFor r.objectId ms ≤ 1
  | _ => True

/-- The call has asked for these trees with these messages, and the notices that were
delivered since it began account for them. -/
structure CallState.AccountedFor (requests : List Request) (l : Link)
    (ms : List (Nat × List String)) (delivered : Nat) (s : CallState) : Prop where
  le_two : ∀ r ∈ requests, asksFor r.objectId ms ≤ 2 + delivered
  asksOnce : s.AsksOnce ms
  nodup : (s.waits.map TreeWait.root).Nodup
  hasTickets : ∀ t ∈ s.waits, t.HasTickets
  waits : ∀ t ∈ s.waits, t.AccountedFor l (asksFor t.root ms) delivered

variable {l l' : Link} {c : Clock} {t t' : TreeWait} {ts : List TreeWait} {r : TreeProgress}
  {s s' : CallState} {requests : List Request} {ms : List (Nat × List String)}
  {asked deadline d d' : Nat} {id : String}

/-! ## One wait -/

theorem asksFor_append (id : String) (ms ns : List (Nat × List String)) :
    asksFor id (ms ++ ns) = asksFor id ms + asksFor id ns := List.countP_append

namespace TreeWait

theorem current_subset (t : TreeWait) : t.current ⊆ t.tickets := by
  unfold current
  cases hstage : t.stage with
  | round => exact List.nil_subset _
  | arming armed j =>
      rw [(books_of_arming hstage).1]
      exact List.subset_append_left armed t.blocking
  | asking armed x =>
      rw [(books_of_asking hstage).1]
      exact List.subset_append_left armed t.blocking
  | parked =>
      rw [(books_of_parked hstage).1]
      exact List.Subset.refl t.blocking

/-- All messages of a wait ask for its own tree. -/
theorem asksFor_sends (now : Nat) (t : TreeWait) (r : TreeProgress) (id : String) :
    asksFor id (t.sends now r) = if t.root = id then (t.sends now r).length else 0 := by
  cases r with
  | ended result => exact (ite_self 0).symm
  | goesOn t' =>
      simp only [sends]
      split
      · simp [asksFor, root, List.countP_cons, eq_comm]
      · exact (ite_self 0).symm

theorem asksFor_append_sends (ms : List (Nat × List String)) (now : Nat) (t : TreeWait)
    (r : TreeProgress) (id : String) :
    asksFor id (ms ++ t.sends now r) =
      asksFor id ms + if t.root = id then (t.sends now r).length else 0 := by
  rw [asksFor_append, asksFor_sends]

theorem root_of_steps (hs : t.Steps c l r l') : ∀ t' ∈ r.waits, t'.root = t.root :=
  fun t' ht' => congrArg Request.objectId (CallState.request_of_steps hs t' ht')

/-- With a step of one of them the roots of the waits stay different. -/
theorem nodup_roots_of_steps (hs : t.Steps c l r l') (h : ((t :: ts).map root).Nodup) :
    ((r.waits ++ ts).map root).Nodup := by
  cases r with
  | ended result => exact (List.nodup_cons.mp h).2
  | goesOn t' =>
      change ((t' :: ts).map root).Nodup
      rw [List.map_cons, root_of_steps hs t' List.mem_cons_self]
      exact h

theorem askedNow_le (t : TreeWait) : t.askedNow ≤ 1 := by
  unfold askedNow
  split <;> omega

theorem AccountedFor.asked_le (h : t.AccountedFor l asked d) : asked ≤ 2 + d := by
  have hle := h.le
  have hnow := t.askedNow_le
  omega

/-- Other things happen, and what settles a ticket is a notice. -/
theorem AccountedFor.later (h : t.AccountedFor l asked d) (hd : d ≤ d')
    (hfreed : ∀ k ∈ t.tickets, l'.client.unlocks.list.outcome? k = some true →
      l.client.unlocks.list.outcome? k = some true ∨ d < d') : t.AccountedFor l' asked d' := by
  have hle := h.le
  constructor
  case le => omega
  case le_of_freed =>
    intro k hk ho
    rcases hfreed k (t.current_subset hk) ho with ho | hlt
    · have := h.le_of_freed k hk ho
      omega
    · omega

theorem IsFresh.accountedFor (h : t.IsFresh) (hasked : asked ≤ 1) : t.AccountedFor l asked d := by
  constructor
  case le => omega
  case le_of_freed =>
    intro k hk
    rw [current, h.stage_eq] at hk
    cases hk

/-- A wait that goes on accounts for the message that it sends, if nothing is missing when it
is parked without a ticket. -/
theorem AccountedFor.step (h : t.AccountedFor l asked d)
    (hbare : t.stage = .parked → t.blocking = [] → asked ≤ d + 1) (hserves : l.Serves ts)
    (hs : t.Steps c l (.goesOn t') l')
    (houtcomes : ∀ k ∈ t'.tickets,
      l'.client.unlocks.list.outcome? k = l.client.unlocks.list.outcome? k) :
    t'.AccountedFor l' (asked + (t.sends c.now (.goesOn t')).length) d := by
  have hcurrent : ∀ k ∈ t'.current, l'.client.unlocks.list.outcome? k = some true →
      l.client.unlocks.list.outcome? k = some true :=
    fun k hk ho => (houtcomes k (t'.current_subset hk)).symm.trans ho
  obtain ⟨hle, hfreed⟩ := h
  unfold askedNow at hle
  unfold askedNow current at hfreed
  cases hs with
  | arms hstage =>
      -- no ticket of the new round is good yet
      simp only [hstage] at hle
      rw [sends, hstage]
      refine ⟨hle, fun k hk ho => ?_⟩
      have hnone : l.client.unlocks.list.outcome? k = none :=
        Waitlist.outcome?_registerAll (UnlockWatch.Serves.accounts hserves) _ k hk
      cases hnone.symm.trans (hcurrent k hk ho)
  | joins hstage _ =>
      simp only [hstage] at hle hfreed
      rw [sends, hstage]
      exact ⟨hle, fun k hk ho => hfreed k hk (hcurrent k hk ho)⟩
  | joined hstage _ =>
      simp only [hstage] at hle hfreed
      rw [sends, hstage]
      constructor
      · exact Nat.succ_le_succ hle
      · intro k hk ho
        exact Nat.succ_le_succ (hfreed k hk (hcurrent k hk ho))
  | asks hstage _ =>
      simp only [hstage] at hle hfreed
      rw [sends, hstage]
      exact ⟨hle, fun k hk ho => hfreed k hk (hcurrent k hk ho)⟩
  | parks hstage _ _ =>
      simp only [hstage] at hle hfreed
      rw [sends, hstage]
      exact ⟨hle, fun k hk ho => hfreed k (List.mem_of_mem_filter hk) (hcurrent k hk ho)⟩
  | wakes hstage hwoken =>
      simp only [hstage] at hfreed
      rw [sends, hstage]
      constructor
      · cases hblocking : t.blocking with
        | nil => exact hbare hstage hblocking
        | cons k ks =>
            -- all of the tickets are good, and the notice of one pays for the next message
            have hk : k ∈ t.blocking := hblocking ▸ List.mem_cons_self
            exact hfreed k hk (outcome?_of_allFreed? hwoken k hk)
      · intro k hk
        cases hk

/-- Whatever is left of a wait accounts for the messages that ask for its tree. -/
theorem AccountedFor.steps (h : t.AccountedFor l (asksFor t.root ms) d) (hhasTickets : t.HasTickets)
    (hserves : l.Serves ts) (hs : t.Steps c l r l')
    (houtcomes : ∀ t' ∈ r.waits, ∀ k ∈ t'.tickets,
      l'.client.unlocks.list.outcome? k = l.client.unlocks.list.outcome? k) :
    ∀ t' ∈ r.waits, t'.AccountedFor l' (asksFor t.root (ms ++ t.sends c.now r)) d := by
  intro t' ht'
  rw [asksFor_append_sends, if_pos rfl]
  cases r with
  | ended result => cases ht'
  | goesOn u =>
      obtain rfl := List.mem_singleton.mp ht'
      refine h.step (fun hparked hnil => ?_) hserves hs (houtcomes t' ht')
      exact absurd hnil (hhasTickets.blocking_ne_nil hparked)

end TreeWait

/-! ## One call -/

namespace CallState

/-- The trees that are waited for are among those that were asked for. -/
theorem map_request_branchesOf_sublist (requests : List Request) (replies : List Reply) :
    (((branchesOf requests replies).filterMap Branch.wait).map TreeWait.request).Sublist
      ((requests.zip replies).map Prod.fst) := by
  have hzip : (requests.zip replies).zipIdx.map (fun x => x.1.1) =
      (requests.zip replies).map Prod.fst := by
    have hfst := congrArg (List.map Prod.fst) (List.zipIdx_map_fst 0 (requests.zip replies))
    rwa [List.map_map] at hfst
  have hbranches : ((branchesOf requests replies).filterMap Branch.wait).map TreeWait.request =
      ((requests.zip replies).zipIdx.filter fun x => !x.1.2.isGranted).map fun x => x.1.1 := by
    rw [branchesOf, List.filterMap_map, List.map_filterMap]
    exact congrFun List.filterMap_eq_map _
  rw [← hzip, hbranches]
  exact List.filter_sublist.map _

theorem map_request_answered_sublist (requests : List Request) (wait : Option Duration)
    (now : Nat) (answer : Except Fault (List Reply)) :
    ((answered requests wait now answer).waits.map TreeWait.request).Sublist requests := by
  rcases answered_cases requests wait now answer with
    ⟨e, heq⟩ | ⟨replies, -, hfits, heq | ⟨d, -, -, heq⟩⟩
  · rw [heq]
    exact List.nil_sublist _
  · rw [heq]
    exact List.nil_sublist _
  · have hsub := map_request_branchesOf_sublist requests replies
    rw [List.map_fst_zip (Nat.le_of_eq hfits.length_eq)] at hsub
    rw [heq]
    exact hsub

/-- Other things happen, and what settles a ticket is a notice. -/
theorem AccountedFor.later (h : s.AccountedFor requests l ms d) (hd : d ≤ d')
    (hfreed : ∀ t ∈ s.waits, ∀ k ∈ t.tickets,
      l'.client.unlocks.list.outcome? k = some true →
        l.client.unlocks.list.outcome? k = some true ∨ d < d') :
    s.AccountedFor requests l' ms d' := by
  constructor
  case le_two =>
    intro r hr
    have := h.le_two r hr
    omega
  case asksOnce => exact h.asksOnce
  case nodup => exact h.nodup
  case hasTickets => exact h.hasTickets
  case waits => exact fun t ht => (h.waits t ht).later hd (hfreed t ht)

theorem asksOnce_answered (requests : List Request) (wait : Option Duration) (now : Nat)
    (answer : Except Fault (List Reply)) (ms : List (Nat × List String)) :
    (answered requests wait now answer).AsksOnce ms := by
  rcases answered_cases requests wait now answer with
    ⟨e, heq⟩ | ⟨replies, -, -, heq | ⟨d, -, -, heq⟩⟩ <;>
  · rw [heq]
    trivial

/-- A turn of the task that makes the call. -/
theorem AccountedFor.step (h : s.AccountedFor requests l ms d) (hs : s.step c l = some (s', l')) :
    s'.AccountedFor requests l' ms d := by
  have hfresh := isFresh_of_step hs
  suffices hs' : s'.AsksOnce ms ∧ (s'.waits.map TreeWait.root).Nodup ∧
      ∀ t ∈ s'.waits, asksFor t.root ms ≤ 1 by
    obtain ⟨hasks, hnodup, hone⟩ := hs'
    constructor
    case le_two => exact h.le_two
    case asksOnce => exact hasks
    case nodup => exact hnodup
    case hasTickets => exact hasTickets_of_step hs
    case waits => exact fun t ht => (hfresh t ht).accountedFor (hone t ht)
  have hasksOnce := h.asksOnce
  cases steps_of_step hs with
  | asks _ => exact ⟨hasksOnce, .nil, fun _ ht => nomatch ht⟩
  | @hears rs wait _ answer _ _ _ =>
      obtain ⟨hnodup, hone⟩ := hasksOnce
      have hsub := map_request_answered_sublist rs wait c.now answer
      refine ⟨asksOnce_answered rs wait c.now answer ms, ?_, fun t ht => ?_⟩
      · have hroots := hnodup.sublist (hsub.map Request.objectId)
        rwa [List.map_map] at hroots
      · exact hone t.request (hsub.subset (List.mem_map_of_mem ht))
  | crashes _ | finishes _ _ | passes _ | released _ | joins _ | joined _ =>
      exact ⟨trivial, .nil, fun _ ht => nomatch ht⟩

theorem asksOnce_of_stepBranch {b : Nat} (h : s.stepBranch c b l = some (s', l'))
    (ms : List (Nat × List String)) : s'.AsksOnce ms := by
  obtain ⟨_, _, _, _, _, _, _, _, _, _, -, -, -, rfl⟩ := stepBranch_eq_some h
  trivial

/-- A turn of whoever waits for one of the trees. -/
theorem AccountedFor.stepBranch {b : Nat} (h : s.AccountedFor requests l ms d)
    (hc : l.client.RelaysAnswers) (hserves : l.Serves ts) (hs : s.stepBranch c b l = some (s', l'))
    (houtcomes : ∀ t ∈ s'.waits, ∀ k ∈ t.tickets,
      l'.client.unlocks.list.outcome? k = l.client.unlocks.list.outcome? k) :
    ∃ ns, l'.client.sent.toList = l.client.sent.toList ++ ns ∧
      s'.AccountedFor requests l' (ms ++ ns) d := by
  obtain ⟨t, r, _, kept, hold, hnew, hstep⟩ := waits_of_stepBranch hs
  have hsteps := TreeWait.steps_of_step hstep
  have ht : t ∈ s.waits := hold.mem_iff.mpr List.mem_cons_self
  -- the roots of all trees that are waited for are different
  have hnodup : ((t :: kept).map TreeWait.root).Nodup := (hold.map _).nodup_iff.mp h.nodup
  have hself : ∀ t' ∈ r.waits, t'.AccountedFor l' (asksFor t.root (ms ++ t.sends c.now r)) d :=
    (h.waits t ht).steps (h.hasTickets t ht) hserves hsteps
      fun t' ht' => houtcomes t' (hnew.mem_iff.mpr (List.mem_append_left _ ht'))
  refine ⟨t.sends c.now r, TreeWait.sent_of_steps hsteps, ?_⟩
  constructor
  case le_two =>
    intro q hq
    have htwo := h.le_two q hq
    by_cases heq : t.root = q.objectId
    · cases r with
      | ended result => exact (List.append_nil ms).symm ▸ htwo
      | goesOn u => exact heq ▸ (hself u List.mem_cons_self).asked_le
    · rw [TreeWait.asksFor_append_sends, if_neg heq]
      exact htwo
  case asksOnce => exact asksOnce_of_stepBranch hs _
  case nodup =>
    rw [(hnew.map _).nodup_iff]
    exact TreeWait.nodup_roots_of_steps hsteps hnodup
  case hasTickets => exact hasTickets_of_stepBranch h.hasTickets hc hs
  case waits =>
    intro u hu
    have houtcomes := houtcomes u hu
    rcases List.mem_append.mp (hnew.mem_iff.mp hu) with hu | hu
    · rw [TreeWait.root_of_steps hsteps u hu]
      exact hself u hu
    · have hother : t.root ≠ u.root := by
        intro heq
        apply (List.nodup_cons.mp hnodup).1
        rw [heq]
        exact List.mem_map_of_mem hu
      rw [TreeWait.asksFor_append_sends, if_neg hother, Nat.add_zero]
      apply (h.waits u (hold.mem_iff.mpr (List.mem_cons_of_mem _ hu))).later (Nat.le_refl d)
      exact fun k hk ho => .inl ((houtcomes k hk).symm.trans ho)

/-- The caller is not interested any more. -/
theorem AccountedFor.cancel (h : s.AccountedFor requests l ms d) :
    (s.cancel l).1.AccountedFor requests l' ms d := by
  have hnil : (s.cancel l).1.waits = [] := (does_of_cancel (c := ⟨0, 0⟩) s l).1
  constructor
  case le_two => exact h.le_two
  case asksOnce =>
    cases s with
    | locking rs wait stage => cases stage <;> trivial
    | _ => trivial
  case nodup =>
    rw [hnil]
    exact .nil
  case hasTickets =>
    rw [hnil]
    exact fun _ ht => nomatch ht
  case waits =>
    rw [hnil]
    exact fun _ ht => nomatch ht

end CallState

theorem CallState.isOver_eq_false_of_mem_waits (ht : t ∈ s.waits) : s.isOver = false := by
  cases s with
  | locking _ _ _ => rfl
  | releasing _ _ => rfl
  | joining _ => rfl
  | returned _ _ => cases ht
  | cancelled => cases ht

/-! ## One call in a run -/

namespace World

variable {w w' : World} {e : Event} {es : List Event} {i k : Nat}

theorem deliveries_cons (hn : w.next e = some w') :
    w.deliveries i k (e :: es) =
      (w.goesOn k && w.delivers i e).toNat + w'.deliveries i k es := by
  simp only [deliveries, hn, Option.map_some, Option.getD_some]

/-- A ticket becomes good only with some news. -/
theorem delivers_of_next {ticket : Ticket} (hw : Serves w) (hn : w.next e = some w')
    (hl : w.link? i = some l) (hl' : w'.link? i = some l')
    (hk : ticket ∈ TreeWait.ticketsOf (w'.waits i))
    (ho : l'.client.unlocks.list.outcome? ticket = some true) :
    l.client.unlocks.list.outcome? ticket = some true ∨ w.delivers i e = true := by
  rcases outcome?_of_next hw hn hl hl' hk with hsame | ⟨-, hvoid | ⟨-, rfl, hhears⟩⟩
  · exact .inl (hsame.symm.trans ho)
  · cases hvoid.symm.trans ho
  · refine .inr ?_
    simp only [delivers, beq_self_eq_true, hl, Option.any_some, Bool.true_and]
    rcases hhears with ⟨batch, hread, -⟩ | ⟨missed, hread⟩ <;> rw [hread] <;> rfl

/-- A ticket that a call waits with becomes good only with a notice that counts. -/
theorem counts_of_next {ticket : Ticket} (hw : Serves w) (hn : w.next e = some w')
    (hl : w.link? i = some l) (hl' : w'.link? i = some l') (hcall : w.calls[k]? = some ⟨i, s⟩)
    (hsame : w'.calls[k]? = some ⟨i, s⟩) (ht : t ∈ s.waits) (hk : ticket ∈ t.tickets)
    (ho : l'.client.unlocks.list.outcome? ticket = some true) :
    l.client.unlocks.list.outcome? ticket = some true ∨
      d < d + (w.goesOn k && w.delivers i e).toNat := by
  have hgoes : w.goesOn k = true := by
    simp only [goesOn, hcall, Option.any_some]
    rw [CallState.isOver_eq_false_of_mem_waits ht]
    rfl
  apply (delivers_of_next hw hn hl hl' (mem_ticketsOf_waits hsame ht hk) ho).imp_right
  intro hnews
  rw [hgoes, hnews]
  exact Nat.lt_succ_self d

/-- With one event more, a call still accounts for its messages. -/
theorem accountedFor_of_next (hw : Serves w) (hn : w.next e = some w') (hl : w.link? i = some l)
    (hc : l.client.RelaysAnswers) (hcall : w.calls[k]? = some ⟨i, s⟩)
    (h : s.AccountedFor requests l ms d) :
    ∃ s' l', w'.calls[k]? = some ⟨i, s'⟩ ∧ w'.link? i = some l' ∧ l'.client.RelaysAnswers ∧
      s'.AccountedFor requests l' (ms ++ w.messagesOf i k e)
        (d + (w.goesOn k && w.delivers i e).toNat) := by
  obtain ⟨l', hl', hlasts⟩ := keepsClients_of_next hn i l hl
  have hc' := hc.lasts hlasts
  rcases callStep_of_next hn hl hl' hcall with ⟨hsame, hturn⟩ | ⟨s', hb, -, hs', hclients⟩
  · -- somebody else's event
    refine ⟨s, l', hsame, hl', hc', ?_⟩
    rw [messagesOf_eq_nil hturn, List.append_nil]
    apply h.later (Nat.le_add_right _ _)
    exact fun t ht k' hk' ho => counts_of_next hw hn hl hl' hcall hsame ht hk' ho
  · refine ⟨s', l', hs', hl', hc', ?_⟩
    cases hb with
    | call hstep =>
        rw [messagesOf_call hn hl hclients hstep, List.append_nil]
        simpa [delivers] using h.step hstep
    | branch hstep =>
        obtain ⟨m, hm, houtcomes⟩ :=
          sameOutcomes_of_next hw hn (fun h => nomatch h) (fun h => nomatch h) l hl
        rw [hl'] at hm
        cases hm
        obtain ⟨ns, hsent, haccounted⟩ := h.stepBranch hc (hw hl) hstep
          fun t ht k' hk' => houtcomes k' (mem_ticketsOf_waits hs' ht hk')
        rw [messagesOf_turn hn hl hclients (beq_self_eq_true _) hsent]
        simpa [delivers] using haccounted
    | cancel =>
        rw [messagesOf_eq_nil rfl, List.append_nil]
        simpa [delivers] using h.cancel

theorem accountedFor_of_run (hr : Run w es w') (hw : Serves w) (hl : w.link? i = some l)
    (hc : l.client.RelaysAnswers) (hcall : w.calls[k]? = some ⟨i, s⟩)
    (h : s.AccountedFor requests l ms d) :
    ∃ s' l', w'.calls[k]? = some ⟨i, s'⟩ ∧
      s'.AccountedFor requests l' (ms ++ w.messages i k es) (d + w.deliveries i k es) := by
  induction hr generalizing l s ms d with
  | nil w =>
      refine ⟨s, l, hcall, ?_⟩
      rw [messages, List.append_nil]
      exact h
  | @cons w w₁ w' e es hn hr ih =>
      obtain ⟨s₁, l₁, hcall₁, hl₁, hc₁, h₁⟩ := accountedFor_of_next hw hn hl hc hcall h
      rw [messages_cons hn, ← List.append_assoc, deliveries_cons hn, ← Nat.add_assoc]
      exact ih (Serves.clientsStep hw (clientsStep_of_next hn)) hl₁ hc₁ hcall₁ h₁

/-- The trees of a valid call differ in their first objects. -/
theorem nodup_roots (h : (requests.flatMap Request.objectIds).Nodup) :
    (requests.map Request.objectId).Nodup := by
  refine List.pairwise_map.mpr ((List.nodup_flatMap.mp h).2.imp ?_)
  intro q r hdisjoint heq
  have hmem (r : Request) : r.objectId ∈ r.objectIds :=
    List.mem_map_of_mem (Tree.label_mem_labels_self r)
  exact hdisjoint (hmem q) (heq ▸ hmem r)

/-- A call never asks for one of its trees more often than twice and once for every time
that the stream of its client delivers some news, whatever else happens, and however long
its messages take. -/
theorem asksFor_le_of_lock {w₀ : World} {es₀ : List Event} {wait : Option Duration}
    (hw₀ : IsNew w₀) (hr₀ : Run w₀ es₀ w) (hl : w.link? i = some l) (hc : l.client.RelaysAnswers)
    (hr : Run (w.lock i requests wait) es w') : ∀ r ∈ requests,
      asksFor r.objectId (w.sentUntil i (w.lock i requests wait) ++
          (w.lock i requests wait).messages i w.calls.length es) ≤
        2 + (w.lock i requests wait).deliveries i w.calls.length es := by
  have hlock : w.next (.lock i requests wait) = some (w.lock i requests wait) := rfl
  have hw : Serves w := Serves.run (serves_of_isNew hw₀) hr₀
  have hone (id : String) : asksFor id (w.sentUntil i (w.lock i requests wait)) ≤ 1 :=
    Nat.le_trans List.countP_le_length (length_sentUntil_lock hl)
  obtain ⟨s, l', hcall, hl', -, -, hs⟩ := lock_cases hl requests wait
  have haccounted : s.AccountedFor requests l' (w.sentUntil i (w.lock i requests wait)) 0 := by
    have hnil : s.waits = [] := by
      rcases hs with ⟨result, rfl, -⟩ | ⟨-, rfl⟩ <;> rfl
    constructor
    case le_two => exact fun r _ => Nat.le_succ_of_le (hone r.objectId)
    case asksOnce =>
      rcases hs with ⟨result, rfl, -⟩ | ⟨hvalid, rfl⟩
      · trivial
      · have hids := checkIds_eq_ok_iff.mp (checkIds_of_validate hvalid)
        exact ⟨nodup_roots hids.2, fun r _ => hone r.objectId⟩
    case nodup =>
      rw [hnil]
      exact .nil
    case hasTickets =>
      rw [hnil]
      exact fun _ ht => nomatch ht
    case waits =>
      rw [hnil]
      exact fun _ ht => nomatch ht
  obtain ⟨s', l'', -, h'⟩ :=
    accountedFor_of_run hr (Serves.clientsStep hw (clientsStep_of_next hlock)) hl'
      (hc.lasts (lasts_lock hl hl')) hcall haccounted
  have hle := h'.le_two
  rwa [Nat.zero_add] at hle

/-- Of two trees one is asked for three times, with a single notice in between. -/
theorem asksFor_le_of_grantedLate : ∃ w' : World,
    let w := ofHolder.lock 0 [Request.of "x", Request.of "y"] (some (.ofSeconds 5))
    let ms := ofHolder.sentUntil 0 w ++ w.messages 0 0 grantedLate
    Run w grantedLate w' ∧ asksFor "x" ms = 3 ∧ w.deliveries 0 0 grantedLate = 1 ∧
      asksFor "x" ms ≤ 2 + w.deliveries 0 0 grantedLate := by
  have hrun : ((ofHolder.lock 0 [Request.of "x", Request.of "y"] (some (.ofSeconds 5))).follow
      grantedLate).isSome = true := by
    decide +kernel
  have hasked : asksFor "x" (ofHolder.sentUntil 0 (ofHolder.lock 0
        [Request.of "x", Request.of "y"] (some (.ofSeconds 5))) ++
      (ofHolder.lock 0 [Request.of "x", Request.of "y"] (some (.ofSeconds 5))).messages 0 0
        grantedLate) = 3 ∧
      (ofHolder.lock 0 [Request.of "x", Request.of "y"] (some (.ofSeconds 5))).deliveries 0 0
        grantedLate = 1 := by
    decide +kernel
  obtain ⟨w', hw⟩ := Option.isSome_iff_exists.mp hrun
  obtain ⟨l, hl, hclient⟩ := exists_link?_ofHolder
  have hrelays : l.client.RelaysAnswers := by
    rw [hclient]
    exact fun h hmem => nomatch hmem
  exact ⟨w', run_of_follow hw, hasked.1, hasked.2,
    asksFor_le_of_lock isNew_ofHolder (.nil _) hl hrelays (run_of_follow hw) (Request.of "x")
      List.mem_cons_self⟩

end World

end LeasedLocks
