import LeasedLocks.Proofs.Hearings
import LeasedLocks.Proofs.RequestCounts
import Mathlib.Data.List.Flatten

/-!
# What holds a wait up

A wait whose tree is refused is held up by the reply: it keeps tickets for just the objects
that the reply says are held (`TreeWait.HeldUpBy`), and goes on when all of them are good. A
bare refusal names no such object (`Hearing.isBare`), and holds nobody up. Hence every round
of a wait is paid for by a notice that came since the round began, or by a bare refusal
(`TreeWait.PaidFor`).

## Implementation notes

The messages are counted from the beginning of a round, with one message more that is taken
as sent before. A wait accounts for them as in the count from the beginning of its call
(`TreeWait.AccountedFor`), whatever is answered to its messages: what a wait lacks that has no
tickets was paid when the bare refusal came.
-/

namespace LeasedLocks

/-- A tree that was asked for again is refused, though the reply says that all of it is
free. -/
def Hearing.isBare (id : String) (h : Hearing) : Bool :=
  h.place.isSome && h.fault?.isNone && h.asked.any (·.objectId == id) &&
    match h.answer with
    | .ok replies => replies.any fun y => !y.isGranted && y.isFree
    | .error _ => false

/-- How often the call at place `k` hears a bare refusal of the tree with this root in the
course of these events. -/
def World.bareRefusals (k : Nat) (id : String) (w : World) (es : List World.Event) : Nat :=
  (w.hearings k es).countP (Hearing.isBare id)

namespace TreeWait

/-- The tree was refused with this reply, and the wait has a ticket for every object that
the reply says is held, and no other one. -/
structure HeldUpBy (t : TreeWait) (y : Reply) : Prop where
  latest_eq : t.latest = some y
  refused : y.isGranted = false
  objectIds_eq : y.objectIds = t.request.objectIds
  objectId_blocking : t.blocking.map Ticket.objectId = y.unavailableIds

/-- Whoever asks for a tree has tickets for all of its objects, and whoever is parked is held
up by the last reply. -/
def HeldUp (t : TreeWait) : Prop :=
  match t.stage with
  | .round => True
  | .arming armed _ => armed.map Ticket.objectId = t.request.objectIds
  | .asking armed _ => armed.map Ticket.objectId = t.request.objectIds
  | .parked => ∃ y, t.HeldUpBy y

/-- All messages for the tree are paid for, also if nothing holds the wait up. -/
structure PaidFor (t : TreeWait) (l : Link) (asked paid : Nat) : Prop where
  accountedFor : t.AccountedFor l asked paid
  le_of_bare : t.stage = .parked → t.blocking = [] → asked ≤ paid + 1

end TreeWait

namespace CallState

/-- The call has asked for all of its trees, and was not answered yet. -/
def IsAskingFor (requests : List Request) (s : CallState) : Prop :=
  ∃ wait x, s = locking requests wait (.asking x)

/-- No object is in two trees of the call, and all of its waits are held up by replies. -/
structure HeldUp (s : CallState) : Prop where
  nodup_requests : ∀ requests, s.IsAskingFor requests → (requests.flatMap Request.objectIds).Nodup
  nodup_waits : (s.waits.flatMap (·.request.objectIds)).Nodup
  waits : ∀ t ∈ s.waits, t.HeldUp

/-- The messages for the tree with this root are paid for. -/
structure PaidFor (id : String) (l : Link) (asked paid : Nat) (s : CallState) : Prop where
  le_two : asked ≤ 2 + paid
  not_isAskingFor : ∀ requests, ¬ s.IsAskingFor requests
  waits : ∀ t ∈ s.waits, t.root = id → t.PaidFor l asked paid

end CallState

instance (x : TreeStage) : Decidable (x = .round) :=
  match x with
  | .round => isTrue rfl
  | .arming _ _ | .asking _ _ | .parked => isFalse nofun

instance (x : TreeStage) : Decidable (x = .parked) :=
  match x with
  | .parked => isTrue rfl
  | .round | .arming _ _ | .asking _ _ => isFalse nofun

variable {l l' : Link} {c : Clock} {t t' : TreeWait} {ts : List TreeWait} {r : TreeProgress}
  {s s' : CallState} {requests : List Request} {y : Reply} {asked paid paid' deadline n : Nat}
  {id : String}

/-! ## Replies and what they name -/

/-- Among the objects of a reply those that it says are held are told by their names. -/
theorem Reply.filter_objectIds (h : y.objectIds.Nodup) :
    y.objectIds.filter (y.unavailableIds.contains ·) = y.unavailableIds := by
  have hnamed : ∀ a ∈ y.labels, y.unavailableIds.contains a.objectId = !a.isAvailable := by
    intro a ha
    rw [Bool.eq_iff_iff, List.contains_iff_mem]
    constructor
    · intro hmem
      obtain ⟨b, hb, hab⟩ := List.mem_map.mp hmem
      obtain ⟨hb, hheld⟩ := List.mem_filter.mp hb
      rwa [List.inj_on_of_nodup_map h hb ha hab] at hheld
    · exact fun hheld => List.mem_map_of_mem (List.mem_filter.mpr ⟨ha, hheld⟩)
  calc y.objectIds.filter (y.unavailableIds.contains ·)
      = (y.labels.filter fun a => y.unavailableIds.contains a.objectId).map Answer.objectId :=
        List.filter_map
    _ = (y.labels.filter (!·.isAvailable)).map Answer.objectId :=
        congrArg _ (List.filter_congr hnamed)

namespace TreeWait

/-! ## What a wait is held up by -/

theorem IsFresh.heldUp (h : t.IsFresh) : t.HeldUp := by
  rw [HeldUp, h.stage_eq]
  trivial

/-- A wait parks only with a refusal that it hears, and keeps the tickets for the objects that
the refusal says are held. -/
theorem parks_of_step (n : Nat) (hs : t.step c deadline l = some (.goesOn t', l'))
    (hparked : t'.stage = .parked) :
    ∃ armed x y, t.stage = .asking armed x ∧
      t.hears c n l = [⟨[t.request], some n, .ok [y]⟩] ∧ y.isGranted = false ∧
      y.objectIds = t.request.objectIds ∧ t'.request = t.request ∧ t'.latest = some y ∧
      t'.blocking = armed.filter (y.unavailableIds.contains ·.objectId) := by
  obtain ⟨y', hlatest, hrefused⟩ := refused_of_step hs hparked
  have hhears := t.hears_cases n hs
  cases steps_of_step hs with
  | arms _ | joins _ _ | joined _ _ | asks _ _ | wakes _ _ => cases hparked
  | @parks armed x replies y l₁ hstage ha hy =>
      have hrefused : y.isGranted = false := Option.some.inj hlatest ▸ hrefused
      have hanswer : t.hears c n l = [⟨[t.request], some n, .ok replies⟩] := by
        simp only [hears, hstage, ha]
      rw [hanswer] at hhears
      rcases hhears with ⟨hnil, -⟩ | ⟨_, f, -, -, hended⟩ | ⟨z, heq, hids, -⟩
      · cases hnil
      · cases hended
      · cases heq
        obtain rfl := List.mem_singleton.mp hy
        exact ⟨armed, x, y, hstage, hanswer, hrefused, hids, rfl, rfl, rfl⟩

/-- A step of a wait leaves it with tickets for what it is held up by. -/
theorem HeldUp.step (h : t.HeldUp) (hnodup : t.request.objectIds.Nodup)
    (hs : t.step c deadline l = some (r, l')) : ∀ t' ∈ r.waits, t'.HeldUp := by
  cases r with
  | ended result => exact fun _ ht => nomatch ht
  | goesOn t' =>
      intro u hu
      obtain rfl := List.mem_singleton.mp hu
      have hparks := parks_of_step 0 hs
      unfold HeldUp at h
      cases steps_of_step hs with
      | arms _ => exact Waitlist.objectId_registerAll _ _
      | joins hstage _ | joined hstage _ | asks hstage _ =>
          rw [hstage] at h
          exact h
      | wakes _ _ => trivial
      | parks _ _ _ =>
          obtain ⟨armed, x, y, hstage, -, hrefused, hids, hrequest, hlatest, hblocking⟩ :=
            hparks rfl
          rw [hstage] at h
          refine ⟨y, hlatest, hrefused, hids.trans (congrArg _ hrequest.symm), ?_⟩
          rw [hblocking]
          calc (armed.filter (y.unavailableIds.contains ·.objectId)).map Ticket.objectId
              = (armed.map Ticket.objectId).filter (y.unavailableIds.contains ·) := by
                rw [List.filter_map]
                rfl
            _ = y.objectIds.filter (y.unavailableIds.contains ·) := by rw [h, hids]
            _ = y.unavailableIds := Reply.filter_objectIds (hids ▸ hnodup)

/-- Only a reply that says that all of the tree is free holds nobody up. -/
theorem HeldUpBy.blocking_eq_nil_iff (h : t.HeldUpBy y) :
    t.blocking = [] ↔ y.isFree = true := by
  rw [Reply.isFree_iff, ← h.objectId_blocking, List.map_eq_nil_iff]

/-- Whoever is parked goes on exactly when all of the tickets are good. -/
theorem goesOn_iff_of_parked (hparked : t.stage = .parked) :
    (∃ t' l', t.step c deadline l = some (.goesOn t', l')) ↔
      ∀ k ∈ t.blocking, l.client.unlocks.list.outcome? k = some true := by
  constructor
  · rintro ⟨t', l', hs⟩
    cases steps_of_step hs with
    | wakes _ hwoken => exact outcome?_of_allFreed? hwoken
    | arms hstage | joins hstage _ | joined hstage _ | asks hstage _ | parks hstage _ _ =>
        cases hstage.symm.trans hparked
  · intro hgood
    rcases allFreed?_cases l.client.unlocks.list t.blocking with ⟨hall, -⟩ | ⟨k, hk, hne, -⟩
    · refine ⟨{ t with stage := .round }, l, ?_⟩
      simp only [step, hparked, hall]
    · exact absurd (hgood k hk) hne

/-! ## One wait -/

/-- A refusal that fits and says that all of the tree is free is a bare one. -/
theorem isBare_of_isFree (hrefused : y.isGranted = false)
    (hids : y.objectIds = t.request.objectIds) (hfree : y.isFree = true) :
    Hearing.isBare t.root ⟨[t.request], some n, .ok [y]⟩ = true := by
  have hfault : Hearing.fault? ⟨[t.request], some n, .ok [y]⟩ = none :=
    Hearing.fault?_eq_none_iff.mpr ⟨[y], rfl, .cons hids .nil⟩
  simp [Hearing.isBare, hfault, root, hrefused, hfree]

/-- At the beginning of a round nothing is to be paid for yet but one message before. -/
theorem paidFor_of_round (hround : t.stage = .round) : t.PaidFor l 1 0 := by
  constructor
  case accountedFor =>
    constructor
    case le => omega
    case le_of_freed =>
      intro k hk
      rw [current, hround] at hk
      cases hk
  case le_of_bare =>
    intro hparked
    cases hround.symm.trans hparked

/-- Other things happen, and what settles a ticket is a notice. -/
theorem PaidFor.later (h : t.PaidFor l asked paid) (hpaid : paid ≤ paid')
    (hfreed : ∀ k ∈ t.tickets, l'.client.unlocks.list.outcome? k = some true →
      l.client.unlocks.list.outcome? k = some true ∨ paid < paid') :
    t.PaidFor l' asked paid' := by
  constructor
  case accountedFor => exact h.accountedFor.later hpaid hfreed
  case le_of_bare =>
    intro hparked hnil
    have := h.le_of_bare hparked hnil
    omega

/-- A wait that goes on pays for the message that it sends, and what it hears pays for the
next one if it is a bare refusal. -/
theorem PaidFor.step (h : t.PaidFor l asked paid) (hheldUp : t'.HeldUp) (hserves : l.Serves ts)
    (hs : t.step c deadline l = some (.goesOn t', l'))
    (houtcomes : ∀ k ∈ t'.tickets,
      l'.client.unlocks.list.outcome? k = l.client.unlocks.list.outcome? k) (n : Nat) :
    t'.PaidFor l' (asked + (t.sends c.now (.goesOn t')).length)
      (paid + (t.hears c n l).countP (Hearing.isBare t.root)) := by
  have haccounted := h.accountedFor.step h.le_of_bare hserves (steps_of_step hs) houtcomes
  constructor
  case accountedFor => exact haccounted.later (Nat.le_add_right _ _) fun _ _ ho => .inl ho
  case le_of_bare =>
    intro hparked hnil
    obtain ⟨_, _, y, -, hhears, hrefused, hids, -, hlatest, -⟩ := parks_of_step n hs hparked
    obtain ⟨z, hz⟩ : ∃ z, t'.HeldUpBy z := by
      rwa [HeldUp, hparked] at hheldUp
    obtain rfl : y = z := Option.some.inj (hlatest.symm.trans hz.latest_eq)
    have hbare := isBare_of_isFree (n := n) hrefused hids (hz.blocking_eq_nil_iff.mp hnil)
    have hpays : (t.hears c n l).countP (Hearing.isBare t.root) = 1 := by
      rw [hhears, List.countP_cons_of_pos hbare]
      rfl
    have hle := haccounted.le
    have hnow := t'.askedNow_le
    omega

/-- Whatever is left of a wait pays for the messages that ask for its tree. -/
theorem PaidFor.steps (h : t.PaidFor l asked paid) (hheldUp : ∀ u ∈ r.waits, u.HeldUp)
    (hserves : l.Serves ts) (hs : t.step c deadline l = some (r, l'))
    (houtcomes : ∀ u ∈ r.waits, ∀ k ∈ u.tickets,
      l'.client.unlocks.list.outcome? k = l.client.unlocks.list.outcome? k) (n : Nat) :
    ∀ u ∈ r.waits, u.PaidFor l' (asked + (t.sends c.now r).length)
      (paid + (t.hears c n l).countP (Hearing.isBare t.root)) := by
  intro u hu
  cases r with
  | ended result => cases hu
  | goesOn t' =>
      obtain rfl := List.mem_singleton.mp hu
      exact h.step (hheldUp u hu) hserves hs (houtcomes u hu) n

end TreeWait

/-! ## One call -/

namespace CallState

/-- Once all trees were answered, or none was asked for, they are never all asked for again. -/
theorem not_isAskingFor_of_step (h : ∀ requests, ¬ s.IsAskingFor requests)
    (hs : s.step c l = some (s', l')) : s'.waits = [] ∧ ∀ requests, ¬ s'.IsAskingFor requests := by
  cases steps_of_step hs with
  | asks _ | hears _ | crashes _ => exact absurd ⟨_, _, rfl⟩ (h _)
  | finishes _ _ | passes _ | released _ | joins _ | joined _ =>
      exact ⟨rfl, fun _ hasks => nomatch hasks⟩

theorem not_isAskingFor_of_stepBranch {b : Nat} (hs : s.stepBranch c b l = some (s', l')) :
    ∀ requests, ¬ s'.IsAskingFor requests := by
  obtain ⟨_, _, _, _, _, _, _, _, _, _, -, -, -, rfl⟩ := stepBranch_eq_some hs
  exact fun _ hasks => nomatch hasks

theorem not_isAskingFor_of_cancel (s : CallState) (l : Link) :
    (s.cancel l).1.waits = [] ∧ ∀ requests, ¬ (s.cancel l).1.IsAskingFor requests := by
  refine ⟨(does_of_cancel (c := ⟨0, 0⟩) s l).1, fun requests hasks => ?_⟩
  obtain ⟨wait, x, heq⟩ := hasks
  cases s with
  | locking rs wait stage => cases stage <;> cases heq
  | _ => cases heq

/-- A wait of the call takes a step, and the call hears what that wait hears. -/
theorem hears_of_stepBranch {b : Nat} (h : s.stepBranch c b l = some (s', l')) (k : Nat) :
    ∃ n t r deadline kept, s.waits.Perm (t :: kept) ∧ s'.waits.Perm (r.waits ++ kept) ∧
      t.step c deadline l = some (r, l') ∧ s.hears c l (.branch k b) = t.hears c n l := by
  obtain ⟨_, _, started, wait, _, branches, _, n, t, r, rfl, hb, hstep, rfl⟩ :=
    stepBranch_eq_some h
  obtain ⟨hp, hset⟩ := perm_filterMap_wait hb
  refine ⟨n, t, r, started + wait.ceilMillis, (branches.eraseIdx b).filterMap Branch.wait, hp,
    ?_, hstep, ?_⟩
  · cases r <;> exact hset _
  · simp only [hears, hb]

/-! ### What it is held up by -/

theorem heldUp_of_waits_eq_nil (hwaits : s.waits = [])
    (h : ∀ requests, s.IsAskingFor requests → (requests.flatMap Request.objectIds).Nodup) :
    s.HeldUp := by
  constructor
  case nodup_requests => exact h
  case nodup_waits =>
    rw [hwaits]
    exact .nil
  case waits =>
    rw [hwaits]
    exact fun _ ht => nomatch ht

/-- A turn of the task that makes the call. -/
theorem HeldUp.step (h : s.HeldUp) (hs : s.step c l = some (s', l')) : s'.HeldUp := by
  have hfresh := isFresh_of_step hs
  have hnodup := h.nodup_requests
  cases steps_of_step hs with
  | asks _ =>
      refine heldUp_of_waits_eq_nil rfl fun rs hasks => ?_
      obtain ⟨_, _, heq⟩ := hasks
      cases heq
      exact hnodup _ ⟨_, _, rfl⟩
  | @hears rs wait _ answer _ _ _ =>
      have hsub := map_request_answered_sublist rs wait c.now answer
      constructor
      case nodup_requests =>
        rintro qs ⟨_, _, heq⟩
        rcases answered_cases rs wait c.now answer with
          ⟨_, hanswered⟩ | ⟨_, -, -, hanswered | ⟨_, -, -, hanswered⟩⟩ <;>
        cases hanswered.symm.trans heq
      case nodup_waits =>
        have hall := (hnodup rs ⟨_, _, rfl⟩).sublist (hsub.flatMap Request.objectIds)
        rwa [List.flatMap_map] at hall
      case waits => exact fun t ht => (hfresh t ht).heldUp
  | crashes _ | finishes _ _ | passes _ | released _ | joins _ | joined _ =>
      exact heldUp_of_waits_eq_nil rfl fun _ hasks => nomatch hasks

/-- A turn of whoever waits for one of the trees. -/
theorem HeldUp.stepBranch {b : Nat} (h : s.HeldUp) (hs : s.stepBranch c b l = some (s', l')) :
    s'.HeldUp := by
  obtain ⟨t, r, _, kept, hold, hnew, hstep⟩ := waits_of_stepBranch hs
  have hnodup := (hold.flatMap_right (·.request.objectIds)).nodup_iff.mp h.nodup_waits
  rw [List.flatMap_cons] at hnodup
  constructor
  case nodup_requests => exact fun rs hasks => absurd hasks (not_isAskingFor_of_stepBranch hs rs)
  case nodup_waits =>
    rw [(hnew.flatMap_right _).nodup_iff]
    cases r with
    | ended result => exact (List.nodup_append.mp hnodup).2.1
    | goesOn u =>
        have hrequest : u.request = t.request :=
          request_of_steps (TreeWait.steps_of_step hstep) u List.mem_cons_self
        change ((u :: kept).flatMap (·.request.objectIds)).Nodup
        rwa [List.flatMap_cons, hrequest]
  case waits =>
    intro u hu
    rcases List.mem_append.mp (hnew.mem_iff.mp hu) with hu | hu
    · have ht := h.waits t (hold.mem_iff.mpr List.mem_cons_self)
      exact ht.step (List.nodup_append.mp hnodup).1 hstep u hu
    · exact h.waits u (hold.mem_iff.mpr (List.mem_cons_of_mem _ hu))

theorem HeldUp.cancel (s : CallState) (l : Link) : (s.cancel l).1.HeldUp := by
  obtain ⟨hnil, hasks⟩ := not_isAskingFor_of_cancel s l
  exact heldUp_of_waits_eq_nil hnil fun rs h => absurd h (hasks rs)

/-- The waits of a call are for different trees. -/
theorem HeldUp.nodup_roots (h : s.HeldUp) : (s.waits.map TreeWait.root).Nodup := by
  have hobjects : ((s.waits.map TreeWait.request).flatMap Request.objectIds).Nodup := by
    rw [List.flatMap_map]
    exact h.nodup_waits
  have hroots := World.nodup_roots hobjects
  rwa [List.map_map] at hroots

/-! ### What pays for its messages -/

theorem PaidFor.of_waits_eq_nil (hle : asked ≤ 2 + paid) (hwaits : s.waits = [])
    (hasks : ∀ requests, ¬ s.IsAskingFor requests) : s.PaidFor id l asked paid := by
  constructor
  case le_two => exact hle
  case not_isAskingFor => exact hasks
  case waits =>
    rw [hwaits]
    exact fun _ ht => nomatch ht

/-- Other things happen, and what settles a ticket is a notice. -/
theorem PaidFor.later (h : s.PaidFor id l asked paid) (hpaid : paid ≤ paid')
    (hfreed : ∀ t ∈ s.waits, ∀ k ∈ t.tickets,
      l'.client.unlocks.list.outcome? k = some true →
        l.client.unlocks.list.outcome? k = some true ∨ paid < paid') :
    s.PaidFor id l' asked paid' := by
  constructor
  case le_two =>
    have := h.le_two
    omega
  case not_isAskingFor => exact h.not_isAskingFor
  case waits => exact fun t ht hroot => (h.waits t ht hroot).later hpaid (hfreed t ht)

/-- A turn of whoever waits for one of the trees. -/
theorem PaidFor.stepBranch {b : Nat} (h : s.PaidFor id l asked paid) (hheldUp : s.HeldUp)
    (hserves : l.Serves ts) (hs : s.stepBranch c b l = some (s', l'))
    (houtcomes : ∀ t ∈ s'.waits, ∀ k ∈ t.tickets,
      l'.client.unlocks.list.outcome? k = l.client.unlocks.list.outcome? k) (k : Nat) :
    ∃ ns, l'.client.sent.toList = l.client.sent.toList ++ ns ∧
      s'.PaidFor id l' (asked + asksFor id ns)
        (paid + (s.hears c l (.branch k b)).countP (Hearing.isBare id)) := by
  obtain ⟨n, t, r, _, kept, hold, hnew, hstep, hhears⟩ := hears_of_stepBranch hs k
  have hsteps := TreeWait.steps_of_step hstep
  have ht : t ∈ s.waits := hold.mem_iff.mpr List.mem_cons_self
  have hleft : ∀ u ∈ r.waits, u ∈ s'.waits :=
    fun u hu => hnew.mem_iff.mpr (List.mem_append_left _ hu)
  refine ⟨t.sends c.now r, TreeWait.sent_of_steps hsteps, ?_⟩
  rw [hhears, TreeWait.asksFor_sends]
  by_cases hroot : t.root = id
  · subst hroot
    have hself := (h.waits t ht rfl).steps
      (fun u hu => (hheldUp.stepBranch hs).waits u (hleft u hu)) hserves hstep
      (fun u hu => houtcomes u (hleft u hu)) n
    rw [if_pos rfl]
    constructor
    case le_two =>
      cases r with
      | ended result =>
          have := h.le_two
          simp only [TreeWait.sends, List.length_nil]
          omega
      | goesOn u => exact (hself u List.mem_cons_self).accountedFor.asked_le
    case not_isAskingFor => exact not_isAskingFor_of_stepBranch hs
    case waits =>
      intro u hu huroot
      rcases List.mem_append.mp (hnew.mem_iff.mp hu) with hu | hu
      · exact hself u hu
      · -- no other wait is for this tree
        have hnodup : ((t :: kept).map TreeWait.root).Nodup :=
          (hold.map _).nodup_iff.mp hheldUp.nodup_roots
        have hroot : t.root ∈ kept.map TreeWait.root := by
          rw [← huroot]
          exact List.mem_map_of_mem hu
        exact absurd hroot (List.nodup_cons.mp hnodup).1
  · rw [if_neg hroot, Nat.add_zero]
    constructor
    case le_two =>
      have := h.le_two
      omega
    case not_isAskingFor => exact not_isAskingFor_of_stepBranch hs
    case waits =>
      intro u hu huroot
      rcases List.mem_append.mp (hnew.mem_iff.mp hu) with hu | hu
      · exact absurd ((TreeWait.root_of_steps hsteps u hu).symm.trans huroot) hroot
      · have houtcomes := houtcomes u (hnew.mem_iff.mpr (List.mem_append_right _ hu))
        apply (h.waits u (hold.mem_iff.mpr (List.mem_cons_of_mem _ hu)) huroot).later
          (Nat.le_add_right _ _)
        exact fun k hk ho => .inl ((houtcomes k hk).symm.trans ho)

end CallState

/-! ## One call in a run -/

namespace World

variable {w w' : World} {e : Event} {es : List Event} {i k : Nat} {wait : Option Duration}

theorem bareRefusals_cons (hn : w.next e = some w') :
    w.bareRefusals k id (e :: es) =
      (w.hearingsOf k e).countP (Hearing.isBare id) + w'.bareRefusals k id es := by
  rw [bareRefusals, hearings_cons hn, List.countP_append]
  rfl

/-- Whatever happens, all waits of a call are held up by what it hears. -/
theorem heldUp_of_next (hn : w.next e = some w') (hcall : w.calls[k]? = some ⟨i, s⟩)
    (h : s.HeldUp) : ∃ s', w'.calls[k]? = some ⟨i, s'⟩ ∧ s'.HeldUp := by
  rcases exists_callStep_of_next hn hcall with ⟨hsame, -⟩ | ⟨l, s', l', -, hb, -, hs', -, -⟩
  · exact ⟨s, hsame, h⟩
  · refine ⟨s', hs', ?_⟩
    cases hb with
    | call hstep => exact h.step hstep
    | branch hstep => exact h.stepBranch hstep
    | cancel => exact .cancel s l

theorem heldUp_of_run (hr : Run w es w') (hcall : w.calls[k]? = some ⟨i, s⟩) (h : s.HeldUp) :
    ∃ s', w'.calls[k]? = some ⟨i, s'⟩ ∧ s'.HeldUp := by
  induction hr generalizing s with
  | nil w => exact ⟨s, hcall, h⟩
  | cons hn _ ih =>
      obtain ⟨s₁, hcall₁, h₁⟩ := heldUp_of_next hn hcall h
      exact ih hcall₁ h₁

/-- From its beginning on all waits of a call are held up by what it hears. -/
theorem heldUp_of_lock (hl : w.link? i = some l) (hr : Run (w.lock i requests wait) es w')
    (hcall : w'.calls[w.calls.length]? = some ⟨i, s⟩) : s.HeldUp := by
  obtain ⟨s₀, l₀, hcall₀, -, -, -, hs₀⟩ := lock_cases hl requests wait
  have hminds₀ : s₀.HeldUp := by
    rcases hs₀ with ⟨_, rfl, -⟩ | ⟨hvalid, rfl⟩
    · exact CallState.heldUp_of_waits_eq_nil rfl fun _ hasks => nomatch hasks
    · refine CallState.heldUp_of_waits_eq_nil rfl fun rs hasks => ?_
      obtain ⟨_, _, heq⟩ := hasks
      cases heq
      exact (checkIds_eq_ok_iff.mp (checkIds_of_validate hvalid)).2
  obtain ⟨s₁, hs₁, hminds₁⟩ := heldUp_of_run hr hcall₀ hminds₀
  rw [hcall] at hs₁
  cases hs₁
  exact hminds₁

/-- With one event more, the messages for a tree are still paid for. -/
theorem paidFor_of_next (hw : Serves w) (hn : w.next e = some w') (hl : w.link? i = some l)
    (hcall : w.calls[k]? = some ⟨i, s⟩) (hheldUp : s.HeldUp) (h : s.PaidFor id l asked paid) :
    ∃ s' l', w'.calls[k]? = some ⟨i, s'⟩ ∧ w'.link? i = some l' ∧ s'.HeldUp ∧
      s'.PaidFor id l' (asked + asksFor id (w.messagesOf i k e))
        (paid + ((w.goesOn k && w.delivers i e).toNat +
          (w.hearingsOf k e).countP (Hearing.isBare id))) := by
  obtain ⟨l', hl', -⟩ := keepsClients_of_next hn i l hl
  obtain ⟨s₁, hcall₁, hminds₁⟩ := heldUp_of_next hn hcall hheldUp
  refine ⟨s₁, l', hcall₁, hl', hminds₁, ?_⟩
  have hmore {d : Nat} : 2 + paid ≤ 2 + (paid + d) := by omega
  rcases callStep_of_next hn hl hl' hcall with ⟨hsame, hturn⟩ | ⟨s', hb, -, hs', hclients⟩
  · -- somebody else's event
    rw [hsame] at hcall₁
    cases hcall₁
    rw [messagesOf_eq_nil hturn, hearingsOf_eq_nil hturn]
    apply h.later (Nat.le_add_right _ _)
    exact fun t ht k' hk' ho => counts_of_next hw hn hl hl' hcall hsame ht hk' ho
  · rw [hs'] at hcall₁
    cases hcall₁
    cases hb with
    | call hstep =>
        obtain ⟨hnil, hasks⟩ := CallState.not_isAskingFor_of_step h.not_isAskingFor hstep
        rw [messagesOf_call hn hl hclients hstep]
        exact .of_waits_eq_nil (Nat.le_trans h.le_two hmore) hnil hasks
    | @branch b _ _ hstep =>
        obtain ⟨m, hm, houtcomes⟩ :=
          sameOutcomes_of_next hw hn (fun h => nomatch h) (fun h => nomatch h) l hl
        rw [hl'] at hm
        cases hm
        obtain ⟨ns, hsent, hpaidFor⟩ := h.stepBranch hheldUp (hw hl) hstep
          (fun t ht k' hk' => houtcomes k' (mem_ticketsOf_waits hs' ht hk')) k
        rw [messagesOf_turn hn hl hclients (beq_self_eq_true _) hsent,
          hearingsOf_turn hcall hl rfl]
        simpa [delivers] using hpaidFor
    | cancel =>
        obtain ⟨hnil, hasks⟩ := CallState.not_isAskingFor_of_cancel s l
        rw [messagesOf_eq_nil rfl]
        exact .of_waits_eq_nil (Nat.le_trans h.le_two hmore) hnil hasks

theorem paidFor_of_run (hr : Run w es w') (hw : Serves w) (hl : w.link? i = some l)
    (hcall : w.calls[k]? = some ⟨i, s⟩) (hheldUp : s.HeldUp) (h : s.PaidFor id l asked paid) :
    ∃ s' l', w'.calls[k]? = some ⟨i, s'⟩ ∧ w'.link? i = some l' ∧ s'.HeldUp ∧
      s'.PaidFor id l' (asked + asksFor id (w.messages i k es))
        (paid + (w.deliveries i k es + w.bareRefusals k id es)) := by
  induction hr generalizing l s asked paid with
  | nil w => exact ⟨s, l, hcall, hl, hheldUp, h⟩
  | @cons w w₁ w' e es hn hr ih =>
      obtain ⟨s₁, l₁, hcall₁, hl₁, hminds₁, h₁⟩ := paidFor_of_next hw hn hl hcall hheldUp h
      have hpaid : paid + (w.deliveries i k (e :: es) + w.bareRefusals k id (e :: es)) =
          paid + ((w.goesOn k && w.delivers i e).toNat +
            (w.hearingsOf k e).countP (Hearing.isBare id)) +
              (w₁.deliveries i k es + w₁.bareRefusals k id es) := by
        rw [deliveries_cons hn, bareRefusals_cons hn]
        omega
      rw [messages_cons hn, asksFor_append, ← Nat.add_assoc, hpaid]
      exact ih (Serves.clientsStep hw (clientsStep_of_next hn)) hl₁ hcall₁ hminds₁ h₁

/-- From the beginning of a round on a wait asks for its tree once, and once more for every
notice and every bare refusal since, whatever is answered to its messages and however long
they take. Of every round that is over the message is paid for in the round itself. Whoever
is parked then is held up by the last reply: it has a ticket for each object that the reply
says is held, and goes on exactly when all of them are good. -/
theorem asksFor_le_of_round {w₀ w₁ w₂ : World} {es₀ es₁ es₂ : List Event}
    (hw₀ : IsNew w₀) (hr₀ : Run w₀ es₀ w) (hl : w.link? i = some l)
    (hr₁ : Run (w.lock i requests wait) es₁ w₁)
    (hcall : w₁.calls[w.calls.length]? = some ⟨i, s⟩) (ht : t ∈ s.waits)
    (hround : t.stage = .round) (hr₂ : Run w₁ es₂ w₂) :
    asksFor t.root (w₁.messages i w.calls.length es₂) ≤
      w₁.deliveries i w.calls.length es₂ + w₁.bareRefusals w.calls.length t.root es₂ + 1 ∧
    ∃ s' l', w₂.calls[w.calls.length]? = some ⟨i, s'⟩ ∧ w₂.link? i = some l' ∧
      ∀ u ∈ s'.waits,
        (u.root = t.root → asksFor t.root (w₁.messages i w.calls.length es₂) ≤
          w₁.deliveries i w.calls.length es₂ + w₁.bareRefusals w.calls.length t.root es₂ +
            u.askedNow) ∧
        (u.stage = .parked → ∃ y, u.HeldUpBy y ∧ (u.blocking = [] ↔ y.isFree = true) ∧
          ∀ c deadline, (∃ u' m, u.step c deadline l' = some (.goesOn u', m)) ↔
            ∀ k ∈ u.blocking, l'.client.unlocks.list.outcome? k = some true) := by
  have hlock : w.next (.lock i requests wait) = some (w.lock i requests wait) := rfl
  have hw : Serves w := Serves.run (serves_of_isNew hw₀) hr₀
  have hw₁ : Serves w₁ := Serves.run (Serves.clientsStep hw (clientsStep_of_next hlock)) hr₁
  obtain ⟨_, l', -, hl', -⟩ := lock_cases hl requests wait
  obtain ⟨l₁, hl₁, -⟩ := keepsClients_of_run hr₁ i l' hl'
  have hheldUp := heldUp_of_lock hl hr₁ hcall
  -- one message more than there is, and nothing paid
  have hpaidFor : s.PaidFor t.root l₁ 1 0 := by
    constructor
    case le_two => omega
    case not_isAskingFor =>
      rintro rs ⟨_, _, rfl⟩
      cases ht
    case waits =>
      intro u hu hroot
      obtain rfl : u = t := List.inj_on_of_nodup_map hheldUp.nodup_roots hu ht hroot
      exact TreeWait.paidFor_of_round hround
  obtain ⟨s', l', hcall', hl', hminds', h'⟩ := paidFor_of_run hr₂ hw₁ hl₁ hcall hheldUp hpaidFor
  rw [Nat.zero_add] at h'
  refine ⟨by have := h'.le_two; omega, s', l', hcall', hl', fun u hu => ⟨fun hroot => ?_, ?_⟩⟩
  · have hle := (h'.waits u hu hroot).accountedFor.le
    omega
  · intro hparked
    have hheld := hminds'.waits u hu
    rw [TreeWait.HeldUp, hparked] at hheld
    obtain ⟨y, hy⟩ := hheld
    exact ⟨y, hy, hy.blocking_eq_nil_iff, fun _ _ => TreeWait.goesOn_iff_of_parked hparked⟩

/-! ### A tree that is refused though it is free -/

/-- A message is answered on the way: the tree is refused, though all of it is free. -/
def bareRefusal : Handling (List Reply) where
  delay := 10
  canned := some [.node ⟨"x", "ann", true, false, none⟩ []]

/-- Somebody holds an object, and whoever asks for it again is told for a while that it is
free, and refused. -/
def ofBareRefusals : World :=
  { ofHolder with
    clients := [{ route := { lockScript := {} :: List.replicate 3 bareRefusal } }] }

/-- The wait for the tree takes this many steps. -/
def strides (n : Nat) : List Event := List.replicate n (.turn (.branch 0 0))

/-- A round of the wait up to the answer that it hears at this moment. -/
def refusedAt (moment : Nat) : List Event := strides 3 ++ [.wait moment 0] ++ strides 1

/-- Whoever was refused at the moment 10 goes on at once, and is refused twice more. -/
def askedOnAndOn : List Event := strides 1 ++ refusedAt 20 ++ strides 1 ++ refusedAt 30

/-- The tree is asked for four times without any notice. Three of the messages are paid for
by bare refusals, and the fourth one is refused by the authority, which holds the wait up. -/
theorem asksFor_le_of_refusedAt : ∃ w₁ w₂ s u y,
    let w := ofBareRefusals.lock 0 [Request.of "x"] (some (.ofSeconds 1))
    let es := refusedAt 10 ++ askedOnAndOn ++ strides 6
    Run w [.turn (.call 0), .turn (.call 0)] w₁ ∧ Run w₁ es w₂ ∧
      asksFor "x" (w₁.messages 0 0 es) = 4 ∧ w₁.deliveries 0 0 es = 0 ∧
      w₁.bareRefusals 0 "x" es = 3 ∧
      asksFor "x" (w₁.messages 0 0 es) ≤ w₁.deliveries 0 0 es + w₁.bareRefusals 0 "x" es + 1 ∧
      w₂.calls[0]? = some ⟨0, s⟩ ∧ u ∈ s.waits ∧ u.stage = .parked ∧ u.HeldUpBy y ∧
      y.unavailableIds = ["x"] := by
  have hruns : ∃ w₁ ∈ (ofBareRefusals.lock 0 [Request.of "x"] (some (.ofSeconds 1))).follow
      [.turn (.call 0), .turn (.call 0)],
      (∃ call ∈ w₁.calls[0]?, call.client = 0 ∧
        ∃ t ∈ call.state.waits, t.root = "x" ∧ t.stage = .round) ∧
      ∃ w₂ ∈ w₁.follow (refusedAt 10 ++ askedOnAndOn ++ strides 6),
        asksFor "x" (w₁.messages 0 0 (refusedAt 10 ++ askedOnAndOn ++ strides 6)) = 4 ∧
        w₁.deliveries 0 0 (refusedAt 10 ++ askedOnAndOn ++ strides 6) = 0 ∧
        w₁.bareRefusals 0 "x" (refusedAt 10 ++ askedOnAndOn ++ strides 6) = 3 ∧
        ∃ call ∈ w₂.calls[0]?, ∃ u ∈ call.state.waits, u.stage = .parked ∧
          u.blocking.map Ticket.objectId = ["x"] := by
    decide +kernel
  obtain ⟨w₁, hw₁, ⟨⟨_, s₁⟩, hcall₁, rfl, t, ht, hroot, hround⟩, w₂, hw₂, hasked, hnews, hbare,
    ⟨client, s⟩, hcall₂, u, hu, hparked, hids⟩ := hruns
  obtain ⟨l, hl⟩ : ∃ l, ofBareRefusals.link? 0 = some l := exists_link?_of_lt Nat.one_pos
  have hnew : IsNew ofBareRefusals :=
    ⟨rfl, fun _ hclient => List.mem_singleton.mp hclient ▸ rfl⟩
  obtain ⟨hle, s₂, _, hs₂, -, hwaits⟩ := asksFor_le_of_round hnew (.nil _) hl
    (run_of_follow hw₁) hcall₁ ht hround (run_of_follow hw₂)
  obtain ⟨rfl, rfl⟩ : client = 0 ∧ s = s₂ := by
    cases hcall₂.symm.trans hs₂
    exact ⟨rfl, rfl⟩
  obtain ⟨y, hy, -, -⟩ := (hwaits u hu).2 hparked
  rw [hroot] at hle
  exact ⟨w₁, w₂, s, u, y, run_of_follow hw₁, run_of_follow hw₂, hasked, hnews, hbare, hle,
    hcall₂, hu, hparked, hy, hy.objectId_blocking.symm.trans hids⟩

/-- A wait is parked after a reply that it accepts, and its tree is not granted; yet it has no
ticket, and asks for the tree again and again, without any notice in between. -/
theorem asks_without_notice : ∃ w₁ w₂ w₃ t,
    let w := ofBareRefusals.lock 0 [Request.of "x"] (some (.ofSeconds 1))
    Run w [.turn (.call 0), .turn (.call 0)] w₁ ∧ Run w₁ (refusedAt 10) w₂ ∧
      w₁.bareRefusals 0 "x" (refusedAt 10) = 1 ∧ t ∈ w₂.waits 0 ∧ t.root = "x" ∧
      t.stage = .parked ∧ t.blocking = [] ∧ Run w₂ askedOnAndOn w₃ ∧
      w₂.messages 0 0 askedOnAndOn = [(10, ["x"]), (20, ["x"])] ∧
      w₂.deliveries 0 0 askedOnAndOn = 0 := by
  have hruns : ∃ w₁ ∈ (ofBareRefusals.lock 0 [Request.of "x"] (some (.ofSeconds 1))).follow
      [.turn (.call 0), .turn (.call 0)], w₁.bareRefusals 0 "x" (refusedAt 10) = 1 ∧
      ∃ w₂ ∈ w₁.follow (refusedAt 10),
        (∃ t ∈ w₂.waits 0, t.root = "x" ∧ t.stage = .parked ∧ t.blocking = []) ∧
        w₂.messages 0 0 askedOnAndOn = [(10, ["x"]), (20, ["x"])] ∧
        w₂.deliveries 0 0 askedOnAndOn = 0 ∧ ∃ w₃ ∈ w₂.follow askedOnAndOn, True := by
    decide +kernel
  obtain ⟨w₁, hw₁, hbare, w₂, hw₂, ⟨t, ht, hroot, hparked, hnil⟩, hasked, hnews, w₃, hw₃, -⟩ :=
    hruns
  exact ⟨w₁, w₂, w₃, t, run_of_follow hw₁, run_of_follow hw₂, hbare, ht, hroot, hparked, hnil,
    run_of_follow hw₃, hasked, hnews⟩

end World

end LeasedLocks
