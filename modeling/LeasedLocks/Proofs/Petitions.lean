import LeasedLocks.Proofs.CallRuns

/-!
# What a call asks the authority for

A petition is one request of a call as the authority found it. The petitions of a call
in a run are all that the tasks of the call ever do to the authority
(`World.OnlyPetitions`).
-/

namespace LeasedLocks

/-- One request of a call that reached the authority. -/
structure Petition where
  /-- The place of the tree among those that the call asks for. -/
  place : Nat
  request : Request
  date : Millis
  /-- The authority as the request found it. -/
  before : Authority

namespace Petition

def deed (p : Petition) : Deed := .request p.request p.date

/-- What the authority replied, unless the request was not valid. -/
def reply? (p : Petition) : Option Reply :=
  match p.before.request p.request p.date with
  | .error _ => none
  | .ok (reply, _) => some reply

/-- The authority granted the tree. -/
def isGranted (p : Petition) : Bool := p.reply?.any Reply.isGranted

/-- The table on which the request was decided: what had expired is gone. -/
def tableBefore (p : Petition) : Table := (p.before.sweep p.date).2.table

/-- The table that the request left behind. -/
def tableAfter (p : Petition) : Table := (p.before.enact p.deed).table

end Petition

/-- The petitions for these trees, which have the places that are stated. -/
def Authority.petitions (a : Authority) (date : Millis) : List (Request × Nat) → List Petition
  | [] => []
  | (request, place) :: rest =>
    { place, request, date, before := a } :: (a.enact (.request request date)).petitions date rest

/-- The tree that the authority is asked for with the next step of the wait for the tree
at place `n`. -/
def TreeWait.asks (now n : Nat) (t : TreeWait) : List (Request × Nat) :=
  match t.stage with
  | .asking _ x => if x.isArriving now then [(t.request, n)] else []
  | _ => []

/-- The trees that the authority is asked for with the next step of a task of the call. -/
def CallState.asks (now : Nat) (s : CallState) : Task → List (Request × Nat)
  | .call _ =>
    match s with
    | locking requests _ (.asking x) => if x.isArriving now then requests.zipIdx else []
    | _ => []
  | .branch _ b =>
    match s with
    | locking _ _ (.waiting _ _ _ branches _) =>
      match branches[b]? with
      | some ⟨index, some t⟩ => t.asks now index
      | _ => []
    | _ => []
  | _ => []

namespace World

/-- The petitions of the call at place `k` that are made with this event. -/
def petitionsOf (k : Nat) (w : World) : Event → List Petition
  | .turn task =>
    if task.call? = some k then
      match w.calls[k]? with
      | none => []
      | some call =>
        match w.link? call.client with
        | none => []
        | some l =>
          w.authority.petitions (Route.date l.client.route.base w.clock)
            (call.state.asks w.now task)
    else []
  | _ => []

/-- The petitions of the call at place `k` in the course of these events. -/
def petitions (k : Nat) : World → List Event → List Petition
  | _, [] => []
  | w, e :: es => w.petitionsOf k e ++ ((w.next e).map (petitions k · es)).getD []

/-- In the course of these events the turns of the call at place `k` do nothing to the
authority but what its petitions do. -/
def OnlyPetitions (k : Nat) : World → List Event → Prop
  | _, [] => True
  | w, e :: es => ∀ w', w.next e = some w' →
      (e.isTurnOf k = true →
        w'.authority = w.authority.enactAll ((w.petitionsOf k e).map Petition.deed)) ∧
      OnlyPetitions k w' es

end World

variable {a b : Authority} {now n : Nat} {c : Clock} {l l' : Link} {t : TreeWait}
  {r : TreeProgress} {s s' : CallState} {date : Millis}

/-! ## Valid trees -/

namespace Authority

@[simp] theorem petitions_nil (a : Authority) (date : Millis) : a.petitions date [] = [] := rfl

theorem map_deed_petitions (a : Authority) (date : Millis) (rs : List (Request × Nat)) :
    (a.petitions date rs).map Petition.deed = rs.map fun x => .request x.1 date := by
  induction rs generalizing a with
  | nil => rfl
  | cons x rs ih => exact congrArg (_ :: ·) (ih _)

/-- Petitions for valid trees do what a message does that asks for them. -/
theorem enactAll_petitions {rs : List (Request × Nat)}
    (hv : ∀ q ∈ rs.map Prod.fst, q.validate = .ok ()) :
    a.enactAll ((a.petitions date rs).map Petition.deed) =
      (a.requestEach date (rs.map Prod.fst)).2 := by
  rw [requestEach_of_valid (validateAll_eq_ok_iff.mpr hv), map_deed_petitions, List.map_map]
  rfl

end Authority

/-- Valid trees are answered one by one, whether they are asked for on their own or all
together. -/
theorem Route.passRequests_of_valid (route : Route) (c : Clock) {rs : List Request}
    (hv : ∀ q ∈ rs, q.validate = .ok ()) (a : Authority) :
    route.passRequests c rs a = a.requestEach (Route.date route.base c) rs := by
  obtain ⟨replies, hreplies⟩ :=
    Authority.requestEach_fst_of_valid hv a (Route.date route.base c)
  generalize ha : a.requestEach (Route.date route.base c) rs = answered at hreplies
  obtain ⟨answer, b⟩ := answered
  cases hreplies
  unfold passRequests
  cases hbase : route.base with
  | some base =>
      rw [hbase] at ha
      simp only [ha]
  | none =>
      rw [hbase] at ha
      simp only [Authority.requestAll, Authority.validateAll_eq_ok_iff.mpr hv, ha]

/-! ## What turns do to the authority -/

/-- A message that asks for valid trees does what the petitions for them do. -/
theorem Link.authority_of_ask {rs : List Request} {x : Exchange (List Reply)}
    {y : Exchanged (List Reply)} (hv : ∀ q ∈ rs, q.validate = .ok ())
    (h : l.ask c rs x = some (y, l')) :
    l'.authority =
      if x.isArriving c.now then
        (l.authority.requestEach (Route.date l.client.route.base c) rs).2
      else l.authority := by
  rw [Exchange.authority_of_step (ask_eq_some h).2.2, Route.passRequests_of_valid _ c hv]

namespace TreeWait

theorem authority_answered (t : TreeWait) (armed : List Ticket)
    (answer : Except Fault (List Reply)) (l : Link) :
    (t.answered armed answer l).2.authority = l.authority := by
  rcases t.answered_cases armed answer l with
    ⟨e, heq⟩ | ⟨_, _, -, -, -, ⟨-, heq⟩ | ⟨-, heq⟩⟩ <;>
  · rw [heq]
    rfl

theorem asks_of_asking {armed : List Ticket} {x : Exchange (List Reply)}
    (hstage : t.stage = .asking armed x) (now n : Nat) :
    t.asks now n = if x.isArriving now then [(t.request, n)] else [] := by
  simp only [asks, hstage]

/-- The step of a wait does to the authority what its petition does. -/
theorem authority_of_step {deadline : Nat} (hv : t.request.validate = .ok ())
    (h : t.step c deadline l = some (r, l')) :
    l'.authority = l.authority.enactAll
      ((l.authority.petitions (Route.date l.client.route.base c) (t.asks c.now n)).map
        Petition.deed) := by
  cases hstage : t.stage with
  | asking armed x =>
      have hvalid : ∀ q ∈ [t.request], q.validate = .ok () := by
        intro q hq
        rw [List.mem_singleton.mp hq]
        exact hv
      rw [asks_of_asking hstage]
      have hask {y : Exchanged (List Reply)} {l₁ : Link}
          (ha : l.ask c [t.request] x = some (y, l₁)) :
          l₁.authority = l.authority.enactAll
            ((l.authority.petitions (Route.date l.client.route.base c)
              (if x.isArriving c.now then [(t.request, n)] else [])).map Petition.deed) := by
        rw [Link.authority_of_ask hvalid ha]
        split
        · have hone : ∀ q ∈ [(t.request, n)].map Prod.fst, q.validate = .ok () := hvalid
          exact (Authority.enactAll_petitions hone).symm
        · rfl
      simp only [step, hstage] at h
      split at h
      · next ha =>
          -- time is up, and the message is still on its way
          have hx : ¬ x.isArriving c.now = true := fun hx =>
            Exchange.step_ne_none_of_isArriving hx (Option.map_eq_none_iff.mp ha)
          obtain ⟨-, h⟩ := Option.ite_none_right_eq_some.mp h
          cases h
          rw [if_neg hx]
          rfl
      · next ha =>
          cases h
          exact hask ha
      · next answer l₁ ha =>
          have hl : (t.answered armed answer l₁).2 = l' := congrArg Prod.snd (Option.some.inj h)
          rw [← hask ha, ← hl, authority_answered]
      · next l₁ ha =>
          cases h
          change l₁.authority = _
          exact hask ha
  | _ =>
      have hasks : t.asks c.now n = [] := by simp only [asks, hstage]
      rw [hasks]
      cases steps_of_step h with
      | ends => rfl
      | arms _ => rfl
      | joins _ hj | joined _ hj | failed _ hj =>
          obtain ⟨_, _, -, rfl⟩ := Link.joinUnlocks_eq_some hj
          rfl
      | asks hasking _ | settles hasking _ | parks hasking _ _ =>
          rw [hstage] at hasking
          cases hasking
      | wakes _ _ => rfl

end TreeWait

namespace CallState

/-- The message that asks for all trees does to the authority what its petitions do. -/
theorem authority_of_step_asking {k : Nat} {requests : List Request} {wait : Option Duration}
    {x : Exchange (List Reply)} (hv : ∀ q ∈ requests, q.validate = .ok ())
    (h : (locking requests wait (.asking x)).step c l = some (s', l')) :
    l'.authority = l.authority.enactAll
      ((l.authority.petitions (Route.date l.client.route.base c)
        ((locking requests wait (.asking x)).asks c.now (.call k))).map Petition.deed) := by
  obtain ⟨y, ha⟩ : ∃ y, l.ask c requests x = some (y, l') := by
    rcases step_asking_eq_some h with ⟨_, ha, -⟩ | ⟨_, ha, -⟩ | ⟨_, ha, -⟩ <;> exact ⟨_, ha⟩
  rw [Link.authority_of_ask hv ha]
  simp only [asks]
  split
  · have hfst : requests.zipIdx.map Prod.fst = requests := List.zipIdx_map_fst 0 requests
    rw [Authority.enactAll_petitions (hfst.symm ▸ hv), hfst]
  · rfl

/-- The turn of a branch does to the authority what its petition does. -/
theorem authority_of_stepBranch {k b : Nat} (hv : ∀ t ∈ s.waits, t.request.validate = .ok ())
    (h : s.stepBranch c b l = some (s', l')) :
    l'.authority = l.authority.enactAll
      ((l.authority.petitions (Route.date l.client.route.base c)
        (s.asks c.now (.branch k b))).map Petition.deed) := by
  obtain ⟨_, _, _, _, _, _, _, index, t, r, rfl, hb, hstep, -⟩ := stepBranch_eq_some h
  have hvalid := hv t (List.mem_filterMap.mpr ⟨_, List.mem_of_getElem? hb, rfl⟩)
  simp only [asks, hb]
  exact TreeWait.authority_of_step hvalid hstep

end CallState

namespace World

variable {w w' : World} {e : Event} {es : List Event} {k : Nat} {call : Call} {task : Task}

theorem petitions_cons (hn : w.next e = some w') :
    w.petitions k (e :: es) = w.petitionsOf k e ++ w'.petitions k es := by
  simp only [petitions, hn, Option.map_some, Option.getD_some]

theorem petitionsOf_eq_nil (h : e.isTurnOf k = false) : w.petitionsOf k e = [] := by
  cases e with
  | turn task =>
      simp only [Event.isTurnOf, beq_eq_false_iff_ne] at h
      simp only [petitionsOf, if_neg h]
  | _ => rfl

theorem petitionsOf_turn (hcall : w.calls[k]? = some call) (hl : w.link? call.client = some l)
    (htask : task.call? = some k) :
    w.petitionsOf k (.turn task) =
      l.authority.petitions (Route.date l.client.route.base w.clock)
        (call.state.asks w.now task) := by
  simp only [petitionsOf, if_pos htask, hcall, hl, (link?_eq_some_iff.mp hl).2]

end World

end LeasedLocks
