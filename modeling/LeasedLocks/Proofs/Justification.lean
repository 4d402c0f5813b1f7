import LeasedLocks.Proofs.Refusals
import LeasedLocks.Proofs.ReportedGrants

/-!
# What is reported as granted was granted

However long its messages take and whether they arrive or not, a call never reports a tree as
granted unless the authority granted it to one of the petitions of the call. The invariant
(`CallState.Justified`) follows the replies from the authority through the messages on their
way to the outcome.
-/

namespace LeasedLocks

/-- The reply fits the tree `r` at place `n`, and if it calls any node granted, a petition
for the tree was granted. -/
structure Reply.IsJustified (ps : List Petition) (n : Nat) (r : Request) (y : Reply) : Prop where
  objectIds_eq : y.objectIds = r.objectIds
  grants_ne_nil : ∀ x ∈ y.labels, x.isGranted = true → Petition.grants ps n ≠ []

/-- There is a reply for every tree, and a grant behind each of them that tells of one. -/
structure Justified (ps : List Petition) (requests : List Request) (replies : List Reply) :
    Prop where
  length_eq : replies.length = requests.length
  justified : ∀ {n : Nat} {r : Request} {y : Reply}, requests[n]? = some r →
    replies[n]? = some y → y.IsJustified ps n r

/-- There is a grant behind the last reply to the wait for the tree at place `n`, and behind
the one that is on its way, if these tell of a grant. -/
structure TreeWait.Justified (ps : List Petition) (n : Nat) (t : TreeWait) : Prop where
  latest : ∀ y, t.latest = some y → y.IsJustified ps n t.request
  awaited : ∀ armed x, t.stage = .asking armed x →
    x.AnswersSatisfy fun replies => ∀ y ∈ replies, y.IsJustified ps n t.request

/-- The wait for the tree `r` at place `n` goes on, or there is a grant behind its last
reply. -/
def TreeProgress.Justified (ps : List Petition) (n : Nat) (r : Request) : TreeProgress → Prop
  | goesOn t => t.request = r ∧ t.Justified ps n
  | ended (.ok (some y)) => y.IsJustified ps n r
  | ended _ => True

/-- Behind everything that a call knows to be granted there is a grant to one of its
petitions. -/
inductive CallState.Justified (requests : List Request) (ps : List Petition) : CallState → Prop
  | asks {wait : Option Duration} {x : Exchange (List Reply)} :
      x.AnswersSatisfy (LeasedLocks.Justified ps requests) →
      Justified requests ps (.locking requests wait (.asking x))
  | waits {wait : Option Duration} {started : Nat} {limit : Duration} {replies : List Reply}
      {branches : List Branch} {failure : Option Fault} :
      LeasedLocks.Justified ps requests replies →
      (∀ b ∈ branches, ∀ t, b.wait = some t →
        requests[b.index]? = some t.request ∧ t.Justified ps b.index) →
      Justified requests ps
        (.locking requests wait (.waiting started limit replies branches failure))
  | returned {moment : Nat} {result : CallResult} :
      (∀ o, result = .locked (.ok o) → ∃ replies waited,
        LeasedLocks.Justified ps requests replies ∧
          Outcome.assemble requests replies waited = .ok o) →
      Justified requests ps (.returned moment result)
  | cancelled : Justified requests ps .cancelled

variable {ps qs : List Petition} {n : Nat} {q : Request} {y : Reply} {c : Clock} {l l' : Link}
  {t : TreeWait} {r : TreeProgress} {s s' : CallState} {requests : List Request}
  {replies : List Reply} {o : Outcome} {waited : Duration} {deadline : Nat}

/-! ## Grants behind replies -/

theorem Reply.IsJustified.append (h : y.IsJustified ps n q) (qs : List Petition) :
    y.IsJustified (ps ++ qs) n q := by
  refine ⟨h.objectIds_eq, fun x hx hgranted => ?_⟩
  rw [Petition.grants_append]
  exact List.append_ne_nil_of_left_ne_nil (h.grants_ne_nil x hx hgranted) _

theorem Reply.IsJustified.append_right (h : y.IsJustified qs n q) (ps : List Petition) :
    y.IsJustified (ps ++ qs) n q := by
  refine ⟨h.objectIds_eq, fun x hx hgranted => ?_⟩
  rw [Petition.grants_append]
  exact List.append_ne_nil_of_right_ne_nil _ (h.grants_ne_nil x hx hgranted)

/-- The authority grants a whole tree or nothing of it. -/
theorem Settled.isJustified (h : Settled ps n q y) : y.IsJustified ps n q := by
  refine ⟨h.objectIds_eq, fun x hx hgranted => ?_⟩
  obtain ⟨p, -, hanswer, hgrants⟩ := h
  have hall := (hanswer.answered.granted_iff x hx).mp hgranted
  have hroot : y.isGranted = true :=
    (hanswer.answered.granted_iff _ (Tree.label_mem_labels_self y)).mpr hall
  rw [hgrants, if_pos hroot]
  exact List.cons_ne_nil p []

theorem TreeWait.Justified.append (h : t.Justified ps n) (qs : List Petition) :
    t.Justified (ps ++ qs) n where
  latest y hy := (h.latest y hy).append qs
  awaited armed x hstage :=
    (h.awaited armed x hstage).mono fun _ hreplies y hy => (hreplies y hy).append qs

theorem Justified.append (h : Justified ps requests replies) (qs : List Petition) :
    Justified (ps ++ qs) requests replies :=
  ⟨h.length_eq, fun hr hy => (h.justified hr hy).append qs⟩

theorem Justified.fits (h : Justified ps requests replies) : Fits requests replies :=
  .of_getElem? h.length_eq fun hr hy => (h.justified hr hy).objectIds_eq

/-- A wait that is over leaves its last reply behind, if it has one. -/
theorem Justified.answeredWith (h : Justified ps requests replies) (hq : requests[n]? = some q)
    (hr : r.Justified (ps ++ qs) n q) :
    Justified (ps ++ qs) requests (r.reply?.elim replies (replies.set n)) := by
  constructor
  case length_eq => exact (CallState.length_elim_set _ _ _).trans h.length_eq
  case justified =>
    intro m q' y hq' hy
    by_cases hm : m = n
    · subst hm
      cases hq.symm.trans hq'
      rcases CallState.eq_of_getElem?_elim_set hy with hreply | ⟨-, hy⟩
      · unfold TreeProgress.reply? at hreply
        split at hreply
        · subst hreply
          exact hr
        · cases hreply
      · exact (h.justified hq hy).append qs
    · rw [CallState.getElem?_elim_set_ne hm] at hy
      exact (h.justified hq' hy).append qs

/-! ## One wait -/

namespace TreeWait

/-- There is a grant behind the answer to the message of a wait once the message has
arrived and made its petition. -/
theorem Justified.ask {armed : List Ticket} {x : Exchange (List Reply)}
    {z : Exchanged (List Reply)} (h : t.Justified ps n) (hstage : t.stage = .asking armed x)
    (hv : t.request.validate = .ok ()) (ha : l.ask c [t.request] x = some (z, l')) :
    z.AnswersSatisfy fun replies => ∀ y ∈ replies, y.IsJustified
      (ps ++ l.authority.petitions (Route.date l.client.route.base c) (t.asks c.now n)) n
      t.request := by
  have hawaited := h.awaited armed x hstage
  apply (hawaited.mono fun _ hreplies y hy => (hreplies y hy).append _).step _
    (Link.ask_eq_some ha).2.2
  intro harrives replies hpass y hy
  obtain ⟨p, reply, hpetitions, hanswer, hreply⟩ :=
    exists_answeredWith l.authority c l.client.route n hv
  rw [hreply] at hpass
  cases hpass
  obtain rfl := List.mem_singleton.mp hy
  rw [asks_of_asking hstage, if_pos harrives, hpetitions]
  exact (settled_singleton hanswer).isJustified.append_right ps

/-- When its time is up, a wait has its last reply. -/
theorem Justified.latest_ended (h : t.Justified ps n) :
    (TreeProgress.ended (.ok t.latest)).Justified ps n t.request := by
  cases hlatest : t.latest with
  | none => trivial
  | some y => exact h.latest y hlatest

/-- Nothing comes of a wait whose message is not on its way but what it had. -/
theorem Justified.step_of_ne_asking (h : t.Justified ps n) (hc : l.client.RelaysAnswers)
    (hstage : ∀ armed x, t.stage ≠ .asking armed x)
    (hs : t.step c deadline l = some (r, l')) : r.Justified ps n t.request := by
  cases steps_of_step hs with
  | ends => exact h.latest_ended
  | failed _ _ => trivial
  | arms _ => exact ⟨rfl, h.latest, fun _ _ h => nomatch h⟩
  | joins _ _ => exact ⟨rfl, h.latest, fun _ _ h => nomatch h⟩
  | wakes _ _ => exact ⟨rfl, h.latest, fun _ _ h => nomatch h⟩
  | joined _ hj =>
      refine ⟨rfl, h.latest, ?_⟩
      intro armed' x' hsent
      cases hsent
      have hrelays := hc.lasts (Link.keeps_joinUnlocks hj).toLasts
      exact hrelays.answersSatisfy_sendRequests [t.request] c.now _
  | asks hasking _ => exact absurd hasking (hstage _ _)
  | settles hasking _ => exact absurd hasking (hstage _ _)
  | parks hasking _ _ => exact absurd hasking (hstage _ _)

/-- A step of a wait. -/
theorem Justified.step (h : t.Justified ps n) (hc : l.client.RelaysAnswers)
    (hv : t.request.validate = .ok ()) (hs : t.step c deadline l = some (r, l')) :
    r.Justified (ps ++ l.authority.petitions (Route.date l.client.route.base c) (t.asks c.now n)) n
      t.request := by
  by_cases hasking : ∃ armed x, t.stage = .asking armed x
  · obtain ⟨armed, x, hstage⟩ := hasking
    simp only [TreeWait.step, hstage] at hs
    split at hs
    · obtain ⟨-, hs⟩ := Option.ite_none_right_eq_some.mp hs
      cases hs
      exact (h.append _).latest_ended
    · next ha =>
        cases hs
        refine ⟨rfl, (h.append _).latest, ?_⟩
        intro armed' x' hsent
        cases hsent
        exact h.ask hstage hv ha
    · next answer l₁ ha =>
        have hanswer := h.ask hstage hv ha
        have hs' := congrArg Prod.fst (Option.some.inj hs)
        rcases t.answered_cases armed answer l₁ with
          ⟨e, heq⟩ | ⟨replies, reply, rfl, hreply, -, ⟨-, heq⟩ | ⟨-, heq⟩⟩
        · rw [heq] at hs'
          cases hs'
          trivial
        · rw [heq] at hs'
          cases hs'
          exact hanswer replies rfl reply hreply
        · rw [heq] at hs'
          cases hs'
          refine ⟨rfl, fun y hy => ?_, by rintro _ _ ⟨⟩⟩
          cases hy
          exact hanswer replies rfl reply hreply
    · cases hs
      trivial
  · have hne : ∀ armed x, t.stage ≠ .asking armed x :=
      fun armed x hstage => hasking ⟨armed, x, hstage⟩
    rw [asks_of_ne_asking hne, Authority.petitions_nil, List.append_nil]
    exact h.step_of_ne_asking hc hne hs

end TreeWait

/-! ## One call -/

namespace CallState

/-- There are grants behind the answer to the message with which a call begins once the
message has arrived and made its petitions. -/
theorem answersSatisfy_of_ask {k : Nat} {wait : Option Duration} {x : Exchange (List Reply)}
    {z : Exchanged (List Reply)} (h : x.AnswersSatisfy (LeasedLocks.Justified ps requests))
    (hv : ∀ q ∈ requests, q.validate = .ok ()) (ha : l.ask c requests x = some (z, l')) :
    z.AnswersSatisfy (LeasedLocks.Justified
      (ps ++ l.authority.petitions (Route.date l.client.route.base c)
        ((locking requests wait (.asking x)).asks c.now (.call k))) requests) := by
  apply (h.mono fun _ hreplies => hreplies.append _).step _ (Link.ask_eq_some ha).2.2
  intro harrives replies hpass
  rw [Route.passRequests_of_valid _ c hv] at hpass
  obtain ⟨hlength, hsettled⟩ := settled_petitions (m := 0) hv hpass
  simp only [asks, if_pos harrives]
  refine ⟨hlength, fun {n} {r} {y} hr hy => ?_⟩
  have hfirst := (hsettled hr hy).isJustified
  rw [Nat.zero_add] at hfirst
  exact hfirst.append_right ps

theorem justified_answered (wait : Option Duration) (now : Nat)
    {answer : Except Fault (List Reply)}
    (h : ∀ replies, answer = .ok replies → LeasedLocks.Justified ps requests replies) :
    (answered requests wait now answer).Justified requests ps := by
  rcases answered_cases requests wait now answer with
    ⟨e, heq⟩ | ⟨replies, rfl, -, heq | ⟨d, -, -, heq⟩⟩
  · rw [heq]
    exact .returned fun o ho => nomatch ho
  · rw [heq]
    exact .returned fun o ho => ⟨replies, .zero, h replies rfl, CallResult.locked.inj ho⟩
  · rw [heq]
    refine .waits (h replies rfl) fun b hb t hwait => ⟨getElem?_of_mem_branchesOf hb hwait, ?_⟩
    obtain ⟨x, -, rfl⟩ := List.mem_map.mp hb
    cases hwait
    constructor
    case latest => exact fun _ hy => nomatch hy
    case awaited => exact fun _ _ hstage => nomatch hstage

/-- A turn of the task that makes the call. -/
theorem Justified.step {k : Nat} (h : s.Justified requests ps)
    (hv : ∀ q ∈ requests, q.validate = .ok ()) (hs : s.step c l = some (s', l')) :
    s'.Justified requests (ps ++ l.authority.petitions (Route.date l.client.route.base c)
      (s.asks c.now (.call k))) := by
  cases h with
  | asks hx =>
      rcases step_asking_eq_some hs with ⟨x', ha, rfl⟩ | ⟨answer, ha, rfl⟩ | ⟨_, ha, rfl⟩
      · exact .asks (answersSatisfy_of_ask hx hv ha)
      · exact justified_answered _ c.now (answersSatisfy_of_ask hx hv ha)
      · exact .returned fun o ho => nomatch ho
  | waits hreplies hbranches =>
      simp only [CallState.asks, Authority.petitions_nil, List.append_nil]
      cases steps_of_step hs with
      | finishes _ hfinish =>
          refine .returned fun o ho => ?_
          rw [ho] at hfinish
          exact ⟨_, _, hreplies, (assemble_of_finish hfinish).2⟩
  | returned _ => cases hs
  | cancelled => cases hs

/-- A turn of whoever waits for one of the trees. -/
theorem Justified.stepBranch {k b : Nat} (h : s.Justified requests ps) (hc : l.client.RelaysAnswers)
    (hv : ∀ q ∈ requests, q.validate = .ok ()) (hs : s.stepBranch c b l = some (s', l')) :
    s'.Justified requests (ps ++ l.authority.petitions (Route.date l.client.route.base c)
      (s.asks c.now (.branch k b))) := by
  obtain ⟨_, _, _, _, replies, branches, _, index, t, r, rfl, hb, hstep, rfl⟩ :=
    stepBranch_eq_some hs
  cases h with
  | waits hreplies hbranches =>
      obtain ⟨hrequest, ht⟩ := hbranches _ (List.mem_of_getElem? hb) t rfl
      have hr := ht.step hc (hv _ (List.mem_of_getElem? hrequest)) hstep
      simp only [CallState.asks, hb]
      refine .waits (hreplies.answeredWith hrequest hr) fun d hd u hu => ?_
      rcases List.mem_or_eq_of_mem_set hd with hd | rfl
      · obtain ⟨hrequest', hu'⟩ := hbranches d hd u hu
        exact ⟨hrequest', hu'.append _⟩
      · cases r with
        | goesOn t' =>
            cases hu
            exact ⟨hr.1 ▸ hrequest, hr.2⟩
        | ended result => cases hu

theorem justified_cancel (h : s.Justified requests ps) (l : Link) :
    (s.cancel l).1.Justified requests ps := by
  cases h with
  | asks _ => exact .cancelled
  | waits _ _ => exact .cancelled
  | returned hresult => exact .returned hresult
  | cancelled => exact .cancelled

end CallState

namespace World

variable {w w' : World} {e : Event} {es : List Event} {i k : Nat}

/-- With one event more, there is still a grant behind all that a call knows. -/
theorem justified_of_next (hn : w.next e = some w') (hl : w.link? i = some l)
    (hc : l.client.RelaysAnswers) (hv : ∀ q ∈ requests, q.validate = .ok ())
    (hcall : w.calls[k]? = some ⟨i, s⟩) (h : s.Justified requests ps) :
    ∃ s', w'.calls[k]? = some ⟨i, s'⟩ ∧ s'.Justified requests (ps ++ w.petitionsOf k e) := by
  rcases exists_callStep_of_next hn hcall with ⟨hsame, hturn⟩ | ⟨m, s', m', hm, hb, -, hs', -, -⟩
  · rw [petitionsOf_eq_nil hturn, List.append_nil]
    exact ⟨s, hsame, h⟩
  · rw [hl] at hm
    cases hm
    refine ⟨s', hs', ?_⟩
    cases hb with
    | call hstep =>
        rw [petitionsOf_turn hcall hl rfl]
        exact h.step hv hstep
    | branch hstep =>
        rw [petitionsOf_turn hcall hl rfl]
        exact h.stepBranch hc hv hstep
    | cancel =>
        rw [petitionsOf_eq_nil rfl, List.append_nil]
        exact CallState.justified_cancel h l

/-- Through a whole run there is a grant behind all that a call knows. -/
theorem justified_of_run (hr : Run w es w') (hl : w.link? i = some l) (hc : l.client.RelaysAnswers)
    (hv : ∀ q ∈ requests, q.validate = .ok ()) (hcall : w.calls[k]? = some ⟨i, s⟩)
    (h : s.Justified requests ps) :
    ∃ s', w'.calls[k]? = some ⟨i, s'⟩ ∧ s'.Justified requests (ps ++ w.petitions k es) := by
  induction hr generalizing l ps s with
  | nil w =>
      rw [petitions, List.append_nil]
      exact ⟨s, hcall, h⟩
  | @cons w w₁ w' e es hn hr ih =>
      obtain ⟨l₁, hl₁, hlasts⟩ := keepsClients_of_next hn i l hl
      obtain ⟨s₁, hcall₁, h₁⟩ := justified_of_next hn hl hc hv hcall h
      rw [petitions_cons hn, ← List.append_assoc]
      exact ih hl₁ (hc.lasts hlasts) hcall₁ h₁

/-- Behind all that a call knows there is a grant to one of its petitions, and what returns an
outcome was valid. -/
theorem justified_of_lock {wait : Option Duration} (hl : w.link? i = some l)
    (hc : l.client.RelaysAnswers) (hr : Run (w.lock i requests wait) es w') :
    ∃ s, w'.calls[w.calls.length]? = some ⟨i, s⟩ ∧
      s.Justified requests ((w.lock i requests wait).petitions w.calls.length es) ∧
      ∀ moment o, s = .returned moment (.locked (.ok o)) →
        checkIds (requests.flatMap Request.objectIds) = .ok () := by
  obtain ⟨s₀, l₀, hcall, hl₀, -, -, ⟨result, rfl, hempty⟩ | ⟨hvalid, rfl⟩⟩ :=
    lock_cases hl requests wait
  · -- the call is over at once
    refine ⟨_, over_of_run hr hcall rfl, .returned fun o ho => ?_, fun moment o ho => ?_⟩
    · obtain ⟨rfl, rfl⟩ := hempty o ho
      exact ⟨[], .zero, ⟨rfl, fun hq => nomatch hq⟩, rfl⟩
    · cases ho
      obtain ⟨rfl, -⟩ := hempty o rfl
      decide
  · have hids := checkIds_of_validate hvalid
    have hasks : CallState.Justified requests [] (.locking requests wait (.asking
        (.start (l.client.route.lockScript.head?.getD {}) l.client.settings.requestTimeout
          w.now))) :=
      .asks (hc.answersSatisfy_sendRequests requests w.now _)
    obtain ⟨s', hs', hjustified⟩ := justified_of_run hr hl₀ (hc.lasts (lasts_lock hl hl₀))
      (fun q hq => validate_of_checkIds hids hq) hcall hasks
    rw [List.nil_append] at hjustified
    exact ⟨s', hs', hjustified, fun _ _ _ => hids⟩

/-- A tree that no petition of a call was granted is reported as not granted, however the
messages of the call fared. -/
theorem refused_of_grants_eq_nil {wait : Option Duration} {moment : Nat}
    (hl : w.link? i = some l) (hc : l.client.RelaysAnswers)
    (hr : Run (w.lock i requests wait) es w')
    (hend : w'.calls[w.calls.length]? = some ⟨i, .returned moment (.locked (.ok o))⟩)
    (hq : requests[n]? = some q)
    (hnone : Petition.grants ((w.lock i requests wait).petitions w.calls.length es) n = []) :
    ∀ id ∈ q.objectIds, ∃ status, o.get? id = some status ∧ status.isGranted = false := by
  obtain ⟨s', hs', hjustified, hids⟩ := justified_of_lock hl hc hr
  rw [hend] at hs'
  cases hs'
  have hnodup := (checkIds_eq_ok_iff.mp (hids moment o rfl)).2
  cases hjustified with
  | returned hresult =>
      obtain ⟨replies, waited, hreplies, hassemble⟩ := hresult o rfl
      intro id hid
      obtain ⟨node, hnode, rfl⟩ := Request.mem_objectIds_iff.mp hid
      obtain ⟨y, hy⟩ : ∃ y, replies[n]? = some y := by
        have hlt := (List.getElem?_eq_some_iff.mp hq).1
        exact ⟨_, List.getElem?_eq_getElem (hreplies.length_eq ▸ hlt)⟩
      obtain ⟨z, hz, hget⟩ :=
        exists_status_of_mem_nodes hreplies.fits hassemble hnodup hq hy hnode
      refine ⟨_, hget, Bool.eq_false_iff.mpr fun hgranted => ?_⟩
      have hlabel : z.label ∈ y.labels := List.mem_map_of_mem (List.of_mem_zip hz).2
      exact (hreplies.justified hq hy).grants_ne_nil _ hlabel hgranted hnone

end World

end LeasedLocks
