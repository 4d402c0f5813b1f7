import LeasedLocks.Proofs.LocalClients
import LeasedLocks.Proofs.Petitions
import Mathlib.Data.List.Nodup

/-!
# What a call knows of its trees

A call whose messages are answered at once has, for every tree, the reply to the last
petition for it, and no petition for the tree was granted but that one (`Settled`). This
stays so through all steps of the call (`CallState.Knows`).
-/

namespace LeasedLocks

namespace Petition

/-- The petition asks for the tree `r` at place `n`, and this is the reply to it. -/
structure AnsweredWith (p : Petition) (n : Nat) (r : Request) (reply : Reply) : Prop where
  place_eq : p.place = n
  request_eq : p.request = r
  reply_eq : p.reply? = some reply

/-- The petitions for the tree at place `n` that were granted. -/
def grants (ps : List Petition) (n : Nat) : List Petition :=
  ps.filter fun p => p.place == n && p.isGranted

end Petition

/-- The reply is that to a petition for the tree `r` at place `n`, and if any petition for
the tree was granted, it was that one alone. -/
def Settled (ps : List Petition) (n : Nat) (r : Request) (reply : Reply) : Prop :=
  ∃ p ∈ ps, p.AnsweredWith n r reply ∧
    Petition.grants ps n = if reply.isGranted then [p] else []

/-- There is a reply for every tree, and all of them are settled. -/
structure AllSettled (ps : List Petition) (requests : List Request) (replies : List Reply) :
    Prop where
  length_eq : replies.length = requests.length
  settled : ∀ {n : Nat} {r : Request} {reply : Reply}, requests[n]? = some r →
    replies[n]? = some reply → Settled ps n r reply

/-- What whoever waits for the tree at place `n` knows of it, where `first` is the reply
that the call had before. -/
inductive TreeWait.Knows (now : Nat) (ps : List Petition) (n : Nat) (first : Reply)
    (t : TreeWait) : Prop where
  /-- No message is on its way, and the last reply was a refusal. -/
  | refused : (∀ armed x, t.stage ≠ .asking armed x) →
      Settled ps n t.request (t.latest.getD first) →
      (t.latest.getD first).isGranted = false → Knows now ps n first t
  /-- The tree is about to be asked for again. -/
  | sends {armed : List Ticket} {x : Exchange (List Reply)} {due : Nat} :
      t.stage = .asking armed x → x.leg = .outbound {} due → due ≤ now →
      Settled ps n t.request (t.latest.getD first) →
      (t.latest.getD first).isGranted = false → Knows now ps n first t
  /-- The reply is there, and the call will take it up. -/
  | receives {armed : List Ticket} {x : Exchange (List Reply)} {due : Nat} {reply : Reply} :
      t.stage = .asking armed x → x.leg = .inbound (.ok [reply]) due → due ≤ now →
      Settled ps n t.request reply → Knows now ps n first t

/-- What is known of the tree `r` at place `n` after a step of the wait for it. -/
def TreeProgress.Knows (now : Nat) (ps : List Petition) (n : Nat) (r : Request) (first : Reply) :
    TreeProgress → Prop
  | goesOn t => t.request = r ∧ t.Knows now ps n first
  | ended (.ok latest) => Settled ps n r (latest.getD first)
  | ended (.error _) => True

/-- For every tree there is a reply, and it is settled unless somebody waits for the tree
and knows better. -/
structure Tracks (now : Nat) (ps : List Petition) (requests : List Request)
    (replies : List Reply) (branches : List Branch) : Prop where
  length_eq : replies.length = requests.length
  knows : ∀ {n : Nat} {first : Reply} {t : TreeWait}, replies[n]? = some first →
    (⟨n, some t⟩ : Branch) ∈ branches → t.Knows now ps n first
  settled : ∀ {n : Nat} {r : Request} {reply : Reply}, requests[n]? = some r →
    replies[n]? = some reply → (∀ t, (⟨n, some t⟩ : Branch) ∉ branches) →
    Settled ps n r reply

/-- What a call knows of the trees that it asks for after these petitions. -/
inductive CallState.Knows (requests : List Request) (now : Nat) (ps : List Petition) :
    CallState → Prop where
  | sends {wait : Option Duration} {x : Exchange (List Reply)} {due : Nat} :
      x.leg = .outbound {} due → due ≤ now → ps = [] →
      Knows requests now ps (.locking requests wait (.asking x))
  | receives {wait : Option Duration} {x : Exchange (List Reply)} {replies : List Reply}
      {due : Nat} : x.leg = .inbound (.ok replies) due → due ≤ now →
      AllSettled ps requests replies →
      Knows requests now ps (.locking requests wait (.asking x))
  | waits {wait : Option Duration} {started : Nat} {limit : Duration} {replies : List Reply}
      {branches : List Branch} {failure : Option Fault} :
      (branches.map Branch.index).Nodup →
      (∀ b ∈ branches, ∀ t, b.wait = some t → requests[b.index]? = some t.request) →
      (failure = none → Tracks now ps requests replies branches) →
      Knows requests now ps
        (.locking requests wait (.waiting started limit replies branches failure))
  | returned {moment : Nat} {result : CallResult} :
      (∀ o, result = .locked (.ok o) → ∃ replies waited, AllSettled ps requests replies ∧
        Outcome.assemble requests replies waited = .ok o) →
      Knows requests now ps (.returned moment result)
  | cancelled : Knows requests now ps .cancelled

variable {ps qs : List Petition} {p : Petition} {n : Nat} {q : Request} {reply y : Reply}
  {a : Authority} {date : Millis} {c : Clock} {l l' : Link} {t : TreeWait} {r : TreeProgress}
  {now now' : Nat} {s s' : CallState} {requests : List Request} {replies : List Reply}

/-! ## Replies to petitions -/

namespace Petition

theorem answeredWith_of_request {b : Authority} (n : Nat)
    (hreq : a.request q date = .ok (reply, b)) :
    AnsweredWith { place := n, request := q, date, before := a } n q reply :=
  ⟨rfl, rfl, by simp only [reply?, hreq]⟩

theorem AnsweredWith.isGranted_eq (h : p.AnsweredWith n q reply) :
    p.isGranted = reply.isGranted := by
  simp only [isGranted, h.reply_eq, Option.any_some]

theorem AnsweredWith.exists_request (h : p.AnsweredWith n q reply) :
    ∃ b, p.before.request q p.date = .ok (reply, b) := by
  have hreply := h.reply_eq
  simp only [reply?, h.request_eq] at hreply
  cases hreq : p.before.request q p.date with
  | error e =>
      rw [hreq] at hreply
      cases hreply
  | ok answered =>
      obtain ⟨reply', b⟩ := answered
      rw [hreq] at hreply
      cases hreply
      exact ⟨b, rfl⟩

theorem grants_append (ps qs : List Petition) (n : Nat) :
    grants (ps ++ qs) n = grants ps n ++ grants qs n := List.filter_append ..

theorem grants_eq_nil (h : ∀ p ∈ ps, p.place ≠ n) : grants ps n = [] := by
  refine List.filter_eq_nil_iff.mpr fun p hp => ?_
  simp [h p hp]

theorem grants_singleton (h : p.AnsweredWith n q reply) :
    grants [p] n = if reply.isGranted then [p] else [] := by
  simp [grants, List.filter_cons, h.place_eq, h.isGranted_eq]

end Petition

theorem Settled.objectIds_eq (h : Settled ps n q reply) : reply.objectIds = q.objectIds := by
  obtain ⟨p, -, hanswer, -⟩ := h
  obtain ⟨b, hreq⟩ := hanswer.exists_request
  exact (Authority.responded_of_request hreq).answered.objectIds_eq

/-- Petitions for other trees change nothing. -/
theorem Settled.append (h : Settled ps n q reply) (hne : ∀ p ∈ qs, p.place ≠ n) :
    Settled (ps ++ qs) n q reply := by
  obtain ⟨p, hp, hanswer, hgrants⟩ := h
  refine ⟨p, List.mem_append_left _ hp, hanswer, ?_⟩
  rw [Petition.grants_append, hgrants, Petition.grants_eq_nil hne, List.append_nil]

theorem Settled.append_right (h : Settled qs n q reply) (hne : ∀ p ∈ ps, p.place ≠ n) :
    Settled (ps ++ qs) n q reply := by
  obtain ⟨p, hp, hanswer, hgrants⟩ := h
  refine ⟨p, List.mem_append_right _ hp, hanswer, ?_⟩
  rw [Petition.grants_append, hgrants, Petition.grants_eq_nil hne, List.nil_append]

/-- After a refusal the tree is asked for once more. -/
theorem Settled.ask (h : Settled ps n q y) (hy : y.isGranted = false)
    (hp : p.AnsweredWith n q reply) : Settled (ps ++ [p]) n q reply := by
  obtain ⟨_, -, -, hgrants⟩ := h
  refine ⟨p, List.mem_append_right _ List.mem_cons_self, hp, ?_⟩
  rw [Petition.grants_append, hgrants, Petition.grants_singleton hp, hy]
  rfl

theorem settled_singleton (hp : p.AnsweredWith n q reply) : Settled [p] n q reply :=
  ⟨p, List.mem_cons_self, hp, Petition.grants_singleton hp⟩

theorem place_of_mem_petitions {rs : List (Request × Nat)} (hp : p ∈ a.petitions date rs) :
    (p.request, p.place) ∈ rs := by
  induction rs generalizing a with
  | nil => cases hp
  | cons x rs ih =>
      rcases List.mem_cons.mp hp with rfl | hp
      · exact List.mem_cons_self
      · exact List.mem_cons_of_mem _ (ih hp)

/-- The replies to valid trees settle them. -/
theorem settled_petitions {rs : List Request} {m : Nat}
    (hv : ∀ q ∈ rs, q.validate = .ok ()) (h : (a.requestEach date rs).1 = .ok replies) :
    replies.length = rs.length ∧ ∀ {n : Nat} {q : Request} {reply : Reply}, rs[n]? = some q →
      replies[n]? = some reply →
      Settled (a.petitions date (rs.zipIdx m)) (m + n) q reply := by
  induction rs generalizing a m replies with
  | nil =>
      cases h
      exact ⟨rfl, fun hq => nomatch hq⟩
  | cons q₀ rs ih =>
      obtain ⟨reply₀, b, hreq⟩ :=
        Authority.exists_request_of_valid (hv q₀ List.mem_cons_self) a date
      have hrest : ∀ q ∈ rs, q.validate = .ok () := fun q hq => hv q (List.mem_cons_of_mem _ hq)
      obtain ⟨rest, hreplies⟩ := Authority.requestEach_fst_of_valid hrest b date
      simp only [Authority.requestEach, Authority.serve_eq_ok_iff.mpr hreq, hreplies] at h
      cases h
      obtain ⟨hlength, hsettled⟩ := ih (m := m + 1) hrest hreplies
      let p₀ : Petition := { place := m, request := q₀, date, before := a }
      have hpetitions : a.petitions date ((q₀ :: rs).zipIdx m) =
          [p₀] ++ b.petitions date (rs.zipIdx (m + 1)) := by
        rw [← Authority.enact_request_of_ok hreq]
        rfl
      have hp₀ : p₀.AnsweredWith m q₀ reply₀ := Petition.answeredWith_of_request m hreq
      refine ⟨congrArg (· + 1) hlength, ?_⟩
      rw [hpetitions]
      rintro (_ | n) q reply hq hreply
      · cases hq
        cases hreply
        refine (settled_singleton hp₀).append fun p hp => ?_
        have hle := List.le_snd_of_mem_zipIdx (place_of_mem_petitions hp)
        exact Nat.ne_of_gt hle
      · have hlater := hsettled hq hreply
        rw [Nat.add_right_comm m 1 n] at hlater
        refine hlater.append_right fun p hp => ?_
        rw [List.mem_singleton.mp hp]
        change m ≠ m + (n + 1)
        omega

/-! ## While a tree is waited for -/

/-- A message that asks for one valid tree is a petition, and the reply to it arrives. -/
theorem exists_answeredWith (a : Authority) (c : Clock) (route : Route) (n : Nat)
    (hv : q.validate = .ok ()) :
    ∃ p reply, a.petitions (Route.date route.base c) [(q, n)] = [p] ∧ p.AnsweredWith n q reply ∧
      (route.passRequests c [q] a).1 = .ok [reply] := by
  obtain ⟨reply, b, hreq⟩ :=
    Authority.exists_request_of_valid hv a (Route.date route.base c)
  refine ⟨_, reply, rfl, Petition.answeredWith_of_request n hreq, ?_⟩
  have hone : ∀ r ∈ [q], Request.validate r = .ok () := by
    intro r hr
    rw [List.mem_singleton.mp hr]
    exact hv
  rw [Route.passRequests_of_valid route c hone]
  simp only [Authority.requestEach, Authority.serve_eq_ok_iff.mpr hreq]
  rfl

namespace TreeWait

theorem Knows.mono {first : Reply} (h : t.Knows now ps n first) (hle : now ≤ now') :
    t.Knows now' ps n first := by
  cases h with
  | refused hstage hsettled hrefused => exact .refused hstage hsettled hrefused
  | sends hstage hleg hdue hsettled hrefused =>
      exact .sends hstage hleg (Nat.le_trans hdue hle) hsettled hrefused
  | receives hstage hleg hdue hsettled =>
      exact .receives hstage hleg (Nat.le_trans hdue hle) hsettled

theorem Knows.append {first : Reply} (h : t.Knows now ps n first) (hne : ∀ p ∈ qs, p.place ≠ n) :
    t.Knows now (ps ++ qs) n first := by
  cases h with
  | refused hstage hsettled hrefused => exact .refused hstage (hsettled.append hne) hrefused
  | sends hstage hleg hdue hsettled hrefused =>
      exact .sends hstage hleg hdue (hsettled.append hne) hrefused
  | receives hstage hleg hdue hsettled =>
      exact .receives hstage hleg hdue (hsettled.append hne)

/-- No message is on its way, and the wait goes on to its next step or ends. -/
theorem step_of_refused {first : Reply} {deadline : Nat}
    (hstage : ∀ armed x, t.stage ≠ .asking armed x)
    (hsettled : Settled ps n t.request (t.latest.getD first))
    (hrefused : (t.latest.getD first).isGranted = false)
    (hscript : l.client.route.lockScript = []) (h : t.step c deadline l = some (r, l')) :
    r.Knows c.now ps n t.request first := by
  cases steps_of_step h with
  | ends => exact hsettled
  | failed _ _ => trivial
  | arms _ => exact ⟨rfl, .refused (fun _ _ h => nomatch h) hsettled hrefused⟩
  | joins _ _ => exact ⟨rfl, .refused (fun _ _ h => nomatch h) hsettled hrefused⟩
  | wakes _ _ => exact ⟨rfl, .refused (fun _ _ h => nomatch h) hsettled hrefused⟩
  | joined _ hj =>
      have hnil := (Link.keeps_joinUnlocks hj).lockScript_eq_nil hscript
      refine ⟨rfl, .sends rfl ?_ (Nat.le_refl _) hsettled hrefused⟩
      simp only [hnil]
      rfl
  | asks hasking _ => exact absurd hasking (hstage _ _)
  | settles hasking _ => exact absurd hasking (hstage _ _)
  | parks hasking _ _ => exact absurd hasking (hstage _ _)

/-- The message arrives, and the reply to it sets out. -/
theorem step_of_sends {first : Reply} {deadline due : Nat} {armed : List Ticket}
    {x : Exchange (List Reply)} (hstage : t.stage = .asking armed x)
    (hleg : x.leg = .outbound {} due) (hdue : due ≤ c.now)
    (hsettled : Settled ps n t.request (t.latest.getD first))
    (hrefused : (t.latest.getD first).isGranted = false)
    (hv : t.request.validate = .ok ()) (h : t.step c deadline l = some (r, l')) :
    r.Knows c.now
      (ps ++ l.authority.petitions (Route.date l.client.route.base c) (t.asks c.now n)) n
      t.request first := by
  obtain ⟨p, reply, hpetitions, hp, hpass⟩ :=
    exists_answeredWith l.authority c l.client.route n hv
  have hasks : t.asks c.now n = [(t.request, n)] := by
    have hx : x.isArriving c.now = true := by
      simp only [Exchange.isArriving, hleg, hdue]
      rfl
    rw [asks_of_asking hstage, if_pos hx]
  simp only [step, hstage, Link.ask, Exchange.step_of_outbound hleg hdue, Option.map_some] at h
  cases h
  rw [hasks, hpetitions]
  exact ⟨rfl, .receives rfl (congrArg (Leg.inbound · c.now) hpass) (Nat.le_refl _)
    (hsettled.ask hrefused hp)⟩

/-- The reply arrives: the wait is over, or it goes on with one more refusal. -/
theorem step_of_receives {first reply : Reply} {deadline due : Nat}
    {armed : List Ticket} {x : Exchange (List Reply)} (hstage : t.stage = .asking armed x)
    (hleg : x.leg = .inbound (.ok [reply]) due) (hdue : due ≤ c.now)
    (hsettled : Settled ps n t.request reply) (h : t.step c deadline l = some (r, l')) :
    r.Knows c.now ps n t.request first := by
  have hcheck : checkReplies [t.request] [reply] = .ok [reply] :=
    checkReplies_of_fits (.cons hsettled.objectIds_eq .nil)
  simp only [step, hstage, Link.ask, Exchange.step_of_inbound hleg hdue, Option.map_some] at h
  have hanswered := congrArg Prod.fst (Option.some.inj h)
  simp only [answered, Except.bind, hcheck, List.getLast?_singleton] at hanswered
  cases hgranted : reply.isGranted with
  | true =>
      rw [hgranted, if_pos rfl] at hanswered
      cases hanswered
      exact hsettled
  | false =>
      rw [hgranted, if_neg Bool.false_ne_true] at hanswered
      cases hanswered
      exact ⟨rfl, .refused (fun _ _ h => by cases h) hsettled hgranted⟩

theorem asks_of_inbound {armed : List Ticket} {x : Exchange (List Reply)}
    {answer : Except Fault (List Reply)} {due : Nat} (hstage : t.stage = .asking armed x)
    (hleg : x.leg = .inbound answer due) (now n : Nat) : t.asks now n = [] := by
  rw [asks_of_asking hstage]
  simp only [Exchange.isArriving, hleg]
  rfl

theorem asks_of_ne_asking (hstage : ∀ armed x, t.stage ≠ .asking armed x) (now n : Nat) :
    t.asks now n = [] := by
  unfold asks
  split
  · next h => exact absurd h (hstage _ _)
  · rfl

/-- Through every step of a wait it is known what became of its tree. -/
theorem Knows.step {first : Reply} {deadline : Nat} (hk : t.Knows c.now ps n first)
    (hscript : l.client.route.lockScript = []) (hv : t.request.validate = .ok ())
    (h : t.step c deadline l = some (r, l')) :
    r.Knows c.now
      (ps ++ l.authority.petitions (Route.date l.client.route.base c) (t.asks c.now n)) n
      t.request first := by
  cases hk with
  | refused hstage hsettled hrefused =>
      rw [asks_of_ne_asking hstage, Authority.petitions_nil, List.append_nil]
      exact step_of_refused hstage hsettled hrefused hscript h
  | sends hstage hleg hdue hsettled hrefused =>
      exact step_of_sends hstage hleg hdue hsettled hrefused hv h
  | receives hstage hleg hdue hsettled =>
      rw [asks_of_inbound hstage hleg, Authority.petitions_nil, List.append_nil]
      exact step_of_receives hstage hleg hdue hsettled h

end TreeWait

/-! ## While all trees are waited for -/

theorem AllSettled.fits (h : AllSettled ps requests replies) : Fits requests replies :=
  .of_getElem? h.length_eq fun hr hy => (h.settled hr hy).objectIds_eq

theorem Tracks.mono {branches : List Branch} (h : Tracks now ps requests replies branches)
    (hle : now ≤ now') : Tracks now' ps requests replies branches :=
  ⟨h.length_eq, fun hfirst hb => (h.knows hfirst hb).mono hle, h.settled⟩

/-- Nobody waits any more. -/
theorem Tracks.allSettled {branches : List Branch} (h : Tracks now ps requests replies branches)
    (hall : branches.all (·.wait.isNone) = true) : AllSettled ps requests replies := by
  refine ⟨h.length_eq, fun hr hy => h.settled hr hy fun t hb => ?_⟩
  have hnone := List.all_eq_true.mp hall _ hb
  cases hnone

namespace CallState

theorem Knows.mono (h : s.Knows requests now ps) (hle : now ≤ now') :
    s.Knows requests now' ps := by
  cases h with
  | sends hleg hdue hnil => exact .sends hleg (Nat.le_trans hdue hle) hnil
  | receives hleg hdue hall => exact .receives hleg (Nat.le_trans hdue hle) hall
  | waits hnodup hplaces htracks => exact .waits hnodup hplaces fun hf => (htracks hf).mono hle
  | returned hresult => exact .returned hresult
  | cancelled => exact .cancelled

theorem nodup_branchesOf (requests : List Request) (replies : List Reply) :
    ((branchesOf requests replies).map Branch.index).Nodup := by
  have hall : ((requests.zip replies).zipIdx.map Prod.snd).Nodup := by
    rw [List.zipIdx_map_snd]
    exact List.nodup_range'
  rw [branchesOf, List.map_map]
  exact hall.sublist ((List.filter_sublist (p := _)).map Prod.snd)

theorem mem_branchesOf {n : Nat} (h : (⟨n, some t⟩ : Branch) ∈ branchesOf requests replies) :
    ∃ reply, replies[n]? = some reply ∧ reply.isGranted = false ∧
      requests[n]? = some t.request ∧ t = { request := t.request } := by
  obtain ⟨⟨⟨q, reply⟩, index⟩, hx, hEq⟩ := List.mem_map.mp h
  cases hEq
  obtain ⟨hx, hrefused⟩ := List.mem_filter.mp hx
  obtain ⟨hq, hreply⟩ := List.getElem?_zip_eq_some.mp (List.mem_zipIdx_iff_getElem?.mp hx)
  exact ⟨reply, hreply, by simpa using hrefused, hq, rfl⟩

/-- With the replies to all trees the call is over, or it waits for those that were
refused. -/
theorem knows_answered (wait : Option Duration) (now : Nat)
    (h : AllSettled ps requests replies) :
    (answered requests wait now (.ok replies)).Knows requests now ps := by
  have hdone : (returned now (.locked (Outcome.assemble requests replies .zero))).Knows
      requests now ps :=
    .returned fun o ho => ⟨replies, .zero, h, CallResult.locked.inj ho⟩
  simp only [answered, Except.bind, checkReplies_of_fits h.fits]
  cases wait with
  | none => exact hdone
  | some d =>
      simp only
      split
      · exact hdone
      · refine .waits (nodup_branchesOf _ _)
          (fun b hb t hwait => getElem?_of_mem_branchesOf hb hwait) fun _ => ?_
        constructor
        case length_eq => exact h.length_eq
        case knows =>
          intro n first t hfirst hb
          obtain ⟨reply, hreply, hrefused, hr, ht⟩ := mem_branchesOf hb
          rw [hfirst] at hreply
          cases hreply
          rw [ht]
          exact .refused (fun _ _ h => nomatch h) (h.settled hr hfirst) hrefused
        case settled => exact fun hr hy _ => h.settled hr hy

/-- A turn of the task that makes the call. -/
theorem Knows.step {k : Nat} (h : s.Knows requests c.now ps)
    (hv : ∀ q ∈ requests, q.validate = .ok ()) (hs : s.step c l = some (s', l')) :
    s'.Knows requests c.now
      (ps ++ l.authority.petitions (Route.date l.client.route.base c)
        (s.asks c.now (.call k))) := by
  cases h with
  | @sends wait x due hleg hdue hnil =>
      have hx : x.isArriving c.now = true := by
        simp only [Exchange.isArriving, hleg, hdue]
        rfl
      simp only [CallState.step, Link.ask, Exchange.step_of_outbound hleg hdue,
        Option.map_some] at hs
      cases hs
      simp only [asks, if_pos hx, hnil, List.nil_append]
      obtain ⟨replies, hreplies⟩ := Authority.requestEach_fst_of_valid hv l.authority
        (Route.date l.client.route.base c)
      rw [Route.passRequests_of_valid _ c hv, hreplies]
      obtain ⟨hlength, hsettled⟩ := settled_petitions (m := 0) hv hreplies
      refine .receives rfl (Nat.le_refl _) ⟨hlength, fun hq hy => ?_⟩
      have hfirst := hsettled hq hy
      rwa [Nat.zero_add] at hfirst
  | @receives wait x replies due hleg hdue hall =>
      have hx : ¬ x.isArriving c.now = true := by
        simp only [Exchange.isArriving, hleg]
        exact Bool.false_ne_true
      simp only [CallState.step, Link.ask, Exchange.step_of_inbound hleg hdue,
        Option.map_some] at hs
      cases hs
      simp only [asks, if_neg hx, Authority.petitions_nil, List.append_nil]
      exact knows_answered wait c.now hall
  | @waits wait started limit replies branches failure hnodup hplaces htracks =>
      simp only [asks, Authority.petitions_nil, List.append_nil]
      cases steps_of_step hs with
      | finishes hall hfinish =>
          refine .returned fun o ho => ?_
          rw [ho] at hfinish
          obtain ⟨hok, hassemble⟩ := assemble_of_finish hfinish
          exact ⟨replies, _, (htracks hok).allSettled hall, hassemble⟩
  | returned _ => cases hs
  | cancelled => cases hs

end CallState

/-- Whoever waits for a tree asks for nothing else. -/
theorem TreeWait.eq_of_mem_asks {x : Request × Nat} (h : x ∈ t.asks now n) :
    x = (t.request, n) := by
  unfold asks at h
  split at h
  · split at h
    · exact List.mem_singleton.mp h
    · cases h
  · cases h

/-- Whatever becomes of a branch, it stays at its place. -/
theorem map_index_set {branches : List Branch} {b index : Nat} {wait : Option TreeWait}
    (hb : branches[b]? = some ⟨index, wait⟩) (wait' : Option TreeWait) :
    (branches.set b ⟨index, wait'⟩).map Branch.index = branches.map Branch.index := by
  apply List.ext_getElem?
  intro m
  rw [List.getElem?_map, List.getElem?_map]
  by_cases hm : b = m
  · subst hm
    rw [List.getElem?_set_self (List.getElem?_eq_some_iff.mp hb).1, hb]
    rfl
  · rw [List.getElem?_set_ne hm]

/-- Only the branch itself has its place. -/
theorem eq_of_mem_set_self {branches : List Branch} {b index : Nat} {wait wait' : Option TreeWait}
    (hnodup : (branches.map Branch.index).Nodup) (hb : branches[b]? = some ⟨index, wait⟩)
    (ht : (⟨index, some t⟩ : Branch) ∈ branches.set b ⟨index, wait'⟩) : wait' = some t := by
  have hself : (⟨index, wait'⟩ : Branch) ∈ branches.set b ⟨index, wait'⟩ :=
    List.mem_set (List.getElem?_eq_some_iff.mp hb).1 _
  have hEq := List.inj_on_of_nodup_map (map_index_set hb wait' ▸ hnodup) ht hself rfl
  exact (congrArg Branch.wait hEq).symm

/-- What becomes of one branch does not concern those at other places. -/
theorem mem_set_of_ne {branches : List Branch} {b index : Nat} {wait wait' : Option TreeWait}
    (hb : branches[b]? = some ⟨index, wait⟩) (hne : n ≠ index) :
    (⟨n, some t⟩ : Branch) ∈ branches.set b ⟨index, wait'⟩ ↔
      (⟨n, some t⟩ : Branch) ∈ branches := by
  constructor
  · intro ht
    rcases List.mem_or_eq_of_mem_set ht with ht | ht
    · exact ht
    · exact absurd (congrArg Branch.index ht) hne
  · intro ht
    obtain ⟨j, hj⟩ := List.mem_iff_getElem?.mp ht
    have hjb : b ≠ j := by
      rintro rfl
      rw [hb] at hj
      cases hj
      exact hne rfl
    exact List.mem_of_getElem? ((List.getElem?_set_ne hjb).trans hj)

/-- The branch at place `b` of the list takes a step. -/
theorem Tracks.stepBranch {branches : List Branch} {b index : Nat} {deadline : Nat}
    (h : Tracks c.now ps requests replies branches)
    (hnodup : (branches.map Branch.index).Nodup)
    (hplaces : ∀ b ∈ branches, ∀ t, b.wait = some t → requests[b.index]? = some t.request)
    (hb : branches[b]? = some ⟨index, some t⟩) (hscript : l.client.route.lockScript = [])
    (hv : ∀ q ∈ requests, q.validate = .ok ())
    (hstep : t.step c deadline l = some (r, l')) (hok : r.failure? = none) :
    Tracks c.now
      (ps ++ l.authority.petitions (Route.date l.client.route.base c) (t.asks c.now index))
      requests (r.reply?.elim replies (replies.set index))
      (branches.set b ⟨index, r.wait?⟩) := by
  have hmem := List.mem_of_getElem? hb
  have hrequest : requests[index]? = some t.request := hplaces _ hmem t rfl
  obtain ⟨first, hfirst⟩ : ∃ first, replies[index]? = some first := by
    have hlt := (List.getElem?_eq_some_iff.mp hrequest).1
    exact ⟨_, List.getElem?_eq_getElem (h.length_eq ▸ hlt)⟩
  have hk := (h.knows hfirst hmem).step hscript (hv _ (List.mem_of_getElem? hrequest)) hstep
  have hne {m : Nat} (hm : m ≠ index) : ∀ p ∈ l.authority.petitions
      (Route.date l.client.route.base c) (t.asks c.now index), p.place ≠ m := by
    intro p hp hplace
    have hplace' := congrArg Prod.snd (TreeWait.eq_of_mem_asks (place_of_mem_petitions hp))
    exact hm (hplace.symm.trans hplace')
  have hreplies {m : Nat} (hm : m ≠ index) :
      (r.reply?.elim replies (replies.set index))[m]? = replies[m]? :=
    CallState.getElem?_elim_set_ne hm _ _
  constructor
  case length_eq => exact (CallState.length_elim_set _ _ _).trans h.length_eq
  case knows =>
    intro m y u hy hu
    by_cases hm : m = index
    · subst hm
      have hwait := eq_of_mem_set_self hnodup hb hu
      cases r with
      | goesOn t' =>
          cases hwait
          cases hy.symm.trans hfirst
          exact hk.2
      | ended result => cases hwait
    · rw [hreplies hm] at hy
      exact (h.knows hy ((mem_set_of_ne hb hm).mp hu)).append (hne hm)
  case settled =>
    intro m q y hq hy hnone
    by_cases hm : m = index
    · subst hm
      rw [hrequest] at hq
      cases hq
      cases r with
      | goesOn t' =>
          exact absurd (List.mem_set (List.getElem?_eq_some_iff.mp hb).1 _) (hnone t')
      | ended result =>
          rcases CallState.eq_of_getElem?_elim_set hy with hreply | ⟨hreply, hy⟩
          · rcases result with e | _ | reply
            · cases hok
            · cases hreply
            · cases hreply
              exact hk
          · cases hy.symm.trans hfirst
            rcases result with e | _ | reply
            · cases hok
            · exact hk
            · cases hreply
    · rw [hreplies hm] at hy
      refine (h.settled hq hy fun u hu => ?_).append (hne hm)
      exact hnone u ((mem_set_of_ne hb hm).mpr hu)

/-- A turn of whoever waits for one of the trees. -/
theorem CallState.Knows.stepBranch {k b : Nat} (h : s.Knows requests c.now ps)
    (hscript : l.client.route.lockScript = []) (hv : ∀ q ∈ requests, q.validate = .ok ())
    (hs : s.stepBranch c b l = some (s', l')) :
    s'.Knows requests c.now
      (ps ++ l.authority.petitions (Route.date l.client.route.base c)
        (s.asks c.now (.branch k b))) := by
  obtain ⟨_, _, _, _, _, branches, failure, index, t, r, rfl, hb, hstep, rfl⟩ :=
    stepBranch_eq_some hs
  cases h with
  | waits hnodup hplaces htracks =>
      simp only [asks, hb]
      refine .waits (map_index_set hb r.wait? ▸ hnodup)
        (inOrder_set hb hplaces r.wait? (request_of_wait? hstep)) fun hok => ?_
      obtain ⟨hnone, hok⟩ := Option.or_eq_none_iff.mp hok
      exact (htracks hnone).stepBranch hnodup hplaces hb hscript hv hstep hok

namespace CallState

theorem knows_cancel (h : s.Knows requests now ps) (l : Link) :
    (s.cancel l).1.Knows requests now ps := by
  cases h with
  | sends _ _ _ => exact .cancelled
  | receives _ _ _ => exact .cancelled
  | waits _ _ _ => exact .cancelled
  | returned hresult => exact .returned hresult
  | cancelled => exact .cancelled

/-! ## What a call asks for -/

theorem Knows.validate_of_mem_waits (h : s.Knows requests now ps)
    (hv : ∀ q ∈ requests, q.validate = .ok ()) (ht : t ∈ s.waits) :
    t.request.validate = .ok () := by
  cases h with
  | waits _ hplaces _ =>
      obtain ⟨b, hb, hwait⟩ := List.mem_filterMap.mp ht
      exact hv _ (List.mem_of_getElem? (hplaces b hb t hwait))
  | _ => cases ht

/-- A call asks for its own trees and knows their places. -/
theorem Knows.getElem?_of_mem_asks {task : Task} {x : Request × Nat}
    (h : s.Knows requests now ps) (hx : x ∈ s.asks now task) : requests[x.2]? = some x.1 := by
  cases h with
  | sends _ _ _ | receives _ _ _ =>
      unfold asks at hx
      split at hx
      · simp only at hx
        split at hx
        · exact List.mem_zipIdx_iff_getElem?.mp hx
        · cases hx
      · cases hx
      · cases hx
  | waits _ hplaces _ =>
      unfold asks at hx
      split at hx
      · cases hx
      · simp only at hx
        split at hx
        · next index t hb =>
            rw [TreeWait.eq_of_mem_asks hx]
            exact hplaces _ (List.mem_of_getElem? hb) t rfl
        · cases hx
      · cases hx
  | _ => cases task <;> cases hx

/-- The turn of the task that makes the call does to the authority what its petitions do. -/
theorem Knows.authority_of_step {k : Nat} (h : s.Knows requests now ps)
    (hv : ∀ q ∈ requests, q.validate = .ok ()) (hs : s.step c l = some (s', l')) :
    l'.authority = l.authority.enactAll
      ((l.authority.petitions (Route.date l.client.route.base c)
        (s.asks c.now (.call k))).map Petition.deed) := by
  cases h with
  | sends _ _ _ | receives _ _ _ => exact authority_of_step_asking hv hs
  | waits _ _ _ =>
      cases steps_of_step hs
      rfl
  | returned _ => cases hs
  | cancelled => cases hs

end CallState

end LeasedLocks
