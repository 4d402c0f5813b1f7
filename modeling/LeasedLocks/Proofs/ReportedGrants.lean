import LeasedLocks.Proofs.Outcome
import LeasedLocks.Proofs.Settling

/-!
# Outcomes tell the truth

What a call reports of its trees is what the authority made of its petitions: a tree is
reported as granted exactly if one of its petitions was granted, and then with the
records that this petition filed.
-/

namespace LeasedLocks

/-- What an outcome says of the tree `r` at place `n` is what the petitions of the call
came to. -/
structure Outcome.ReportsGrants (o : Outcome) (ps : List Petition) (n : Nat) (r : Request) :
    Prop where
  /-- The tree is granted to the call at most once. -/
  once : (Petition.grants ps n).length ≤ 1
  /-- Either all nodes are reported as granted or none. -/
  granted_iff : ∀ q : Request, q ∈ r.nodes → ∃ s, o.get? q.objectId = some s ∧
    (s.isGranted = true ↔ Petition.grants ps n ≠ [])
  /-- What is reported as granted is what the grant filed. -/
  filed : ∀ p ∈ Petition.grants ps n, p.request = r ∧ ∀ q : Request, q ∈ r.nodes →
    p.tableBefore.get? q.objectId = none ∧ ∃ h s, p.tableAfter.get? q.objectId = some h ∧
      h.Records q p.before.defaultLease p.date ∧ o.get? q.objectId = some s ∧
      s.holder = h.holder ∧ s.autoUnlockAt = some h.autoUnlockAt
  /-- For what is not reported as granted, the call filed nothing. -/
  untouched : Petition.grants ps n = [] → ∀ p ∈ ps, ∀ id ∈ r.objectIds,
    p.tableAfter.get? id = p.tableBefore.get? id

variable {ps : List Petition} {p : Petition} {n m : Nat} {q r : Request} {reply : Reply}
  {requests : List Request} {replies : List Reply} {o : Outcome} {waited : Duration}
  {w w' : World} {e : World.Event} {es : List World.Event} {i k : Nat} {l : Link} {s : CallState}
  {id : String}

/-! ## Valid requests -/

theorem checkIds_of_validate {wait : Option Duration} (h : Client.validate requests wait = .ok ()) :
    checkIds (requests.flatMap Request.objectIds) = .ok () := by
  unfold Client.validate at h
  split at h
  · split at h
    · cases h
    · exact h
  · exact h

/-- Every one of several trees is valid if no identifier is blank or repeats in them. -/
theorem validate_of_checkIds (h : checkIds (requests.flatMap Request.objectIds) = .ok ())
    (hq : q ∈ requests) : q.validate = .ok () := by
  obtain ⟨hblank, hnodup⟩ := checkIds_eq_ok_iff.mp h
  refine checkIds_eq_ok_iff.mpr ⟨fun id hid => hblank id (List.mem_flatMap.mpr ⟨q, hq, hid⟩), ?_⟩
  exact (List.nodup_flatMap.mp hnodup).1 q hq

/-- The trees have no objects in common. -/
theorem not_mem_of_ne (h : (requests.flatMap Request.objectIds).Nodup) (hne : m ≠ n)
    (hq : requests[m]? = some q) (hr : requests[n]? = some r) (hid : id ∈ r.objectIds) :
    id ∉ q.objectIds := by
  have hdisjoint := (List.nodup_flatMap.mp h).2
  obtain ⟨hm, rfl⟩ := List.getElem?_eq_some_iff.mp hq
  obtain ⟨hn, rfl⟩ := List.getElem?_eq_some_iff.mp hr
  rw [List.pairwise_iff_getElem] at hdisjoint
  rcases Nat.lt_or_gt_of_ne hne with hlt | hgt
  · exact fun hid' => hdisjoint m n hm hn hlt hid' hid
  · exact fun hid' => hdisjoint n m hn hm hgt hid hid'

/-! ## Petitions and the table -/

namespace Petition

theorem AnsweredWith.answered (h : p.AnsweredWith n r reply) :
    p.tableBefore.Answered r p.before.defaultLease p.date reply p.tableAfter := by
  obtain ⟨b, hreq⟩ := h.exists_request
  have hafter : p.tableAfter = b.table := by
    rw [tableAfter, deed, h.request_eq, Authority.enact_request_of_ok hreq]
  rw [hafter]
  exact (Authority.responded_of_request hreq).answered

/-- A petition for a valid tree is answered. -/
theorem exists_answeredWith_self (hv : p.request.validate = .ok ()) :
    ∃ reply, p.AnsweredWith p.place p.request reply := by
  obtain ⟨reply, b, hreq⟩ := Authority.exists_request_of_valid hv p.before p.date
  exact ⟨reply, answeredWith_of_request p.place hreq⟩

/-- A petition files nothing for objects of other trees, and if it is refused for none. -/
theorem AnsweredWith.get?_tableAfter (h : p.AnsweredWith n r reply)
    (hid : id ∉ r.objectIds ∨ reply.isGranted = false) :
    p.tableAfter.get? id = p.tableBefore.get? id := by
  cases hgranted : reply.isGranted with
  | true =>
      rw [hgranted] at hid
      exact (h.answered.granted hgranted).others id (hid.resolve_right fun h => nomatch h)
  | false => rw [(h.answered.refused hgranted).unchanged]

end Petition

/-! ## Outcomes of settled trees -/

/-- Each node of a tree has its place in the reply. -/
theorem exists_mem_zip_nodes (h : reply.objectIds = r.objectIds) (hq : q ∈ r.nodes) :
    ∃ y : Reply, (q, y) ∈ r.nodes.zip reply.nodes := by
  have hlength : reply.nodes.length = r.nodes.length := by
    have hlen := congrArg List.length h
    simpa [Reply.objectIds, Request.objectIds, Tree.labels] using hlen
  obtain ⟨j, hj⟩ := List.mem_iff_getElem?.mp hq
  have hlt := (List.getElem?_eq_some_iff.mp hj).1
  have hy := List.getElem?_eq_getElem (hlength ▸ hlt)
  exact ⟨_, List.mem_of_getElem? (List.getElem?_zip_eq_some.mpr ⟨hj, hy⟩)⟩

/-- What an outcome says of a node is what the reply says at its place. -/
theorem exists_status_of_mem_nodes
    (hids : Fits requests replies)
    (hassemble : Outcome.assemble requests replies waited = .ok o)
    (hnodup : (requests.flatMap Request.objectIds).Nodup) (hr : requests[n]? = some r)
    (hreply : replies[n]? = some reply) (hq : q ∈ r.nodes) :
    ∃ y : Reply, (q, y) ∈ r.nodes.zip reply.nodes ∧
      o.get? q.objectId = some (.ofAnswer q.label y.label) := by
  have hzip : (r, reply) ∈ requests.zip replies :=
    List.mem_of_getElem? (List.getElem?_zip_eq_some.mpr ⟨hr, hreply⟩)
  obtain ⟨y, hy⟩ := exists_mem_zip_nodes (hids.objectIds_eq hzip) hq
  refine ⟨y, hy, Outcome.get?_assemble hnodup hids hassemble hzip ?_⟩
  rw [Tree.labels, Tree.labels, List.zip_map]
  exact List.mem_map_of_mem hy

/-- An outcome of settled trees tells of each what became of it. -/
theorem Outcome.reportsGrants_of_settled (h : AllSettled ps requests replies)
    (hassemble : Outcome.assemble requests replies waited = .ok o)
    (hids : checkIds (requests.flatMap Request.objectIds) = .ok ())
    (hasked : ∀ p ∈ ps, requests[p.place]? = some p.request) (hr : requests[n]? = some r) :
    o.ReportsGrants ps n r := by
  have hnodup := (checkIds_eq_ok_iff.mp hids).2
  obtain ⟨reply, hreply⟩ : ∃ reply, replies[n]? = some reply := by
    have hlt := (List.getElem?_eq_some_iff.mp hr).1
    exact ⟨_, List.getElem?_eq_getElem (h.length_eq ▸ hlt)⟩
  obtain ⟨p, hp, hanswer, hgrants⟩ := h.settled hr hreply
  have hanswered := hanswer.answered
  have hnode {q : Request} (hq : q ∈ r.nodes) :=
    exists_status_of_mem_nodes h.fits hassemble hnodup hr hreply hq
  have hgranted_iff : reply.isGranted = true ↔ Petition.grants ps n ≠ [] := by
    rw [hgrants]
    split <;> simp_all
  constructor
  case once =>
    rw [hgrants]
    split
    · exact Nat.le_refl 1
    · exact Nat.zero_le 1
  case granted_iff =>
    intro q hq
    obtain ⟨y, hy, hget⟩ := hnode hq
    refine ⟨_, hget, ?_⟩
    rw [← hgranted_iff]
    have hmem : y.label ∈ reply.labels := List.mem_map_of_mem (List.of_mem_zip hy).2
    exact (hanswered.granted_iff _ hmem).trans
      (hanswered.granted_iff _ (Tree.label_mem_labels_self reply)).symm
  case filed =>
    intro p' hp'
    rw [hgrants] at hp'
    split at hp'
    · next hgranted =>
        obtain rfl := List.mem_singleton.mp hp'
        refine ⟨hanswer.request_eq, fun q hq => ⟨?_, ?_⟩⟩
        · exact hanswered.free_of_granted hgranted _ (Request.mem_objectIds_iff.mpr ⟨q, hq, rfl⟩)
        · obtain ⟨y, hy, hget⟩ := hnode hq
          obtain ⟨g, hg, hrecords⟩ := (hanswered.granted hgranted).records q hq
          obtain ⟨hholder, g', hg', hdeadline⟩ := (hanswered.granted hgranted).reports q y hy
          rw [hg] at hg'
          cases hg'
          exact ⟨g, _, hg, hrecords, hget, hholder.trans hrecords.holder_eq.symm, hdeadline⟩
    · cases hp'
  case untouched =>
    intro hnone p' hp' id hid
    have hrequest := hasked p' hp'
    have hv := validate_of_checkIds hids (List.mem_of_getElem? hrequest)
    obtain ⟨reply', hbrought'⟩ := Petition.exists_answeredWith_self hv
    refine hbrought'.get?_tableAfter ?_
    by_cases hplace : p'.place = n
    · refine .inr (Bool.eq_false_iff.mpr fun hgranted => ?_)
      have hmem : p' ∈ Petition.grants ps n := by
        refine List.mem_filter.mpr ⟨hp', ?_⟩
        rw [hbrought'.isGranted_eq, hgranted, hplace, beq_self_eq_true]
        rfl
      rw [hnone] at hmem
      cases hmem
    · exact .inl (not_mem_of_ne hnodup hplace hrequest hr hid)

/-! ## Runs -/

namespace World

/-- With one event more, a call still knows what became of its trees. -/
theorem knows_of_next (hn : w.next e = some w') (hl : w.link? i = some l)
    (hscript : l.client.route.lockScript = []) (hv : ∀ q ∈ requests, q.validate = .ok ())
    (hcall : w.calls[k]? = some ⟨i, s⟩) (h : s.Knows requests w.now ps) :
    ∃ s', w'.calls[k]? = some ⟨i, s'⟩ ∧
      s'.Knows requests w'.now (ps ++ w.petitionsOf k e) ∧
      (e.isTurnOf k = true →
        w'.authority = w.authority.enactAll ((w.petitionsOf k e).map Petition.deed)) ∧
      ∀ p ∈ w.petitionsOf k e, requests[p.place]? = some p.request := by
  have hnow := (clientsStep_of_next hn).now_le
  have hplaces {task : Task} : ∀ p ∈ l.authority.petitions
      (Route.date l.client.route.base w.clock) (s.asks w.now task),
      requests[p.place]? = some p.request :=
    fun p hp => h.getElem?_of_mem_asks (place_of_mem_petitions hp)
  rcases exists_callStep_of_next hn hcall with
    ⟨hsame, hturn⟩ | ⟨m, s', m', hm, hb, -, hs', -, hauthority⟩
  · -- somebody else's event
    rw [petitionsOf_eq_nil hturn, List.append_nil, hturn]
    exact ⟨s, hsame, h.mono hnow, (fun h => nomatch h), fun p hp => nomatch hp⟩
  · rw [hl] at hm
    cases hm
    rw [← (link?_eq_some_iff.mp hl).2]
    refine ⟨s', hs', ?_⟩
    cases hb with
    | call hstep =>
        rw [petitionsOf_turn hcall hl rfl]
        exact ⟨(h.step hv hstep).mono hnow,
          fun _ => hauthority.trans (h.authority_of_step hv hstep), hplaces⟩
    | branch hstep =>
        rw [petitionsOf_turn hcall hl rfl]
        refine ⟨(h.stepBranch hscript hv hstep).mono hnow, fun _ => ?_, hplaces⟩
        exact hauthority.trans (CallState.authority_of_stepBranch
          (fun t ht => h.validate_of_mem_waits hv ht) hstep)
    | cancel =>
        rw [petitionsOf_eq_nil rfl, List.append_nil]
        exact ⟨(CallState.knows_cancel h l).mono hnow, (fun h => nomatch h),
          fun p hp => nomatch hp⟩

/-- Through a whole run a call knows what became of its trees. -/
theorem knows_of_run (hr : Run w es w') (hl : w.link? i = some l)
    (hscript : l.client.route.lockScript = []) (hv : ∀ q ∈ requests, q.validate = .ok ())
    (hcall : w.calls[k]? = some ⟨i, s⟩) (h : s.Knows requests w.now ps) :
    ∃ s', w'.calls[k]? = some ⟨i, s'⟩ ∧ s'.Knows requests w'.now (ps ++ w.petitions k es) ∧
      w.OnlyPetitions k es ∧ ∀ p ∈ w.petitions k es, requests[p.place]? = some p.request := by
  induction hr generalizing l ps s with
  | nil w =>
      refine ⟨s, hcall, ?_, trivial, fun p hp => nomatch hp⟩
      rw [petitions, List.append_nil]
      exact h
  | @cons w w₁ w' e es hn hr ih =>
      obtain ⟨l₁, hl₁, hlasts⟩ := keepsClients_of_next hn i l hl
      obtain ⟨s₁, hcall₁, h₁, hauthority, hasked₁⟩ := knows_of_next hn hl hscript hv hcall h
      obtain ⟨s', hs', h', honly, hasked⟩ :=
        ih hl₁ (hlasts.lockScript_eq_nil hscript) hcall₁ h₁
      rw [petitions_cons hn, ← List.append_assoc]
      refine ⟨s', hs', h', ?_, fun p hp => ?_⟩
      · intro w₂ hn₂
        rw [hn] at hn₂
        cases hn₂
        exact ⟨hauthority, honly⟩
      · rcases List.mem_append.mp hp with hp | hp
        · exact hasked₁ p hp
        · exact hasked p hp

/-- The outcome of a call whose messages are answered at once tells the truth about the
table, whatever else happens to the authority and to the other clients. -/
theorem reportsGrants_of_lock {wait : Option Duration} {moment : Nat} (hl : w.link? i = some l)
    (hscript : l.client.route.lockScript = []) (hr : Run (w.lock i requests wait) es w')
    (hend : w'.calls[w.calls.length]? = some ⟨i, .returned moment (.locked (.ok o))⟩) :
    (w.lock i requests wait).OnlyPetitions w.calls.length es ∧
      (∀ p ∈ (w.lock i requests wait).petitions w.calls.length es,
        requests[p.place]? = some p.request) ∧
      ∀ {n : Nat} {r : Request}, requests[n]? = some r →
        o.ReportsGrants ((w.lock i requests wait).petitions w.calls.length es) n r := by
  obtain ⟨s₀, l₀, hcall, hl₀, -, -, hs₀⟩ := lock_cases hl requests wait
  have hscript₀ := (lasts_lock hl hl₀).lockScript_eq_nil hscript
  have hnow : (w.lock i requests wait).now = w.now := now_start _
  obtain ⟨hids, hknows⟩ : checkIds (requests.flatMap Request.objectIds) = .ok () ∧
      s₀.Knows requests (w.lock i requests wait).now [] := by
    rcases hs₀ with ⟨result, rfl, hempty⟩ | ⟨hvalid, rfl⟩
    · have hresult := over_of_run hr hcall rfl
      rw [hend] at hresult
      cases hresult
      obtain ⟨rfl, rfl⟩ := hempty o rfl
      refine ⟨by decide, .returned fun o ho => ?_⟩
      cases ho
      exact ⟨[], .zero, ⟨rfl, fun hq => nomatch hq⟩, rfl⟩
    · refine ⟨checkIds_of_validate hvalid, ?_⟩
      rw [hscript]
      exact .sends rfl (Nat.le_of_eq hnow.symm) rfl
  have hv : ∀ q ∈ requests, q.validate = .ok () := fun q hq => validate_of_checkIds hids hq
  obtain ⟨s', hs', hhonest', honly, hasked⟩ := knows_of_run hr hl₀ hscript₀ hv hcall hknows
  refine ⟨honly, hasked, fun {n r} hr => ?_⟩
  rw [hend] at hs'
  cases hs'
  cases hhonest' with
  | returned hresult =>
      obtain ⟨replies, waited, hall, hassemble⟩ := hresult o rfl
      rw [List.nil_append] at hall
      exact Outcome.reportsGrants_of_settled hall hassemble hids hasked hr

/-- Somebody holds an object, and a client is there that may ask for it. -/
def ofHolder : World where
  calendar := 0
  authority := (Authority.ofTable {} ∅).enact (.request (Request.of "x") 0)
  clients := [{}]

theorem isNew_ofHolder : IsNew ofHolder :=
  ⟨rfl, fun _ hclient => List.mem_singleton.mp hclient ▸ rfl⟩

theorem exists_link?_ofHolder : ∃ l, ofHolder.link? 0 = some l ∧ l.client = {} := by
  obtain ⟨l, hl⟩ : ∃ l, ofHolder.link? 0 = some l := exists_link?_of_lt Nat.one_pos
  have hclient : some {} = some l.client := (link?_eq_some_iff.mp hl).1
  exact ⟨l, hl, (Option.some.inj hclient).symm⟩

/-- Of two trees one is refused twice, and granted when its holder gives it back. -/
def grantedLate : List Event :=
  [.turn (.call 0), .turn (.call 0)] ++ List.replicate 5 (.turn (.branch 0 0)) ++
    [.visit (.release "x" false), .turn (.freedPump 0)] ++
    List.replicate 5 (.turn (.branch 0 0)) ++ [.turn (.call 0)]

theorem reportsGrants_of_grantedLate : ∃ w' o,
    let w := ofHolder.lock 0 [Request.of "x", Request.of "y"] (some (.ofSeconds 5))
    Run w grantedLate w' ∧ w'.calls[0]? = some ⟨0, .returned 0 (.locked (.ok o))⟩ ∧
      (w.petitions 0 grantedLate).map (fun p => (p.place, p.isGranted)) =
        [(0, false), (1, true), (0, false), (0, true)] ∧
      o.ReportsGrants (w.petitions 0 grantedLate) 0 (Request.of "x") := by
  have hend : ((ofHolder.lock 0 [Request.of "x", Request.of "y"] (some (.ofSeconds 5))).follow
      grantedLate).map (fun w => w.calls[0]?.bind fun call =>
        call.state.outcome?.map fun x => (call.client, x.1)) = some (some (0, 0)) := by
    decide +kernel
  have hpetitions : ((ofHolder.lock 0 [Request.of "x", Request.of "y"]
      (some (.ofSeconds 5))).petitions 0 grantedLate).map (fun p => (p.place, p.isGranted)) =
        [(0, false), (1, true), (0, false), (0, true)] := by
    decide +kernel
  obtain ⟨w', hw, hend⟩ := Option.map_eq_some_iff.mp hend
  obtain ⟨⟨client, s⟩, hcall, hend⟩ := Option.bind_eq_some_iff.mp hend
  obtain ⟨⟨moment, o⟩, hreturned, hmoment⟩ := Option.map_eq_some_iff.mp hend
  cases hmoment
  obtain rfl := CallState.eq_of_outcome? hreturned
  have hrun := run_of_follow hw
  obtain ⟨l, hl, hclient⟩ := exists_link?_ofHolder
  have hscript : l.client.route.lockScript = [] := by rw [hclient]
  obtain ⟨-, -, hreports⟩ := reportsGrants_of_lock hl hscript hrun hcall
  exact ⟨w', o, hrun, hcall, hpetitions, hreports rfl⟩

end World

end LeasedLocks
