import LeasedLocks.Proofs.Results

/-!
# Verdicts on requests

The authority judges each tree on its own and a client all trees of a call together, but
both judge the identifiers in the same way (`IsVerdict`). What a client accepts the authority
accepts as well, so a call that is not cut off from the authority never hears that its
request was refused: if it fails, either its client did not accept it, or no stream of
freed objects could be opened (`AgreesWithAuthority`).
-/

namespace LeasedLocks

/-- The identifier stands at place `n` of the list, and at one place before that. -/
structure IsSecondPlace (ids : List String) (n : Nat) (id : String) : Prop where
  getElem?_eq : ids[n]? = some id
  count_take : (ids.take n).count id = 1

/-- What a list of the identifiers that repeat is: each of them once, in the order of their
second places. -/
structure ListsRepeated (ids again : List String) : Prop where
  mem_iff : ∀ id, id ∈ again ↔ 2 ≤ ids.count id
  nodup : again.Nodup
  ordered : again.Pairwise fun id id' =>
    ∃ m n, m < n ∧ IsSecondPlace ids m id ∧ IsSecondPlace ids n id'

/-- The verdict on a list of identifiers. -/
structure IsVerdict (ids : List String) (verdict : Except Fault Unit) : Prop where
  /-- Accepted are the lists without blank and without repeated identifiers. -/
  ok_iff : verdict = .ok () ↔ (∀ id ∈ ids, isBlank id = false) ∧ ids.Nodup
  /-- A blank identifier is reported, whatever repeats. -/
  blank : (∃ id ∈ ids, isBlank id = true) → verdict = .error .blankId
  /-- Without a blank one the identifiers that repeat are. -/
  repeated : (∀ id ∈ ids, isBlank id = false) → ¬ ids.Nodup →
    ∃ again, verdict = .error (.repeatedIds again) ∧ ListsRepeated ids again

/-- What a client finds about these trees is what the authority finds, however long the client
is to wait. -/
structure AgreesWithAuthority (requests : List Request) (wait : Option Duration) : Prop where
  /-- A client judges the identifiers of all trees together. -/
  client : (∀ d, wait = some d → d.isZero = false) →
    IsVerdict (requests.flatMap Request.objectIds) (Client.validate requests wait)
  /-- What it accepts, every authority accepts at any date. -/
  accepted : Client.validate requests wait = .ok () → ∀ (a : Authority) (now : Millis),
    ∃ replies, (a.requestAll requests now).1 = .ok replies
  /-- If the call asks the authority directly, it fails with the verdict of its client or for
  want of a stream, whatever else happens, and is never told that the authority refused. -/
  faults : ∀ {w w' : World} {es : List World.Event} {i moment : Nat} {l : Link} {f : Fault},
    w.link? i = some l → l.client.route.lockScript = [] →
    World.Run (w.lock i requests wait) es w' →
    w'.calls[w.calls.length]? = some ⟨i, .returned moment (.locked (.error f))⟩ →
    (Client.validate requests wait = .error f ∨
      Client.validate requests wait = .ok () ∧ ∃ why, f = .noStream why) ∧
    ∀ why, f ≠ .remote why

variable {seen ids : List String} {id k : String} {n : Nat}

/-! ## Identifiers that repeat -/

theorem IsSecondPlace.eq {m : Nat} (h : IsSecondPlace ids m id) (h' : IsSecondPlace ids n id) :
    m = n := by
  have hlt {m n : Nat} (h : IsSecondPlace ids m id) (h' : IsSecondPlace ids n id) : ¬ m < n := by
    intro hmn
    have hsucc : (ids.take (m + 1)).count id = 2 := by
      rw [List.take_add_one, h.getElem?_eq, List.count_append, h.count_take]
      simp
    have hle : (ids.take (m + 1)).count id ≤ (ids.take n).count id :=
      (List.take_sublist_take_left hmn).count_le id
    rw [hsucc, h'.count_take] at hle
    omega
  exact Nat.le_antisymm (Nat.not_lt.mp (hlt h' h)) (Nat.not_lt.mp (hlt h h'))

/-- The identifier stands at place `n` of the list, and at one place before that, where
`seen` stands before the list. -/
structure IsSecondAfter (seen ids : List String) (n : Nat) (id : String) : Prop where
  getElem?_eq : ids[n]? = some id
  count_eq : seen.count id + (ids.take n).count id = 1

/-- What has been looked at stands before the rest of the list. -/
theorem IsSecondAfter.cons (h : IsSecondAfter (k :: seen) ids n id) :
    IsSecondAfter seen (k :: ids) (n + 1) id := by
  refine ⟨h.getElem?_eq, ?_⟩
  have hcount := h.count_eq
  rw [List.count_cons] at hcount
  rw [List.take_succ_cons, List.count_cons]
  omega

theorem exists_isSecondAfter (h : id ∈ repeatedAfter seen ids) :
    ∃ n, IsSecondAfter seen ids n id := by
  induction ids generalizing seen with
  | nil => cases h
  | cons k ids ih =>
      have hlater (h : id ∈ repeatedAfter (k :: seen) ids) :
          ∃ n, IsSecondAfter seen (k :: ids) n id := by
        obtain ⟨n, hn⟩ := ih h
        exact ⟨n + 1, hn.cons⟩
      simp only [repeatedAfter] at h
      split at h
      · next hone =>
          rcases List.mem_cons.mp h with rfl | h
          · exact ⟨0, rfl, hone⟩
          · exact hlater h
      · exact hlater h

/-- The list is gone through in order, so second places are found in order. -/
theorem pairwise_repeatedAfter (seen ids : List String) :
    (repeatedAfter seen ids).Pairwise fun id id' =>
      ∃ m n, m < n ∧ IsSecondAfter seen ids m id ∧ IsSecondAfter seen ids n id' := by
  induction ids generalizing seen with
  | nil => exact .nil
  | cons k ids ih =>
      have hlater := (ih (k :: seen)).imp
        (S := fun id id' => ∃ m n, m < n ∧ IsSecondAfter seen (k :: ids) m id ∧
          IsSecondAfter seen (k :: ids) n id')
        fun ⟨m, n, hmn, hm, hn⟩ => ⟨m + 1, n + 1, Nat.succ_lt_succ hmn, hm.cons, hn.cons⟩
      simp only [repeatedAfter]
      split
      · next hone =>
          refine .cons (fun id hid => ?_) hlater
          obtain ⟨n, hn⟩ := exists_isSecondAfter hid
          exact ⟨0, n + 1, Nat.succ_pos n, ⟨rfl, hone⟩, hn.cons⟩
      · exact hlater

/-- The identifiers that repeat are listed once each, in the order of their second places. -/
theorem listsRepeated_repeatedIds (ids : List String) : ListsRepeated ids (repeatedIds ids) := by
  have hplace {n : Nat} {id : String} (h : IsSecondAfter [] ids n id) : IsSecondPlace ids n id :=
    ⟨h.getElem?_eq, by simpa using h.count_eq⟩
  have hordered : (repeatedIds ids).Pairwise fun id id' =>
      ∃ m n, m < n ∧ IsSecondPlace ids m id ∧ IsSecondPlace ids n id' :=
    (pairwise_repeatedAfter [] ids).imp
      fun ⟨m, n, hmn, hm, hn⟩ => ⟨m, n, hmn, hplace hm, hplace hn⟩
  constructor
  case mem_iff => exact fun id => mem_repeatedIds
  case nodup =>
    -- no identifier has two second places
    refine hordered.imp fun ⟨m, n, hmn, hm, hn⟩ heq => ?_
    subst heq
    exact Nat.ne_of_lt hmn (hm.eq hn)
  case ordered => exact hordered

example : repeatedIds ["x", "y", "z", "y", "x", "y"] = ["y", "x"] := by decide

/-! ## Verdicts -/

theorem isVerdict_checkIds (ids : List String) : IsVerdict ids (checkIds ids) := by
  constructor
  case ok_iff => exact checkIds_eq_ok_iff
  case blank => exact checkIds_of_blank
  case repeated =>
    intro hnone hdup
    refine ⟨repeatedIds ids, ?_, listsRepeated_repeatedIds ids⟩
    rw [checkIds_of_not_blank hnone, verdictOnRepeated_of_ne_nil]
    exact fun hnil => hdup (repeatedIds_eq_nil_iff.mp hnil)

/-- A client judges all trees of a call together, unless it is to wait for no time. -/
theorem Client.validate_eq_checkIds {requests : List Request} {wait : Option Duration}
    (hwait : ∀ d, wait = some d → d.isZero = false) :
    Client.validate requests wait = checkIds (requests.flatMap Request.objectIds) := by
  cases wait with
  | none => rfl
  | some d => rw [Client.validate, hwait d rfl, if_neg Bool.false_ne_true]

/-- What is valid taken together is accepted as one message. -/
theorem Authority.exists_requestAll_of_checkIds {requests : List Request}
    (h : checkIds (requests.flatMap Request.objectIds) = .ok ()) (a : Authority) (now : Millis) :
    ∃ replies, (a.requestAll requests now).1 = .ok replies := by
  have hv : ∀ q ∈ requests, q.validate = .ok () := fun q hq => validate_of_checkIds h hq
  rw [requestAll, validateAll_eq_ok_iff.mpr hv]
  exact requestEach_fst_of_valid hv a now

/-- A client that rejects a call finds fault with the call, not with the other side. -/
theorem Client.ne_remote_of_validate {requests : List Request} {wait : Option Duration}
    {f : Fault} (h : Client.validate requests wait = .error f) (why : String) :
    f ≠ .remote why := by
  rintro rfl
  have hcheck (ids : List String) : checkIds ids ≠ .error (.remote why) := by
    rw [checkIds_eq]
    split
    · exact fun h => nomatch h
    · cases repeatedIds ids <;> exact fun h => nomatch h
  unfold Client.validate at h
  split at h
  · split at h
    · cases h
    · exact hcheck _ h
  · exact hcheck _ h

/-! ## What a call that is not cut off can fail with -/

variable {ps : List Petition} {reply : Reply} {requests : List Request} {wait : Option Duration}
  {hs : List Hearing} {h : Hearing} {f : Fault} {c : Clock} {l : Link} {t : TreeWait}
  {s : CallState}

/-- Replies that fit give no fault. -/
theorem Hearing.fault?_ne_some {replies : List Reply} {place : Option Nat}
    (hfits : LeasedLocks.Fits requests replies) :
    Hearing.fault? ⟨requests, place, .ok replies⟩ ≠ some f := by
  rw [Hearing.fault?_eq_none_iff.mpr ⟨replies, rfl, hfits⟩]
  exact Option.some_ne_none f ∘ Eq.symm

/-- Whoever waits for a tree and is not cut off hears of no fault but that of a stream. -/
theorem TreeWait.Knows.noStream_of_mem_hears {first : Reply} (hk : t.Knows c.now ps n first)
    (hh : h ∈ t.hears c n l) (hf : h.fault? = some f) : ∃ why, f = .noStream why := by
  cases hk with
  | refused hstage _ _ =>
      unfold hears at hh
      split at hh
      · split at hh
        · next e _ hj =>
            rw [List.mem_singleton.mp hh] at hf
            cases hf
            obtain ⟨_, _, hstep, -⟩ := Link.joinUnlocks_eq_some hj
            obtain ⟨⟨_, _, _⟩, hjoin, hEq⟩ := Option.map_eq_some_iff.mp hstep
            cases hEq
            exact (Joining.abandon_of_failed hjoin).2.1
        · cases hh
      · next hasking => exact absurd hasking (hstage _ _)
      · cases hh
  | sends hstage hleg hdue _ _ =>
      simp only [hears, hstage, Link.ask, Exchange.step_of_outbound hleg hdue,
        Option.map_some] at hh
      cases hh
  | receives hstage hleg hdue hsettled =>
      simp only [hears, hstage, Link.ask, Exchange.step_of_inbound hleg hdue,
        Option.map_some] at hh
      rw [List.mem_singleton.mp hh] at hf
      exact absurd hf (Hearing.fault?_ne_some (.cons hsettled.objectIds_eq .nil))

/-- The same holds for the call, as long as it has not failed. -/
theorem CallState.Knows.noStream_of_mem_hears {task : Task}
    (hk : s.Knows requests c.now ps) (hok : s.fault? = none) (hh : h ∈ s.hears c l task)
    (hf : h.fault? = some f) : ∃ why, f = .noStream why := by
  cases task with
  | call k =>
      cases hk with
      | sends hleg hdue _ =>
          simp only [hears, Link.ask, Exchange.step_of_outbound hleg hdue, Option.map_some] at hh
          cases hh
      | receives hleg hdue hall =>
          simp only [hears, Link.ask, Exchange.step_of_inbound hleg hdue, Option.map_some] at hh
          rw [List.mem_singleton.mp hh] at hf
          exact absurd hf (Hearing.fault?_ne_some hall.fits)
      | waits _ _ _ | returned _ | cancelled => cases hh
  | branch k b =>
      cases hk with
      | @waits _ _ _ replies branches _ _ hplaces htracks =>
          unfold hears at hh
          dsimp only at hh
          split at hh
          · next index t hb =>
              have hmem := List.mem_of_getElem? hb
              have hlt := (List.getElem?_eq_some_iff.mp (hplaces _ hmem t rfl)).1
              have hlength := (htracks hok).length_eq
              have hfirst := List.getElem?_eq_getElem (hlength ▸ hlt : index < replies.length)
              exact ((htracks hok).knows hfirst hmem).noStream_of_mem_hears hh hf
          · cases hh
      | sends _ _ _ | receives _ _ _ | returned _ | cancelled => cases hh
  | freedPump _ | requestPump _ | sweeper _ => cases hh

namespace World

variable {w w' : World} {e : Event} {es : List Event} {i k : Nat}

/-- With one event more, a call has heard of no fault but that of a stream. -/
theorem noStream_of_next (hl : w.link? i = some l) (hcall : w.calls[k]? = some ⟨i, s⟩)
    (hknows : s.Knows requests w.now ps) (hknowsReplies : s.KnowsReplies requests wait hs)
    (h : ∀ f, Hearing.firstFault? hs = some f → ∃ why, f = .noStream why)
    (hf : Hearing.firstFault? (hs ++ w.hearingsOf k e) = some f) : ∃ why, f = .noStream why := by
  rw [Hearing.firstFault?_append] at hf
  rcases Option.or_eq_some_iff.mp hf with hbefore | ⟨hnone, hnew⟩
  · exact h f hbefore
  obtain ⟨g, hg, hgf⟩ := List.exists_of_findSome?_eq_some hnew
  cases hturn : e.isTurnOf k with
  | false =>
      rw [hearingsOf_eq_nil hturn] at hg
      cases hg
  | true =>
      cases e with
      | turn task =>
          rw [hearingsOf_turn hcall hl (beq_iff_eq.mp hturn)] at hg
          rcases hknowsReplies.fault?_eq with rfl | hok
          · cases task <;> cases hg
          · exact hknows.noStream_of_mem_hears (hok.trans hnone) hg hgf
      | _ => cases hturn

/-- Through a whole run a call that is not cut off hears of no fault but that of a stream. -/
theorem noStream_of_run (hr : Run w es w') (hl : w.link? i = some l)
    (hscript : l.client.route.lockScript = [])
    (hids : checkIds (requests.flatMap Request.objectIds) = .ok ())
    (hcall : w.calls[k]? = some ⟨i, s⟩) (hknows : s.Knows requests w.now ps)
    (hknowsReplies : s.KnowsReplies requests wait hs)
    (h : ∀ f, Hearing.firstFault? hs = some f → ∃ why, f = .noStream why) :
    ∀ f, Hearing.firstFault? (hs ++ w.hearings k es) = some f → ∃ why, f = .noStream why := by
  have hv : ∀ q ∈ requests, q.validate = .ok () := fun q hq => validate_of_checkIds hids hq
  induction hr generalizing l s ps hs with
  | nil w =>
      rw [hearings, List.append_nil]
      exact h
  | @cons w w₁ w' e es hn hr ih =>
      obtain ⟨l₁, hl₁, hlasts⟩ := keepsClients_of_next hn i l hl
      obtain ⟨s₁, hcall₁, hhonest₁, -⟩ := knows_of_next hn hl hscript hv hcall hknows
      obtain ⟨s₂, hcall₂, hrecalls₁⟩ :=
        knowsReplies_of_next (checkIds_eq_ok_iff.mp hids).2 hn hcall hknowsReplies
      cases hcall₁.symm.trans hcall₂
      rw [hearings_cons hn, ← List.append_assoc]
      exact ih hl₁ (hlasts.lockScript_eq_nil hscript) hcall₁ hhonest₁ hrecalls₁
        fun f hf => noStream_of_next hl hcall hknows hknowsReplies h hf

/-- A valid call that is not cut off from the authority fails only if no stream of freed
objects can be opened. -/
theorem noStream_of_lock {moment : Nat} (hl : w.link? i = some l)
    (hscript : l.client.route.lockScript = []) (hv : Client.validate requests wait = .ok ())
    (hr : Run (w.lock i requests wait) es w')
    (hend : w'.calls[w.calls.length]? = some ⟨i, .returned moment (.locked (.error f))⟩) :
    ∃ why, f = .noStream why := by
  have hids := checkIds_of_validate hv
  have hnothing : ∀ f, Hearing.firstFault? [] = some f → ∃ why, f = .noStream why :=
    fun _ h => nomatch h
  obtain ⟨s₀, l₀, hcall, hl₀, -, -, hs₀⟩ := lock_cases hl requests wait
  obtain ⟨s₁, hcall₁, hknowsReplies⟩ := knowsReplies_of_lock hl hv
  cases hcall.symm.trans hcall₁
  rcases hs₀ with ⟨result, rfl, -⟩ | ⟨-, rfl⟩
  · -- without trees there is nothing to hear
    have hresult := over_of_run hr hcall rfl
    rw [hend] at hresult
    cases hresult
    cases (hknowsReplies.decidedByReplies (checkIds_eq_ok_iff.mp hids).2).reports _ _ rfl with
    | fault hfirst => cases hfirst
  · have hscript₀ := (lasts_lock hl hl₀).lockScript_eq_nil hscript
    have hnow : (w.lock i requests wait).now = w.now := now_start _
    have hknows : CallState.Knows requests (w.lock i requests wait).now []
        (.locking requests wait (.asking
          (.start (l.client.route.lockScript.head?.getD {}) l.client.settings.requestTimeout
            w.now))) := by
      rw [hscript]
      exact .sends rfl (Nat.le_of_eq hnow.symm) rfl
    have hstream := noStream_of_run hr hl₀ hscript₀ hids hcall hknows hknowsReplies hnothing
    have hnodup := (checkIds_eq_ok_iff.mp hids).2
    obtain ⟨s, hs, hrecalls'⟩ := knowsReplies_of_run hnodup hr hcall hknowsReplies
    cases hs.symm.trans hend
    cases (hrecalls'.decidedByReplies hnodup).reports moment _ rfl with
    | fault hfirst => exact hstream f hfirst

/-- A call that its client does not accept fails with the verdict of the client. -/
theorem eq_of_validate_eq_error {moment : Nat} {e : Fault} (hl : w.link? i = some l)
    (hv : Client.validate requests wait = .error e) (hr : Run (w.lock i requests wait) es w')
    (hend : w'.calls[w.calls.length]? = some ⟨i, .returned moment (.locked (.error f))⟩) :
    f = e := by
  have hcall : (w.lock i requests wait).calls[w.calls.length]? =
      some ⟨i, .returned w.now (.locked (.error e))⟩ := by
    unfold lock start
    simp only [hl]
    unfold CallState.lock
    simp only [hv]
    exact List.getElem?_concat_length
  have hresult := over_of_run hr hcall rfl
  rw [hend] at hresult
  cases hresult
  rfl

/-- Every tree is judged by its identifiers, and a client that judges all trees of a call
together agrees with the authority. -/
theorem verdicts_agree : (∀ r : Request, IsVerdict r.objectIds r.validate) ∧
    ∀ (requests : List Request) (wait : Option Duration), AgreesWithAuthority requests wait := by
  refine ⟨fun r => isVerdict_checkIds r.objectIds, fun requests wait => ?_⟩
  constructor
  case client =>
    intro hwait
    rw [Client.validate_eq_checkIds hwait]
    exact isVerdict_checkIds _
  case accepted =>
    exact fun hv => Authority.exists_requestAll_of_checkIds (checkIds_of_validate hv)
  case faults =>
    intro w w' es i moment l f hl hscript hr hend
    cases hv : Client.validate requests wait with
    | error e =>
        obtain rfl := eq_of_validate_eq_error hl hv hr hend
        exact ⟨.inl rfl, Client.ne_remote_of_validate hv⟩
    | ok =>
        obtain ⟨why, rfl⟩ := noStream_of_lock hl hscript hv hr hend
        exact ⟨.inr ⟨rfl, why, rfl⟩, fun _ h => nomatch h⟩

/-- Somebody holds an object, and a client asks for it that cannot open a stream. -/
def ofDeaf : World where
  calendar := 0
  authority := (Authority.ofTable {} ∅).enact (.request (Request.of "x") 0)
  clients := [{ source := { plan := { failure := some "refused" } } }]

/-- The call is refused its tree, and the wait for it breaks off when the stream is opened. -/
def heldInSilence : List Event :=
  [.turn (.call 0), .turn (.call 0), .turn (.branch 0 0), .turn (.branch 0 0),
    .turn (.branch 0 0), .turn (.call 0)]

theorem agreesWithAuthority_of_heldInSilence : ∃ w' f,
    Run (ofDeaf.lock 0 [Request.of "x"] (some (.ofSeconds 5))) heldInSilence w' ∧
      w'.calls[0]? = some ⟨0, .returned 0 (.locked (.error f))⟩ ∧ ∃ why, f = .noStream why := by
  have hruns : ∃ w' ∈ (ofDeaf.lock 0 [Request.of "x"] (some (.ofSeconds 5))).follow heldInSilence,
      ∃ call ∈ w'.calls[0]?, call.client = 0 ∧ (∃ x ∈ call.state.result?, x.1 = 0) ∧
        ∃ f ∈ call.state.fault?, True := by
    decide +kernel
  obtain ⟨w', hw', ⟨_, s⟩, hcall, rfl, ⟨⟨_, result⟩, hresult, rfl⟩, f, hf, -⟩ := hruns
  obtain rfl := CallState.eq_of_fault? hresult hf
  obtain ⟨l, hl⟩ : ∃ l, ofDeaf.link? 0 = some l := exists_link?_of_lt Nat.one_pos
  have hscript : l.client.route.lockScript = [] := by
    have hclient : ofDeaf.clients[0]? = some l.client := (link?_eq_some_iff.mp hl).1
    rw [← Option.some.inj hclient]
  have hv : Client.validate [Request.of "x"] (some (.ofSeconds 5)) = .ok () := by decide +kernel
  obtain ⟨hinvalid | ⟨-, hstream⟩, -⟩ := (verdicts_agree.2 _ _).faults hl hscript
    (run_of_follow hw') hcall
  · cases hv.symm.trans hinvalid
  · exact ⟨w', f, run_of_follow hw', hcall, hstream⟩

end World

end LeasedLocks
