import LeasedLocks.Http.Service
import LeasedLocks.Proofs.History

/-!
# Several trees in one message

A message that asks for several trees is looked at as a whole before any of them is
answered. If all of them are valid, the expired locks are taken away once and the trees
are answered one after the other (`Table.processEach`): no tree of the message finds a
record that has expired at its date, not even one that was filed for a tree before it
(`Table.NoneExpired`).
-/

namespace LeasedLocks

namespace Table

/-- Answers requests one after the other, each on the table that those before it have
left, up to the first that is not valid. -/
def processEach (t : Table) (default now : Millis) :
    List Request → Except Fault (List Reply) × Table
  | [] => (.ok [], t)
  | r :: rs =>
    match t.serve r default now with
    | (.error e, t) => (.error e, t)
    | (.ok reply, t) =>
      let (rest, t) := t.processEach default now rs
      (rest.map (reply :: ·), t)

/-- No record has expired at this date. -/
def NoneExpired (t : Table) (now : Millis) : Prop :=
  ∀ id h, t.get? id = some h → h.isExpired now = false

variable {t t' : Table} {default now : Millis} {r : Request} {reply : Reply}

theorem noneExpired_sweep (t : Table) (now : Millis) : (t.sweep now).2.NoneExpired now := by
  intro id h e
  rw [get?_sweep, Option.filter_eq_some_iff] at e
  simpa using e.2

/-- Nothing is taken out of a table in which nothing has expired. -/
theorem NoneExpired.sweep_eq (h : t.NoneExpired now) : t.sweep now = ([], t) := by
  apply Prod.ext
  · apply List.eq_nil_iff_forall_not_mem.mpr
    intro id hid
    obtain ⟨g, e, hexp⟩ := mem_sweep_iff.mp hid
    rw [h id g e] at hexp
    cases hexp
  · apply ext_get?
    intro id
    rw [get?_sweep]
    cases e : t.get? id with
    | none => rfl
    | some g => simp [h id g e]

/-- What a request files has not expired at its date, however short its lease. -/
theorem NoneExpired.answered (h : t.NoneExpired now) (ha : t.Answered r default now reply t') :
    t'.NoneExpired now := by
  intro id g e
  apply Bool.eq_false_iff.mpr
  intro hexp
  cases hold : t.get? id with
  | none => exact ha.not_expired_of_new hold e (Holding.isExpired_iff.mp hexp)
  | some k =>
      obtain rfl := Option.some.inj ((ha.get?_of_get? hold).symm.trans e)
      rw [h id k hold] at hexp
      cases hexp

end Table

/-- There is no objection to a message exactly if all of its trees are valid. -/
theorem requestsObjection_eq_none_iff {rs : List Request} :
    requestsObjection rs = none ↔ ∀ q ∈ rs, q.validate = .ok () := by
  simp only [requestsObjection, Option.map_eq_none_iff, firstObjection_eq_none_iff]
  apply forall₂_congr
  intro q _
  cases q.validate <;> simp

namespace Authority

variable {a : Authority} {rs pre post : List Request} {r : Request} {now : Millis} {e : Fault}

/-! ## The screening of a message -/

/-- The fault of a message is that of its first tree that is not valid. -/
theorem validateAll_eq_error_iff : validateAll rs = .error e ↔
    ∃ pre r post, rs = pre ++ r :: post ∧ (∀ q ∈ pre, q.validate = .ok ()) ∧
      r.validate = .error e := by
  induction rs with
  | nil => simp [validateAll]
  | cons r rs ih =>
      cases hr : r.validate with
      | error f =>
          simp only [validateAll, hr, Except.error.injEq]
          constructor
          · rintro rfl
            exact ⟨[], r, rs, rfl, List.forall_mem_nil _, hr⟩
          · rintro ⟨_ | ⟨q, pre⟩, s, post, heq, hpre, hs⟩
            · obtain ⟨rfl, -⟩ := List.cons.inj heq
              exact Except.error.inj (hr.symm.trans hs)
            · -- the tree in front is valid in such a list
              obtain ⟨rfl, -⟩ := List.cons.inj heq
              have hvalid := hpre r List.mem_cons_self
              rw [hr] at hvalid
              cases hvalid
      | ok u =>
          simp only [validateAll, hr, ih]
          constructor
          · rintro ⟨pre, s, post, rfl, hpre, hs⟩
            exact ⟨r :: pre, s, post, rfl, List.forall_mem_cons.mpr ⟨hr, hpre⟩, hs⟩
          · rintro ⟨_ | ⟨q, pre⟩, s, post, heq, hpre, hs⟩
            · obtain ⟨rfl, -⟩ := List.cons.inj heq
              rw [hr] at hs
              cases hs
            · obtain ⟨rfl, rfl⟩ := List.cons.inj heq
              exact ⟨pre, s, post, rfl, (List.forall_mem_cons.mp hpre).2, hs⟩

/-! ## The answers to valid trees -/

/-- The sweep that a request makes does nothing where nothing has expired. -/
theorem sweep_of_noneExpired (h : a.table.NoneExpired now) : a.sweep now = ([], a) := by
  rw [sweep, h.sweep_eq]
  rfl

/-- Where nothing has expired, a request is answered on the table as it is. -/
theorem process_of_request {reply : Reply} {b : Authority} (hunexpired : a.table.NoneExpired now)
    (hr : a.request r now = .ok (reply, b)) :
    a.table.process r a.defaultLease now = .ok (reply, b.table) ∧
      b.defaultLease = a.defaultLease ∧ b.table.NoneExpired now := by
  have hv := validate_of_request hr
  have hanswered := (responded_of_request hr).answered
  rw [sweep_of_noneExpired hunexpired] at hanswered
  have hcurrent' := hunexpired.answered hanswered
  rw [request_of_valid a now hv, sweep_of_noneExpired hunexpired] at hr
  cases hr
  exact ⟨Table.serve_eq_ok_iff.mp (Table.serve_of_valid hv _ _ _), rfl, hcurrent'⟩

/-- Where nothing has expired, valid trees are answered one after the other on the table
as it is. -/
theorem requestEach_of_noneExpired (hunexpired : a.table.NoneExpired now)
    (hv : ∀ q ∈ rs, q.validate = .ok ()) :
    ∃ replies, (a.requestEach now rs).1 = .ok replies ∧ replies.length = rs.length ∧
      a.table.processEach a.defaultLease now rs =
        (.ok replies, (a.requestEach now rs).2.table) ∧
      (a.requestEach now rs).2.table.NoneExpired now := by
  induction rs generalizing a with
  | nil => exact ⟨[], rfl, rfl, rfl, hunexpired⟩
  | cons r rs ih =>
      obtain ⟨hr, hrest⟩ := List.forall_mem_cons.mp hv
      obtain ⟨reply, b, hreq⟩ := exists_request_of_valid hr a now
      obtain ⟨hprocess, hlease, hb⟩ := process_of_request hunexpired hreq
      obtain ⟨replies, hreplies, hlength, heach, hlast⟩ := ih hb hrest
      rw [hlease] at heach
      simp only [requestEach, serve_eq_ok_iff.mpr hreq, hreplies, Table.processEach,
        Table.serve_eq_ok_iff.mpr hprocess, heach]
      exact ⟨reply :: replies, rfl, congrArg (· + 1) hlength, rfl, hlast⟩

/-- Of several trees the first one has the expired locks taken away for all. -/
theorem requestEach_sweep (hv : ∀ q ∈ rs, q.validate = .ok ()) (hne : rs ≠ [])
    (a : Authority) (now : Millis) :
    a.requestEach now rs = (a.sweep now).2.requestEach now rs := by
  cases rs with
  | nil => exact absurd rfl hne
  | cons r rs =>
      have hswept : (a.sweep now).2.sweep now = ([], (a.sweep now).2) :=
        sweep_of_noneExpired (a.table.noneExpired_sweep now)
      have hserve : (a.sweep now).2.serve r now = a.serve r now := by
        simp only [serve, hv r List.mem_cons_self, hswept]
      obtain ⟨reply, b, hreq⟩ := exists_request_of_valid (hv r List.mem_cons_self) a now
      simp only [requestEach, hserve, serve_eq_ok_iff.mpr hreq]

/-- What is left of a message after its first trees is answered where these have left the
authority. -/
theorem requestEach_append (hv : ∀ q ∈ pre, q.validate = .ok ()) (a : Authority)
    (now : Millis) (post : List Request) :
    (a.requestEach now (pre ++ post)).2 =
      ((a.requestEach now pre).2.requestEach now post).2 := by
  induction pre generalizing a with
  | nil => rfl
  | cons r pre ih =>
      obtain ⟨hr, hrest⟩ := List.forall_mem_cons.mp hv
      obtain ⟨reply, b, hreq⟩ := exists_request_of_valid hr a now
      simp only [List.cons_append, requestEach, serve_eq_ok_iff.mpr hreq]
      exact ih hrest b

/-! ## Whole messages -/

/-- The trees of a message were answered one after the other on the table from which the
expired locks had been taken once. -/
structure AnswersInTurn (a : Authority) (rs : List Request) (now : Millis)
    (replies : List Reply) (b : Authority) : Prop where
  length_eq : replies.length = rs.length
  replies_eq : ((a.table.sweep now).2.processEach a.defaultLease now rs).1 = .ok replies
  /-- The table afterwards; a message that asks for nothing leaves expired locks alone. -/
  table_eq : b.table =
    if rs = [] then a.table else ((a.table.sweep now).2.processEach a.defaultLease now rs).2
  /-- Before every tree but the first the authority looks for expired locks again, where the
  trees before it have left the table, and finds none. -/
  sweeps_nothing : ∀ pre post, rs = pre ++ post → pre ≠ [] →
    (a.requestEach now pre).2.sweep now = ([], (a.requestEach now pre).2) ∧
      b = ((a.requestEach now pre).2.requestEach now post).2

theorem answersInTurn_of_valid (hv : ∀ q ∈ rs, q.validate = .ok ()) (a : Authority)
    (now : Millis) : ∃ replies, (a.requestEach now rs).1 = .ok replies ∧
      a.AnswersInTurn rs now replies (a.requestEach now rs).2 := by
  have hfirst := a.table.noneExpired_sweep now
  obtain ⟨replies, hreplies, hlength, heach, -⟩ :=
    requestEach_of_noneExpired (a := (a.sweep now).2) hfirst hv
  change (a.table.sweep now).2.processEach a.defaultLease now rs = _ at heach
  have hsweeps : ∀ pre post, rs = pre ++ post → pre ≠ [] →
      (a.requestEach now pre).2.sweep now = ([], (a.requestEach now pre).2) ∧
        (a.requestEach now rs).2 = ((a.requestEach now pre).2.requestEach now post).2 := by
    rintro pre post rfl hne
    have hpre : ∀ q ∈ pre, q.validate = .ok () := fun q hq => hv q (List.mem_append_left _ hq)
    refine ⟨?_, requestEach_append hpre a now post⟩
    obtain ⟨-, -, -, -, hunexpired⟩ :=
      requestEach_of_noneExpired (a := (a.sweep now).2) hfirst hpre
    rw [requestEach_sweep hpre hne]
    exact sweep_of_noneExpired hunexpired
  by_cases hne : rs = []
  · subst hne
    exact ⟨[], rfl, rfl, rfl, rfl, hsweeps⟩
  · refine ⟨replies, requestEach_sweep hv hne a now ▸ hreplies, hlength, congrArg Prod.fst heach,
      ?_, hsweeps⟩
    rw [if_neg hne, heach, requestEach_sweep hv hne]

/-- A message that asks for several trees fails exactly if one of them is not valid, with
the fault of the first such tree and before anything has happened. Otherwise every tree is
answered, in order, as if the expired locks had been taken away once and nobody had looked
for them again. So whoever finds no objection to the trees of a message can answer it: the
service never reports a fault of the authority. -/
theorem requestAll_answers_in_turn (a : Authority) (rs : List Request) (now : Millis) :
    (∀ e, (a.requestAll rs now).1 = .error e ↔
      ∃ pre r post, rs = pre ++ r :: post ∧ (∀ q ∈ pre, q.validate = .ok ()) ∧
        r.validate = .error e) ∧
    ((∃ q ∈ rs, q.validate ≠ .ok ()) → ∃ e, a.requestAll rs now = (.error e, a)) ∧
    ((∀ q ∈ rs, q.validate = .ok ()) → ∃ replies b, a.requestAll rs now = (.ok replies, b) ∧
      a.AnswersInTurn rs now replies b) ∧
    ((∀ why, requestsObjection rs = some why →
        a.answerRequests now rs = (.failure why, a)) ∧
      (requestsObjection rs = none → ∃ replies b, a.requestAll rs now = (.ok replies, b) ∧
        a.answerRequests now rs = (.json (Message.repliesToJson replies), b))) := by
  have hvalid (hv : ∀ q ∈ rs, q.validate = .ok ()) : ∃ replies b,
      a.requestAll rs now = (.ok replies, b) ∧ a.AnswersInTurn rs now replies b := by
    obtain ⟨replies, hreplies, hturn⟩ := answersInTurn_of_valid hv a now
    refine ⟨replies, _, ?_, hturn⟩
    simp only [requestAll, validateAll_eq_ok_iff.mpr hv]
    exact Prod.ext hreplies rfl
  have hinvalid {e : Fault} (he : validateAll rs = .error e) :
      a.requestAll rs now = (.error e, a) := by
    simp only [requestAll, he]
  refine ⟨?_, ?_, hvalid, ?_, ?_⟩
  · intro e
    rw [← validateAll_eq_error_iff]
    cases hv : validateAll rs with
    | error f => simp [hinvalid hv]
    | ok u =>
        obtain ⟨replies, b, hanswer, -⟩ := hvalid (validateAll_eq_ok_iff.mp hv)
        simp [hanswer]
  · rintro ⟨q, hq, hne⟩
    cases hv : validateAll rs with
    | error f => exact ⟨f, hinvalid hv⟩
    | ok u => exact absurd (validateAll_eq_ok_iff.mp hv q hq) hne
  · intro why hwhy
    simp only [answerRequests, hwhy]
  · intro hnone
    obtain ⟨replies, b, hanswer, -⟩ := hvalid (requestsObjection_eq_none_iff.mp hnone)
    refine ⟨replies, b, hanswer, ?_⟩
    simp only [answerRequests, hnone, hanswer]

/-- A lease of no length is granted where one has just expired, and outlives the second
tree of the same message; with a blank identifier in it the message changes nothing. -/
theorem answers_beside_empty_lease :
    let r : Request := .node { objectId := "order", lease := some 0 } []
    let a := Authority.ofTable {} (Table.ofHoldings [Table.record 0 3 r])
    (∃ replies b, a.requestAll [r, r] 5 = (.ok replies, b) ∧
      a.AnswersInTurn [r, r] 5 replies b ∧ replies.map Reply.isGranted = [true, false]) ∧
    a.requestAll [r, Request.of " "] 5 = (.error .blankId, a) := by
  intro r a
  have hv : r.validate = .ok () := by
    rw [Request.validate, checkIds_eq_ok_iff]
    decide +kernel
  have hblank : (Request.of " ").validate = .error .blankId := by
    rw [Request.validate]
    exact checkIds_of_blank ⟨" ", by decide +kernel⟩
  constructor
  · obtain ⟨-, -, hvalid, -⟩ := requestAll_answers_in_turn a [r, r] 5
    obtain ⟨replies, b, hanswer, hturn⟩ := hvalid (by simp [hv])
    have hgranted : (a.requestAll [r, r] 5).1.toOption.map (·.map Reply.isGranted) =
        some [true, false] := by
      decide +kernel
    rw [hanswer] at hgranted
    exact ⟨replies, b, hanswer, hturn, Option.some.inj hgranted⟩
  · obtain ⟨hfault, hinvalid, -⟩ := requestAll_answers_in_turn a [r, Request.of " "] 5
    obtain ⟨e, hanswer⟩ := hinvalid ⟨Request.of " ", by simp, by simp [hblank]⟩
    have hfirst := (hfault .blankId).mpr ⟨[r], Request.of " ", [], rfl, by simp [hv], hblank⟩
    rw [hanswer] at hfirst
    rw [hanswer, Except.error.inj hfirst]

end Authority

end LeasedLocks
