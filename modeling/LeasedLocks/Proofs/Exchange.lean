import LeasedLocks.Client
import LeasedLocks.Proofs.History
import LeasedLocks.Proofs.Outcome

/-!
# What a message does to the authority

A message changes the authority with the step in which it arrives, and with no other
(`Exchange.authority_of_step`).

A client that talks to the authority directly sends messages which arrive at once
and are answered at once, and never waits for an answer (`Exchange.Prompt`). What
the answer calls held is locked at that moment.
-/

namespace LeasedLocks

/-- The message reaches the authority with the next step. -/
def Exchange.isArriving {β : Type} (now : Nat) (x : Exchange β) : Bool :=
  match x.leg with
  | .outbound h due => due ≤ now && h.isPassedOn
  | _ => false

variable {β : Type} {x x' : Exchange β} {y : Exchanged β} {a b : Authority} {now : Nat}
  {pass : Authority → Except Fault β × Authority} {answer : Except Fault β} {r : Route} {c : Clock}

namespace Exchange

/-- A message and its answer that take no time and meet with no failure. -/
def Prompt (now : Nat) (x : Exchange β) : Prop :=
  match x.leg with
  | .outbound h due => h = {} ∧ due ≤ now
  | .silent => False
  | .inbound _ due => due ≤ now

theorem prompt_start (limit : Duration) (now : Nat) :
    (start ({} : Handling β) limit now).Prompt now := ⟨rfl, Nat.le_refl _⟩

theorem Prompt.mono {now' : Nat} (h : x.Prompt now) (hle : now ≤ now') : x.Prompt now' := by
  unfold Prompt at h ⊢
  split at h
  · exact ⟨h.1, Nat.le_trans h.2 hle⟩
  · exact h.elim
  · exact Nat.le_trans h hle

theorem eq_of_giveUp (h : x.giveUp now a = some (y, b)) :
    y = .answered (.error (.timedOut x.limit)) ∧ b = a := by
  obtain ⟨-, h⟩ := Option.ite_none_right_eq_some.mp h
  cases h
  exact ⟨rfl, rfl⟩

/-- A message changes the authority when it arrives, and only then. -/
theorem authority_of_step (h : x.step pass now a = some (y, b)) :
    b = if x.isArriving now then (pass a).2 else a := by
  unfold step at h
  split at h
  · next handling due hleg =>
      simp only [isArriving, hleg]
      split at h
      · next hdue =>
          have hb := congrArg Prod.snd (Option.some.inj h)
          simpa [arrive, hdue] using hb.symm
      · next hdue => simpa [hdue] using (eq_of_giveUp h).2
  · next hleg => simpa [isArriving, hleg] using (eq_of_giveUp h).2
  · next answer due hleg =>
      simp only [isArriving, hleg]
      split at h
      · cases h
        rfl
      · simpa using (eq_of_giveUp h).2

theorem step_ne_none_of_isArriving (h : x.isArriving now = true) :
    x.step pass now a ≠ none := by
  unfold isArriving at h
  split at h
  · next handling due hleg =>
      simp only [Bool.and_eq_true, decide_eq_true_eq] at h
      simp only [step, hleg, if_pos h.1]
      exact Option.some_ne_none _
  · cases h

/-- A message that is to be handled without any trouble is answered when it arrives. -/
theorem step_of_outbound {due : Nat} (hleg : x.leg = .outbound {} due) (hdue : due ≤ now) :
    x.step pass now a =
      some (.notYet { x with leg := .inbound (pass a).1 now }, (pass a).2) := by
  simp only [step, hleg, if_pos hdue]
  rfl

theorem step_of_inbound {due : Nat} (hleg : x.leg = .inbound answer due) (hdue : due ≤ now) :
    x.step pass now a = some (.answered answer, a) := by
  simp only [step, hleg, if_pos hdue]

/-- A prompt exchange always goes on: the message is answered, or the answer arrives. -/
theorem Prompt.step_eq (h : x.Prompt now)
    (pass : Authority → Except Fault β × Authority) (a : Authority) :
    x.step pass now a =
        some (.notYet { x with leg := .inbound (pass a).1 now }, (pass a).2) ∨
      ∃ answer due, x.leg = .inbound answer due ∧
        x.step pass now a = some (.answered answer, a) := by
  unfold Prompt at h
  split at h
  · next handling due hleg =>
      obtain ⟨rfl, hdue⟩ := h
      exact .inl (step_of_outbound hleg hdue)
  · exact h.elim
  · next answer due hleg => exact .inr ⟨answer, due, hleg, step_of_inbound hleg h⟩

theorem Prompt.step_ne_none (h : x.Prompt now) : x.step pass now a ≠ none := by
  rcases h.step_eq pass a with hEq | ⟨_, _, -, hEq⟩
  · rw [hEq]
    exact Option.some_ne_none _
  · rw [hEq]
    exact Option.some_ne_none _

/-- Before there is an answer the authority is asked for it. -/
theorem Prompt.eq_of_notYet (h : x.Prompt now) (hs : x.step pass now a = some (.notYet x', b)) :
    x' = { x with leg := .inbound (pass a).1 now } ∧ b = (pass a).2 := by
  rcases h.step_eq pass a with hEq | ⟨_, _, -, hEq⟩
  · rw [hEq] at hs
    cases hs
    exact ⟨rfl, rfl⟩
  · rw [hEq] at hs
    cases hs

/-- An answer that arrives was on its way, and the authority is not asked again. -/
theorem Prompt.eq_of_answered (h : x.Prompt now)
    (hs : x.step pass now a = some (.answered answer, b)) :
    b = a ∧ ∃ due, x.leg = .inbound answer due := by
  rcases h.step_eq pass a with hEq | ⟨_, due, hleg, hEq⟩
  · rw [hEq] at hs
    cases hs
  · rw [hEq] at hs
    cases hs
    exact ⟨rfl, due, hleg⟩

end Exchange

/-! ## Answers of the other side -/

namespace Exchange

/-- If an answer comes it is one of the other side, and `P` holds of it. -/
def AnswersSatisfy (P : β → Prop) (x : Exchange β) : Prop :=
  match x.leg with
  | .outbound h _ => h.canned = none
  | .silent => True
  | .inbound answer _ => ∀ b, answer = .ok b → P b

end Exchange

/-- If an answer came or comes it is one of the other side, and `P` holds of it. -/
def Exchanged.AnswersSatisfy (P : β → Prop) : Exchanged β → Prop
  | notYet x => x.AnswersSatisfy P
  | answered answer => ∀ b, answer = .ok b → P b
  | crashed _ => True

namespace Exchange

variable {P Q : β → Prop}

theorem AnswersSatisfy.mono (h : x.AnswersSatisfy P) (hPQ : ∀ b, P b → Q b) :
    x.AnswersSatisfy Q := by
  unfold AnswersSatisfy at h ⊢
  split at h
  · exact h
  · trivial
  · exact fun b hb => hPQ b (h b hb)

theorem answersSatisfy_of_giveUp (h : x.giveUp now a = some (y, b)) : y.AnswersSatisfy P := by
  rw [(eq_of_giveUp h).1]
  exact fun _ h => nomatch h

/-- Without a canned answer the sender can only be told of a fault. -/
theorem ne_ok_of_told? {h : Handling β} (hcanned : h.canned = none) (htold : h.told? = some answer)
    (b : β) : answer ≠ .ok b := by
  rintro rfl
  unfold Handling.told? at htold
  split at htold
  · cases htold
  · cases htold
  · next hsome =>
      rw [hcanned] at hsome
      cases hsome
  · cases htold

/-- A message that meets with no canned answer is answered by the other side. -/
theorem answersSatisfy_arrive {h : Handling β} (hcanned : h.canned = none)
    (hpass : h.isPassedOn = true → ∀ b, (pass a).1 = .ok b → P b) :
    (arrive h pass now x a).1.AnswersSatisfy P := by
  simp only [arrive, arrived]
  split
  · trivial
  next hstalls =>
  split
  · trivial
  next hcrashes =>
  split
  · next htold => exact hpass (by simp [Handling.isPassedOn, hstalls, hcrashes, htold])
  · next told htold =>
      have hfault := ne_ok_of_told? hcanned htold
      split
      · exact fun b hb => absurd hb (hfault b)
      · exact fun b hb => absurd hb (hfault b)

/-- What the other side says is all that the sender comes to hear. -/
theorem AnswersSatisfy.step (h : x.AnswersSatisfy P)
    (hpass : x.isArriving now = true → ∀ b, (pass a).1 = .ok b → P b)
    (hs : x.step pass now a = some (y, b)) : y.AnswersSatisfy P := by
  unfold Exchange.step at hs
  unfold AnswersSatisfy at h
  unfold isArriving at hpass
  split at hs
  · next handling due hleg =>
      rw [hleg] at h hpass
      split at hs
      · next hdue =>
          have harrive : (arrive handling pass now x a).1.AnswersSatisfy P :=
            answersSatisfy_arrive h fun hpassed => hpass (by simp [hdue, hpassed])
          rwa [Option.some.inj hs] at harrive
      · exact answersSatisfy_of_giveUp hs
  · exact answersSatisfy_of_giveUp hs
  · next answer due hleg =>
      rw [hleg] at h
      split at hs
      · cases hs
        exact h
      · exact answersSatisfy_of_giveUp hs

end Exchange

/-! ## Replies that fit -/

theorem eq_of_checkReplies {requests : List Request} {replies replies' : List Reply}
    (h : checkReplies requests replies = .ok replies') : replies' = replies := by
  unfold checkReplies at h
  split at h
  · cases h
  · split at h
    · cases h
    · cases h
      rfl

theorem checkReplies_of_fits {requests : List Request} {replies : List Reply}
    (h : Fits requests replies) : checkReplies requests replies = .ok replies := by
  have hfind : (requests.zip replies).find? (fun p => p.1.objectIds != p.2.objectIds) = none := by
    rw [List.find?_eq_none]
    intro p hp
    have hids : p.2.objectIds = p.1.objectIds := h.objectIds_eq hp
    simp [hids]
  unfold checkReplies
  rw [if_neg (fun hne => hne h.length_eq), hfind]

/-- Only replies that fit are accepted. -/
theorem fits_of_checkReplies {requests : List Request} {replies replies' : List Reply}
    (h : checkReplies requests replies = .ok replies') : Fits requests replies := by
  unfold checkReplies at h
  split at h
  · cases h
  · next hlength =>
      split at h
      · cases h
      · next hfind =>
          refine List.forall₂_iff_zip.mpr ⟨not_not.mp hlength, fun {r y} hmem => ?_⟩
          have hfit := List.find?_eq_none.mp hfind (r, y) hmem
          simp only [bne_iff_ne, ne_eq, not_not] at hfit
          exact hfit.symm

theorem exists_unexpectedReply {requests : List Request} {replies : List Reply}
    (h : ¬ Fits requests replies) :
    ∃ why, checkReplies requests replies = .error (.unexpectedReply why) := by
  have hrefused : checkReplies requests replies ≠ .ok replies :=
    fun hok => h (fits_of_checkReplies hok)
  unfold checkReplies at hrefused ⊢
  split
  · exact ⟨_, rfl⟩
  · next hlength =>
      rw [if_neg hlength] at hrefused
      split
      · exact ⟨_, rfl⟩
      · next hfind =>
          rw [hfind] at hrefused
          exact absurd rfl hrefused

namespace Route

/-- The trees of a message are asked for on their own or all together. -/
theorem passRequests_cases (r : Route) (c : Clock) (rs : List Request) (a : Authority) :
    ∃ answer b,
      (a.requestEach (date r.base c) rs = (answer, b) ∨
        a.requestAll rs (date r.base c) = (answer, b)) ∧
      (r.passRequests c rs a).2 = b ∧
      ∀ replies, (r.passRequests c rs a).1 = .ok replies → answer = .ok replies := by
  unfold passRequests
  cases r.base with
  | some base =>
      refine ⟨_, _, .inl rfl, ?_, ?_⟩
      · simp only
        split <;> rfl
      · simp only
        split
        · next hanswer => exact fun replies h => hanswer.trans h
        · exact fun replies h => nomatch h
  | none =>
      refine ⟨_, _, .inr rfl, ?_, ?_⟩
      · simp only
        split <;> rfl
      · simp only
        split
        · next hanswer => exact fun replies h => hanswer.trans h
        · exact fun replies h => nomatch h

theorem announces_passRequests (r : Route) (c : Clock) (rs : List Request) (a : Authority) :
    a.Announces (r.passRequests c rs a).2 := by
  obtain ⟨answer, b, hasked | hasked, rfl, -⟩ := r.passRequests_cases c rs a
  · have h := Authority.Announces.requestEach a (date r.base c) rs
    rwa [hasked] at h
  · have h := Authority.Announces.requestAll a rs (date r.base c)
    rwa [hasked] at h

theorem announces_passReleases (rs : List Release) (a : Authority) :
    a.Announces (passReleases rs a).2 := Authority.Announces.releaseAll a rs

/-- The answer to a message that asks for a single tree is the reply of the authority. -/
theorem exists_request_of_passRequests {q : Request} {replies : List Reply}
    (h : (r.passRequests c [q] a).1 = .ok replies) :
    ∃ reply, replies = [reply] ∧
      a.request q (date r.base c) = .ok (reply, (r.passRequests c [q] a).2) := by
  obtain ⟨answer, b, hasked, rfl, hanswer⟩ := r.passRequests_cases c [q] a
  have heach : a.requestEach (date r.base c) [q] = (.ok replies, (r.passRequests c [q] a).2) := by
    rw [← hanswer replies h]
    rcases hasked with hasked | hasked
    · exact hasked
    · rw [← hasked, Authority.requestAll]
      cases hv : Authority.validateAll [q] with
      | ok u => rfl
      | error e =>
          rw [Authority.requestAll, hv, hanswer replies h] at hasked
          cases hasked
  simp only [Authority.requestEach] at heach
  cases hq : a.serve q (date r.base c) with
  | mk answer b =>
      rw [hq] at heach
      cases answer with
      | error e => cases heach
      | ok reply =>
          obtain ⟨hreplies, hb⟩ := Prod.mk.inj heach
          cases hreplies
          rw [← hb]
          exact ⟨reply, rfl, Authority.serve_eq_ok_iff.mp hq⟩

/-- What the answer to a single tree calls held is locked. -/
theorem isLocked_of_passRequests {q : Request} {replies : List Reply} {reply : Reply}
    {id : String} (h : (r.passRequests c [q] a).1 = .ok replies) (hreply : reply ∈ replies)
    (hid : id ∈ reply.unavailableIds) : (r.passRequests c [q] a).2.isLocked id := by
  obtain ⟨_, rfl, hq⟩ := exists_request_of_passRequests h
  obtain rfl := List.mem_singleton.mp hreply
  have hresp := Authority.responded_of_request hq
  exact Option.isSome_iff_exists.mpr (hresp.answered.exists_get?_of_unavailable hid)

end Route

end LeasedLocks
