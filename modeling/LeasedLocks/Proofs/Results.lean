import LeasedLocks.Proofs.Hearings
import LeasedLocks.Proofs.ReportedGrants

/-!
# Results match requests

Whatever the other side answers, what becomes of a call is decided by what it hears
(`CallState.DecidedByReplies`). Replies that do not fit the requests make it fail, and in all other
cases its outcome has, for each object asked for, the last answer given at the place of the
object. Putting the outcome together never fails.

The call knows at any time the last reply to each of its trees: it is with whoever waits for
the tree, or among the replies that the call keeps (`KnowsReplies`). Every hearing changes this in
one place only.
-/

namespace LeasedLocks

/-- What a call that has heard this returns: the first fault, or an outcome of the last reply
to each tree. -/
inductive Reports (requests : List Request) (hs : List Hearing) : Except Fault Outcome → Prop
  | fault {f : Fault} : Hearing.firstFault? hs = some f → Reports requests hs (.error f)
  | outcome {replies : List Reply} {o : Outcome} : (∀ h ∈ hs, h.Fits) → Fits requests replies →
      (∀ n, replies[n]? = Hearing.lastReply n hs) → o.Matches requests replies →
      Reports requests hs (.ok o)

/-- The fault with which a call failed, also if it still waits for other trees. -/
def CallState.fault? : CallState → Option Fault
  | locking _ _ (.waiting _ _ _ _ failure) => failure
  | returned _ (.locked (.error f)) => some f
  | _ => none

/-- What has become of a call that asked for these trees, in terms of what it has heard. -/
structure CallState.DecidedByReplies (requests : List Request) (wait : Option Duration)
    (hs : List Hearing) (s : CallState) : Prop where
  /-- The call hears of all its trees first, and then of single ones of them. -/
  asked : ∀ first rest, hs = first :: rest → first.asked = requests ∧ first.place = none ∧
    ∀ h ∈ rest, ∃ n q, requests[n]? = some q ∧ h.asked = [q] ∧ h.place = some n
  /-- If the replies to all trees do not fit, the call is over and has failed. -/
  unexpected : ∀ replies rest, hs = ⟨requests, none, .ok replies⟩ :: rest →
    ¬ Fits requests replies →
    ∃ moment why, s = .returned moment (.locked (.error (.unexpectedReply why)))
  /-- If they fit and nothing is to be waited for, it is over and has succeeded. -/
  expected : ∀ replies rest, hs = ⟨requests, none, .ok replies⟩ :: rest → Fits requests replies →
    (wait = none ∨ ∀ y ∈ replies, y.isGranted = true) →
    ∃ moment o, s = .returned moment (.locked (.ok o)) ∧ o.Matches requests replies
  /-- The first answer that does not fit its question makes the call fail. -/
  unexpected_later : ∀ before h after replies, hs = before ++ h :: after →
    (∀ g ∈ before, g.Fits) → h.answer = .ok replies → ¬ Fits h.asked replies →
    s = .cancelled ∨ ∃ why, s.fault? = some (.unexpectedReply why)
  /-- What the call returns is decided by what it has heard. -/
  reports : ∀ moment r, s = .returned moment (.locked r) → Reports requests hs r
  /-- While the call waits an outcome could always be put together, and once the last wait is
  over the call returns. -/
  ends : ∀ started limit replies branches failure,
    s = .locking requests wait (.waiting started limit replies branches failure) →
    (∀ waited, ∃ o, Outcome.assemble requests replies waited = .ok o) ∧
    (branches.all (·.wait.isNone) = true → ∀ c l, ∃ r,
      s.step c l = some (.returned c.now (.locked r), l) ∧ Reports requests hs r)

/-- The replies that a call keeps fit, and unless it has failed, the last reply to each tree is
with whoever waits for it, or else among them. -/
structure KnowsReplies (requests : List Request) (hs : List Hearing) (replies : List Reply)
    (branches : List Branch) (failure : Option Fault) : Prop where
  failure_eq : failure = Hearing.firstFault? hs
  fits : Fits requests replies
  latest_fits : ∀ b ∈ branches, ∀ t, b.wait = some t → ∀ y, t.latest = some y →
    y.objectIds = t.request.objectIds
  awaited : failure = none → ∀ {n : Nat} {t : TreeWait}, (⟨n, some t⟩ : Branch) ∈ branches →
    Hearing.lastReply n hs = t.latest.or replies[n]?
  others : failure = none → ∀ {n : Nat}, (∀ t, (⟨n, some t⟩ : Branch) ∉ branches) →
    Hearing.lastReply n hs = replies[n]?

/-- Of the trees that were asked for at first some were refused, and the call waits for them. -/
def SomeRefused (requests : List Request) (wait : Option Duration) (hs : List Hearing) : Prop :=
  ∃ replies rest, hs = ⟨requests, none, .ok replies⟩ :: rest ∧ Fits requests replies ∧
    wait ≠ none ∧ (∃ y ∈ replies, y.isGranted = false) ∧
    ∀ h ∈ rest, ∃ n q, requests[n]? = some q ∧ h.asked = [q] ∧ h.place = some n

/-- A call knows the last replies to its trees, and returns them. -/
inductive CallState.KnowsReplies (requests : List Request) (wait : Option Duration) :
    List Hearing → CallState → Prop
  | asks {x : Exchange (List Reply)} :
      KnowsReplies requests wait [] (.locking requests wait (.asking x))
  | waits {hs : List Hearing} {started : Nat} {limit : Duration} {replies : List Reply}
      {branches : List Branch} {failure : Option Fault} :
      SomeRefused requests wait hs →
      (branches.map Branch.index).Nodup →
      (∀ b ∈ branches, ∀ t, b.wait = some t → requests[b.index]? = some t.request) →
      LeasedLocks.KnowsReplies requests hs replies branches failure →
      KnowsReplies requests wait hs
        (.locking requests wait (.waiting started limit replies branches failure))
  | returned {hs : List Hearing} {moment : Nat} {r : Except Fault Outcome} :
      (hs = [] ∨ (∃ answer, hs = [⟨requests, none, answer⟩]) ∨ SomeRefused requests wait hs) →
      Reports requests hs r → KnowsReplies requests wait hs (.returned moment (.locked r))
  | crashed {moment : Nat} : KnowsReplies requests wait [] (.returned moment .crashed)
  | cancelled {hs : List Hearing} : (hs = [] ∨ SomeRefused requests wait hs) →
      KnowsReplies requests wait hs .cancelled

variable {requests : List Request} {wait : Option Duration} {replies : List Reply} {q : Request}
  {h : Hearing} {hs : List Hearing} {n m : Nat} {c : Clock} {l l' : Link} {t : TreeWait}
  {r : TreeProgress} {deadline : Nat} {branches : List Branch} {failure : Option Fault}
  {s s' : CallState}

/-! ## What is known of the trees -/

theorem SomeRefused.append (h : SomeRefused requests wait hs) (hq : requests[n]? = some q)
    {told : List Hearing} (htold : ∀ g ∈ told, g.asked = [q] ∧ g.place = some n) :
    SomeRefused requests wait (hs ++ told) := by
  obtain ⟨replies, rest, rfl, hfits, hwait, hrefused, hrest⟩ := h
  refine ⟨replies, rest ++ told, rfl, hfits, hwait, hrefused, fun g hg => ?_⟩
  rcases List.mem_append.mp hg with hg | hg
  · exact hrest g hg
  · obtain ⟨hasked, hplace⟩ := htold g hg
    exact ⟨n, q, hq, hasked, hplace⟩

/-- A call whose waits are all over has something to return. -/
theorem KnowsReplies.reports (h : KnowsReplies requests hs replies branches failure)
    (hnodup : (requests.flatMap Request.objectIds).Nodup)
    (hall : branches.all (·.wait.isNone) = true) (started now : Nat) (limit : Duration) :
    ∃ r, CallState.finish requests started now limit replies failure =
      .returned now (.locked r) ∧ Reports requests hs r := by
  cases failure with
  | some f => exact ⟨.error f, rfl, .fault h.failure_eq.symm⟩
  | none =>
      obtain ⟨o, ho, hmatches⟩ := Outcome.exists_matches hnodup h.fits
        (.min (.ofMillis (now - started)) limit)
      refine ⟨.ok o, by rw [CallState.finish, ho], .outcome ?_ h.fits (fun n => ?_) hmatches⟩
      · exact Hearing.firstFault?_eq_none_iff.mp h.failure_eq.symm
      · refine (h.others rfl fun t hb => ?_).symm
        cases List.all_eq_true.mp hall _ hb

namespace TreeWait

/-- A wait fails with the first fault that it hears. -/
theorem failure?_eq_firstFault? (hs : t.step c deadline l = some (r, l')) (n : Nat) :
    r.failure? = Hearing.firstFault? (t.hears c n l) := by
  rcases t.hears_cases n hs with
    ⟨hnil, hnone, -⟩ | ⟨_, f, hone, hf, rfl⟩ | ⟨y, hone, hids, hnone, -⟩
  · rw [hnil, hnone]
    rfl
  · rw [hone, Hearing.firstFault?_singleton, hf]
    rfl
  · rw [hone, hnone, Hearing.firstFault?_singleton, eq_comm, Hearing.fault?_eq_none_iff]
    exact ⟨[y], rfl, .cons hids .nil⟩

/-- A wait takes up no reply that does not fit its tree. -/
theorem objectIds_of_latest? (hs : t.step c deadline l = some (r, l'))
    (h : ∀ y, t.latest = some y → y.objectIds = t.request.objectIds) {y : Reply}
    (hy : r.latest? = some y) : y.objectIds = t.request.objectIds := by
  rcases t.hears_cases 0 hs with ⟨-, -, hsame⟩ | ⟨_, _, -, -, rfl⟩ | ⟨z, -, hids, -, hnew⟩
  · exact h y (hsame.symm.trans hy)
  · cases hy
  · cases hnew.symm.trans hy
    exact hids

/-- A wait that does not fail has the last reply to its tree. -/
theorem lastReply_hears (hstep : t.step c deadline l = some (r, l')) (hok : r.failure? = none)
    {first : Option Reply} (h : Hearing.lastReply n hs = t.latest.or first) :
    Hearing.lastReply n (hs ++ t.hears c n l) = r.latest?.or first := by
  rcases t.hears_cases n hstep with ⟨hnil, -, hsame⟩ | ⟨_, _, -, -, rfl⟩ | ⟨y, hone, -, -, hnew⟩
  · rw [hnil, List.append_nil, h, hsame]
  · cases hok
  · rw [Hearing.lastReply_append, hone, Hearing.lastReply_singleton, hnew]
    simp [Hearing.replyTo]

/-- A wait hears nothing of other trees. -/
theorem lastReply_hears_of_ne (hm : m ≠ n) :
    Hearing.lastReply m (hs ++ t.hears c n l) = Hearing.lastReply m hs := by
  rw [Hearing.lastReply_append,
    Hearing.lastReply_of_ne (fun _ hg => (place_of_mem_hears hg).2) hm, Option.none_or]

end TreeWait

/-- The branch at place `b` of the list takes a step. -/
theorem KnowsReplies.stepBranch {b index : Nat}
    (h : KnowsReplies requests hs replies branches failure)
    (hnodup : (branches.map Branch.index).Nodup)
    (hplaces : ∀ b ∈ branches, ∀ t, b.wait = some t → requests[b.index]? = some t.request)
    (hb : branches[b]? = some ⟨index, some t⟩) (hstep : t.step c deadline l = some (r, l')) :
    KnowsReplies requests (hs ++ t.hears c index l) (r.reply?.elim replies (replies.set index))
      (branches.set b ⟨index, r.wait?⟩) (failure.or r.failure?) := by
  have hmem := List.mem_of_getElem? hb
  have hrequest : requests[index]? = some t.request := hplaces _ hmem t rfl
  have hlatest {y : Reply} (hy : r.latest? = some y) : y.objectIds = t.request.objectIds :=
    TreeWait.objectIds_of_latest? hstep (h.latest_fits _ hmem t rfl) hy
  have hown (hok : failure.or r.failure? = none) :
      Hearing.lastReply index (hs ++ t.hears c index l) = r.latest?.or replies[index]? := by
    obtain ⟨hnone, hok⟩ := Option.or_eq_none_iff.mp hok
    exact TreeWait.lastReply_hears hstep hok (h.awaited hnone hmem)
  have hlt : index < replies.length :=
    h.fits.length_eq ▸ (List.getElem?_eq_some_iff.mp hrequest).1
  constructor
  case failure_eq =>
    rw [Hearing.firstFault?_append, ← TreeWait.failure?_eq_firstFault? hstep, ← h.failure_eq]
  case fits =>
    cases hreply : r.reply? with
    | none => exact h.fits
    | some y => exact h.fits.set hrequest (hlatest (TreeProgress.latest?_of_reply? hreply))
  case latest_fits =>
    intro d hd u hu y hy
    rcases List.mem_or_eq_of_mem_set hd with hd | rfl
    · exact h.latest_fits d hd u hu y hy
    · rw [CallState.request_of_wait? hstep u hu]
      cases r with
      | goesOn t' =>
          cases hu
          exact hlatest hy
      | ended result => cases hu
  case awaited =>
    intro hok m u hu
    by_cases hm : m = index
    · subst hm
      have hwait := eq_of_mem_set_self hnodup hb hu
      rw [hown hok]
      cases r with
      | goesOn t' =>
          cases hwait
          rfl
      | ended result => cases hwait
    · rw [TreeWait.lastReply_hears_of_ne hm, CallState.getElem?_elim_set_ne hm]
      exact h.awaited (Option.or_eq_none_iff.mp hok).1 ((mem_set_of_ne hb hm).mp hu)
  case others =>
    intro hok m hnone
    by_cases hm : m = index
    · subst hm
      rw [hown hok, CallState.getElem?_elim_set_self hlt]
      cases r with
      | goesOn t' => exact absurd (List.mem_set (List.getElem?_eq_some_iff.mp hb).1 _) (hnone t')
      | ended result =>
          cases result with
          | error f => cases (Option.or_eq_none_iff.mp hok).2
          | ok latest => rfl
    · rw [TreeWait.lastReply_hears_of_ne hm, CallState.getElem?_elim_set_ne hm]
      refine h.others (Option.or_eq_none_iff.mp hok).1 fun u hu => ?_
      exact hnone u ((mem_set_of_ne hb hm).mpr hu)

namespace CallState

/-! ## One call -/

theorem eq_of_fault? {moment : Nat} {result : CallResult} {f : Fault}
    (hresult : s.result? = some (moment, result)) (hf : s.fault? = some f) :
    s = .returned moment (.locked (.error f)) := by
  unfold result? at hresult
  split at hresult
  · cases hresult
    unfold fault? at hf
    split at hf
    · next h => cases h
    · next h =>
        cases h
        cases hf
        rfl
    · cases hf
  · cases hresult

theorem knowsReplies_branchesOf (h : Fits requests replies) :
    LeasedLocks.KnowsReplies requests [⟨requests, none, .ok replies⟩] replies
      (branchesOf requests replies) none := by
  constructor
  case failure_eq =>
    rw [Hearing.firstFault?_singleton, eq_comm, Hearing.fault?_eq_none_iff]
    exact ⟨replies, rfl, h⟩
  case fits => exact h
  case latest_fits =>
    rintro ⟨n, w⟩ hb t hwait y hy
    cases hwait
    obtain ⟨-, -, -, -, ht⟩ := mem_branchesOf hb
    rw [ht] at hy
    cases hy
  case awaited =>
    intro _ n t hb
    obtain ⟨-, -, -, -, ht⟩ := mem_branchesOf hb
    rw [ht, Hearing.lastReply_first]
    rfl
  case others => exact fun _ n _ => Hearing.lastReply_first n

theorem someRefused_of_ne_nil {d : Duration} (h : Fits requests replies)
    (hne : branchesOf requests replies ≠ []) :
    SomeRefused requests (some d) [⟨requests, none, .ok replies⟩] := by
  obtain ⟨⟨n, w⟩, hb⟩ := List.exists_mem_of_ne_nil _ hne
  obtain ⟨x, -, hx⟩ := List.mem_map.mp hb
  cases hx
  obtain ⟨y, hy, hrefused, -, -⟩ := mem_branchesOf hb
  exact ⟨replies, [], rfl, h, Option.some_ne_none d, ⟨y, List.mem_of_getElem? hy, hrefused⟩,
    fun _ hg => nomatch hg⟩

/-- With the answer to its first message a call fails, returns or begins to wait. -/
theorem knowsReplies_answered (hnodup : (requests.flatMap Request.objectIds).Nodup)
    (wait : Option Duration) (now : Nat) (answer : Except Fault (List Reply)) :
    (answered requests wait now answer).KnowsReplies requests wait [⟨requests, none, answer⟩] := by
  cases hcheck : answer.bind (checkReplies requests) with
  | error f =>
      simp only [answered, hcheck]
      refine .returned (.inr (.inl ⟨answer, rfl⟩)) (.fault ?_)
      rw [Hearing.firstFault?_singleton]
      simp only [Hearing.fault?, hcheck]
  | ok replies =>
      obtain ⟨replies', rfl, hok⟩ : ∃ replies', answer = .ok replies' ∧
          checkReplies requests replies' = .ok replies := by
        cases answer with
        | error f => cases hcheck
        | ok replies' => exact ⟨replies', rfl, hcheck⟩
      obtain rfl := eq_of_checkReplies hok
      have hfits : Fits requests replies := fits_of_checkReplies hok
      obtain ⟨o, ho, hmatches⟩ := Outcome.exists_matches hnodup hfits .zero
      have hdone : (returned now (.locked (Outcome.assemble requests replies .zero))).KnowsReplies
          requests wait [⟨requests, none, .ok replies⟩] := by
        rw [ho]
        refine .returned (.inr (.inl ⟨_, rfl⟩)) (.outcome ?_ hfits
          (fun n => (Hearing.lastReply_first n).symm) hmatches)
        exact fun g hg => List.mem_singleton.mp hg ▸ ⟨replies, rfl, hfits⟩
      simp only [answered, hcheck]
      cases wait with
      | none => exact hdone
      | some d =>
          simp only
          split
          · exact hdone
          · next hne =>
              exact .waits (someRefused_of_ne_nil hfits hne) (nodup_branchesOf _ _)
                (fun b hb t hwait => getElem?_of_mem_branchesOf hb hwait)
                (knowsReplies_branchesOf hfits)

/-- A turn of the task that makes the call. -/
theorem KnowsReplies.step {k : Nat} (h : s.KnowsReplies requests wait hs)
    (hnodup : (requests.flatMap Request.objectIds).Nodup) (hs' : s.step c l = some (s', l')) :
    s'.KnowsReplies requests wait (hs ++ s.hears c l (.call k)) := by
  cases h with
  | asks =>
      rw [List.nil_append]
      rcases step_asking_eq_some hs' with ⟨x', ha, rfl⟩ | ⟨answer, ha, rfl⟩ | ⟨_, ha, rfl⟩
      · simp only [hears, ha]
        exact .asks
      · simp only [hears, ha]
        exact knowsReplies_answered hnodup wait c.now answer
      · simp only [hears, ha]
        exact .crashed
  | waits hsomeRefused _ _ hknowsReplies =>
      simp only [hears, List.append_nil]
      cases steps_of_step hs' with
      | finishes hall hfinish =>
          obtain ⟨r, hr, hreports⟩ := hknowsReplies.reports hnodup hall _ _ _
          cases hfinish.symm.trans hr
          exact .returned (.inr (.inr hsomeRefused)) hreports
  | returned _ _ => cases hs'
  | crashed => cases hs'
  | cancelled _ => cases hs'

/-- A turn of whoever waits for one of the trees. -/
theorem KnowsReplies.stepBranch {k b : Nat} (h : s.KnowsReplies requests wait hs)
    (hs' : s.stepBranch c b l = some (s', l')) :
    s'.KnowsReplies requests wait (hs ++ s.hears c l (.branch k b)) := by
  obtain ⟨_, _, _, _, _, branches, _, index, t, r, rfl, hb, hstep, rfl⟩ := stepBranch_eq_some hs'
  cases h with
  | waits hsomeRefused hnodup hplaces hknowsReplies =>
      simp only [hears, hb]
      have hrequest := hplaces _ (List.mem_of_getElem? hb) t rfl
      exact .waits (hsomeRefused.append hrequest fun g hg => TreeWait.place_of_mem_hears hg)
        (map_index_set hb r.wait? ▸ hnodup)
        (inOrder_set hb hplaces r.wait? (request_of_wait? hstep))
        (hknowsReplies.stepBranch hnodup hplaces hb hstep)

theorem knowsReplies_cancel (h : s.KnowsReplies requests wait hs) (l : Link) :
    (s.cancel l).1.KnowsReplies requests wait hs := by
  cases h with
  | asks => exact .cancelled (.inl rfl)
  | waits hsomeRefused _ _ _ => exact .cancelled (.inr hsomeRefused)
  | returned hheard hreports => exact .returned hheard hreports
  | crashed => exact .crashed
  | cancelled hheard => exact .cancelled hheard

/-! ## What becomes of a call -/

theorem KnowsReplies.heard (h : s.KnowsReplies requests wait hs) :
    hs = [] ∨ (∃ answer, hs = [⟨requests, none, answer⟩]) ∨ SomeRefused requests wait hs := by
  cases h with
  | asks => exact .inl rfl
  | waits hsomeRefused _ _ _ => exact .inr (.inr hsomeRefused)
  | returned hheard _ => exact hheard
  | crashed => exact .inl rfl
  | cancelled hheard => exact hheard.imp_right .inr

/-- A call that has heard something and does not wait has returned what it heard. -/
theorem KnowsReplies.exists_reports (h : s.KnowsReplies requests wait hs) (hne : hs ≠ [])
    (hover : ¬ SomeRefused requests wait hs) :
    ∃ moment r, s = .returned moment (.locked r) ∧ Reports requests hs r := by
  cases h with
  | asks => exact absurd rfl hne
  | waits hsomeRefused _ _ _ => exact absurd hsomeRefused hover
  | returned _ hreports => exact ⟨_, _, rfl, hreports⟩
  | crashed => exact absurd rfl hne
  | cancelled hheard =>
      rcases hheard with hnil | hsomeRefused
      · exact absurd hnil hne
      · exact absurd hsomeRefused hover

/-- Unless its caller gave it up, a call has failed with the first fault that it heard of. -/
theorem KnowsReplies.fault?_eq (h : s.KnowsReplies requests wait hs) :
    s = .cancelled ∨ s.fault? = Hearing.firstFault? hs := by
  cases h with
  | asks => exact .inr rfl
  | waits _ _ _ hknowsReplies => exact .inr hknowsReplies.failure_eq
  | returned _ hreports =>
      cases hreports with
      | fault hfirst => exact .inr hfirst.symm
      | outcome hall _ _ _ => exact .inr (Hearing.firstFault?_eq_none_iff.mpr hall).symm
  | crashed => exact .inr rfl
  | cancelled _ => exact .inl rfl

/-- Replies to the first message that do not fit are the end of the call. -/
theorem KnowsReplies.unexpected {rest : List Hearing}
    (h : s.KnowsReplies requests wait (⟨requests, none, .ok replies⟩ :: rest))
    (hmisfit : ¬ Fits requests replies) :
    ∃ moment why, s = .returned moment (.locked (.error (.unexpectedReply why))) := by
  have hover : ¬ SomeRefused requests wait (⟨requests, none, .ok replies⟩ :: rest) := by
    rintro ⟨_, _, hcons, hfits, -⟩
    cases hcons
    exact hmisfit hfits
  obtain ⟨moment, r, rfl, hreports⟩ := h.exists_reports (List.cons_ne_nil _ _) hover
  cases hreports with
  | fault hfirst =>
      have hheard : Hearing.answer ⟨requests, none, .ok replies⟩ = .ok replies := rfl
      obtain ⟨why, hwhy⟩ := Hearing.exists_unexpected hheard hmisfit
      cases hfirst.symm.trans (Hearing.firstFault?_cons_of_some hwhy rest)
      exact ⟨moment, why, rfl⟩
  | outcome hall _ _ _ =>
      obtain ⟨_, hheard, hfits⟩ := hall _ List.mem_cons_self
      cases hheard
      exact absurd hfits hmisfit

/-- So are replies that fit, if there is nothing to wait for. -/
theorem KnowsReplies.expected {rest : List Hearing}
    (h : s.KnowsReplies requests wait (⟨requests, none, .ok replies⟩ :: rest))
    (hfits : Fits requests replies) (hsettled : wait = none ∨ ∀ y ∈ replies, y.isGranted = true) :
    ∃ moment o, s = .returned moment (.locked (.ok o)) ∧ o.Matches requests replies := by
  have hover : ¬ SomeRefused requests wait (⟨requests, none, .ok replies⟩ :: rest) := by
    rintro ⟨_, _, hcons, -, hwait, ⟨y, hy, hrefused⟩, -⟩
    cases hcons
    rcases hsettled with hnone | hgranted
    · exact hwait hnone
    · cases hrefused.symm.trans (hgranted y hy)
  obtain rfl : rest = [] := by
    rcases h.heard with hnil | ⟨answer, hone⟩ | hsomeRefused
    · cases hnil
    · exact (List.cons.inj hone).2
    · exact absurd hsomeRefused hover
  obtain ⟨moment, r, rfl, hreports⟩ := h.exists_reports (List.cons_ne_nil _ _) hover
  cases hreports with
  | fault hfirst =>
      have hnone : Hearing.fault? ⟨requests, none, .ok replies⟩ = none :=
        Hearing.fault?_eq_none_iff.mpr ⟨replies, rfl, hfits⟩
      rw [Hearing.firstFault?_singleton, hnone] at hfirst
      cases hfirst
  | @outcome replies' o _ _ hlast hmatches =>
      obtain rfl : replies' = replies :=
        List.ext_getElem? fun n => (hlast n).trans (Hearing.lastReply_first n)
      exact ⟨moment, o, rfl, hmatches⟩

/-- What becomes of a call that knows the last replies to its trees is decided by what it
has heard. -/
theorem KnowsReplies.decidedByReplies (h : s.KnowsReplies requests wait hs)
    (hnodup : (requests.flatMap Request.objectIds).Nodup) :
    s.DecidedByReplies requests wait hs := by
  constructor
  case asked =>
    rintro first rest rfl
    rcases h.heard with hnil | ⟨answer, hone⟩ | ⟨_, _, hcons, -, -, -, hrest⟩
    · cases hnil
    · cases hone
      exact ⟨rfl, rfl, fun _ hg => nomatch hg⟩
    · cases hcons
      exact ⟨rfl, rfl, hrest⟩
  case unexpected =>
    rintro replies rest rfl hmisfit
    exact h.unexpected hmisfit
  case expected =>
    rintro replies rest rfl hfits hsettled
    exact h.expected hfits hsettled
  case unexpected_later =>
    rintro before g after replies rfl hbefore hanswer hmisfit
    obtain ⟨why, hwhy⟩ := Hearing.exists_unexpected hanswer hmisfit
    refine h.fault?_eq.imp_right fun hfault => ⟨why, ?_⟩
    rw [hfault, Hearing.firstFault?_append, Hearing.firstFault?_eq_none_iff.mpr hbefore,
      Hearing.firstFault?_cons_of_some hwhy, Option.none_or]
  case reports =>
    rintro moment r rfl
    cases h with
    | returned _ hreports => exact hreports
  case ends =>
    rintro started limit replies branches failure rfl
    cases h with
    | waits _ _ _ hknowsReplies =>
        refine ⟨fun waited => ?_, fun hall c l => ?_⟩
        · obtain ⟨o, ho, -⟩ := Outcome.exists_matches hnodup hknowsReplies.fits waited
          exact ⟨o, ho⟩
        · obtain ⟨r, hfinish, hreports⟩ := hknowsReplies.reports hnodup hall started c.now limit
          refine ⟨r, ?_, hreports⟩
          simp only [CallState.step, if_pos hall, hfinish]

end CallState

/-! ## In a run -/

namespace World

variable {w w' : World} {e : Event} {es : List Event} {i k : Nat} {call : Call}

/-- With one event more, a call knows what it has heard by then. -/
theorem knowsReplies_of_next (hnodup : (requests.flatMap Request.objectIds).Nodup)
    (hn : w.next e = some w') (hcall : w.calls[k]? = some ⟨i, s⟩)
    (h : s.KnowsReplies requests wait hs) :
    ∃ s', w'.calls[k]? = some ⟨i, s'⟩ ∧
      s'.KnowsReplies requests wait (hs ++ w.hearingsOf k e) := by
  rcases exists_callStep_of_next hn hcall with ⟨hsame, hturn⟩ | ⟨l, s', l', hl, hb, -, hs', -, -⟩
  · rw [hearingsOf_eq_nil hturn, List.append_nil]
    exact ⟨s, hsame, h⟩
  · refine ⟨s', hs', ?_⟩
    cases hb with
    | call hstep =>
        rw [hearingsOf_turn hcall hl rfl]
        exact h.step hnodup hstep
    | branch hstep =>
        rw [hearingsOf_turn hcall hl rfl]
        exact h.stepBranch hstep
    | cancel =>
        rw [hearingsOf_eq_nil rfl, List.append_nil]
        exact CallState.knowsReplies_cancel h l

/-- Through a whole run a call knows what it has heard. -/
theorem knowsReplies_of_run (hnodup : (requests.flatMap Request.objectIds).Nodup)
    (hr : Run w es w') (hcall : w.calls[k]? = some ⟨i, s⟩) (h : s.KnowsReplies requests wait hs) :
    ∃ s', w'.calls[k]? = some ⟨i, s'⟩ ∧ s'.KnowsReplies requests wait (hs ++ w.hearings k es) := by
  induction hr generalizing hs s with
  | nil w =>
      rw [hearings, List.append_nil]
      exact ⟨s, hcall, h⟩
  | @cons w w₁ w' e es hn _ ih =>
      obtain ⟨s₁, hcall₁, h₁⟩ := knowsReplies_of_next hnodup hn hcall h
      rw [hearings_cons hn, ← List.append_assoc]
      exact ih hcall₁ h₁

/-- A valid call that begins asks for its trees, or has none to ask for. -/
theorem knowsReplies_of_lock (hl : w.link? i = some l)
    (hv : Client.validate requests wait = .ok ()) :
    ∃ s, (w.lock i requests wait).calls[w.calls.length]? = some ⟨i, s⟩ ∧
      s.KnowsReplies requests wait [] := by
  have hcall (state : CallState) :
      (w.calls ++ [⟨i, state⟩])[w.calls.length]? = some ⟨i, state⟩ := List.getElem?_concat_length
  unfold lock start
  simp only [hl]
  unfold CallState.lock
  simp only [hv]
  split
  · next hnil =>
      obtain rfl := List.isEmpty_iff.mp hnil
      have hnone : (List.flatMap Request.objectIds []).Nodup := List.nodup_nil
      obtain ⟨o, ho, hmatches⟩ := Outcome.exists_matches hnone .nil .zero
      cases ho
      exact ⟨_, hcall _, .returned (.inl rfl)
        (.outcome (fun _ hg => nomatch hg) .nil (fun _ => rfl) hmatches)⟩
  · exact ⟨_, hcall _, .asks⟩

/-- Whatever is answered to the messages of a valid call, its result matches its requests: with
replies that fit an outcome can always be put together, and in every run what the call hears
decides what becomes of it. -/
theorem decidedByReplies_of_lock (hl : w.link? i = some l)
    (hv : Client.validate requests wait = .ok ()) (hr : Run (w.lock i requests wait) es w') :
    (∀ replies waited, checkReplies requests replies = .ok replies →
      ∃ o, Outcome.assemble requests replies waited = .ok o ∧ o.Matches requests replies) ∧
    ∃ s, w'.calls[w.calls.length]? = some ⟨i, s⟩ ∧
      s.DecidedByReplies requests wait ((w.lock i requests wait).hearings w.calls.length es) := by
  have hnodup := (checkIds_eq_ok_iff.mp (checkIds_of_validate hv)).2
  refine ⟨fun replies waited hcheck => ?_, ?_⟩
  · exact Outcome.exists_matches hnodup (fits_of_checkReplies hcheck) waited
  · obtain ⟨s₀, hcall, hs₀⟩ := knowsReplies_of_lock hl hv
    obtain ⟨s, hs, hknowsReplies⟩ := knowsReplies_of_run hnodup hr hcall hs₀
    rw [List.nil_append] at hknowsReplies
    exact ⟨s, hs, hknowsReplies.decidedByReplies hnodup⟩

/-- A client that is told first that its tree is held, and then nothing of it. -/
def ofForgetful : World where
  calendar := 0
  authority := .ofTable {} ∅
  clients := [{ route := { lockScript := [
    { canned := some [.node ⟨"x", "ann", false, false, none⟩ []] }, { canned := some [] }] } }]

/-- The call is refused its tree, asks for it again, and returns. -/
def askedTwice : List Event :=
  .turn (.call 0) :: List.replicate 4 (.turn (.branch 0 0)) ++ [.turn (.call 0)]

/-- The wait for the tree fails with the second answer, and the call with the wait. -/
theorem unexpected_of_askedTwice : ∃ w',
    Run (ofForgetful.lock 0 [Request.of "x"] (some (.ofSeconds 5))) askedTwice w' ∧
      w'.calls[0]? = some ⟨0, .returned 0
        (.locked (.error (.unexpectedReply "expected 1 responses, got 0")))⟩ := by
  have hruns : ∃ w' ∈ (ofForgetful.lock 0 [Request.of "x"] (some (.ofSeconds 5))).follow askedTwice,
      ∃ call ∈ w'.calls[0]?, call.client = 0 ∧ (∃ x ∈ call.state.result?, x.1 = 0) ∧
        ∃ f ∈ call.state.fault?, True := by
    decide +kernel
  obtain ⟨w', hw', ⟨_, s⟩, hcall, rfl, ⟨⟨_, result⟩, hresult, rfl⟩, f, hf, -⟩ := hruns
  obtain rfl := CallState.eq_of_fault? hresult hf
  obtain ⟨l, hl⟩ : ∃ l, ofForgetful.link? 0 = some l := exists_link?_of_lt Nat.one_pos
  have hv : Client.validate [Request.of "x"] (some (.ofSeconds 5)) = .ok () := by decide +kernel
  have hheard : Hearing.firstFault? ((ofForgetful.lock 0 [Request.of "x"]
      (some (.ofSeconds 5))).hearings 0 askedTwice) =
        some (.unexpectedReply "expected 1 responses, got 0") := by
    decide +kernel
  obtain ⟨-, s, hs, hdecided⟩ := decidedByReplies_of_lock hl hv (run_of_follow hw')
  cases hs.symm.trans hcall
  cases hdecided.reports 0 _ rfl with
  | fault hfirst =>
      cases hfirst.symm.trans hheard
      exact ⟨w', run_of_follow hw', hcall⟩

end World

end LeasedLocks
