import LeasedLocks.Proofs.CallRuns

/-!
# Refusals name what is held

Whoever waits for a tree keeps, after a refusal, the tickets for the objects that the reply
says are held. The authority never refuses a tree without naming such an object, so whoever
is parked has something to wait for (`TreeWait.HasTickets`), as long as no answer is made up on
the way.
-/

namespace LeasedLocks

/-- A refusal names an object of the tree that somebody holds. -/
def Reply.Names (y : Reply) (r : Request) : Prop :=
  y.isGranted = false → ∃ id ∈ r.objectIds, id ∈ y.unavailableIds

/-- No answer to a message that asks for locks is made up on the way. -/
def Client.RelaysAnswers (c : Client) : Prop := ∀ h ∈ c.route.lockScript, h.canned = none

/-- Whoever asks for a tree has tickets for all of its objects, and whoever is parked for
one at least. -/
def TreeWait.HasTickets (t : TreeWait) : Prop :=
  match t.stage with
  | .round => True
  | .arming armed _ => armed.map Ticket.objectId = t.request.objectIds
  | .asking armed x => armed.map Ticket.objectId = t.request.objectIds ∧
      x.AnswersSatisfy fun replies => ∀ y ∈ replies, y.Names t.request
  | .parked => t.blocking ≠ []

variable {client client' : Client} {l l' : Link} {c : Clock} {t t' : TreeWait}
  {r : TreeProgress} {s s' : CallState} {deadline : Nat}

namespace Client

theorem RelaysAnswers.lasts (h : client.RelaysAnswers) (hlasts : client.Lasts client') :
    client'.RelaysAnswers :=
  fun handling hmem => h handling (hlasts.lockScript_isSuffix.subset hmem)

theorem RelaysAnswers.answersSatisfy_sendRequests (h : client.RelaysAnswers)
    (rs : List Request) (now : Nat) (P : List Reply → Prop) :
    (client.sendRequests rs now).1.AnswersSatisfy P := by
  change (client.route.lockScript.head?.getD {}).canned = none
  cases hscript : client.route.lockScript with
  | nil => rfl
  | cons handling rest => exact h handling (hscript ▸ List.mem_cons_self)

end Client

/-- Every reply of the authority to a single tree is one that names what is held. -/
theorem Route.names_of_passRequests (route : Route) {q : Request} {replies : List Reply}
    {a : Authority} (h : (route.passRequests c [q] a).1 = .ok replies) :
    ∀ y ∈ replies, y.Names q := by
  obtain ⟨reply, rfl, hq⟩ := exists_request_of_passRequests h
  intro y hy hrefused
  obtain rfl := List.mem_singleton.mp hy
  exact (Authority.responded_of_request hq).answered.exists_unavailable hrefused

namespace TreeWait

/-- A wait is parked only with a refusal. -/
theorem refused_of_step (h : t.step c deadline l = some (.goesOn t', l'))
    (hparked : t'.stage = .parked) :
    ∃ reply, t'.latest = some reply ∧ reply.isGranted = false := by
  cases steps_of_step h with
  | arms _ => cases hparked
  | joins _ _ => cases hparked
  | joined _ _ => cases hparked
  | asks _ _ => cases hparked
  | wakes _ _ => cases hparked
  | @parks armed x replies reply l₁ hstage ha _ =>
      simp only [step, hstage, ha] at h
      have hanswered := Option.some.inj h
      rcases t.answered_cases armed (.ok replies) l₁ with
        ⟨e, heq⟩ | ⟨_, reply', -, -, -, ⟨-, heq⟩ | ⟨hrefused, heq⟩⟩
      · cases heq.symm.trans hanswered
      · cases heq.symm.trans hanswered
      · cases heq.symm.trans hanswered
        exact ⟨reply, rfl, hrefused⟩

theorem HasTickets.blocking_ne_nil (h : t.HasTickets) (hparked : t.stage = .parked) :
    t.blocking ≠ [] := by
  rwa [HasTickets, hparked] at h

theorem IsFresh.hasTickets (h : t.IsFresh) : t.HasTickets := by
  rw [HasTickets, h.stage_eq]
  trivial

/-- A step of a wait leaves it with something to wait for. -/
theorem HasTickets.step (h : t.HasTickets) (hc : l.client.RelaysAnswers)
    (hs : t.step c deadline l = some (r, l')) : ∀ t' ∈ r.waits, t'.HasTickets := by
  cases r with
  | ended result => exact fun _ ht => nomatch ht
  | goesOn t' =>
      intro u hu
      obtain rfl := List.mem_singleton.mp hu
      have hrefused := refused_of_step hs
      unfold HasTickets at h
      cases steps_of_step hs with
      | arms hstage => exact Waitlist.objectId_registerAll _ _
      | joins hstage hj =>
          rw [hstage] at h
          exact h
      | joined hstage hj =>
          rw [hstage] at h
          have hrelays := hc.lasts (Link.keeps_joinUnlocks hj).toLasts
          exact ⟨h, hrelays.answersSatisfy_sendRequests [t.request] c.now _⟩
      | asks hstage ha =>
          rw [hstage] at h
          refine ⟨h.1, ?_⟩
          exact h.2.step (fun _ _ => Route.names_of_passRequests _) (Link.ask_eq_some ha).2.2
      | wakes hstage hfreed => trivial
      | @parks armed x replies reply l₁ hstage ha hreply =>
          rw [hstage] at h
          obtain ⟨_, hlatest, hrefused⟩ := hrefused rfl
          cases hlatest
          have hrelays : Exchanged.AnswersSatisfy _ (.answered (.ok replies)) :=
            h.2.step (fun _ _ => Route.names_of_passRequests _) (Link.ask_eq_some ha).2.2
          obtain ⟨id, hid, hheld⟩ := hrelays replies rfl reply hreply hrefused
          rw [← h.1] at hid
          obtain ⟨k, hk, rfl⟩ := List.mem_map.mp hid
          have hkept : k ∈ (t.park armed reply l₁).1.blocking :=
            List.mem_filter.mpr ⟨hk, List.contains_iff_mem.mpr hheld⟩
          exact List.ne_nil_of_mem hkept

end TreeWait

namespace CallState

/-- A turn of the task that makes the call. -/
theorem hasTickets_of_step (h : s.step c l = some (s', l')) : ∀ t ∈ s'.waits, t.HasTickets :=
  fun t ht => TreeWait.IsFresh.hasTickets (isFresh_of_step h t ht)

/-- A turn of whoever waits for one of the trees. -/
theorem hasTickets_of_stepBranch {b : Nat} (hhasTickets : ∀ t ∈ s.waits, t.HasTickets)
    (hc : l.client.RelaysAnswers) (h : s.stepBranch c b l = some (s', l')) :
    ∀ t ∈ s'.waits, t.HasTickets := by
  obtain ⟨t, r, _, kept, hold, hnew, hstep⟩ := waits_of_stepBranch h
  have ht : t.HasTickets := hhasTickets t (hold.mem_iff.mpr List.mem_cons_self)
  intro u hu
  rcases List.mem_append.mp (hnew.mem_iff.mp hu) with hu | hu
  · exact ht.step hc hstep u hu
  · exact hhasTickets u (hold.mem_iff.mpr (List.mem_cons_of_mem _ hu))

end CallState

namespace World

variable {w w' : World} {e : Event} {i k : Nat}

/-- Whatever happens, all waits of a call have something to wait for. -/
theorem hasTickets_of_next (hn : w.next e = some w') (hl : w.link? i = some l)
    (hc : l.client.RelaysAnswers) (hcall : w.calls[k]? = some ⟨i, s⟩)
    (h : ∀ t ∈ s.waits, t.HasTickets) :
    ∃ s', w'.calls[k]? = some ⟨i, s'⟩ ∧ ∀ t ∈ s'.waits, t.HasTickets := by
  rcases exists_callStep_of_next hn hcall with ⟨hsame, -⟩ | ⟨m, s', m', hm, hb, -, hs', -, -⟩
  · exact ⟨s, hsame, h⟩
  · rw [hl] at hm
    cases hm
    refine ⟨s', hs', ?_⟩
    cases hb with
    | call hstep => exact CallState.hasTickets_of_step hstep
    | branch hstep => exact CallState.hasTickets_of_stepBranch h hc hstep
    | cancel =>
        rw [(CallState.does_of_cancel (c := w.clock) s l).1]
        exact fun _ ht => nomatch ht

/-- In the course of a whole run all waits of a call have something to wait for. -/
theorem hasTickets_of_run {es : List Event} (hr : Run w es w') (hl : w.link? i = some l)
    (hc : l.client.RelaysAnswers) (hcall : w.calls[k]? = some ⟨i, s⟩)
    (h : ∀ t ∈ s.waits, t.HasTickets) :
    ∃ s', w'.calls[k]? = some ⟨i, s'⟩ ∧ ∀ t ∈ s'.waits, t.HasTickets := by
  induction hr generalizing l s with
  | nil w => exact ⟨s, hcall, h⟩
  | cons hn _ ih =>
      obtain ⟨l₁, hl₁, hlasts⟩ := keepsClients_of_next hn i l hl
      obtain ⟨s₁, hcall₁, h₁⟩ := hasTickets_of_next hn hl hc hcall h
      exact ih hl₁ (hc.lasts hlasts) hcall₁ h₁

/-- From its beginning on all waits of a call have something to wait for. -/
theorem hasTickets_of_lock {es : List Event} {requests : List Request} {wait : Option Duration}
    (hl : w.link? i = some l) (hc : l.client.RelaysAnswers)
    (hr : Run (w.lock i requests wait) es w') (hl' : w'.link? i = some l')
    (hcall : w'.calls[w.calls.length]? = some ⟨i, s⟩) :
    l'.client.RelaysAnswers ∧ ∀ t ∈ s.waits, t.HasTickets := by
  obtain ⟨s₀, l₀, hcall₀, hl₀, -, -, hs₀⟩ := lock_cases hl requests wait
  have hc₀ := hc.lasts (lasts_lock hl hl₀)
  have hcovers₀ : ∀ t ∈ s₀.waits, t.HasTickets := by
    rcases hs₀ with ⟨_, rfl, -⟩ | ⟨-, rfl⟩ <;> exact fun _ ht => nomatch ht
  obtain ⟨s₁, hs₁, hhasTickets⟩ := hasTickets_of_run hr hl₀ hc₀ hcall₀ hcovers₀
  rw [hcall] at hs₁
  cases hs₁
  obtain ⟨m, hm, hlasts⟩ := keepsClients_of_run hr i l₀ hl₀
  rw [hl'] at hm
  cases hm
  exact ⟨hc₀.lasts hlasts, hhasTickets⟩

end World

end LeasedLocks
