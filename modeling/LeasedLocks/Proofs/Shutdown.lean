import LeasedLocks.Proofs.GoodTickets
import LeasedLocks.Proofs.Justification
import LeasedLocks.Proofs.Messages

/-!
# Calls of a client that is shut down

A client that is shut down settles the tickets of all its waits. A wait that is asleep by
then, with a message on its way or parked, gives up once it has its answer
(`TreeWait.NeverWakes`). A call that has heard of none of its trees, and a wait that begins a
round or opens the stream, are not stopped: the former takes tickets later, which nobody
settles, and the latter asks before it looks at its own. So whatever a call sends after the
shutdown is for such trees (`CallState.IsAwake`).
-/

namespace LeasedLocks

/-- The wait asks for its tree again only when some of its tickets, which are not good yet,
turn good. -/
def TreeWait.IsAsleep (l : Link) (t : TreeWait) : Prop :=
  match t.stage with
  | .asking armed _ => ∀ k ∈ armed, l.client.unlocks.list.outcome? k ≠ some true
  | .parked => ∃ k ∈ t.blocking, l.client.unlocks.list.outcome? k ≠ some true
  | _ => False

/-- The wait is asleep, and nothing wakes it any more. -/
structure TreeWait.NeverWakes (l : Link) (t : TreeWait) : Prop where
  asleep : t.IsAsleep l
  settled : ∀ k ∈ t.tickets, l.client.unlocks.list.outcome? k ≠ none

namespace CallState

/-- The trees of a call that has heard of none of them yet. -/
def unanswered : CallState → List Request
  | locking requests _ (.asking _) => requests
  | _ => []

/-- The call may ask for the tree, for the first time or once more, without any more of its
tickets turning good. -/
def IsAwake (l : Link) (s : CallState) (q : Request) : Prop :=
  q ∈ s.unanswered ∨ ∃ t ∈ s.waits, t.request = q ∧ ¬ t.IsAsleep l

/-- A message of the call is on its way. -/
def IsAsking (s : CallState) : Prop :=
  (∃ requests wait x, s = .locking requests wait (.asking x)) ∨
    ∃ t ∈ s.waits, ∃ armed x, t.stage = .asking armed x

/-- The call goes on only with trees that were awake. -/
structure OnlyAwakeGoOn (awake : Request → Prop) (l : Link) (s : CallState) : Prop where
  unanswered : ∀ q ∈ s.unanswered, awake q
  neverWakes : ∀ t ∈ s.waits, ¬ awake t.request → t.NeverWakes l

end CallState

variable {l l' : Link} {c : Clock} {t : TreeWait} {r : TreeProgress} {s s' : CallState}
  {deadline : Nat} {awake : Request → Prop} {requests : List Request} {o : Outcome}

/-- All these tickets keep what they came to. -/
def Link.Retains (l l' : Link) (ks : List Ticket) : Prop :=
  ∀ k ∈ ks, ∀ b, l.client.unlocks.list.outcome? k = some b →
    l'.client.unlocks.list.outcome? k = some b

namespace TreeWait

/-! ## One wait -/

theorem isAsleep_of_asking {armed : List Ticket} {x : Exchange (List Reply)}
    (hstage : t.stage = .asking armed x) :
    t.IsAsleep l ↔ ∀ k ∈ armed, l.client.unlocks.list.outcome? k ≠ some true := by
  rw [IsAsleep, hstage]

theorem isAsleep_of_parked (hstage : t.stage = .parked) :
    t.IsAsleep l ↔ ∃ k ∈ t.blocking, l.client.unlocks.list.outcome? k ≠ some true := by
  rw [IsAsleep, hstage]

instance decidableIsAsleep (l : Link) (t : TreeWait) : Decidable (t.IsAsleep l) :=
  match h : t.stage with
  | .asking _ _ => decidable_of_iff _ (isAsleep_of_asking h).symm
  | .parked => decidable_of_iff _ (isAsleep_of_parked h).symm
  | .round => isFalse fun hasleep => by rwa [IsAsleep, h] at hasleep
  | .arming _ _ => isFalse fun hasleep => by rwa [IsAsleep, h] at hasleep

/-- Only a wait whose message is on its way or that is parked may be asleep. -/
theorem IsAsleep.stage_cases (h : t.IsAsleep l) :
    (∃ armed x, t.stage = .asking armed x) ∨ t.stage = .parked := by
  unfold IsAsleep at h
  split at h
  · next armed x hstage => exact .inl ⟨armed, x, hstage⟩
  · next hstage => exact .inr hstage
  · exact h.elim

/-- A wait sleeps on as long as its tickets do not turn good. -/
theorem IsAsleep.later (h : t.IsAsleep l)
    (hlater : ∀ k ∈ t.tickets, l.client.unlocks.list.outcome? k ≠ some true →
      l'.client.unlocks.list.outcome? k ≠ some true) : t.IsAsleep l' := by
  rcases h.stage_cases with ⟨armed, x, hstage⟩ | hstage
  · rw [isAsleep_of_asking hstage] at h ⊢
    rw [(books_of_asking hstage).1] at hlater
    exact fun k hk => hlater k (List.mem_append_left _ hk) (h k hk)
  · rw [isAsleep_of_parked hstage] at h ⊢
    rw [(books_of_parked hstage).1] at hlater
    obtain ⟨k, hk, hne⟩ := h
    exact ⟨k, hk, hlater k hk hne⟩

theorem NeverWakes.later (h : t.NeverWakes l) (hretains : l.Retains l' t.tickets) :
    t.NeverWakes l' := by
  have hsame : ∀ k ∈ t.tickets,
      l'.client.unlocks.list.outcome? k = l.client.unlocks.list.outcome? k := by
    intro k hk
    obtain ⟨b, hb⟩ := Option.ne_none_iff_exists'.mp (h.settled k hk)
    rw [hb, hretains k hk b hb]
  constructor
  case asleep => exact h.asleep.later fun k hk hne => hsame k hk ▸ hne
  case settled => exact fun k hk => hsame k hk ▸ h.settled k hk

/-- The shutdown of its client lets nobody sleep on. -/
theorem IsAsleep.shutdown (h : t.IsAsleep l)
    (hsettles : ∀ k ∈ t.tickets, l'.client.unlocks.list.outcome? k =
      some ((l.client.unlocks.list.outcome? k).getD false)) : t.NeverWakes l' := by
  constructor
  case asleep =>
    refine h.later fun k hk hne => ?_
    rw [hsettles k hk]
    cases ho : l.client.unlocks.list.outcome? k with
    | none => exact fun h => nomatch h
    | some b => exact ho ▸ hne
  case settled =>
    intro k hk
    rw [hsettles k hk]
    exact fun h => nomatch h

/-- A wait that nothing wakes sends nothing. -/
theorem NeverWakes.sends_eq_nil (h : t.NeverWakes l) (now : Nat) (r : TreeProgress) :
    t.sends now r = [] := by
  rcases h.asleep.stage_cases with ⟨armed, x, hstage⟩ | hstage <;>
    cases r with
    | goesOn t' => rw [sends, hstage]
    | ended result => rfl

/-- Nothing comes of a step of a wait that nothing wakes but that it gives up, if it keeps
something to wait for. -/
theorem NeverWakes.step (h : t.NeverWakes l) (hs : t.Steps c l r l')
    (hhasTickets : ∀ t' ∈ r.waits, t'.HasTickets) : ∀ t' ∈ r.waits, t'.NeverWakes l := by
  have hasleep := h.asleep
  have hsettled := h.settled
  cases hs with
  | ends | failed _ _ | settles _ _ => exact fun _ h => nomatch h
  | arms hstage | joins hstage _ | joined hstage _ =>
      rcases hasleep.stage_cases with ⟨_, _, hasking⟩ | hparked
      · cases hstage.symm.trans hasking
      · cases hstage.symm.trans hparked
  | asks hstage _ =>
      intro t' ht'
      obtain rfl := List.mem_singleton.mp ht'
      rw [isAsleep_of_asking hstage] at hasleep
      rw [(books_of_asking hstage).1] at hsettled
      exact ⟨hasleep, hsettled⟩
  | @parks armed _ _ reply l₁ hstage _ _ =>
      intro t' ht'
      obtain rfl := List.mem_singleton.mp ht'
      rw [isAsleep_of_asking hstage] at hasleep
      rw [(books_of_asking hstage).1] at hsettled
      -- it parks with some of the tickets that it has
      have hkept : ∀ k ∈ (t.park armed reply l₁).1.blocking, k ∈ armed :=
        fun k hk => List.mem_of_mem_filter hk
      obtain ⟨k, hk⟩ := List.exists_mem_of_ne_nil _ (hhasTickets _ ht')
      exact ⟨⟨k, hk, hasleep k (hkept k hk)⟩,
        fun k hk => hsettled k (List.mem_append_left _ (hkept k hk))⟩
  | wakes hstage hfreed =>
      rw [isAsleep_of_parked hstage] at hasleep
      obtain ⟨k, hk, hne⟩ := hasleep
      exact absurd (outcome?_of_allFreed? hfreed k hk) hne

/-- Of the waits that nothing wakes only those are left whose message is on its way. -/
theorem NeverWakes.asking_of_blocked (h : t.NeverWakes l) (hblocked : t.step c deadline l = none) :
    ∃ armed x, t.stage = .asking armed x := by
  rcases h.asleep.stage_cases with hasking | hparked
  · exact hasking
  · have hasleep := (isAsleep_of_parked hparked).mp h.asleep
    have hsettled := h.settled
    rw [(books_of_parked hparked).1] at hsettled
    simp only [TreeWait.step, hparked] at hblocked
    rcases allFreed?_cases l.client.unlocks.list t.blocking with
      ⟨hall, -⟩ | ⟨k, hk, hne, heq⟩
    · rw [hall] at hblocked
      cases hblocked
    · obtain ⟨b, hb⟩ := Option.ne_none_iff_exists'.mp (hsettled k hk)
      rw [heq, hb] at hblocked
      cases b <;> cases hblocked

theorem eq_of_mem_sends {now : Nat} {m : Nat × List String} (h : m ∈ t.sends now r) :
    m.2 = [t.request.objectId] := by
  unfold sends at h
  split at h
  · split at h
    · rw [List.mem_singleton.mp h]
    · cases h
  · cases h

end TreeWait

/-! ## One call -/

namespace CallState

/-- What a call waits for after a turn of its own task is what it asked for. -/
theorem request_of_step (h : s.step c l = some (s', l')) :
    (∀ q ∈ s'.unanswered, q ∈ s.unanswered) ∧ ∀ t ∈ s'.waits, t.request ∈ s.unanswered := by
  have hnone {u : CallState} (hunanswered : u.unanswered = []) (hwaits : u.waits = []) :
      (∀ q ∈ u.unanswered, q ∈ s.unanswered) ∧ ∀ t ∈ u.waits, t.request ∈ s.unanswered := by
    rw [hunanswered, hwaits]
    exact ⟨(fun _ hq => nomatch hq), fun _ ht => nomatch ht⟩
  cases steps_of_step h with
  | asks _ => exact ⟨(fun _ hq => hq), fun _ ht => nomatch ht⟩
  | @hears requests wait _ answer _ _ _ =>
      rcases answered_cases requests wait c.now answer with
        ⟨e, heq⟩ | ⟨replies, -, -, heq | ⟨d, -, -, heq⟩⟩
      · rw [heq]
        exact hnone rfl rfl
      · rw [heq]
        exact hnone rfl rfl
      · rw [heq]
        refine ⟨(fun _ hq => nomatch hq), fun t ht => ?_⟩
        obtain ⟨b, hb, hwait⟩ := List.mem_filterMap.mp ht
        exact List.mem_of_getElem? (getElem?_of_mem_branchesOf hb hwait)
  | crashes _ | finishes _ _ | passes _ | released _ | joins _ | joined _ => exact hnone rfl rfl

theorem OnlyAwakeGoOn.step (h : s.OnlyAwakeGoOn awake l) (hs : s.step c l = some (s', l')) :
    s'.OnlyAwakeGoOn awake l' := by
  obtain ⟨hunanswered, hwaits⟩ := request_of_step hs
  constructor
  case unanswered => exact fun q hq => h.unanswered q (hunanswered q hq)
  case neverWakes => exact fun t ht hnot => absurd (h.unanswered _ (hwaits t ht)) hnot

theorem OnlyAwakeGoOn.stepBranch {b : Nat} (h : s.OnlyAwakeGoOn awake l)
    (hs : s.stepBranch c b l = some (s', l')) (hhasTickets : ∀ t ∈ s'.waits, t.HasTickets)
    (hretains : ∀ t ∈ s'.waits, l.Retains l' t.tickets) :
    s'.OnlyAwakeGoOn awake l' ∧ ∃ ms, l'.client.sent.toList = l.client.sent.toList ++ ms ∧
      ∀ m ∈ ms, ∃ q, awake q ∧ m.2 = [q.objectId] := by
  obtain ⟨t, r, _, kept, hold, hnew, hstep⟩ := waits_of_stepBranch hs
  have hsteps := TreeWait.steps_of_step hstep
  have ht : t ∈ s.waits := hold.mem_iff.mpr List.mem_cons_self
  constructor
  · constructor
    case unanswered =>
      obtain ⟨_, _, _, _, _, _, _, _, _, _, -, -, -, rfl⟩ := stepBranch_eq_some hs
      exact fun _ hq => nomatch hq
    case neverWakes =>
      intro u hu hnot
      refine TreeWait.NeverWakes.later ?_ (hretains u hu)
      rcases List.mem_append.mp (hnew.mem_iff.mp hu) with hu | hu
      · have hrequest := request_of_steps hsteps u hu
        have hwakes := h.neverWakes t ht (hrequest ▸ hnot)
        exact hwakes.step hsteps
          (fun u hu => hhasTickets u (hnew.mem_iff.mpr (List.mem_append_left _ hu))) u hu
      · exact h.neverWakes u (hold.mem_iff.mpr (List.mem_cons_of_mem _ hu)) hnot
  · refine ⟨t.sends c.now r, TreeWait.sent_of_steps hsteps, fun m hm => ?_⟩
    refine ⟨t.request, ?_, TreeWait.eq_of_mem_sends hm⟩
    by_contra hnot
    rw [(h.neverWakes t ht hnot).sends_eq_nil] at hm
    cases hm

theorem OnlyAwakeGoOn.later (h : s.OnlyAwakeGoOn awake l)
    (hretains : ∀ t ∈ s.waits, l.Retains l' t.tickets) : s.OnlyAwakeGoOn awake l' where
  unanswered := h.unanswered
  neverWakes t ht hnot := (h.neverWakes t ht hnot).later (hretains t ht)

theorem OnlyAwakeGoOn.cancel (h : s.OnlyAwakeGoOn awake l) :
    (s.cancel l).1.OnlyAwakeGoOn awake l' := by
  constructor
  case unanswered =>
    cases s with
    | locking rs wait stage => cases stage <;> exact fun _ hq => nomatch hq
    | _ => exact fun _ hq => nomatch hq
  case neverWakes =>
    rw [(does_of_cancel (c := ⟨0, 0⟩) s l).1]
    exact fun _ ht => nomatch ht

end CallState

/-! ## Runs -/

namespace World

variable {w w' : World} {e : Event} {es : List Event} {i k : Nat}

/-- What the tickets of a client came to does not change. -/
theorem retains_of_next (hw : Serves w) (hn : w.next e = some w') (hl : w.link? i = some l)
    (hl' : w'.link? i = some l') (hcall : w'.calls[k]? = some ⟨i, s⟩) :
    ∀ t ∈ s.waits, l.Retains l' t.tickets := by
  intro t ht ticket hticket b hb
  rcases outcome?_of_next hw hn hl hl' (mem_ticketsOf_waits hcall ht hticket) with
    hsame | ⟨hnone, -⟩
  · exact hsame.trans hb
  · cases hnone.symm.trans hb

/-- With one event more, a call still goes on only with trees that were awake. -/
theorem onlyAwakeGoOn_of_next (hw : Serves w) (hn : w.next e = some w') (hl : w.link? i = some l)
    (hc : l.client.RelaysAnswers) (hcall : w.calls[k]? = some ⟨i, s⟩)
    (hhasTickets : ∀ t ∈ s.waits, t.HasTickets) (h : s.OnlyAwakeGoOn awake l) :
    ∃ s' l', w'.calls[k]? = some ⟨i, s'⟩ ∧ w'.link? i = some l' ∧ l'.client.RelaysAnswers ∧
      (∀ t ∈ s'.waits, t.HasTickets) ∧ s'.OnlyAwakeGoOn awake l' ∧
      ∀ m ∈ w.messagesOf i k e, ∃ q, awake q ∧ m.2 = [q.objectId] := by
  obtain ⟨l', hl', hlasts⟩ := keepsClients_of_next hn i l hl
  obtain ⟨s', hs', hcovers'⟩ := hasTickets_of_next hn hl hc hcall hhasTickets
  have hretains := retains_of_next hw hn hl hl' hs'
  refine ⟨s', l', hs', hl', hc.lasts hlasts, hcovers', ?_⟩
  rcases callStep_of_next hn hl hl' hcall with ⟨hsame, hturn⟩ | ⟨u, hb, -, hu, hclients⟩
  · -- somebody else's event
    rw [hs'] at hsame
    cases hsame
    rw [messagesOf_eq_nil hturn]
    exact ⟨h.later hretains, fun _ hm => nomatch hm⟩
  · rw [hs'] at hu
    cases hu
    cases hb with
    | call hstep =>
        rw [messagesOf_call hn hl hclients hstep]
        exact ⟨h.step hstep, fun _ hm => nomatch hm⟩
    | branch hstep =>
        obtain ⟨hoff, ms, hsent, hawake⟩ := h.stepBranch hstep hcovers' hretains
        rw [messagesOf_turn hn hl hclients (beq_self_eq_true _) hsent]
        exact ⟨hoff, hawake⟩
    | cancel =>
        rw [messagesOf_eq_nil rfl]
        exact ⟨h.cancel, fun _ hm => nomatch hm⟩

theorem onlyAwakeGoOn_of_run (hr : Run w es w') (hw : Serves w) (hl : w.link? i = some l)
    (hc : l.client.RelaysAnswers) (hcall : w.calls[k]? = some ⟨i, s⟩)
    (hhasTickets : ∀ t ∈ s.waits, t.HasTickets) (h : s.OnlyAwakeGoOn awake l) :
    (∃ s' l', w'.calls[k]? = some ⟨i, s'⟩ ∧ w'.link? i = some l' ∧ s'.OnlyAwakeGoOn awake l') ∧
      ∀ m ∈ w.messages i k es, ∃ q, awake q ∧ m.2 = [q.objectId] := by
  induction hr generalizing l s with
  | nil w => exact ⟨⟨s, l, hcall, hl, h⟩, fun _ hm => nomatch hm⟩
  | @cons w w₁ w' e es hn hr ih =>
      obtain ⟨s₁, l₁, hcall₁, hl₁, hc₁, hcovers₁, h₁, hmessages⟩ :=
        onlyAwakeGoOn_of_next hw hn hl hc hcall hhasTickets h
      obtain ⟨hend, hrest⟩ :=
        ih (Serves.clientsStep hw (clientsStep_of_next hn)) hl₁ hc₁ hcall₁ hcovers₁ h₁
      refine ⟨hend, fun m hm => ?_⟩
      rw [messages_cons hn] at hm
      rcases List.mem_append.mp hm with hm | hm
      · exact hmessages m hm
      · exact hrest m hm

/-- When its client is shut down, a call goes on only with the trees that are awake. -/
theorem onlyAwakeGoOn_shutdown (hw : Serves w) (hl : w.link? i = some l)
    (hcall : w.calls[k]? = some ⟨i, s⟩) :
    s.OnlyAwakeGoOn (s.IsAwake l) { l with client := l.client.shutdown } := by
  constructor
  case unanswered => exact fun q hq => .inl hq
  case neverWakes =>
    intro t ht hnot
    have hasleep : t.IsAsleep l := by
      by_contra hawake
      exact hnot (.inr ⟨t, ht, rfl, hawake⟩)
    apply hasleep.shutdown
    exact fun ticket hk => outcome?_shutdown hw hl (mem_ticketsOf_waits hcall ht hk)

/-- At rest, a call that goes on only with trees that were awake is over, or one of them was
awake, or a message is on its way. -/
theorem isOver_of_quiescent {ps : List Petition} (hq : system.Quiescent w)
    (hl : w.link? i = some l) (hcall : w.calls[k]? = some ⟨i, s⟩)
    (hjustified : s.Justified requests ps) (h : s.OnlyAwakeGoOn awake l) :
    s.isOver = true ∨ (∃ q, awake q) ∨ s.IsAsking := by
  by_cases hwaits : s.waits = []
  · cases hjustified with
    | asks _ => exact .inr (.inr (.inl ⟨_, _, _, rfl⟩))
    | returned _ => exact .inl rfl
    | cancelled => exact .inl rfl
    | waits _ _ =>
        -- all waits are over, and the call returns
        exfalso
        have hblocked := stepCall_eq_none hcall hl (hq (.call k))
        rw [CallState.waits, List.filterMap_eq_nil_iff] at hwaits
        have hall := List.all_eq_true.mpr fun b hb => Option.isNone_iff_eq_none.mpr (hwaits b hb)
        simp only [CallState.step, if_pos hall] at hblocked
        cases hblocked
  · obtain ⟨t, ht⟩ := List.exists_mem_of_ne_nil _ hwaits
    by_cases hawake : awake t.request
    · exact .inr (.inl ⟨_, hawake⟩)
    · obtain ⟨deadline, hblocked⟩ := blocked_of_quiescent hq hl (mem_waits hcall ht)
      exact .inr (.inr (.inr ⟨t, ht, (h.neverWakes t ht hawake).asking_of_blocked hblocked⟩))

/-- After the shutdown of its client a call sends messages only for the trees that are awake
by then. If there are none it comes to its end, as soon as no message is on its way. A tree
that was not granted with one of the petitions of the call is reported as not granted. -/
theorem asks_only_for_awake_after_shutdown {w₀ w₁ w₂ : World} {es₀ es₁ es₂ : List Event} {l₁ : Link}
    {wait : Option Duration} (hw₀ : IsNew w₀) (hr₀ : Run w₀ es₀ w) (hl : w.link? i = some l)
    (hc : l.client.RelaysAnswers) (hr₁ : Run (w.lock i requests wait) es₁ w₁)
    (hl₁ : w₁.link? i = some l₁) (hcall : w₁.calls[w.calls.length]? = some ⟨i, s⟩)
    (hr₂ : Run (w₁.shutdown i) es₂ w₂) :
    (∀ m ∈ (w₁.shutdown i).messages i w.calls.length es₂,
        ∃ q, s.IsAwake l₁ q ∧ m.2 = [q.objectId]) ∧
      (system.Quiescent w₂ → ∃ s', w₂.calls[w.calls.length]? = some ⟨i, s'⟩ ∧
        (s'.isOver = true ∨ (∃ q, s.IsAwake l₁ q) ∨ s'.IsAsking)) ∧
      ∀ moment o, w₂.calls[w.calls.length]? = some ⟨i, .returned moment (.locked (.ok o))⟩ →
        ∀ n q, requests[n]? = some q → Petition.grants ((w.lock i requests wait).petitions
            w.calls.length (es₁ ++ .shutdown i :: es₂)) n = [] →
          ∀ id ∈ q.objectIds, ∃ status, o.get? id = some status ∧ status.isGranted = false := by
  have hlock : w.next (.lock i requests wait) = some (w.lock i requests wait) := rfl
  have hshut : w₁.next (.shutdown i) = some (w₁.shutdown i) := rfl
  have hr : Run (w.lock i requests wait) (es₁ ++ .shutdown i :: es₂) w₂ :=
    hr₁.append (.cons hshut hr₂)
  have hw₁ : Serves w₁ :=
    Serves.run (Serves.run (serves_of_isNew hw₀) hr₀) (.cons hlock hr₁)
  obtain ⟨hc₁, hhasTickets⟩ := hasTickets_of_lock hl hc hr₁ hl₁ hcall
  have hc₁' : l₁.client.shutdown.RelaysAnswers := hc₁
  obtain ⟨⟨s₂, l₂, hcall₂, hl₂, hoff⟩, hmessages⟩ :=
    onlyAwakeGoOn_of_run hr₂ (Serves.clientsStep hw₁ (clientsStep_of_next hshut))
      (link?_shutdown hl₁) hc₁' hcall hhasTickets (onlyAwakeGoOn_shutdown hw₁ hl₁ hcall)
  refine ⟨hmessages, fun hq => ?_, fun moment o hend n q hn hnone => ?_⟩
  · obtain ⟨s', hs', hjustified, -⟩ := justified_of_lock hl hc hr
    rw [hcall₂] at hs'
    cases hs'
    exact ⟨s₂, hcall₂, isOver_of_quiescent hq hl₂ hcall₂ hjustified hoff⟩
  · exact refused_of_grants_eq_nil hl hc hr hend hn hnone

/-- A call is refused its tree, and parks. -/
def parked : List Event :=
  [.turn (.call 0), .turn (.call 0)] ++ List.replicate 5 (.turn (.branch 0 0))

/-- The tree becomes free, and its wait hears that no news will come. -/
def calledOff : List Event :=
  [.visit (.release "x" false), .turn (.branch 0 0), .turn (.call 0)]

theorem asks_nothing_after_parked : ∃ w₁ w₂ o,
    let w := ofHolder.lock 0 [Request.of "x"] (some (.ofSeconds 5))
    Run w parked w₁ ∧ Run (w₁.shutdown 0) calledOff w₂ ∧
      (w₁.shutdown 0).messages 0 0 calledOff = [] ∧
      w₂.calls[0]? = some ⟨0, .returned 0 (.locked (.ok o))⟩ ∧
      ∃ status, o.get? "x" = some status ∧ status.isGranted = false := by
  have hruns : ∃ w₁ ∈ (ofHolder.lock 0 [Request.of "x"] (some (.ofSeconds 5))).follow parked,
      (∃ call ∈ w₁.calls[0]?, ∃ l₁ ∈ w₁.link? 0, call.client = 0 ∧
        call.state.unanswered.isEmpty = true ∧ ∀ t ∈ call.state.waits, t.IsAsleep l₁) ∧
      ∃ w₂ ∈ (w₁.shutdown 0).follow calledOff, ∃ call ∈ w₂.calls[0]?, call.client = 0 ∧
        ∃ x ∈ call.state.outcome?, x.1 = 0 := by
    decide +kernel
  have hgrants : (Petition.grants ((ofHolder.lock 0 [Request.of "x"]
      (some (.ofSeconds 5))).petitions 0 (parked ++ .shutdown 0 :: calledOff)) 0).length = 0 := by
    decide +kernel
  obtain ⟨w₁, hw₁, ⟨⟨_, s₁⟩, hcall₁, l₁, hl₁, rfl, hanswered, hasleep⟩, w₂, hw₂, ⟨_, s₂⟩, hcall₂,
    rfl, ⟨_, o⟩, ho, rfl⟩ := hruns
  obtain rfl := CallState.eq_of_outcome? ho
  obtain ⟨l, hl, hclient⟩ := exists_link?_ofHolder
  have hrelays : l.client.RelaysAnswers := by
    rw [hclient]
    exact fun h hmem => nomatch hmem
  have hnotAwake (q : Request) : ¬ s₁.IsAwake l₁ q := by
    rintro (hq | ⟨t, ht, -, hawake⟩)
    · rw [List.isEmpty_iff.mp hanswered] at hq
      cases hq
    · exact hawake (hasleep t ht)
  obtain ⟨hmessages, -, hreport⟩ := asks_only_for_awake_after_shutdown isNew_ofHolder (.nil _) hl
    hrelays (run_of_follow hw₁) hl₁ hcall₁ (run_of_follow hw₂)
  refine ⟨w₁, w₂, o, run_of_follow hw₁, run_of_follow hw₂, ?_, hcall₂, ?_⟩
  · refine List.eq_nil_iff_forall_not_mem.mpr fun m hm => ?_
    obtain ⟨q, hq, -⟩ := hmessages m hm
    exact hnotAwake q hq
  · exact hreport 0 o hcall₂ 0 _ rfl (List.length_eq_zero_iff.mp hgrants) "x"
      (by decide +kernel)

/-- Whoever waits for the tree opens the stream, which takes a while. -/
def opening : List Event :=
  [.planOpenings 0 { delay := 5 }, .turn (.call 0), .turn (.call 0), .turn (.branch 0 0),
    .turn (.branch 0 0)]

/-- The tree becomes free before the stream is open, and its wait asks for it. -/
def askedOn : List Event :=
  [.visit (.release "x" false), .wait 5 0] ++ List.replicate 3 (.turn (.branch 0 0)) ++
    [.turn (.call 0)]

/-- A wait that opens the stream is not stopped by the shutdown of its client: it asks for the
tree, which nobody had granted to the call, and the call reports it as granted. -/
theorem asks_after_shutdown : ∃ w₁ w₂ o,
    let w := ofHolder.lock 0 [Request.of "x"] (some (.ofSeconds 5))
    Run w opening w₁ ∧ Run (w₁.shutdown 0) askedOn w₂ ∧
      (w.petitions 0 opening).map (fun p => (p.place, p.isGranted)) = [(0, false)] ∧
      (w₁.shutdown 0).messages 0 0 askedOn = [(5, ["x"])] ∧
      w₂.calls[0]? = some ⟨0, .returned 5 (.locked (.ok o))⟩ ∧
      ∃ status, o.get? "x" = some status ∧ status.isGranted = true := by
  have hruns : ∃ w₁ ∈ (ofHolder.lock 0 [Request.of "x"] (some (.ofSeconds 5))).follow opening,
      (w₁.shutdown 0).messages 0 0 askedOn = [(5, ["x"])] ∧
      ∃ w₂ ∈ (w₁.shutdown 0).follow askedOn, ∃ call ∈ w₂.calls[0]?, call.client = 0 ∧
        ∃ x ∈ call.state.outcome?, x.1 = 5 ∧ ∃ status ∈ x.2.get? "x", status.isGranted = true := by
    decide +kernel
  obtain ⟨w₁, hw₁, hmessages, w₂, hw₂, ⟨_, s⟩, hcall, rfl, ⟨_, o⟩, ho, rfl, hstatus⟩ := hruns
  obtain rfl := CallState.eq_of_outcome? ho
  exact ⟨w₁, w₂, o, run_of_follow hw₁, run_of_follow hw₂, by decide +kernel, hmessages, hcall,
    hstatus⟩

end World

end LeasedLocks
