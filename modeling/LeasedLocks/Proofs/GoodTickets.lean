import LeasedLocks.Proofs.WakeUps

/-!
# Tickets stay good

What a ticket came to changes only when its client is shut down or reads a notice
(`World.SameOutcomes`). A ticket is void once it is settled without its object having become free:
whoever holds it has nothing to wait for any more. Tickets that are held become void only
when their client is shut down or the stream that it follows ends.
-/

namespace LeasedLocks

/-- The ticket was settled because no news will come. -/
def Link.IsVoid (l : Link) (k : Ticket) : Prop := l.client.unlocks.list.outcome? k = some false

/-- Only a stream that has ended is read to its end. -/
theorem UnlockWatch.isClosed_of_reading? {w : UnlockWatch} {freed : Channel (List String)}
    (h : w.reading? freed = some .closed) : freed.isClosed = true := by
  unfold reading? at h
  split at h
  · next place _ =>
      have hread := Option.some.inj h
      rcases freed.read_cases place with ⟨-, hr⟩ | ⟨_, -, -, hr⟩ | ⟨-, -, hclosed, -⟩ |
        ⟨-, -, -, hr⟩
      · rw [hr] at hread
        cases hread
      · rw [hr] at hread
        cases hread
      · exact hclosed
      · rw [hr] at hread
        cases hread
  · cases h

namespace TreeWait

variable {l l' : Link} {c : Clock} {t : TreeWait} {ts rest : List TreeWait} {r : TreeProgress}
  {k : Ticket}

/-- A step of a wait disturbs no ticket that is held afterwards. -/
theorem undisturbed_of_steps (h : l.Serves (t :: rest)) (hs : t.Steps c l r l') :
    ∀ k ∈ ticketsOf (r.waits ++ rest), l.client.unlocks.Undisturbed l'.client.unlocks k := by
  have hcarries := h.steps hs
  cases hs with
  | ends | failed _ _ | settles _ _ => exact hcarries.undisturbed
  | arms _ => exact fun k _ => l.client.unlocks.undisturbed_register _ k
  | joins hstage hj | joined hstage hj =>
      obtain ⟨-, -, hund⟩ := h.join hstage hj
      exact fun k _ => hund k
  | asks _ ha =>
      rw [(Link.ask_eq_some ha).1]
      exact fun k _ => .refl _ k
  | parks hstage ha hreply =>
      have hu := congrArg Client.unlocks (Link.ask_eq_some ha).1
      obtain ⟨-, hund⟩ := (h.onward (Link.onward_ask ha) hu).park hstage _
      rw [← hu]
      exact hund
  | wakes _ _ => exact fun k _ => .refl _ k

/-- With a step a wait takes at most tickets that are new. -/
theorem mem_tickets_of_steps (hs : t.Steps c l r l') :
    ∀ t' ∈ r.waits, ∀ k ∈ t'.tickets,
      k ∈ t.tickets ∨ k ∈ (l.client.unlocks.register t.request.objectIds).1 := by
  have hgoesOn {u : TreeWait} (hu : ∀ k ∈ u.tickets,
      k ∈ t.tickets ∨ k ∈ (l.client.unlocks.register t.request.objectIds).1) :
      ∀ t' ∈ TreeProgress.waits (.goesOn u), ∀ k ∈ t'.tickets,
        k ∈ t.tickets ∨ k ∈ (l.client.unlocks.register t.request.objectIds).1 := by
    intro t' ht'
    obtain rfl := List.mem_singleton.mp ht'
    exact hu
  cases hs with
  | ends | failed _ _ | settles _ _ => exact fun _ h => nomatch h
  | arms hstage =>
      apply hgoesOn
      intro k hk
      rw [(books_of_round hstage).1]
      exact (List.mem_append.mp hk).symm
  | joins hstage _ | joined hstage _ =>
      apply hgoesOn
      rw [(books_of_arming hstage).1]
      exact fun k hk => .inl hk
  | asks hstage _ =>
      apply hgoesOn
      rw [(books_of_asking hstage).1]
      exact fun k hk => .inl hk
  | parks hstage _ _ =>
      apply hgoesOn
      rw [(books_of_asking hstage).1]
      exact fun k hk => .inl (List.mem_append_left _ (List.mem_of_mem_filter hk))
  | wakes hstage _ =>
      apply hgoesOn
      rw [(books_of_parked hstage).1]
      exact fun k hk => .inl hk

/-- A wait whose tickets are good takes no ticket that is void. -/
theorem not_isVoid_of_steps (h : l.Serves ts) (hs : t.Steps c l r l')
    (ht : ∀ k ∈ t.tickets, ¬ l.IsVoid k) : ∀ t' ∈ r.waits, ∀ k ∈ t'.tickets, ¬ l.IsVoid k := by
  intro t' ht' k hk hvoid
  rcases mem_tickets_of_steps hs t' ht' k hk with hold | hnew
  · exact ht k hold hvoid
  · have hnone : l.client.unlocks.list.outcome? k = none :=
      Waitlist.outcome?_registerAll (UnlockWatch.Serves.accounts h) _ k hnew
    cases hnone.symm.trans hvoid

end TreeWait

/-- As long as the stream does not end, reading it makes no ticket void. -/
theorem Link.Serves.isVoid_of_pump {l : Link} {ts : List TreeWait} {k : Ticket}
    {unlocks : UnlockWatch} (h : l.Serves ts) (hopen : l.freed.isClosed = false)
    (hk : k ∈ TreeWait.ticketsOf ts) (hp : l.client.unlocks.pump l.freed = some unlocks)
    (hvoid : (l.withUnlocks unlocks).IsVoid k) : l.IsVoid k := by
  rcases UnlockWatch.Serves.outcome?_pump h hk hp with
    hsame | ⟨-, htrue, -⟩ | ⟨-, -, hclosed⟩
  · rwa [IsVoid, ← hsame]
  · cases htrue.symm.trans hvoid
  · rw [UnlockWatch.isClosed_of_reading? hclosed] at hopen
    cases hopen

/-- Whoever gives up a call leaves its waits and does nothing else to the watch. -/
theorem CallState.unlocks_cancel (s : CallState) (l : Link) :
    (s.cancel l).2.client.unlocks = (s.waits.foldl (fun l t => t.leave l) l).client.unlocks := by
  cases s with
  | locking requests wait stage => cases stage <;> rfl
  | _ => rfl

namespace World

/-- What the tickets came to that the client at place `i` holds in the second world is what
they had come to in the first one. -/
def SameOutcomes (i : Nat) (w w' : World) : Prop :=
  ∀ l, w.link? i = some l → ∃ l', w'.link? i = some l' ∧
    ∀ k ∈ TreeWait.ticketsOf (w'.waits i),
      l'.client.unlocks.list.outcome? k = l.client.unlocks.list.outcome? k

/-- Every ticket that the client at place `i` holds in the second world is good, unless it
was void in the first one already. -/
def NoNewVoid (i : Nat) (w w' : World) : Prop :=
  ∀ l, w.link? i = some l → ∃ l', w'.link? i = some l' ∧
    ∀ k ∈ TreeWait.ticketsOf (w'.waits i), l'.IsVoid k → l.IsVoid k

variable {w w' : World} {e : Event} {i j m : Nat} {l l' : Link} {call : Call} {client : Client}
  {state : CallState}

theorem SameOutcomes.noNewVoid (h : SameOutcomes i w w') : NoNewVoid i w w' := by
  intro l hl
  obtain ⟨l', hl', houtcomes⟩ := h l hl
  refine ⟨l', hl', fun k hk hvoid => ?_⟩
  rwa [Link.IsVoid, houtcomes k hk] at hvoid

theorem sameOutcomes_of_clients_eq (h : w'.clients = w.clients) : SameOutcomes i w w' := by
  intro l hl
  obtain ⟨hi, -⟩ := link?_eq_some_iff.mp hl
  exact ⟨⟨l.client, w'.authority⟩, link?_eq_some_iff.mpr ⟨h ▸ hi, rfl⟩, fun _ _ => rfl⟩

/-- The client at place `j` changes. -/
theorem sameOutcomes_of_set (hl : w.link? j = some l) (l' : Link)
    (h : w'.clients = w.clients.set j l'.client)
    (houtcomes : j = i → ∀ k ∈ TreeWait.ticketsOf (w'.waits i),
      l'.client.unlocks.list.outcome? k = l.client.unlocks.list.outcome? k) :
    SameOutcomes i w w' := by
  intro m hm
  obtain ⟨hi, -⟩ := link?_eq_some_iff.mp hm
  by_cases hji : j = i
  · subst hji
    rw [hl] at hm
    cases hm
    refine ⟨⟨l'.client, w'.authority⟩, link?_eq_some_iff.mpr ⟨?_, rfl⟩, houtcomes rfl⟩
    rw [h, List.getElem?_set_self (lt_length_of_link? hl)]
  · refine ⟨⟨m.client, w'.authority⟩, link?_eq_some_iff.mpr ⟨?_, rfl⟩, fun _ _ => rfl⟩
    rw [h, List.getElem?_set_ne hji, hi]

theorem sameOutcomes_start {f : Nat → Link → CallState × Link}
    (hf : ∀ l : Link, (f w.now l).2.client.unlocks = l.client.unlocks) :
    SameOutcomes i w (w.start j f) := by
  unfold start
  cases hl : w.link? j with
  | none => exact sameOutcomes_of_clients_eq rfl
  | some l =>
      refine sameOutcomes_of_set hl (f w.now l).2 rfl ?_
      intro _ k _
      rw [hf l]

theorem sameOutcomes_alter {f : Client → Client}
    (hf : j = i → ∀ client : Client, (f client).unlocks = client.unlocks) :
    SameOutcomes i w (w.alter j f) := by
  intro m hm
  obtain ⟨hi, -⟩ := link?_eq_some_iff.mp hm
  by_cases hji : j = i
  · refine ⟨⟨f m.client, w.authority⟩, link?_eq_some_iff.mpr ⟨?_, rfl⟩, fun k _ => ?_⟩
    · change (w.clients.modify j f)[i]? = _
      rw [List.getElem?_modify, hi]
      exact congrArg some (if_pos hji)
    · rw [hf hji m.client]
  · refine ⟨⟨m.client, w.authority⟩, link?_eq_some_iff.mpr ⟨?_, rfl⟩, fun _ _ => rfl⟩
    change (w.clients.modify j f)[i]? = _
    rw [List.getElem?_modify, hi]
    exact congrArg some (if_neg hji)

/-- A call goes on, and its client disturbs no ticket that it holds afterwards. -/
theorem sameOutcomes_of_call (old new kept : List TreeWait) (hcall : w.calls[m]? = some call)
    (hl : w.link? call.client = some l)
    (hold : call.state.waits.Perm (old ++ kept)) (hnew : state.waits.Perm (new ++ kept))
    (houtcomes : ∀ rest, (w.waits call.client).Perm (old ++ (kept ++ rest)) →
      ∀ k ∈ TreeWait.ticketsOf (new ++ (kept ++ rest)),
        l'.client.unlocks.list.outcome? k = l.client.unlocks.list.outcome? k) :
    SameOutcomes i w
      { w.withLink call.client l' with calls := w.calls.set m { call with state } } := by
  refine sameOutcomes_of_set hl l' rfl ?_
  rintro rfl k hk
  obtain ⟨others, hothers⟩ := perm_waits hcall state
  obtain ⟨hbefore, hafter⟩ := hothers call.client
  rw [waitsAt, if_pos rfl] at hbefore hafter
  apply houtcomes (others call.client)
  · rw [← List.append_assoc]
    exact hbefore.trans (hold.append_right _)
  · rw [← List.append_assoc]
    exact ((hafter.trans (hnew.append_right _)).flatMap_right _).mem_iff.mp hk

theorem sameOutcomes_cancel (hw : Serves w) : SameOutcomes i w (w.cancel m) := by
  unfold cancel
  cases hs : w.stepCall m fun s l => some (s.cancel l) with
  | none => exact sameOutcomes_of_clients_eq rfl
  | some w' =>
      obtain ⟨call, l, state, l', hcall, hl, hf, rfl⟩ := stepCall_eq_some hs
      have hwaits := (CallState.does_of_cancel (c := w.clock) call.state l).1
      have hunlocks := CallState.unlocks_cancel call.state l
      rw [Option.some.inj hf] at hwaits hunlocks
      refine sameOutcomes_of_call call.state.waits [] [] hcall hl ?_ (.of_eq hwaits) ?_
      · rw [List.append_nil]
      · intro rest hperm k hk
        have hund := ((hw hl).perm hperm).leaveAll.undisturbed k hk
        rw [hunlocks, hund.outcome?_eq]

theorem sameOutcomes_of_step (hw : Serves w) {task : Task} (h : w.step task = some w')
    (htask : task ≠ .freedPump i) : SameOutcomes i w w' := by
  cases task with
  | call m =>
      obtain ⟨call, l, state, l', hcall, hl, hf, rfl⟩ := stepCall_eq_some h
      refine sameOutcomes_of_set hl l' rfl ?_
      intro _ k _
      obtain ⟨_, _, hclient⟩ := CallState.client_of_step hf
      rw [hclient]
  | branch m b =>
      obtain ⟨call, l, state, l', hcall, hl, hf, rfl⟩ := stepCall_eq_some h
      obtain ⟨t, r, kept, hold, hnew, hs⟩ := CallState.does_of_stepBranch hf
      refine sameOutcomes_of_call [t] r.waits kept hcall hl hold hnew fun rest hperm k hk => ?_
      exact (TreeWait.undisturbed_of_steps ((hw hl).perm hperm) hs k hk).outcome?_eq
  | freedPump j =>
      obtain ⟨l, hl, h⟩ := Option.bind_eq_some_iff.mp h
      obtain ⟨unlocks, hp, rfl⟩ := Option.map_eq_some_iff.mp h
      refine sameOutcomes_of_set hl (l.withUnlocks unlocks) rfl ?_
      rintro rfl
      exact absurd rfl htask
  | requestPump j =>
      obtain ⟨l, hl, h⟩ := Option.bind_eq_some_iff.mp h
      obtain ⟨priorities, -, rfl⟩ := Option.map_eq_some_iff.mp h
      exact sameOutcomes_of_set hl { l with client := { l.client with priorities } } rfl
        fun _ _ _ => rfl
  | sweeper m =>
      simp only [step] at h
      split at h
      · cases h
      · obtain ⟨-, h⟩ := Option.ite_none_right_eq_some.mp h
        cases h
        exact sameOutcomes_of_clients_eq rfl

/-- Only the shutdown of the client itself and the notices that it reads settle tickets. -/
theorem sameOutcomes_of_next (hw : Serves w) (h : w.next e = some w') (he : e ≠ .shutdown i)
    (hpump : e ≠ .turn (.freedPump i)) : SameOutcomes i w w' := by
  cases e with
  | lock j requests wait =>
      cases h
      apply sameOutcomes_start
      intro l
      unfold CallState.lock
      split
      · rfl
      · split <;> rfl
  | release j releases =>
      cases h
      apply sameOutcomes_start
      intro l
      unfold CallState.release
      split
      · rfl
      · split <;> rfl
  | listen j thresholds =>
      cases h
      apply sameOutcomes_start
      intro l
      unfold CallState.listen
      split
      · rfl
      · next joining _ _ => cases joining <;> rfl
  | cancel m =>
      cases h
      exact sameOutcomes_cancel hw
  | shutdown j =>
      cases h
      refine sameOutcomes_alter ?_
      rintro rfl
      exact absurd rfl he
  | stopListening _ _ | planOpenings _ _ | closeOwn _ | reopenOwn _ | announceOwn _ _ =>
      cases h
      exact sameOutcomes_alter fun _ _ => rfl
  | visit _ | sweepEvery _ =>
      cases h
      exact sameOutcomes_of_clients_eq rfl
  | wait moment calendar =>
      obtain ⟨-, h⟩ := Option.ite_none_right_eq_some.mp h
      cases h
      exact sameOutcomes_of_clients_eq rfl
  | turn task => exact sameOutcomes_of_step hw h fun htask => hpump (congrArg Event.turn htask)

theorem mem_waits {s : CallState} {t : TreeWait} (hcall : w.calls[m]? = some ⟨i, s⟩)
    (ht : t ∈ s.waits) : t ∈ w.waits i := by
  refine List.mem_flatMap.mpr ⟨_, List.mem_of_getElem? hcall, ?_⟩
  rw [waitsAt, if_pos rfl]
  exact ht

theorem mem_ticketsOf_waits {s : CallState} {t : TreeWait} {k : Ticket}
    (hcall : w.calls[m]? = some ⟨i, s⟩) (ht : t ∈ s.waits) (hk : k ∈ t.tickets) :
    k ∈ TreeWait.ticketsOf (w.waits i) :=
  List.mem_flatMap.mpr ⟨t, mem_waits hcall ht, hk⟩

/-- A client reads the next notice of its stream, and its waits stay as they are. -/
theorem pump_of_next (h : w.next (.turn (.freedPump i)) = some w') :
    ∃ l unlocks, w.link? i = some l ∧ l.client.unlocks.pump l.freed = some unlocks ∧
      w'.link? i = some (l.withUnlocks unlocks) ∧ w'.waits i = w.waits i := by
  obtain ⟨l, hl, h⟩ := Option.bind_eq_some_iff.mp h
  obtain ⟨unlocks, hp, rfl⟩ := Option.map_eq_some_iff.mp h
  exact ⟨l, unlocks, hl, hp, link?_of_set hl rfl rfl, rfl⟩

theorem link?_shutdown (hl : w.link? i = some l) :
    (w.shutdown i).link? i = some { l with client := l.client.shutdown } := by
  obtain ⟨hi, ha⟩ := link?_eq_some_iff.mp hl
  refine link?_eq_some_iff.mpr ⟨?_, ha⟩
  change (w.clients.modify i Client.shutdown)[i]? = _
  rw [List.getElem?_modify_eq, hi]
  rfl

/-- A client that is shut down settles the tickets that were not settled yet. -/
theorem outcome?_shutdown {k : Ticket} (hw : Serves w) (hl : w.link? i = some l)
    (hk : k ∈ TreeWait.ticketsOf (w.waits i)) :
    l.client.shutdown.unlocks.list.outcome? k =
      some ((l.client.unlocks.list.outcome? k).getD false) :=
  UnlockWatch.Serves.outcome?_shutdown (hw hl) hk

/-- A ticket that is held keeps what it came to. It becomes good only when its client reads
some news, and void when the client is shut down or its stream ends. -/
theorem outcome?_of_next {k : Ticket} (hw : Serves w) (h : w.next e = some w')
    (hl : w.link? i = some l) (hl' : w'.link? i = some l')
    (hk : k ∈ TreeWait.ticketsOf (w'.waits i)) :
    l'.client.unlocks.list.outcome? k = l.client.unlocks.list.outcome? k ∨
      l.client.unlocks.list.outcome? k = none ∧
        (l'.client.unlocks.list.outcome? k = some false ∨
          l'.client.unlocks.list.outcome? k = some true ∧ e = .turn (.freedPump i) ∧
            l.client.unlocks.Hears l.freed k.objectId) := by
  by_cases hpump : e = .turn (.freedPump i)
  · subst hpump
    obtain ⟨m, unlocks, hm, hp, hm', hwaits⟩ := pump_of_next h
    rw [hl] at hm
    cases hm
    rw [hl'] at hm'
    cases hm'
    rcases UnlockWatch.Serves.outcome?_pump (hw hl) (hwaits ▸ hk) hp with
      hsame | ⟨hnone, htrue, hhears⟩ | ⟨hnone, hfalse, -⟩
    · exact .inl hsame
    · exact .inr ⟨hnone, .inr ⟨htrue, rfl, hhears⟩⟩
    · exact .inr ⟨hnone, .inl hfalse⟩
  · by_cases hshut : e = .shutdown i
    · subst hshut
      cases h
      rw [link?_shutdown hl] at hl'
      cases hl'
      have hsettled := outcome?_shutdown hw hl hk
      cases hold : l.client.unlocks.list.outcome? k with
      | none =>
          rw [hold] at hsettled
          exact .inr ⟨rfl, .inl hsettled⟩
      | some freed =>
          rw [hold] at hsettled
          exact .inl hsettled
    · obtain ⟨m', hm', houtcomes⟩ := sameOutcomes_of_next hw h hshut hpump l hl
      rw [hl'] at hm'
      cases hm'
      exact .inl (houtcomes k hk)

/-- Only the shutdown of the client itself, or the end of the stream, makes tickets void. -/
theorem noNewVoid_of_next (hw : Serves w) (hopen : w.authority.bulletin.freed.isClosed = false)
    (hown : ∀ client ∈ w.clients, client.own = none) (h : w.next e = some w')
    (he : e ≠ .shutdown i) : NoNewVoid i w w' := by
  by_cases hpump : e = .turn (.freedPump i)
  · subst hpump
    obtain ⟨l, unlocks, hl, hp, hl', hwaits⟩ := pump_of_next h
    intro m hm
    rw [hl] at hm
    cases hm
    refine ⟨_, hl', fun k hk hvoid => ?_⟩
    obtain ⟨hi, hauthority⟩ := link?_eq_some_iff.mp hl
    have hfreed := Link.freed_of_own_eq_none (hown _ (List.mem_of_getElem? hi))
    rw [hauthority] at hfreed
    exact (hw hl).isVoid_of_pump (hfreed ▸ hopen) (hwaits ▸ hk) hp hvoid
  · exact (sameOutcomes_of_next hw h he hpump).noNewVoid

end World

end LeasedLocks
