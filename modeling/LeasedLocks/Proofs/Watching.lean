import LeasedLocks.Proofs.LocalClients

/-!
# What a wait is waiting for

A wait that is parked is blocked by objects that are locked, or the notice that
says otherwise is still to be read (`Link.Watches`). Tickets are taken before the
tree is asked for, so an object that the reply calls held and that is freed later
is announced to a monitor that already runs.
-/

namespace LeasedLocks

/-- Unless the ticket is settled the monitor runs, and the object is locked or the
monitor has yet to read that it became free. -/
structure Link.Watches (l : Link) (k : Ticket) : Prop where
  assured : l.client.unlocks.Assured k
  justified : l.client.unlocks.list.outcome? k = none →
    l.authority.isLocked k.objectId ∨ l.client.unlocks.Expects l.freed k.objectId

/-- An opening that was begun can be completed. -/
def Joining.Prompt (now : Nat) : Joining → Prop
  | waiting => True
  | opening o => ∃ due, o.due = some due ∧ due ≤ now

namespace TreeWait

/-- All that a wait relies on where it is. -/
def Guarded (l : Link) (now : Nat) (t : TreeWait) : Prop :=
  match t.stage with
  | .round => True
  | .arming armed j => j.Prompt now ∧ ∀ k ∈ armed, k.objectId ∈ t.request.objectIds
  | .asking armed x =>
    x.Prompt now ∧ ∀ k ∈ armed, k.objectId ∈ t.request.objectIds ∧
      l.client.unlocks.Assured k ∧
      ∀ replies due reply, x.leg = .inbound (.ok replies) due → reply ∈ replies →
        k.objectId ∈ reply.unavailableIds → l.Watches k
  | .parked => ∀ k ∈ t.blocking, k.objectId ∈ t.request.objectIds ∧ l.Watches k

end TreeWait

variable {l l' : Link} {a b : Authority} {c : Clock} {t : TreeWait} {ts rest : List TreeWait}
  {r : TreeProgress} {now now' : Nat} {k : Ticket} {id : String}

theorem Joining.Prompt.mono {j : Joining} (h : j.Prompt now) (hle : now ≤ now') :
    j.Prompt now' := by
  cases j with
  | waiting => trivial
  | opening o =>
      obtain ⟨due, hd, hdue⟩ := h
      exact ⟨due, hd, Nat.le_trans hdue hle⟩

/-! ## Announcements -/

namespace Authority

theorem isLocked_iff (a : Authority) (id : String) :
    a.isLocked id ↔ ∃ h, a.table.get? id = some h := Option.isSome_iff_exists

theorem Announces.getElem?_log {i : Nat} {batch : List String} (h : Announces a b)
    (hi : a.bulletin.freed.log[i]? = some batch) :
    b.bulletin.freed.log[i]? = some batch := by
  obtain ⟨batches, hlog, -⟩ := h.batches
  rw [← Array.getElem?_toList] at hi ⊢
  have hlt := (List.getElem?_eq_some_iff.mp hi).1
  rw [hlog, List.getElem?_append_left hlt]
  exact hi

/-- What is not locked any more is named in a batch that was announced since. -/
theorem Announces.exists_log (h : Announces a b) (ha : a.isLocked id) (hb : ¬ b.isLocked id) :
    ∃ (i : Nat) (batch : List String), a.bulletin.freed.sent ≤ i ∧
      b.bulletin.freed.log[i]? = some batch ∧ id ∈ batch := by
  obtain ⟨batches, hlog, hnamed⟩ := h.batches
  obtain ⟨g, hg⟩ := (isLocked_iff a id).mp ha
  have hnone : b.table.get? id = none := by
    rw [isLocked_iff, not_exists] at hb
    exact Option.eq_none_iff_forall_ne_some.mpr hb
  obtain ⟨batch, hmem, hid⟩ := hnamed id g hg hnone
  obtain ⟨i, hi, rfl⟩ := List.getElem_of_mem hmem
  refine ⟨a.bulletin.freed.sent + i, batches[i], Nat.le_add_right _ _, ?_, hid⟩
  rw [← Array.getElem?_toList, hlog, Channel.sent, ← Array.length_toList,
    List.getElem?_append_right (Nat.le_add_right _ _), Nat.add_sub_cancel_left]
  exact List.getElem?_eq_getElem hi

end Authority

namespace Link

/-! ## Tickets and what they stand for -/

/-- What a ticket stands for is not lost when the authority goes on. -/
theorem Watches.onward (h : l.Watches k) (hserves : l.Serves ts) (hown : l.client.own = none)
    (ho : Onward l l') (hu : l.client.unlocks.Undisturbed l'.client.unlocks k) :
    l'.Watches k := by
  refine ⟨hu.assured h.assured, ?_⟩
  intro hnone
  rw [hu.outcome?_eq] at hnone
  have hfreed := freed_of_own_eq_none hown
  have hfreed' := freed_of_own_eq_none (ho.own_eq_none hown)
  rcases h.justified hnone with hlocked | hexp
  · by_cases hlocked' : l'.authority.isLocked k.objectId
    · exact .inl hlocked'
    · right
      obtain ⟨i, batch, hle, hi, hid⟩ := ho.announces.exists_log hlocked hlocked'
      obtain ⟨place, hp⟩ := (Monitor.isRunning_iff _).mp (h.assured hnone)
      have hplace := UnlockWatch.Serves.place_le hserves hp
      rw [hfreed] at hplace
      rw [hfreed']
      exact ⟨place, i, batch, hu.running hp, Nat.le_trans hplace hle, hi, hid⟩
  · right
    rw [hfreed']
    rw [hfreed] at hexp
    exact (hu.expects hexp).mono ho.announces.getElem?_log

/-- Reading on, the monitor settles the ticket or leaves it as it is. -/
theorem Watches.pump {unlocks : UnlockWatch} (h : l.Watches k) (hserves : l.Serves ts)
    (hk : k ∈ TreeWait.ticketsOf ts) (hp : l.client.unlocks.pump l.freed = some unlocks) :
    (l.withUnlocks unlocks).Watches k := by
  refine ⟨UnlockWatch.Serves.assured_pump hserves hk hp, ?_⟩
  intro hnone
  rcases h.justified ((UnlockWatch.Serves.grows_pump hserves hp).outcome?_eq_none hnone) with
    hlocked | hexp
  · exact .inl hlocked
  · exact .inr (UnlockWatch.Serves.expects_pump hserves hk hp hexp hnone)

/-- Who asks for trees over a prompt exchange is not blocked. -/
theorem ask_ne_none_of_prompt {rs : List Request} {x : Exchange (List Reply)}
    (h : x.Prompt c.now) : l.ask c rs x ≠ none := by
  rw [ask, Option.map_eq_none_iff.ne]
  exact h.step_ne_none

/-- A settled ticket stands for nothing. -/
theorem watches_of_settled (h : l.client.unlocks.list.outcome? k ≠ none) : l.Watches k :=
  ⟨fun hnone => absurd hnone h, fun hnone => absurd hnone h⟩

end Link

namespace TreeWait

/-! ## Waits and what they rely on -/

/-- A wait goes on relying on its tickets as long as they stand for the same. -/
theorem Guarded.of_watches (h : t.Guarded l now) (hle : now ≤ now')
    (hassured : ∀ k ∈ t.tickets, l.client.unlocks.Assured k → l'.client.unlocks.Assured k)
    (hwatches : ∀ k ∈ t.tickets, l.Watches k → l'.Watches k) : t.Guarded l' now' := by
  unfold Guarded at h ⊢
  unfold tickets at hassured hwatches
  split
  · trivial
  · next armed j hstage =>
      rw [hstage] at h
      exact ⟨h.1.mono hle, h.2⟩
  · next armed x hstage =>
      rw [hstage] at h hassured hwatches
      refine ⟨h.1.mono hle, ?_⟩
      intro k hk
      obtain ⟨hid, hass, hreply⟩ := h.2 k hk
      have hmem : k ∈ armed ++ t.blocking := List.mem_append_left _ hk
      refine ⟨hid, hassured k hmem hass, ?_⟩
      intro replies due reply hleg hr hun
      exact hwatches k hmem (hreply replies due reply hleg hr hun)
  · next hstage =>
      rw [hstage] at h hwatches
      exact fun k hk => ⟨(h k hk).1, hwatches k hk (h k hk).2⟩

theorem Guarded.onward (h : t.Guarded l now) (hserves : l.Serves ts)
    (hown : l.client.own = none) (ho : Link.Onward l l') (hle : now ≤ now')
    (hu : ∀ k ∈ t.tickets, l.client.unlocks.Undisturbed l'.client.unlocks k) :
    t.Guarded l' now' :=
  h.of_watches hle (fun k hk => (hu k hk).assured)
    (fun k hk hw => hw.onward hserves hown ho (hu k hk))

/-! ## Steps of a wait at a client that talks to the authority directly -/

/-- The stream that is being opened can be opened at once. -/
theorem Guarded.joins {armed : List Ticket} {j j' : Joining} (h : t.Guarded l c.now)
    (hlocal : l.client.IsLocal) (hstage : t.stage = .arming armed j)
    (hj : l.joinUnlocks c.now j = some (.notYet j', l')) :
    Guarded l' c.now { t with stage := .arming armed j' } := by
  rw [Guarded, hstage] at h
  obtain ⟨unlocks, source, hstep, rfl⟩ := Link.joinUnlocks_eq_some hj
  refine ⟨?_, h.2⟩
  rcases Joining.step_cases (UnlockWatch.join_eq_some hstep).1 with
    ⟨-, -, hr, -⟩ | ⟨-, -, hr, -⟩ | ⟨_, _, _, -, -, -, hr, -⟩ | ⟨_, _, -, -, -, -, hr, -⟩
  · cases hr
    rw [hlocal.plan_eq]
    exact ⟨c.now, rfl, Nat.le_refl _⟩
  · cases hr
  · cases hr
  · cases hr

/-- The monitor runs before the tree is asked for. -/
theorem Guarded.joined {armed : List Ticket} {j : Joining} (h : t.Guarded l c.now)
    (hlocal : l.client.IsLocal) (hstage : t.stage = .arming armed j)
    (hj : l.joinUnlocks c.now j = some (.running, l')) :
    (t.askAgain c.now armed l').1.Guarded (t.askAgain c.now armed l').2 c.now := by
  rw [Guarded, hstage] at h
  obtain ⟨unlocks, source, hstep, rfl⟩ := Link.joinUnlocks_eq_some hj
  constructor
  · change (Exchange.start (l.client.route.lockScript.head?.getD {}) _ c.now).Prompt c.now
    rw [hlocal.script_eq]
    exact Exchange.prompt_start _ _
  · intro k hk
    refine ⟨h.2 k hk, UnlockWatch.assured_of_join hstep k, ?_⟩
    intro replies due reply hleg
    cases hleg

/-- What the reply calls unavailable is locked when the authority replies. -/
theorem Guarded.asks {armed : List Ticket} {x x' : Exchange (List Reply)}
    (h : t.Guarded l c.now) (hstage : t.stage = .asking armed x)
    (ha : l.ask c [t.request] x = some (.notYet x', l')) :
    Guarded l' c.now { t with stage := .asking armed x' } := by
  rw [Guarded, hstage] at h
  obtain ⟨hclient, -, hstep⟩ := Link.ask_eq_some ha
  obtain ⟨rfl, hauth⟩ := h.1.eq_of_notYet hstep
  refine ⟨Nat.le_refl c.now, ?_⟩
  intro k hk
  obtain ⟨hid, hass, -⟩ := h.2 k hk
  refine ⟨hid, hclient ▸ hass, ?_⟩
  intro replies due reply hleg hreply hun
  refine ⟨hclient ▸ hass, fun _ => .inl ?_⟩
  rw [hauth]
  exact Route.isLocked_of_passRequests (Leg.inbound.inj hleg).1 hreply hun

/-- Whoever parks keeps the tickets that stand for something. -/
theorem Guarded.parks {armed : List Ticket} {x : Exchange (List Reply)}
    {replies : List Reply} {reply : Reply} (h : t.Guarded l c.now)
    (hserves : l.Serves (t :: rest)) (hlocal : l.client.IsLocal)
    (hstage : t.stage = .asking armed x)
    (ha : l.ask c [t.request] x = some (.answered (.ok replies), l')) (hreply : reply ∈ replies) :
    (t.park armed reply l').1.Guarded (t.park armed reply l').2 c.now := by
  rw [Guarded, hstage] at h
  obtain ⟨hclient, -, hstep⟩ := Link.ask_eq_some ha
  obtain ⟨hauth, due, hleg⟩ := h.1.eq_of_answered hstep
  -- the answer was there already, and the link is what it was
  obtain rfl : l' = l :=
    calc
      l' = ⟨l'.client, l'.authority⟩ := rfl
      _ = ⟨l.client, l.authority⟩ := by rw [hclient, hauth]
      _ = l := rfl
  obtain ⟨-, hund⟩ := hserves.park hstage reply
  intro k hk
  obtain ⟨hk', hheld⟩ := List.mem_filter.mp hk
  obtain ⟨hid, -, hwatch⟩ := h.2 k hk'
  refine ⟨hid, ?_⟩
  have hun : k.objectId ∈ reply.unavailableIds := List.contains_iff_mem.mp hheld
  exact (hwatch replies due reply hleg hreply hun).onward hserves hlocal.own_eq
    (Link.onward_client l' rfl) (hund k (List.mem_append_left _ hk))

/-- A step of a wait leaves it with what it relies on. -/
theorem Guarded.steps (h : t.Guarded l c.now) (hserves : l.Serves (t :: rest))
    (hlocal : l.client.IsLocal) (hs : t.Steps c l r l') : ∀ t' ∈ r.waits, t'.Guarded l' c.now := by
  have hgoesOn {t' : TreeWait} (ht' : t'.Guarded l' c.now) :
      ∀ u ∈ TreeProgress.waits (.goesOn t'), u.Guarded l' c.now := by
    intro u hu
    obtain rfl := List.mem_singleton.mp hu
    exact ht'
  cases hs with
  | ends => exact fun _ h => nomatch h
  | failed => exact fun _ h => nomatch h
  | settles => exact fun _ h => nomatch h
  | arms hstage =>
      apply hgoesOn
      refine ⟨trivial, ?_⟩
      intro k hk
      change k.objectId ∈ t.request.objectIds
      rw [← Waitlist.objectId_registerAll l.client.unlocks.list t.request.objectIds]
      exact List.mem_map_of_mem hk
  | joins hstage hj => exact hgoesOn (h.joins hlocal hstage hj)
  | joined hstage hj => exact hgoesOn (h.joined hlocal hstage hj)
  | asks hstage ha => exact hgoesOn (h.asks hstage ha)
  | parks hstage ha hreply => exact hgoesOn (h.parks hserves hlocal hstage ha hreply)
  | wakes hstage hfreed =>
      apply hgoesOn
      trivial

/-- Whatever a client does, its other waits can go on relying on what they do. -/
theorem guarded_of_does {old new : List TreeWait} (h : ∀ t ∈ old ++ rest, t.Guarded l c.now)
    (hserves : l.Serves (old ++ rest)) (hlocal : l.client.IsLocal)
    (hd : Link.Does c old l new l') : ∀ t ∈ new ++ rest, t.Guarded l' c.now := by
  have hmem : ∀ t ∈ rest, ∀ k ∈ t.tickets, k ∈ ticketsOf rest :=
    fun t ht k hk => List.mem_flatMap.mpr ⟨t, ht, hk⟩
  cases hd with
  | begins ho hu hnew =>
      intro t ht
      rcases List.mem_append.mp ht with ht | ht
      · rw [Guarded, (hnew t ht).stage_eq]
        trivial
      · exact (h t ht).onward hserves hlocal.own_eq ho (Nat.le_refl _) fun k _ => hu ▸ .refl _ k
  | @steps u r l l' hs =>
      have hcarries := Link.Serves.steps hserves hs
      intro t ht
      rcases List.mem_append.mp ht with ht | ht
      · exact (h u List.mem_cons_self).steps hserves hlocal hs t ht
      · exact (h t (List.mem_cons_of_mem _ ht)).onward hserves hlocal.own_eq hcarries.onward
          (Nat.le_refl _) fun k hk => hcarries.undisturbed k (hmem t ht k hk)
  | leaves ts l =>
      have hcarries := hserves.leaveAll
      intro t ht
      exact (h t (List.mem_append_right _ ht)).onward hserves hlocal.own_eq hcarries.onward
        (Nat.le_refl _) fun k hk => hcarries.undisturbed k (hmem t ht k hk)
  | reads hp =>
      intro t ht
      exact (h t ht).of_watches (Nat.le_refl _)
        (fun k hk _ => UnlockWatch.Serves.assured_pump hserves (hmem t ht k hk) hp)
        (fun k hk hw => hw.pump hserves (hmem t ht k hk) hp)
  | shutsDown l =>
      have hsettled : ∀ t ∈ rest, ∀ k ∈ t.tickets,
          l.client.unlocks.shutdown.list.outcome? k ≠ none := by
        intro t ht k hk
        rw [UnlockWatch.Serves.outcome?_shutdown hserves (hmem t ht k hk)]
        exact Option.some_ne_none _
      intro t ht
      exact (h t ht).of_watches (Nat.le_refl _)
        (fun k hk _ hnone => absurd hnone (hsettled t ht k hk))
        (fun k hk _ => Link.watches_of_settled (hsettled t ht k hk))

/-! ## Who is blocked -/

theorem joinUnlocks_eq_none {deadline : Nat} {armed : List Ticket} {j : Joining}
    (hstage : t.stage = .arming armed j) (hb : t.step c deadline l = none) :
    l.joinUnlocks c.now j = none := by
  cases hj : l.joinUnlocks c.now j with
  | none => rfl
  | some joined =>
      obtain ⟨r, l'⟩ := joined
      simp only [step, hstage, hj] at hb
      cases r <;> cases hb

/-- Whoever opens a stream that can be opened at once is not blocked. -/
theorem not_opening_of_blocked {deadline : Nat} {armed : List Ticket} {o : Opening}
    (h : t.Guarded l c.now) (hb : t.step c deadline l = none) :
    t.stage ≠ .arming armed (.opening o) := by
  intro hstage
  have hj := joinUnlocks_eq_none hstage hb
  rw [Guarded, hstage] at h
  obtain ⟨⟨due, hd, hdue⟩, -⟩ := h
  rw [Link.joinUnlocks, Option.map_eq_none_iff, UnlockWatch.join_eq_none_iff] at hj
  exact Joining.step_opening_ne_none hd hdue hj

/-- Somebody opens the stream while the monitor is starting. -/
theorem exists_opening (hserves : l.Serves ts)
    (hp : l.client.unlocks.monitor.phase = .starting) :
    ∃ t ∈ ts, ∃ armed o, t.stage = .arming armed (.opening o) := by
  have hopen := (UnlockWatch.Serves.tracks hserves).openings_eq
  rw [if_pos hp] at hopen
  by_contra hnone
  have hzero : ∀ t ∈ ts, t.openings = 0 := by
    intro t ht
    unfold openings
    split
    · next armed j hstage =>
        cases j with
        | waiting => rfl
        | opening o => exact absurd ⟨t, ht, armed, o, hstage⟩ hnone
    · rfl
  have hsum : openingsOf ts = 0 :=
    List.sum_eq_zero_iff_forall_eq_nat.mpr fun n hn => by
      obtain ⟨t, ht, rfl⟩ := List.mem_map.mp hn
      exact hzero t ht
  rw [hsum] at hopen
  cases hopen

/-- When nobody can take a step, whoever waits waits for an object that is locked. -/
theorem exists_isLocked_of_blocked (hserves : l.Serves ts)
    (hguarded : ∀ t ∈ ts, t.Guarded l c.now)
    (hblocked : ∀ t ∈ ts, ∃ deadline, t.step c deadline l = none)
    (hpump : l.client.unlocks.pump l.freed = none) (ht : t ∈ ts) :
    ∃ id ∈ t.request.objectIds, l.authority.isLocked id := by
  have h := hguarded t ht
  obtain ⟨deadline, hb⟩ := hblocked t ht
  cases hstage : t.stage with
  | round =>
      simp only [step, hstage] at hb
      split at hb <;> cases hb
  | arming armed j =>
      cases j with
      | opening o => exact absurd hstage (not_opening_of_blocked h hb)
      | waiting =>
          -- somebody opens the stream, and whoever does is not blocked
          have hj := joinUnlocks_eq_none hstage hb
          rw [Link.joinUnlocks, Option.map_eq_none_iff, UnlockWatch.join_eq_none_iff,
            Joining.step_waiting_eq_none_iff] at hj
          obtain ⟨u, hu, armed', o, hopening⟩ := exists_opening hserves hj
          obtain ⟨deadline', hb'⟩ := hblocked u hu
          exact absurd hopening (not_opening_of_blocked (hguarded u hu) hb')
  | asking armed x =>
      rw [Guarded, hstage] at h
      cases ha : l.ask c [t.request] x with
      | none => exact absurd ha (Link.ask_ne_none_of_prompt h.1)
      | some asked =>
          obtain ⟨y, l'⟩ := asked
          simp only [step, hstage, ha] at hb
          cases y <;> cases hb
  | parked =>
      rw [Guarded, hstage] at h
      cases hfreed : allFreed? l.client.unlocks.list t.blocking with
      | some freed =>
          simp only [step, hstage, hfreed] at hb
          cases freed <;> cases hb
      | none =>
          obtain ⟨k, hk, hnone⟩ := exists_unsettled hfreed
          obtain ⟨hid, hwatch⟩ := h k hk
          rcases hwatch.justified hnone with hlocked | hexp
          · exact ⟨k.objectId, hid, hlocked⟩
          · exact absurd hexp (UnlockWatch.not_expects_of_pump_eq_none hpump)

end TreeWait

end LeasedLocks
