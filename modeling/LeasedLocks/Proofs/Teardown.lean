import LeasedLocks.Proofs.Runs
import LeasedLocks.Proofs.Subscribers

/-!
# Nothing is left behind

The monitor of freed objects runs only while somebody at the client holds a ticket
(`UnlockWatch.RunsForTickets`). Calls that ask for locks give their tickets back on every way
out, so a client whose calls are over listens to nobody any more.

## Implementation notes

Others may take tickets at a client as well (`Guest`). For the books they are waits
that never ask, so that one lemma about what a client does with its waits serves the
calls and the guests alike.
-/

namespace LeasedLocks

/-- Somebody who takes tickets at a client on their own account. -/
structure Guest where
  client : Nat
  subscription : Subscription

/-- A world, and those who take tickets at its clients without asking for locks. -/
structure Host where
  world : World
  guests : List Guest := []

/-- The monitor runs only while there are tickets out. -/
def UnlockWatch.RunsForTickets (w : UnlockWatch) : Prop := w.monitor.isRunning → w.list.tickets ≠ 0

/-- Whoever is on the way to a running monitor has tickets. -/
def TreeWait.IsArmed (t : TreeWait) : Prop :=
  ∀ armed j, t.stage = .arming armed j → armed ≠ []

/-- The watch serves these waits, and it runs for them only. -/
structure Link.ServesOnly (l : Link) (ts : List TreeWait) : Prop where
  serves : l.Serves ts
  runsForTickets : l.client.unlocks.RunsForTickets
  armed : ∀ t ∈ ts, t.IsArmed

namespace Subscription

/-- A subscription as a wait that holds the same and asks for nothing. -/
def asWait : Subscription → TreeWait
  | opening ts j => { request := .of "", stage := .arming ts j }
  | failed _ => { request := .of "", stage := .parked }
  | ready ts => { request := .of "", blocking := ts.filterMap id, stage := .parked }

/-- The next step of a subscriber who is on the way. -/
def step (now : Nat) (l : Link) : Subscription → Option (Subscription × Link)
  | opening ts j =>
    (l.joinUnlocks now j).map fun (r, l) =>
      match r with
      | .notYet j => (.opening ts j, l)
      | .running => (.ready (ts.map some), l)
      | .failed e => (.failed e, l.withUnlocks (l.client.unlocks.releaseAll ts))
  | _ => none

/-- A subscriber gives one ticket back. -/
def giveBack (k : Nat) (l : Link) : Subscription → Subscription × Link
  | ready ts =>
    (.ready (ts.set k none),
      l.withUnlocks (l.client.unlocks.releaseAll (ts[k]?.toList.filterMap id)))
  | x => (x, l)

end Subscription

/-- A new subscriber for these objects. Whoever names none needs no monitor. -/
def Link.subscribe (l : Link) (ids : List String) : Subscription × Link :=
  if ids.isEmpty then (.ready [], l)
  else
    let (ts, unlocks) := l.client.unlocks.register ids
    (.opening ts .waiting, l.withUnlocks unlocks)

namespace Host

/-- Something that happens at a host. -/
inductive Event where
  /-- Something happens in its world. -/
  | inside (e : World.Event)
  | subscribe (i : Nat) (ids : List String)
  /-- The guest at this place takes a step. -/
  | turn (k : Nat)
  /-- The guest at this place gives up or gives all tickets back. -/
  | leave (k : Nat)
  | giveBack (k n : Nat)
  /-- Somebody tells a client that objects became free. -/
  | report (i : Nat) (ids : List String)

/-- Puts a guest and the client that it is at in place of the present ones. -/
def put (h : Host) (k : Nat) (g : Guest) (r : Subscription × Link) : Host where
  world := h.world.withLink g.client r.2
  guests := h.guests.set k { g with subscription := r.1 }

/-- What an event makes of a host; nothing if it cannot happen. -/
def next (h : Host) : Event → Option Host
  | .inside e => (h.world.next e).map fun world => { h with world }
  | .subscribe i ids => do
    let l ← h.world.link? i
    some { world := h.world.withLink i (l.subscribe ids).2,
           guests := ⟨i, (l.subscribe ids).1⟩ :: h.guests }
  | .turn k => do
    let g ← h.guests[k]?
    let l ← h.world.link? g.client
    (g.subscription.step h.world.now l).map (h.put k g)
  | .leave k => do
    let g ← h.guests[k]?
    let l ← h.world.link? g.client
    some { world := h.world.withLink g.client (g.subscription.asWait.leave l),
           guests := h.guests.eraseIdx k }
  | .giveBack k n => do
    let g ← h.guests[k]?
    let l ← h.world.link? g.client
    some (h.put k g (g.subscription.giveBack n l))
  | .report i ids => do
    let l ← h.world.link? i
    some { h with world := h.world.withLink i (l.withUnlocks (l.client.unlocks.report ids)) }

/-- One event after the other leads from one host to another. -/
inductive Run : Host → List Event → Host → Prop where
  | nil (h : Host) : Run h [] h
  | cons {h h' h'' : Host} {e : Event} {es : List Event} :
      h.next e = some h' → Run h' es h'' → Run h (e :: es) h''

/-- The host after these events, if they can happen one after the other. -/
def follow : Host → List Event → Option Host
  | h, [] => some h
  | h, e :: es => (h.next e).bind (follow · es)

/-- What the guest at a client is there for. -/
def waitsAt (i : Nat) (g : Guest) : List TreeWait :=
  if g.client = i then [g.subscription.asWait] else []

/-- The waits at a client, those of its guests included. -/
def waits (h : Host) (i : Nat) : List TreeWait := h.guests.flatMap (waitsAt i) ++ h.world.waits i

/-- The watch of every client serves the waits there, and runs for them only. -/
def ServesOnly (h : Host) : Prop :=
  ∀ i l, h.world.link? i = some l → l.ServesOnly (h.waits i)

end Host

variable {w w' : UnlockWatch} {freed : Channel (List String)} {held : List Ticket} {n now : Nat}
  {k : Ticket} {l l' : Link} {c : Clock} {t : TreeWait} {r : TreeProgress}
  {old new rest ts : List TreeWait} {j : Joining} {x : Subscription}

/-! ## The monitor runs only for tickets -/

namespace UnlockWatch

theorem runsForTickets_of_not_isRunning (h : w.monitor.isRunning = false) : w.RunsForTickets := by
  intro hrun
  rw [h] at hrun
  cases hrun

/-- While somebody holds a ticket the monitor may run. -/
theorem Serves.runsForTickets (h : w.Serves freed held n) (hk : k ∈ held) : w.RunsForTickets := by
  intro _
  rw [h.accounts.tickets_eq]
  exact Nat.ne_of_gt (List.length_pos_of_mem hk)

/-- Whoever gives the last ticket back stops the monitor. -/
theorem runsForTickets_release (w : UnlockWatch) (k : Ticket) : (w.release k).RunsForTickets := by
  unfold release
  by_cases hlast : (w.list.release k).tickets = 0
  · simp only [if_pos hlast]
    exact runsForTickets_of_not_isRunning (Monitor.isRunning_stop _)
  · exact fun _ => hlast

theorem RunsForTickets.releaseAll (h : w.RunsForTickets) (ks : List Ticket) :
    (w.releaseAll ks).RunsForTickets := by
  induction ks generalizing w with
  | nil => exact h
  | cons k ks ih => exact ih (w.runsForTickets_release k)

theorem RunsForTickets.leave (h : w.RunsForTickets) (j : Joining) : (w.leave j).RunsForTickets := by
  cases j with
  | waiting => exact h
  | opening o => exact runsForTickets_of_not_isRunning rfl

theorem runsForTickets_shutdown (w : UnlockWatch) : w.shutdown.RunsForTickets :=
  runsForTickets_of_not_isRunning (Monitor.isRunning_stop _)

/-- Without tickets and without anybody who opens the stream, the monitor is idle. -/
theorem RunsForTickets.phase_eq_idle (h : w.RunsForTickets) (hs : w.Serves freed [] 0) :
    w.monitor.phase = .idle := by
  cases hp : w.monitor.phase with
  | idle => rfl
  | starting =>
      have hone := hs.tracks.openings_eq
      rw [hp] at hone
      cases hone
  | running place =>
      have hrun := w.monitor.isRunning_iff.mpr ⟨place, hp⟩
      exact absurd hs.accounts.tickets_eq (h hrun)

/-- The monitor reads on for those who hold tickets, or stops. -/
theorem RunsForTickets.pump (h : w.RunsForTickets) (hs : w.Serves freed held n)
    (hp : w.pump freed = some w') : w'.RunsForTickets := by
  have hs' := hs.pump hp
  have hrun : w.monitor.isRunning := by
    rcases pump_cases hp with ⟨_, _, hp, -⟩ | ⟨_, _, hp, -⟩ | ⟨_, hp, -⟩ <;>
      exact w.monitor.isRunning_iff.mpr ⟨_, hp⟩
  intro _
  rw [hs'.accounts.tickets_eq, ← hs.accounts.tickets_eq]
  exact h hrun

end UnlockWatch

/-! ## What a client does with its waits -/

theorem TreeWait.isArmed_of_ne (h : ∀ armed j, t.stage ≠ .arming armed j) : t.IsArmed :=
  fun armed j hstage => absurd hstage (h armed j)

theorem Request.objectIds_ne_nil (r : Request) : r.objectIds ≠ [] :=
  List.ne_nil_of_mem (List.mem_map_of_mem (Tree.label_mem_labels_self r))

namespace Link

theorem ServesOnly.perm (h : l.ServesOnly ts) {ts' : List TreeWait} (hp : ts.Perm ts') :
    l.ServesOnly ts' :=
  ⟨h.serves.perm hp, h.runsForTickets, fun t ht => h.armed t (hp.mem_iff.mpr ht)⟩

theorem runsForTickets_leave (h : l.client.unlocks.RunsForTickets) (t : TreeWait) :
    (t.leave l).client.unlocks.RunsForTickets := by
  unfold TreeWait.leave
  split
  · exact (h.leave _).releaseAll _
  · exact h.releaseAll _

/-- Tickets for objects of which there is at least one. -/
theorem register_ne_nil (w : UnlockWatch) {ids : List String} (h : ids ≠ []) :
    (w.register ids).1 ≠ [] := by
  cases ids with
  | nil => exact absurd rfl h
  | cons id ids => exact List.cons_ne_nil _ _

/-- As long as somebody on the way to a running monitor has tickets, it may run. -/
theorem Serves.runsForTickets_of_armed {armed : List Ticket} (h : l.Serves (t :: rest))
    (harmed : ∀ k ∈ armed, k ∈ t.tickets) (hne : armed ≠ []) : l.client.unlocks.RunsForTickets := by
  obtain ⟨k, hk⟩ := List.exists_mem_of_ne_nil armed hne
  exact UnlockWatch.Serves.runsForTickets (serves_cons_iff.mp h)
    (List.mem_append_left _ (harmed k hk))

theorem ServesOnly.of_steps (h : l.ServesOnly (t :: rest)) (hs : t.Steps c l r l') :
    l'.client.unlocks.RunsForTickets ∧ ∀ u ∈ r.waits, u.IsArmed := by
  have hserves := (h.serves.steps hs).serves
  cases hs with
  | ends => exact ⟨runsForTickets_leave h.runsForTickets t, fun _ hu => nomatch hu⟩
  | arms hstage =>
      have hne := register_ne_nil l.client.unlocks t.request.objectIds_ne_nil
      refine ⟨hserves.runsForTickets_of_armed (fun k hk => List.mem_append_left _ hk) hne, ?_⟩
      intro u hu
      obtain rfl := List.mem_singleton.mp hu
      intro armed j hstage
      cases hstage
      exact hne
  | @joins armed j j' l' hstage hj =>
      have hne := h.armed t List.mem_cons_self armed j hstage
      refine ⟨hserves.runsForTickets_of_armed (fun k hk => List.mem_append_left _ hk) hne, ?_⟩
      intro u hu
      obtain rfl := List.mem_singleton.mp hu
      intro armed' j'' hstage'
      cases hstage'
      exact hne
  | @joined armed j l₁ hstage hj =>
      have hne := h.armed t List.mem_cons_self armed j hstage
      refine ⟨hserves.runsForTickets_of_armed (fun k hk => List.mem_append_left _ hk) hne, ?_⟩
      intro u hu
      obtain rfl := List.mem_singleton.mp hu
      exact TreeWait.isArmed_of_ne fun _ _ hstage' => nomatch hstage'
  | @failed armed j e l₁ hstage hj =>
      have hne := h.armed t List.mem_cons_self armed j hstage
      obtain ⟨hjoined, -, -⟩ := h.serves.join hstage hj
      obtain ⟨k, hk⟩ := List.exists_mem_of_ne_nil armed hne
      have hmem := List.mem_append_left (TreeWait.ticketsOf rest)
        (List.mem_append_left t.blocking hk)
      exact ⟨runsForTickets_leave (hjoined.runsForTickets hmem) _, fun _ hu => nomatch hu⟩
  | @asks armed x x' l' hstage ha =>
      refine ⟨(ask_eq_some ha).1 ▸ h.runsForTickets, ?_⟩
      intro u hu
      obtain rfl := List.mem_singleton.mp hu
      exact TreeWait.isArmed_of_ne fun _ _ hstage' => nomatch hstage'
  | @settles armed x y result l₁ hstage ha =>
      have hl₁ : l₁.client.unlocks.RunsForTickets := (ask_eq_some ha).1 ▸ h.runsForTickets
      exact ⟨runsForTickets_leave hl₁ t, fun _ hu => nomatch hu⟩
  | @parks armed x replies reply l₁ hstage ha hreply =>
      have hl₁ : l₁.client.unlocks.RunsForTickets := (ask_eq_some ha).1 ▸ h.runsForTickets
      refine ⟨hl₁.releaseAll _, ?_⟩
      intro u hu
      obtain rfl := List.mem_singleton.mp hu
      exact TreeWait.isArmed_of_ne fun _ _ hstage' => nomatch hstage'
  | wakes hstage hfreed =>
      refine ⟨h.runsForTickets, ?_⟩
      intro u hu
      obtain rfl := List.mem_singleton.mp hu
      exact TreeWait.isArmed_of_ne fun _ _ hstage' => nomatch hstage'

theorem runsForTickets_leaveAll (h : l.client.unlocks.RunsForTickets) (ts : List TreeWait) :
    (ts.foldl (fun l t => t.leave l) l).client.unlocks.RunsForTickets := by
  induction ts generalizing l with
  | nil => exact h
  | cons t ts ih => exact ih (runsForTickets_leave h t)

/-- Whatever a client does with its waits, its watch runs only for those that are left. -/
theorem ServesOnly.does (h : l.ServesOnly (old ++ rest)) (hd : Does c old l new l') :
    l'.ServesOnly (new ++ rest) := by
  have hrest : ∀ t ∈ rest, t.IsArmed := fun t ht => h.armed t (List.mem_append_right _ ht)
  have hall : l'.client.unlocks.RunsForTickets ∧ ∀ t ∈ new, t.IsArmed := by
    cases hd with
    | begins ho hu hnew =>
        refine ⟨hu ▸ h.runsForTickets, ?_⟩
        intro t ht
        refine TreeWait.isArmed_of_ne fun armed j hstage => ?_
        rw [(hnew t ht).stage_eq] at hstage
        cases hstage
    | steps hs => exact h.of_steps hs
    | leaves ts l => exact ⟨runsForTickets_leaveAll h.runsForTickets _, fun _ ht => nomatch ht⟩
    | reads hp => exact ⟨h.runsForTickets.pump h.serves hp, fun _ ht => nomatch ht⟩
    | shutsDown l => exact ⟨UnlockWatch.runsForTickets_shutdown _, fun _ ht => nomatch ht⟩
  refine ⟨h.serves.does hd, hall.1, ?_⟩
  intro t ht
  rcases List.mem_append.mp ht with ht | ht
  · exact hall.2 t ht
  · exact hrest t ht

/-! ## What guests do -/

theorem tickets_asWait (x : Subscription) : x.asWait.tickets = x.tickets := by
  cases x with
  | opening ts j => exact List.append_nil ts
  | failed e => rfl
  | ready ts => rfl

theorem openings_asWait (x : Subscription) : x.asWait.openings = x.openings := by
  cases x <;> rfl

/-- A guest in front of the waits that a client serves. -/
theorem servesOnly_guest_iff : l.ServesOnly (x.asWait :: rest) ↔
    l.client.unlocks.Serves l.freed (x.tickets ++ TreeWait.ticketsOf rest)
        (x.openings + TreeWait.openingsOf rest) ∧
      l.client.unlocks.RunsForTickets ∧ x.asWait.IsArmed ∧ ∀ t ∈ rest, t.IsArmed := by
  rw [← tickets_asWait, ← openings_asWait, ← serves_cons_iff, ← List.forall_mem_cons]
  exact ⟨fun h => ⟨h.serves, h.runsForTickets, h.armed⟩, fun ⟨hs, he, ha⟩ => ⟨hs, he, ha⟩⟩

theorem isArmed_asWait_iff : x.asWait.IsArmed ↔ ∀ ks j, x = .opening ks j → ks ≠ [] := by
  constructor
  · rintro h ks j rfl
    exact h ks j rfl
  · intro h ks j hstage
    cases x with
    | opening ks' j' =>
        cases hstage
        exact h ks j rfl
    | failed e => cases hstage
    | ready ks' => cases hstage

theorem ServesOnly.leave (h : l.ServesOnly (t :: rest)) : (t.leave l).ServesOnly rest :=
  ⟨h.serves.leave.serves, runsForTickets_leave h.runsForTickets t,
    fun u hu => h.armed u (List.mem_cons_of_mem t hu)⟩

theorem ServesOnly.subscribe (h : l.ServesOnly rest) (ids : List String) :
    (l.subscribe ids).2.ServesOnly ((l.subscribe ids).1.asWait :: rest) := by
  have hserves : l.client.unlocks.Serves l.freed (TreeWait.ticketsOf rest)
      (0 + TreeWait.openingsOf rest) := by
    rw [Nat.zero_add]
    exact h.serves
  unfold Link.subscribe
  by_cases hids : ids.isEmpty
  · rw [if_pos hids]
    refine servesOnly_guest_iff.mpr ⟨hserves, h.runsForTickets, ?_, h.armed⟩
    exact isArmed_asWait_iff.mpr fun _ _ hx => nomatch hx
  · rw [if_neg hids]
    have hne := register_ne_nil l.client.unlocks (mt List.isEmpty_iff.mpr hids)
    obtain ⟨k, hk⟩ := List.exists_mem_of_ne_nil _ hne
    have hserves' := hserves.register ids
    refine servesOnly_guest_iff.mpr
      ⟨hserves', hserves'.runsForTickets (List.mem_append_left _ hk), ?_, h.armed⟩
    refine isArmed_asWait_iff.mpr ?_
    intro ks j hx
    cases hx
    exact hne

theorem ServesOnly.stepGuest {x' : Subscription} (h : l.ServesOnly (x.asWait :: rest))
    (hx : x.step now l = some (x', l')) : l'.ServesOnly (x'.asWait :: rest) := by
  obtain ⟨hserves, -, harmed, hrest⟩ := servesOnly_guest_iff.mp h
  cases x with
  | opening ks j =>
      obtain ⟨⟨r, l₁⟩, hj, hEq⟩ := Option.map_eq_some_iff.mp hx
      obtain ⟨unlocks, source, hstep, rfl⟩ := joinUnlocks_eq_some hj
      have hne := isArmed_asWait_iff.mp harmed ks j rfl
      obtain ⟨k, hk⟩ := List.exists_mem_of_ne_nil _ hne
      have hjoined := UnlockWatch.Serves.join hserves hstep
      have hruns := hjoined.runsForTickets (List.mem_append_left _ hk)
      cases r with
      | notYet j' =>
          cases hEq
          refine servesOnly_guest_iff.mpr ⟨hjoined, hruns, ?_, hrest⟩
          exact isArmed_asWait_iff.mpr fun _ _ hx => by cases hx; exact hne
      | running =>
          cases hEq
          have hks : (ks.map some).filterMap id = ks := by simp
          refine servesOnly_guest_iff.mpr ⟨?_, hruns, ?_, hrest⟩
          · change UnlockWatch.Serves _ _ ((ks.map some).filterMap id ++ _) _
            rw [hks]
            exact hjoined
          · exact isArmed_asWait_iff.mpr fun _ _ hx => nomatch hx
      | failed e =>
          cases hEq
          refine servesOnly_guest_iff.mpr ⟨hjoined.releaseAll, hruns.releaseAll ks, ?_, hrest⟩
          exact isArmed_asWait_iff.mpr fun _ _ hx => nomatch hx
  | failed e => cases hx
  | ready ks => cases hx

theorem authority_stepGuest {x' : Subscription} (hx : x.step now l = some (x', l')) :
    l'.authority = l.authority := by
  cases x with
  | opening ks j =>
      obtain ⟨⟨r, l₁⟩, hj, hEq⟩ := Option.map_eq_some_iff.mp hx
      obtain ⟨unlocks, source, -, rfl⟩ := joinUnlocks_eq_some hj
      cases r <;> cases hEq <;> rfl
  | failed e => cases hx
  | ready ks => cases hx

theorem ServesOnly.giveBack (h : l.ServesOnly (x.asWait :: rest)) (k : Nat) :
    (x.giveBack k l).2.ServesOnly ((x.giveBack k l).1.asWait :: rest) := by
  cases x with
  | opening ks j => exact h
  | failed e => exact h
  | ready ks =>
      obtain ⟨hserves, hruns, -, hrest⟩ := servesOnly_guest_iff.mp h
      have hp := (UnlockSession.perm_filterMap_set_none ks k).append_right
        (TreeWait.ticketsOf rest)
      rw [List.append_assoc] at hp
      refine servesOnly_guest_iff.mpr ⟨(hserves.perm hp).releaseAll, hruns.releaseAll _, ?_, hrest⟩
      exact isArmed_asWait_iff.mpr fun _ _ hx => nomatch hx

theorem ServesOnly.report (h : l.ServesOnly ts) (ids : List String) :
    (l.withUnlocks (l.client.unlocks.report ids)).ServesOnly ts := by
  have hserves : (l.withUnlocks (l.client.unlocks.report ids)).Serves ts :=
    UnlockWatch.Serves.report h.serves ids
  refine ⟨hserves, ?_, h.armed⟩
  intro hrun
  rw [hserves.accounts.tickets_eq, ← h.serves.accounts.tickets_eq]
  exact h.runsForTickets hrun

/-- A client that serves nobody is idle: nobody is registered, and there is no stream,
neither open nor being opened, and nobody reads one. -/
theorem ServesOnly.phase_eq_idle_of_ticketsOf_eq_nil (h : l.ServesOnly ts)
    (htickets : TreeWait.ticketsOf ts = []) (hopen : TreeWait.openingsOf ts = 0) :
    l.client.unlocks.list.pendingIds = [] ∧ l.client.unlocks.list.tickets = 0 ∧
      l.client.unlocks.monitor.phase = .idle ∧
      l.client.unlocks.monitor.starts = l.client.unlocks.monitor.stops ∧
      l.client.unlocks.monitor.readers = [] := by
  have hserves : UnlockWatch.Serves _ _ _ _ := h.serves
  rw [htickets, hopen] at hserves
  have hzero : l.client.unlocks.list.tickets = 0 := hserves.accounts.tickets_eq
  have hidle := h.runsForTickets.phase_eq_idle hserves
  have hnot : l.client.unlocks.monitor.isRunning = false := by rw [Monitor.isRunning, hidle]
  refine ⟨?_, hzero, hidle, ?_, hserves.tracks.readers_eq_nil hnot⟩
  · rw [List.eq_nil_iff_forall_not_mem]
    intro id hid
    obtain ⟨e, he⟩ := Option.isSome_iff_exists.mp
      (Std.ExtTreeMap.isSome_getElem?_iff_mem.mpr (Std.ExtTreeMap.mem_keys.mp hid))
    exact absurd (hserves.accounts.held_of_entry he) List.not_mem_nil
  · have hstarts := hserves.tracks.starts_eq
    rwa [hnot] at hstarts

end Link

namespace World

variable {w : World} {i k : Nat}

theorem link?_withLink_self (hl : w.link? i = some l) (l' : Link) :
    (w.withLink i l').link? i = some l' :=
  link?_of_set hl rfl rfl

theorem link?_withLink_of_ne (hl : w.link? i = some l) (ha : l'.authority = l.authority)
    (hk : k ≠ i) : (w.withLink i l').link? k = w.link? k := by
  rw [link?, link?]
  change ((w.clients.set i l'.client)[k]?).map (Link.mk · l'.authority) = _
  rw [List.getElem?_set_ne (Ne.symm hk), ha, (link?_eq_some_iff.mp hl).2]

end World

namespace Host

variable {h h' : Host} {e : Event} {es : List Event} {i k : Nat} {g : Guest}

/-- The guests of a client with one of them in front, before and after it changes. -/
theorem perm_guests {gs : List Guest} (hg : gs[k]? = some g) (i : Nat) :
    (gs.flatMap (waitsAt i)).Perm (waitsAt i g ++ (gs.eraseIdx k).flatMap (waitsAt i)) ∧
      ∀ g' : Guest, ((gs.set k g').flatMap (waitsAt i)).Perm
        (waitsAt i g' ++ (gs.eraseIdx k).flatMap (waitsAt i)) := by
  obtain ⟨hlt, rfl⟩ := List.getElem?_eq_some_iff.mp hg
  constructor
  · exact (List.getElem_cons_eraseIdx_perm hlt).symm.flatMap_right _
  · exact fun g' => (List.set_perm_cons_eraseIdx hlt g').flatMap_right _

/-- One client changes together with its guests, and the others do not notice. -/
theorem ServesOnly.withLink (ht : h.ServesOnly) (hl : h.world.link? i = some l) (l' : Link)
    (ha : l'.authority = l.authority) (gs : List Guest)
    (hothers : ∀ j, j ≠ i →
      (h.guests.flatMap (waitsAt j)).Perm (gs.flatMap (waitsAt j)))
    (honly : l'.ServesOnly (gs.flatMap (waitsAt i) ++ h.world.waits i)) :
    ServesOnly { world := h.world.withLink i l', guests := gs } := by
  intro j m hm
  by_cases hj : j = i
  · subst hj
    rw [World.link?_withLink_self hl] at hm
    cases hm
    exact honly
  · rw [World.link?_withLink_of_ne hl ha hj] at hm
    exact (ht _ _ hm).perm ((hothers j hj).append_right _)

/-- A guest goes on or leaves, and what it held is accounted for. -/
theorem ServesOnly.guest (ht : h.ServesOnly) (hg : h.guests[k]? = some g)
    (hl : h.world.link? g.client = some l) (l' : Link) (ha : l'.authority = l.authority) :
    (∀ x : Subscription,
      (∀ rest, l.ServesOnly (g.subscription.asWait :: rest) → l'.ServesOnly (x.asWait :: rest)) →
        ServesOnly (h.put k g (x, l'))) ∧
    ((∀ rest, l.ServesOnly (g.subscription.asWait :: rest) → l'.ServesOnly rest) →
      ServesOnly { world := h.world.withLink g.client l', guests := h.guests.eraseIdx k }) := by
  have hself (x : Subscription) : waitsAt g.client ⟨g.client, x⟩ = [x.asWait] := if_pos rfl
  have hother (j : Nat) (hj : j ≠ g.client) (x : Subscription) :
      waitsAt j ⟨g.client, x⟩ = [] := if_neg (Ne.symm hj)
  have hfront : l.ServesOnly (g.subscription.asWait ::
      ((h.guests.eraseIdx k).flatMap (waitsAt g.client) ++ h.world.waits g.client)) := by
    have hp := ((perm_guests hg g.client).1.append_right (h.world.waits g.client))
    rw [hself] at hp
    exact (ht _ _ hl).perm hp
  constructor
  · intro x hx
    refine ht.withLink hl _ ha _ ?_ ?_
    · intro j hj
      obtain ⟨hold, hnew⟩ := perm_guests hg j
      have hnew' := hnew ⟨g.client, x⟩
      rw [hother j hj] at hold hnew'
      exact hold.trans hnew'.symm
    · have hp := ((perm_guests hg g.client).2 ⟨g.client, x⟩).append_right
        (h.world.waits g.client)
      rw [hself] at hp
      exact (hx _ hfront).perm hp.symm
  · intro hx
    refine ht.withLink hl _ ha _ ?_ (hx _ hfront)
    intro j hj
    have hold := (perm_guests hg j).1
    rwa [hother j hj] at hold

theorem ServesOnly.next (ht : h.ServesOnly) (hn : h.next e = some h') : h'.ServesOnly := by
  cases e with
  | inside e =>
      obtain ⟨w', hw, rfl⟩ := Option.map_eq_some_iff.mp hn
      have hclientsStep := World.clientsStep_of_next hw
      intro i m hm
      obtain ⟨l, hl⟩ := World.exists_link?_of_clientsStep hclientsStep hm
      obtain ⟨l', old, new, rest, hl', hold, hnew, hd⟩ := hclientsStep.links hl
      change w'.link? i = some m at hm
      rw [hm] at hl'
      cases hl'
      -- the guests are among those who do nothing
      have hfront : (h.waits i).Perm (old ++ (h.guests.flatMap (waitsAt i) ++ rest)) :=
        (hold.append_left _).trans (List.perm_append_comm_assoc _ _ _)
      have hback : (new ++ (h.guests.flatMap (waitsAt i) ++ rest)).Perm
          (h.guests.flatMap (waitsAt i) ++ w'.waits i) :=
        (List.perm_append_comm_assoc _ _ _).trans (hnew.symm.append_left _)
      exact (((ht _ _ hl).perm hfront).does hd).perm hback
  | subscribe i ids =>
      obtain ⟨l, hl, hn⟩ := Option.bind_eq_some_iff.mp hn
      cases hn
      have ha : (l.subscribe ids).2.authority = l.authority := by
        unfold Link.subscribe
        split <;> rfl
      refine ht.withLink hl _ ha _ ?_ ?_
      · intro j hj
        rw [List.flatMap_cons, waitsAt, if_neg (Ne.symm hj)]
        exact .refl _
      · rw [List.flatMap_cons, waitsAt, if_pos rfl]
        exact (ht _ _ hl).subscribe ids
  | turn k =>
      obtain ⟨g, hg, hn⟩ := Option.bind_eq_some_iff.mp hn
      obtain ⟨l, hl, hn⟩ := Option.bind_eq_some_iff.mp hn
      obtain ⟨⟨x, l'⟩, hx, rfl⟩ := Option.map_eq_some_iff.mp hn
      have ha := Link.authority_stepGuest hx
      exact (ht.guest hg hl _ ha).1 x fun _ hrest => hrest.stepGuest hx
  | leave k =>
      obtain ⟨g, hg, hn⟩ := Option.bind_eq_some_iff.mp hn
      obtain ⟨l, hl, hn⟩ := Option.bind_eq_some_iff.mp hn
      cases hn
      exact (ht.guest hg hl (g.subscription.asWait.leave l) rfl).2 fun _ hrest => hrest.leave
  | giveBack k n =>
      obtain ⟨g, hg, hn⟩ := Option.bind_eq_some_iff.mp hn
      obtain ⟨l, hl, hn⟩ := Option.bind_eq_some_iff.mp hn
      cases hn
      have ha : (g.subscription.giveBack n l).2.authority = l.authority := by
        unfold Subscription.giveBack
        split <;> rfl
      exact (ht.guest hg hl _ ha).1 _ fun _ hrest => hrest.giveBack n
  | report i ids =>
      obtain ⟨l, hl, hn⟩ := Option.bind_eq_some_iff.mp hn
      cases hn
      exact ht.withLink hl (l.withUnlocks (l.client.unlocks.report ids)) rfl _
        (fun j _ => .refl _) ((ht _ _ hl).report ids)

theorem ServesOnly.run (ht : h.ServesOnly) (hr : Run h es h') : h'.ServesOnly := by
  induction hr with
  | nil => exact ht
  | cons hn _ ih => exact ih (ht.next hn)

theorem run_of_follow (hf : h.follow es = some h') : Run h es h' := by
  induction es generalizing h with
  | nil =>
      cases hf
      exact .nil _
  | cons e es ih =>
      obtain ⟨h₁, hn, hf⟩ := Option.bind_eq_some_iff.mp hf
      exact .cons hn (ih hf)

/-- A host at which nothing happened yet. -/
structure IsNew (h : Host) : Prop where
  calls_eq : h.world.calls = []
  guests_eq : h.guests = []
  unlocks_eq : ∀ client ∈ h.world.clients, client.unlocks = {}

theorem servesOnly_of_isNew (hnew : h.IsNew) : h.ServesOnly := by
  intro i l hl
  have hunlocks := hnew.unlocks_eq _ (List.mem_of_getElem? (World.link?_eq_some_iff.mp hl).1)
  have hwaits : h.waits i = [] := by
    rw [waits, World.waits, hnew.calls_eq, hnew.guests_eq]
    rfl
  rw [hwaits]
  refine ⟨?_, ?_, fun _ ht => absurd ht List.not_mem_nil⟩
  · rw [Link.Serves, hunlocks]
    exact .initial _
  · rw [hunlocks]
    exact UnlockWatch.runsForTickets_of_not_isRunning rfl

/-- A call of the client at place `i` asks for locks and is not over. -/
def Asks (h : Host) (i : Nat) : Prop :=
  ∃ requests wait stage, (⟨i, .locking requests wait stage⟩ : Call) ∈ h.world.calls

/-- However the calls of a client came to their end: when none of those that ask for
locks is left and no guest holds a ticket, nobody is registered at the client and its
monitor is idle, with every stream that was opened closed again and nobody left who
reads one. -/
theorem phase_eq_idle_of_not_asks {h₀ : Host} (hnew : h₀.IsNew) (hr : Run h₀ es h)
    (hl : h.world.link? i = some l) (hcalls : ¬ h.Asks i)
    (hguests : ∀ g ∈ h.guests, g.client = i → g.subscription.tickets = []) :
    l.client.unlocks.list.pendingIds = [] ∧ l.client.unlocks.list.tickets = 0 ∧
      l.client.unlocks.monitor.phase = .idle ∧
      l.client.unlocks.monitor.starts = l.client.unlocks.monitor.stops ∧
      l.client.unlocks.monitor.readers = [] := by
  have honly := (servesOnly_of_isNew hnew).run hr i l hl
  have hwaits : h.world.waits i = [] := by
    rw [List.eq_nil_iff_forall_not_mem]
    intro t ht
    obtain ⟨requests, wait, _, _, _, _, _, hcall, -⟩ := World.exists_call_of_mem_waits ht
    exact hcalls ⟨requests, wait, _, hcall⟩
  have hidle : ∀ t ∈ h.waits i, t.tickets = [] ∧ t.openings = 0 := by
    intro t ht
    have harmed := honly.armed t ht
    rw [waits, hwaits, List.append_nil] at ht
    obtain ⟨g, hg, hmem⟩ := List.mem_flatMap.mp ht
    unfold waitsAt at hmem
    split at hmem
    · next hi =>
        obtain rfl := List.mem_singleton.mp hmem
        have htickets := hguests g hg hi
        rw [Link.tickets_asWait, Link.openings_asWait]
        refine ⟨htickets, ?_⟩
        cases hx : g.subscription with
        | opening ks j =>
            -- whoever is on the way has tickets
            rw [hx] at htickets
            exact absurd htickets (Link.isArmed_asWait_iff.mp harmed ks j hx)
        | failed e => rfl
        | ready ks => rfl
    · cases hmem
  apply honly.phase_eq_idle_of_ticketsOf_eq_nil
  · exact List.flatMap_eq_nil_iff.mpr fun t ht => (hidle t ht).1
  · rw [TreeWait.openingsOf, List.sum_eq_zero_iff_forall_eq_nat]
    intro n hn
    obtain ⟨t, ht, rfl⟩ := List.mem_map.mp hn
    exact (hidle t ht).2

/-- A client whose second message kills the task that sends it. -/
def ofFragileClient : Host where
  world :=
    { calendar := 0
      authority := .ofTable {} ∅
      clients := [{ route := { lockScript := [{}, { crashes := true }] } }] }

/-- A guest opens the stream and leaves, while a call waits for an object that is held
and dies when it asks for it again. -/
def crashed : List Event :=
  [.inside (.visit (.request (Request.of "x") 0)), .subscribe 0 ["y"], .turn 0, .turn 0,
    .inside (.lock 0 [Request.of "x"] (some (.ofSeconds 5)))] ++
    ([.call 0, .call 0, .branch 0 0, .branch 0 0, .branch 0 0].map
      fun task => .inside (.turn task)) ++ [.leave 0, .inside (.turn (.call 0))]

theorem phase_eq_idle_of_crashed : ∃ h l, Run ofFragileClient crashed h ∧
    h.world.link? 0 = some l ∧ l.client.unlocks.monitor.starts = 1 ∧
    l.client.unlocks.list.pendingIds = [] ∧ l.client.unlocks.list.tickets = 0 ∧
    l.client.unlocks.monitor.phase = .idle ∧ l.client.unlocks.monitor.stops = 1 ∧
    l.client.unlocks.monitor.readers = [] := by
  have hend : (ofFragileClient.follow crashed).map (fun h =>
      (h.world.unfinished, h.guests.length,
        (h.world.link? 0).map (·.client.unlocks.monitor.starts))) = some (0, 0, some 1) := by
    decide +kernel
  obtain ⟨h, hf, hend⟩ := Option.map_eq_some_iff.mp hend
  obtain ⟨hover, hend⟩ := Prod.mk.inj hend
  obtain ⟨hguests, hlink⟩ := Prod.mk.inj hend
  obtain ⟨l, hl, hstarts⟩ := Option.map_eq_some_iff.mp hlink
  have hrun := run_of_follow hf
  have hnew : ofFragileClient.IsNew := by
    refine ⟨rfl, rfl, ?_⟩
    intro client hc
    obtain rfl := List.mem_singleton.mp hc
    rfl
  have hcalls : ¬ h.Asks 0 := by
    rintro ⟨requests, wait, stage, hcall⟩
    have hnot := List.countP_eq_zero.mp hover _ hcall
    exact hnot rfl
  have hnobody : ∀ g ∈ h.guests, g.client = 0 → g.subscription.tickets = [] := by
    rw [List.eq_nil_of_length_eq_zero hguests]
    exact fun _ hg => nomatch hg
  obtain ⟨hpending, htickets, hidle, hstops, hreaders⟩ :=
    phase_eq_idle_of_not_asks hnew hrun hl hcalls hnobody
  exact ⟨h, l, hrun, hl, hstarts, hpending, htickets, hidle, hstops ▸ hstarts, hreaders⟩

end Host

end LeasedLocks
