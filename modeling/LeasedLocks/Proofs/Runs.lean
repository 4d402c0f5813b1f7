import LeasedLocks.Proofs.Call
import LeasedLocks.Proofs.Channel
import LeasedLocks.Proofs.Schedule
import LeasedLocks.World

/-!
# Runs of a world

Everything that can happen to clients around an authority, the runs that it makes,
and what it comes down to: one client does something with its waits, and all others
only see the authority go on (`World.ClientsStep`). Hence the watch of every client
serves its waits at any time.
-/

namespace LeasedLocks

namespace World

/-- Something that happens in a world. -/
inductive Event where
  | lock (i : Nat) (requests : List Request) (wait : Option Duration)
  | release (i : Nat) (releases : List Release)
  | listen (i : Nat) (thresholds : List Threshold)
  | stopListening (i : Nat) (thresholds : List Threshold)
  /-- The caller gives up the call at this place. -/
  | cancel (i : Nat)
  | shutdown (i : Nat)
  | planOpenings (i : Nat) (plan : OpeningPlan)
  | closeOwn (i : Nat)
  | reopenOwn (i : Nat)
  | announceOwn (i : Nat) (batches : List (List String))
  /-- Somebody comes to the authority itself. -/
  | visit (e : Errand)
  | sweepEvery (interval : Nat)
  /-- Time passes until this moment, and the calendar comes to show this date. -/
  | wait (moment : Nat) (calendar : Millis)
  /-- A task takes a step. -/
  | turn (task : Task)

/-- What an event makes of a world; nothing if it cannot happen. -/
def next (w : World) : Event → Option World
  | .lock i requests wait => some (w.lock i requests wait)
  | .release i releases => some (w.release i releases)
  | .listen i thresholds => some (w.listen i thresholds)
  | .stopListening i thresholds => some (w.stopListening i thresholds)
  | .cancel i => some (w.cancel i)
  | .shutdown i => some (w.shutdown i)
  | .planOpenings i plan => some (w.planOpenings i plan)
  | .closeOwn i => some (w.closeOwn i)
  | .reopenOwn i => some (w.reopenOwn i)
  | .announceOwn i batches => some (w.announceOwn i batches)
  | .visit e => some { w with authority := w.authority.carryOut e }
  | .sweepEvery interval => some (w.sweepEvery interval)
  | .wait moment calendar =>
    if w.now ≤ moment then some { w with now := moment, calendar } else none
  | .turn task => w.step task

/-- One event after the other leads from one world to another. -/
inductive Run : World → List Event → World → Prop where
  | nil (w : World) : Run w [] w
  | cons {w w' w'' : World} {e : Event} {es : List Event} :
      w.next e = some w' → Run w' es w'' → Run w (e :: es) w''

/-- The world after these events, if they can happen one after the other. -/
def follow : World → List Event → Option World
  | w, [] => some w
  | w, e :: es => (w.next e).bind (follow · es)

/-- The waits that a call contributes to those of the client at place `i`. -/
def waitsAt (i : Nat) (call : Call) : List TreeWait :=
  if call.client = i then call.state.waits else []

/-- The waits of the client at place `i`. -/
def waits (w : World) (i : Nat) : List TreeWait := w.calls.flatMap (waitsAt i)

/-- An event lets every client do at most one thing with its waits. -/
structure ClientsStep (w w' : World) : Prop where
  now_le : w.now ≤ w'.now
  length_eq : w'.clients.length = w.clients.length
  links : ∀ {i : Nat} {l : Link}, w.link? i = some l →
    ∃ l' old new rest, w'.link? i = some l' ∧ (w.waits i).Perm (old ++ rest) ∧
      (w'.waits i).Perm (new ++ rest) ∧ Link.Does w.clock old l new l'

variable {w w' w'' : World} {e : Event} {es : List Event} {i k : Nat} {l l' : Link}
  {c : Clock} {call : Call} {state : CallState} {old new kept rest : List TreeWait}

theorem run_of_follow (h : w.follow es = some w') : Run w es w' := by
  induction es generalizing w with
  | nil =>
      cases h
      exact .nil _
  | cons e es ih =>
      obtain ⟨w₁, hn, h⟩ := Option.bind_eq_some_iff.mp h
      exact .cons hn (ih h)

theorem Run.append {es' : List Event} (hr : Run w es w') (hr' : Run w' es' w'') :
    Run w (es ++ es') w'' := by
  induction hr with
  | nil w => exact hr'
  | cons hn _ ih => exact .cons hn (ih hr')

/-! ## Clients and their calls -/

theorem link?_eq_some_iff : w.link? i = some l ↔
    w.clients[i]? = some l.client ∧ l.authority = w.authority := by
  simp only [link?, Option.map_eq_some_iff]
  constructor
  · rintro ⟨client, hi, rfl⟩
    exact ⟨hi, rfl⟩
  · rintro ⟨hi, ha⟩
    refine ⟨l.client, hi, ?_⟩
    rw [← ha]

theorem lt_length_of_link? (h : w.link? i = some l) : i < w.clients.length :=
  (List.getElem?_eq_some_iff.mp (link?_eq_some_iff.mp h).1).1

/-- The client at place `i` and the authority have changed. -/
theorem link?_of_set (hl : w.link? i = some l) (hclients : w'.clients = w.clients.set i l'.client)
    (hauthority : w'.authority = l'.authority) : w'.link? i = some l' := by
  refine link?_eq_some_iff.mpr ⟨?_, hauthority.symm⟩
  rw [hclients, List.getElem?_set_self (lt_length_of_link? hl)]

theorem exists_link?_of_lt (h : i < w.clients.length) : ∃ l, w.link? i = some l :=
  ⟨⟨w.clients[i], w.authority⟩, link?_eq_some_iff.mpr ⟨List.getElem?_eq_getElem h, rfl⟩⟩

/-- Every wait of a client belongs to a call that waits. -/
theorem exists_call_of_mem_waits {t : TreeWait} (h : t ∈ w.waits i) :
    ∃ requests wait started limit replies branches failure,
      ⟨i, .locking requests wait (.waiting started limit replies branches failure)⟩ ∈ w.calls ∧
        ∃ b ∈ branches, b.wait = some t := by
  obtain ⟨call, hcall, hmem⟩ := List.mem_flatMap.mp h
  obtain ⟨client, state⟩ := call
  unfold waitsAt at hmem
  split at hmem
  · next hi =>
      subst hi
      unfold CallState.waits at hmem
      split at hmem
      · next requests wait started limit replies branches failure hstate =>
          change state = _ at hstate
          subst hstate
          obtain ⟨b, hb, hwait⟩ := List.mem_filterMap.mp hmem
          exact ⟨_, _, _, _, _, _, _, hcall, b, hb, hwait⟩
      · cases hmem
  · cases hmem

/-- The waits of a client with those of one call in front, before and after the call
goes on. -/
theorem perm_waits (hcall : w.calls[k]? = some call) (state : CallState) :
    ∃ others : Nat → List TreeWait, ∀ i,
      (w.waits i).Perm (waitsAt i call ++ others i) ∧
        ((w.calls.set k ⟨call.client, state⟩).flatMap (waitsAt i)).Perm
          (waitsAt i ⟨call.client, state⟩ ++ others i) := by
  obtain ⟨hlt, rfl⟩ := List.getElem?_eq_some_iff.mp hcall
  refine ⟨fun i => (w.calls.eraseIdx k).flatMap (waitsAt i), ?_⟩
  intro i
  constructor
  · exact (List.getElem_cons_eraseIdx_perm hlt).symm.flatMap_right _
  · exact (List.set_perm_cons_eraseIdx hlt _).flatMap_right _

/-- For those who do nothing, the authority goes on. -/
theorem does_nothing {a : Authority} (h : l.authority.Announces a) (c : Clock) :
    Link.Does c [] l [] { l with authority := a } :=
  .begins (.of_own_eq h rfl) rfl fun _ h => nomatch h

/-- The client at place `i` does something, and the others do not. -/
theorem clientsStep_of_client (rest : List TreeWait) (hl : w.link? i = some l)
    (hnow : w.now ≤ w'.now) (hclients : w'.clients = w.clients.set i l'.client)
    (ha : w'.authority = l'.authority) (hold : (w.waits i).Perm (old ++ rest))
    (hnew : (w'.waits i).Perm (new ++ rest))
    (hothers : ∀ j, j ≠ i → (w'.waits j).Perm (w.waits j))
    (hd : Link.Does w.clock old l new l') : ClientsStep w w' where
  now_le := hnow
  length_eq := by rw [hclients, List.length_set]
  links := by
    intro j m hm
    obtain ⟨hj, hauth⟩ := link?_eq_some_iff.mp hm
    by_cases hji : j = i
    · subst hji
      rw [hl] at hm
      cases hm
      exact ⟨l', old, new, rest, link?_of_set hl hclients ha, hold, hnew, hd⟩
    · refine ⟨⟨m.client, w'.authority⟩, [], [], w.waits j,
        link?_eq_some_iff.mpr ⟨?_, rfl⟩, .refl _, hothers j hji, does_nothing ?_ _⟩
      · rw [hclients, List.getElem?_set_ne (Ne.symm hji), hj]
      · have hauth' := (link?_eq_some_iff.mp hl).2
        rw [hauth, ha, ← hauth']
        exact hd.announces

/-- No client does anything. -/
theorem clientsStep_of_authority (hnow : w.now ≤ w'.now) (hclients : w'.clients = w.clients)
    (hcalls : w'.calls = w.calls) (h : w.authority.Announces w'.authority) : ClientsStep w w' where
  now_le := hnow
  length_eq := by rw [hclients]
  links := by
    intro j m hm
    obtain ⟨hj, hauth⟩ := link?_eq_some_iff.mp hm
    refine ⟨⟨m.client, w'.authority⟩, [], [], w.waits j,
      link?_eq_some_iff.mpr ⟨by rw [hclients, hj], rfl⟩, .refl _, ?_, does_nothing ?_ _⟩
    · rw [waits, hcalls]
      exact .refl _
    · rw [hauth]
      exact h

/-! ## Events -/

theorem stepCall_eq_some {f : CallState → Link → Option (CallState × Link)}
    (h : w.stepCall k f = some w') :
    ∃ call l state l', w.calls[k]? = some call ∧ w.link? call.client = some l ∧
      f call.state l = some (state, l') ∧
      w' = { w.withLink call.client l' with calls := w.calls.set k { call with state } } := by
  unfold stepCall at h
  split at h
  · cases h
  · next call hcall =>
      split at h
      · cases h
      · next l hl =>
          obtain ⟨⟨state, l'⟩, hf, rfl⟩ := Option.map_eq_some_iff.mp h
          exact ⟨call, l, state, l', hcall, hl, hf, rfl⟩

/-- A call whose task is blocked cannot take a step. -/
theorem stepCall_eq_none {f : CallState → Link → Option (CallState × Link)}
    (hcall : w.calls[k]? = some call) (hl : w.link? call.client = some l)
    (h : w.stepCall k f = none) : f call.state l = none := by
  rw [stepCall, hcall] at h
  simp only [hl] at h
  exact Option.map_eq_none_iff.mp h

/-- A call goes on, and its client does something with the waits of the call. -/
theorem clientsStep_of_call (kept : List TreeWait) (hcall : w.calls[k]? = some call)
    (hl : w.link? call.client = some l)
    (hold : call.state.waits.Perm (old ++ kept)) (hnew : state.waits.Perm (new ++ kept))
    (hd : Link.Does w.clock old l new l') :
    ClientsStep w
      { w.withLink call.client l' with calls := w.calls.set k { call with state } } := by
  obtain ⟨others, hothers⟩ := perm_waits hcall state
  refine clientsStep_of_client (kept ++ others call.client) hl (Nat.le_refl _) rfl rfl
    ?_ ?_ ?_ hd
  · have h := (hothers call.client).1
    rw [waitsAt, if_pos rfl] at h
    rw [← List.append_assoc]
    exact h.trans (hold.append_right _)
  · have h := (hothers call.client).2
    rw [waitsAt, if_pos rfl] at h
    rw [← List.append_assoc]
    exact h.trans (hnew.append_right _)
  · intro j hj
    obtain ⟨h, h'⟩ := hothers j
    rw [waitsAt, if_neg (Ne.symm hj)] at h h'
    exact h'.trans h.symm

/-- A client begins a call that does not wait yet. -/
theorem clientsStep_start {f : Nat → Link → CallState × Link}
    (hf : ∀ l, (f w.now l).1.waits = [] ∧ Link.Does w.clock [] l [] (f w.now l).2) :
    ClientsStep w (w.start i f) := by
  unfold start
  cases hl : w.link? i with
  | none => exact clientsStep_of_authority (Nat.le_refl _) rfl rfl (.refl _)
  | some l =>
      obtain ⟨hwaits, hd⟩ := hf l
      have hsame (j : Nat) :
          (w.calls ++ [Call.mk i (f w.now l).1]).flatMap (waitsAt j) = w.waits j := by
        rw [List.flatMap_append, List.flatMap_singleton, waitsAt]
        split
        · rw [hwaits, List.append_nil]
          rfl
        · exact List.append_nil _
      refine clientsStep_of_client (w.waits i) hl (Nat.le_refl _) rfl rfl (.refl _) ?_ ?_ hd
      · rw [List.nil_append, ← hsame i]
        exact .refl _
      · intro j _
        rw [← hsame j]
        exact .refl _

/-- A client is changed from outside. -/
theorem clientsStep_alter {f : Client → Client}
    (hf : ∀ l, Link.Does w.clock [] l [] { l with client := f l.client }) :
    ClientsStep w (w.alter i f) := by
  cases hl : w.link? i with
  | none =>
      have hle : w.clients.length ≤ i := by
        by_contra hlt
        obtain ⟨l, hl'⟩ := exists_link?_of_lt (Nat.lt_of_not_le hlt)
        rw [hl] at hl'
        cases hl'
      have heq : w.clients.modify i f = w.clients := List.modify_eq_self hle
      exact clientsStep_of_authority (Nat.le_refl _) heq rfl (.refl _)
  | some l =>
      obtain ⟨hi, ha⟩ := link?_eq_some_iff.mp hl
      refine clientsStep_of_client (w.waits i) hl (Nat.le_refl _) ?_ ?_ (.refl _) (.refl _)
        (fun j _ => .refl _) (hf l)
      · change w.clients.modify i f = _
        rw [List.modify_eq_set_getElem?, hi]
        rfl
      · exact ha.symm

theorem waits_lock (requests : List Request) (wait : Option Duration) (now : Nat) (l : Link) :
    (CallState.lock requests wait now l).1.waits = [] ∧
      Link.Does c [] l [] (CallState.lock requests wait now l).2 := by
  unfold CallState.lock
  split
  · exact ⟨rfl, .leaves [] l⟩
  · split
    · exact ⟨rfl, .leaves [] l⟩
    · exact ⟨rfl, .begins (Link.onward_client l rfl) rfl fun _ h => nomatch h⟩

theorem waits_release (releases : List Release) (now : Nat) (l : Link) :
    (CallState.release releases now l).1.waits = [] ∧
      Link.Does c [] l [] (CallState.release releases now l).2 := by
  unfold CallState.release
  split
  · exact ⟨rfl, .leaves [] l⟩
  · split
    · exact ⟨rfl, .leaves [] l⟩
    · exact ⟨rfl, .begins (Link.onward_client l rfl) rfl fun _ h => nomatch h⟩

theorem waits_listen (thresholds : List Threshold) (now : Nat) (l : Link) :
    (CallState.listen thresholds now l).1.waits = [] ∧
      Link.Does c [] l [] (CallState.listen thresholds now l).2 := by
  unfold CallState.listen
  split
  · exact ⟨rfl, .leaves [] l⟩
  · next j priorities _ =>
      have hd : Link.Does c [] l []
          { l with client := { l.client with priorities } } :=
        .begins (Link.onward_client l rfl) rfl fun _ h => nomatch h
      cases j with
      | none => exact ⟨rfl, hd⟩
      | some j => exact ⟨rfl, hd⟩

/-- A client whose bulletin of its own, if it has one, goes on. -/
theorem does_alterOwn {f : Bulletin → Bulletin} (hf : ∀ b, b.freed.sent ≤ (f b).freed.sent)
    (l : Link) :
    Link.Does c [] l [] { l with client := { l.client with own := l.client.own.map f } } := by
  refine .begins ⟨.refl _, ?_, ?_⟩ rfl fun _ h => nomatch h
  · intro hn
    rw [hn]
    rfl
  · simp only [Link.freed, Client.bulletin]
    cases l.client.own with
    | none => exact Nat.le_refl _
    | some b => exact hf b

theorem clientsStep_of_step {task : Task} (h : w.step task = some w') : ClientsStep w w' := by
  cases task with
  | call k =>
      obtain ⟨call, l, state, l', hcall, hl, hf, rfl⟩ := stepCall_eq_some h
      obtain ⟨hwaits, hd⟩ := CallState.does_of_step hf
      refine clientsStep_of_call [] hcall hl (.of_eq hwaits) ?_ hd
      rw [List.append_nil]
  | branch k b =>
      obtain ⟨call, l, state, l', hcall, hl, hf, rfl⟩ := stepCall_eq_some h
      obtain ⟨t, r, kept, hold, hnew, hs⟩ := CallState.does_of_stepBranch hf
      exact clientsStep_of_call kept hcall hl hold hnew (.steps hs)
  | freedPump i =>
      obtain ⟨l, hl, h⟩ := Option.bind_eq_some_iff.mp h
      obtain ⟨unlocks, hp, rfl⟩ := Option.map_eq_some_iff.mp h
      exact clientsStep_of_client (w.waits i) hl (Nat.le_refl _) rfl rfl (.refl _) (.refl _)
        (fun j _ => .refl _) (.reads hp)
  | requestPump i =>
      obtain ⟨l, hl, h⟩ := Option.bind_eq_some_iff.mp h
      obtain ⟨priorities, -, rfl⟩ := Option.map_eq_some_iff.mp h
      have hd : Link.Does w.clock [] l [] { l with client := { l.client with priorities } } :=
        .begins (Link.onward_client l rfl) rfl fun _ h => nomatch h
      exact clientsStep_of_client (w.waits i) hl (Nat.le_refl _) rfl rfl (.refl _) (.refl _)
        (fun j _ => .refl _) hd
  | sweeper k =>
      simp only [step] at h
      split at h
      · cases h
      · obtain ⟨-, h⟩ := Option.ite_none_right_eq_some.mp h
        cases h
        exact clientsStep_of_authority (Nat.le_refl _) rfl rfl (.sweep _ _)

/-- Whatever happens, clients deal with their waits one thing at a time. -/
theorem clientsStep_of_next (h : w.next e = some w') : ClientsStep w w' := by
  cases e with
  | lock i requests wait =>
      cases h
      exact clientsStep_start (waits_lock requests wait w.now)
  | release i releases =>
      cases h
      exact clientsStep_start (waits_release releases w.now)
  | listen i thresholds =>
      cases h
      exact clientsStep_start (waits_listen thresholds w.now)
  | stopListening i thresholds =>
      cases h
      exact clientsStep_alter fun l => .begins (Link.onward_client l rfl) rfl fun _ h => nomatch h
  | cancel k =>
      cases h
      unfold cancel
      cases hs : w.stepCall k fun s l => some (s.cancel l) with
      | none => exact clientsStep_of_authority (Nat.le_refl _) rfl rfl (.refl _)
      | some w' =>
          obtain ⟨call, l, state, l', hcall, hl, hf, rfl⟩ := stepCall_eq_some hs
          obtain ⟨hwaits, hd⟩ := CallState.does_of_cancel (c := w.clock) call.state l
          rw [Option.some.inj hf] at hwaits hd
          refine clientsStep_of_call [] hcall hl ?_ (.of_eq hwaits) hd
          rw [List.append_nil]
  | shutdown i =>
      cases h
      exact clientsStep_alter fun l => .shutsDown l
  | planOpenings i plan =>
      cases h
      exact clientsStep_alter fun l => .begins (Link.onward_client l rfl) rfl fun _ h => nomatch h
  | closeOwn i =>
      cases h
      exact clientsStep_alter fun l =>
        does_alterOwn (f := Bulletin.close) (fun b => Nat.le_refl _) l
  | reopenOwn i =>
      cases h
      exact clientsStep_alter fun l =>
        does_alterOwn (fun b => Nat.le_of_eq (Monitor.sent_renew _ b.freed).symm) l
  | announceOwn i batches =>
      cases h
      exact clientsStep_alter fun l =>
        does_alterOwn (fun b => Channel.sent_le_foldl_send batches b.freed) l
  | visit e =>
      cases h
      refine clientsStep_of_authority (Nat.le_refl _) rfl rfl ?_
      rw [Authority.carryOut_eq_enactAll]
      exact .enactAll _ _
  | sweepEvery interval =>
      cases h
      exact clientsStep_of_authority (Nat.le_refl _) rfl rfl (.refl _)
  | wait moment calendar =>
      obtain ⟨hle, h⟩ := Option.ite_none_right_eq_some.mp h
      cases h
      exact clientsStep_of_authority hle rfl rfl (.refl _)
  | turn task => exact clientsStep_of_step h

/-! ## Rest -/

theorem isOver_eq_false_of_step {s s' : CallState} (h : s.step c l = some (s', l')) :
    s.isOver = false := by
  cases CallState.steps_of_step h <;> rfl

theorem lt_branchCount_of_stepBranch {s s' : CallState} {k : Nat}
    (h : s.stepBranch c k l = some (s', l')) : s.isOver = false ∧ k < s.branchCount := by
  unfold CallState.stepBranch at h
  split at h
  · split at h
    · next hb => exact ⟨rfl, (List.getElem?_eq_some_iff.mp hb).1⟩
    · cases h
  · cases h

theorem mem_tasks_of_call {task : Task} (hcall : w.calls[k]? = some call)
    (hover : call.state.isOver = false)
    (htask : task ∈ Task.call k :: (List.range call.state.branchCount).map (.branch k)) :
    task ∈ w.tasks := by
  refine List.mem_append_left _ (List.mem_append_left _ (List.mem_flatMap.mpr ⟨(call, k), ?_, ?_⟩))
  · exact List.mem_zipIdx_iff_getElem?.mpr hcall
  · simp only [hover]
    exact htask

/-- Only the tasks of a world can ever run in it. -/
theorem mem_tasks_of_step {task : Task} (h : w.step task = some w') : task ∈ w.tasks := by
  cases task with
  | call k =>
      obtain ⟨call, l, state, l', hcall, -, hf, -⟩ := stepCall_eq_some h
      exact mem_tasks_of_call hcall (isOver_eq_false_of_step hf) List.mem_cons_self
  | branch k b =>
      obtain ⟨call, l, state, l', hcall, -, hf, -⟩ := stepCall_eq_some h
      obtain ⟨hover, hlt⟩ := lt_branchCount_of_stepBranch hf
      apply mem_tasks_of_call hcall hover
      exact List.mem_cons_of_mem _ (List.mem_map_of_mem (List.mem_range.mpr hlt))
  | freedPump i =>
      obtain ⟨l, hl, -⟩ := Option.bind_eq_some_iff.mp h
      refine List.mem_append_left _ (List.mem_append_right _ (List.mem_flatMap.mpr ⟨i, ?_, ?_⟩))
      · exact List.mem_range.mpr (lt_length_of_link? hl)
      · exact List.mem_cons_self
  | requestPump i =>
      obtain ⟨l, hl, -⟩ := Option.bind_eq_some_iff.mp h
      refine List.mem_append_left _ (List.mem_append_right _ (List.mem_flatMap.mpr ⟨i, ?_, ?_⟩))
      · exact List.mem_range.mpr (lt_length_of_link? hl)
      · exact List.mem_cons_of_mem _ List.mem_cons_self
  | sweeper k =>
      simp only [step] at h
      split at h
      · cases h
      · next hk =>
          have hlt := (List.getElem?_eq_some_iff.mp hk).1
          exact List.mem_append_right _ (List.mem_map_of_mem (List.mem_range.mpr hlt))

/-- A world is at rest when none of its tasks is ready. -/
theorem quiescent_iff_ready_eq_nil (w : World) : system.Quiescent w ↔ system.ready w = [] :=
  TaskSystem.quiescent_iff_ready_eq_nil mem_tasks_of_step

/-! ## The books are kept -/

/-- The watch of every client serves its waits. -/
def Serves (w : World) : Prop := ∀ {i : Nat} {l : Link}, w.link? i = some l → l.Serves (w.waits i)

theorem exists_link?_of_clientsStep (h : ClientsStep w w') (hl : w'.link? i = some l') :
    ∃ l, w.link? i = some l := by
  have hlt := lt_length_of_link? hl
  rw [h.length_eq] at hlt
  exact exists_link?_of_lt hlt

theorem Serves.clientsStep (hw : Serves w) (h : ClientsStep w w') : Serves w' := by
  intro i m hm
  obtain ⟨l, hl⟩ := exists_link?_of_clientsStep h hm
  obtain ⟨l', old, new, rest, hl', hold, hnew, hd⟩ := h.links hl
  rw [hm] at hl'
  cases hl'
  exact (((hw hl).perm hold).does hd).perm hnew.symm

theorem Serves.run (hw : Serves w) (h : Run w es w') : Serves w' := by
  induction h with
  | nil => exact hw
  | cons hn _ ih => exact ih (hw.clientsStep (clientsStep_of_next hn))

/-- Nobody has made a call yet, and nobody watches for anything. -/
structure IsNew (w : World) : Prop where
  calls_eq : w.calls = []
  unlocks_eq : ∀ client ∈ w.clients, client.unlocks = {}

theorem waits_of_isNew (hw : IsNew w) (i : Nat) : w.waits i = [] := by
  rw [waits, hw.calls_eq]
  rfl

theorem serves_of_isNew (hw : IsNew w) : Serves w := by
  intro i l hl
  have hunlocks := hw.unlocks_eq _ (List.mem_of_getElem? (link?_eq_some_iff.mp hl).1)
  rw [waits_of_isNew hw, Link.Serves, hunlocks]
  exact .initial _

end World

end LeasedLocks
