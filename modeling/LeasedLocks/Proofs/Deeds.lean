import LeasedLocks.Proofs.ReportedGrants

/-!
# What a world does to its authority

Whatever happens to clients that talk to the authority directly, all that it comes to at
the authority is a list of deeds (`World.deeds`). What is known of the histories of an
authority is thereby known of every run.
-/

namespace LeasedLocks

namespace CallState

/-- What a call gives back with its next step. -/
def givesBack (now : Nat) : CallState → List Deed
  | releasing releases x =>
    if x.isArriving now then releases.map fun r => .release r.objectId r.cascade else []
  | _ => []

/-- The trees that a call asks for are valid. -/
def AsksValid : CallState → Prop
  | locking requests _ _ => ∀ q ∈ requests, q.validate = .ok ()
  | _ => True

end CallState

namespace World

/-- What an event has the authority do, in order. -/
def deedsOf (w : World) : Event → List Deed
  | .visit errand => errand.deeds
  | .turn task =>
    match task with
    | .call k =>
      (w.petitionsOf k (.turn task)).map Petition.deed ++
        (w.calls[k]?.map (·.state.givesBack w.now)).getD []
    | .branch k _ => (w.petitionsOf k (.turn task)).map Petition.deed
    | .sweeper _ => [.sweep w.calendar]
    | _ => []
  | _ => []

/-- What these events have the authority do, in order. -/
def deeds : World → List Event → List Deed
  | _, [] => []
  | w, e :: es => w.deedsOf e ++ ((w.next e).map (deeds · es)).getD []

end World

variable {c : Clock} {l l' : Link} {s s' : CallState}

/-! ## Calls ask for valid trees -/

namespace CallState

theorem asksValid_answered {requests : List Request} (hv : ∀ q ∈ requests, q.validate = .ok ())
    (wait : Option Duration) (now : Nat) (answer : Except Fault (List Reply)) :
    (answered requests wait now answer).AsksValid := by
  rcases answered_cases requests wait now answer with
    ⟨e, heq⟩ | ⟨replies, -, -, heq | ⟨d, -, -, heq⟩⟩
  · rw [heq]
    trivial
  · rw [heq]
    trivial
  · rw [heq]
    exact hv

theorem AsksValid.step (h : s.AsksValid) (hs : s.step c l = some (s', l')) : s'.AsksValid := by
  cases steps_of_step hs with
  | asks _ => exact h
  | @hears _ wait _ answer _ _ _ => exact asksValid_answered h wait c.now answer
  | crashes _ | finishes _ _ | passes _ | released _ | joins _ | joined _ => trivial

theorem AsksValid.stepBranch {b : Nat} (h : s.AsksValid)
    (hs : s.stepBranch c b l = some (s', l')) : s'.AsksValid := by
  obtain ⟨_, _, _, _, _, _, _, _, _, _, rfl, -, -, rfl⟩ := stepBranch_eq_some hs
  exact h

theorem asksValid_cancel (s : CallState) (l : Link) : (s.cancel l).1.AsksValid := by
  cases s with
  | locking requests wait stage => cases stage <;> trivial
  | _ => trivial

theorem asksValid_lock (requests : List Request) (wait : Option Duration) (now : Nat)
    (l : Link) : (CallState.lock requests wait now l).1.AsksValid := by
  unfold CallState.lock
  split
  · trivial
  · next hvalid =>
      split
      · trivial
      · exact fun q hq => validate_of_checkIds (checkIds_of_validate hvalid) hq

theorem asksValid_release (releases : List Release) (now : Nat) (l : Link) :
    (CallState.release releases now l).1.AsksValid := by
  unfold CallState.release
  split
  · trivial
  · split <;> trivial

theorem asksValid_listen (thresholds : List Threshold) (now : Nat) (l : Link) :
    (CallState.listen thresholds now l).1.AsksValid := by
  unfold CallState.listen
  split
  · trivial
  · next j _ _ => cases j <;> trivial

/-- A call that waits asks for the trees at their places. -/
theorem AsksValid.validate_of_mem_waits {t : TreeWait} {now : Nat} (h : s.AsksValid)
    (horder : s.InOrder now) (ht : t ∈ s.waits) : t.request.validate = .ok () := by
  unfold waits at ht
  split at ht
  · obtain ⟨b, hb, hwait⟩ := List.mem_filterMap.mp ht
    exact h _ (List.mem_of_getElem? (horder b hb t hwait))
  · cases ht

theorem authority_cancel (s : CallState) (l : Link) :
    (s.cancel l).2.authority = l.authority := by
  cases s with
  | locking requests wait stage =>
      cases stage with
      | asking x => rfl
      | waiting started limit replies branches failure =>
          exact Link.authority_foldl_leave (branches.filterMap Branch.wait) l
  | _ => rfl

/-- The step of the task that makes a call does to the authority what its petitions do and
what it gives back. -/
theorem AsksValid.authority_of_step {k : Nat} (h : s.AsksValid)
    (hs : s.step c l = some (s', l')) :
    l'.authority = l.authority.enactAll
      ((l.authority.petitions (Route.date l.client.route.base c)
        (s.asks c.now (.call k))).map Petition.deed ++ s.givesBack c.now) := by
  have hgivesBack {releases : List Release} {x : Exchange (List String)}
      {y : Exchanged (List String)} {a : Authority}
      (hx : x.step (Route.passReleases releases) c.now l.authority = some (y, a)) :
      a = l.authority.enactAll ((releasing releases x).givesBack c.now) := by
    rw [Exchange.authority_of_step hx, givesBack]
    split
    · exact Authority.releaseAll_eq_enactAll l.authority releases
    · rfl
  cases steps_of_step hs with
  | asks _ | hears _ | crashes _ =>
      simp only [givesBack, List.append_nil]
      exact authority_of_step_asking h hs
  | finishes _ _ => rfl
  | passes hx | released hx => exact hgivesBack hx
  | joins hj | joined hj =>
      obtain ⟨_, _, rfl⟩ := client_of_joinPriorities hj
      rfl

end CallState

namespace World

/-- All calls ask for valid trees. -/
def AsksValid (w : World) : Prop := ∀ call ∈ w.calls, call.state.AsksValid

variable {w w' : World} {e : Event} {es : List Event} {i k : Nat} {call : Call}

theorem AsksValid.set {state : CallState} (h : w.AsksValid) (hstate : state.AsksValid) :
    ∀ other ∈ w.calls.set k { call with state }, other.state.AsksValid := by
  intro other hother
  rcases List.mem_or_eq_of_mem_set hother with hother | rfl
  · exact h other hother
  · exact hstate

theorem AsksValid.start {f : Nat → Link → CallState × Link} (h : w.AsksValid)
    (hf : ∀ l, (f w.now l).1.AsksValid) : (w.start i f).AsksValid := by
  unfold World.start
  split
  · exact h
  · next l hl =>
      intro call hcall
      rcases List.mem_append.mp hcall with hcall | hcall
      · exact h call hcall
      · rw [List.mem_singleton.mp hcall]
        exact hf l

theorem AsksValid.step {task : Task} (h : w.AsksValid) (hs : w.step task = some w') :
    w'.AsksValid := by
  cases task with
  | call k =>
      obtain ⟨call, l, state, l', hcall, -, hf, rfl⟩ := stepCall_eq_some hs
      exact h.set ((h call (List.mem_of_getElem? hcall)).step hf)
  | branch k b =>
      obtain ⟨call, l, state, l', hcall, -, hf, rfl⟩ := stepCall_eq_some hs
      exact h.set ((h call (List.mem_of_getElem? hcall)).stepBranch hf)
  | freedPump j =>
      obtain ⟨l, -, hs⟩ := Option.bind_eq_some_iff.mp hs
      obtain ⟨unlocks, -, rfl⟩ := Option.map_eq_some_iff.mp hs
      exact h
  | requestPump j =>
      obtain ⟨l, -, hs⟩ := Option.bind_eq_some_iff.mp hs
      obtain ⟨priorities, -, rfl⟩ := Option.map_eq_some_iff.mp hs
      exact h
  | sweeper m =>
      simp only [World.step] at hs
      split at hs
      · cases hs
      · obtain ⟨-, hs⟩ := Option.ite_none_right_eq_some.mp hs
        cases hs
        exact h

theorem AsksValid.next (h : w.AsksValid) (hn : w.next e = some w') : w'.AsksValid := by
  cases e with
  | lock j requests wait =>
      cases hn
      exact h.start fun l => CallState.asksValid_lock requests wait w.now l
  | release j releases =>
      cases hn
      exact h.start fun l => CallState.asksValid_release releases w.now l
  | listen j thresholds =>
      cases hn
      exact h.start fun l => CallState.asksValid_listen thresholds w.now l
  | cancel m =>
      cases hn
      unfold World.cancel
      cases hs : w.stepCall m fun s l => some (s.cancel l) with
      | none => exact h
      | some w' =>
          obtain ⟨call, l, state, l', -, -, hf, rfl⟩ := stepCall_eq_some hs
          have hstate := CallState.asksValid_cancel call.state l
          rw [Option.some.inj hf] at hstate
          exact h.set hstate
  | stopListening _ _ | shutdown _ | planOpenings _ _ | closeOwn _ | reopenOwn _
  | announceOwn _ _ | visit _ | sweepEvery _ =>
      cases hn
      exact h
  | wait moment calendar =>
      obtain ⟨-, hn⟩ := Option.ite_none_right_eq_some.mp hn
      cases hn
      exact h
  | turn task => exact h.step hn

/-! ## What events do to the authority -/

theorem authority_start {f : Nat → Link → CallState × Link}
    (hf : ∀ l : Link, (f w.now l).2.authority = l.authority) :
    (w.start i f).authority = w.authority := by
  unfold start
  split
  · rfl
  · next l hl => exact (hf l).trans (link?_eq_some_iff.mp hl).2

theorem authority_of_step_call (hv : w.AsksValid) (hs : w.step (.call k) = some w') :
    w'.authority = w.authority.enactAll (w.deedsOf (.turn (.call k))) := by
  obtain ⟨call, l, state, l', hcall, hl, hf, rfl⟩ := stepCall_eq_some hs
  have htask : Task.call? (.call k) = some k := rfl
  have hasks := hv call (List.mem_of_getElem? hcall)
  simp only [deedsOf, petitionsOf_turn hcall hl htask, hcall, Option.map_some, Option.getD_some]
  rw [← (link?_eq_some_iff.mp hl).2]
  exact hasks.authority_of_step hf

theorem authority_of_step_branch {b : Nat} (hlocal : Local w) (hv : w.AsksValid)
    (hs : w.step (.branch k b) = some w') :
    w'.authority = w.authority.enactAll (w.deedsOf (.turn (.branch k b))) := by
  obtain ⟨call, l, state, l', hcall, hl, hf, rfl⟩ := stepCall_eq_some hs
  have htask : Task.call? (.branch k b) = some k := rfl
  have hmem := List.mem_of_getElem? hcall
  have horder := (hlocal.calls call hmem).2
  simp only [deedsOf, petitionsOf_turn hcall hl htask]
  rw [← (link?_eq_some_iff.mp hl).2]
  exact CallState.authority_of_stepBranch
    (fun t ht => (hv call hmem).validate_of_mem_waits horder ht) hf

theorem authority_of_task {task : Task} (hlocal : Local w) (hv : w.AsksValid)
    (hs : w.step task = some w') :
    w'.authority = w.authority.enactAll (w.deedsOf (.turn task)) := by
  cases task with
  | call k => exact authority_of_step_call hv hs
  | branch k b => exact authority_of_step_branch hlocal hv hs
  | freedPump j =>
      obtain ⟨l, hl, hs⟩ := Option.bind_eq_some_iff.mp hs
      obtain ⟨unlocks, -, rfl⟩ := Option.map_eq_some_iff.mp hs
      exact (link?_eq_some_iff.mp hl).2
  | requestPump j =>
      obtain ⟨l, hl, hs⟩ := Option.bind_eq_some_iff.mp hs
      obtain ⟨priorities, -, rfl⟩ := Option.map_eq_some_iff.mp hs
      exact (link?_eq_some_iff.mp hl).2
  | sweeper m =>
      simp only [World.step] at hs
      split at hs
      · cases hs
      · obtain ⟨-, hs⟩ := Option.ite_none_right_eq_some.mp hs
        cases hs
        rfl

/-- All that an event does to the authority are its deeds. -/
theorem authority_of_next (hlocal : Local w) (hv : w.AsksValid) (hn : w.next e = some w') :
    w'.authority = w.authority.enactAll (w.deedsOf e) := by
  cases e with
  | lock j requests wait =>
      cases hn
      apply authority_start
      intro l
      unfold CallState.lock
      split
      · rfl
      · split <;> rfl
  | release j releases =>
      cases hn
      apply authority_start
      intro l
      unfold CallState.release
      split
      · rfl
      · split <;> rfl
  | listen j thresholds =>
      cases hn
      apply authority_start
      intro l
      unfold CallState.listen
      split
      · rfl
      · next joining _ _ => cases joining <;> rfl
  | cancel m =>
      cases hn
      unfold cancel
      cases hs : w.stepCall m fun s l => some (s.cancel l) with
      | none => rfl
      | some w' =>
          obtain ⟨call, l, state, l', -, hl, hf, rfl⟩ := stepCall_eq_some hs
          have hauthority := CallState.authority_cancel call.state l
          rw [Option.some.inj hf] at hauthority
          exact hauthority.trans (link?_eq_some_iff.mp hl).2
  | stopListening _ _ | shutdown _ | planOpenings _ _ | closeOwn _ | reopenOwn _
  | announceOwn _ _ | sweepEvery _ =>
      cases hn
      rfl
  | visit errand =>
      cases hn
      exact Authority.carryOut_eq_enactAll w.authority errand
  | wait moment calendar =>
      obtain ⟨-, hn⟩ := Option.ite_none_right_eq_some.mp hn
      cases hn
      rfl
  | turn task => exact authority_of_task hlocal hv hn

theorem deeds_cons (hn : w.next e = some w') : w.deeds (e :: es) = w.deedsOf e ++ w'.deeds es := by
  simp only [deeds, hn, Option.map_some, Option.getD_some]

/-- A run does to the authority what its deeds do. -/
theorem authority_of_run (hr : Run w es w') (hlocal : Local w) (hv : w.AsksValid)
    (hes : ∀ e ∈ es, ∀ i plan, e ≠ .planOpenings i plan) :
    w'.authority = w.authority.enactAll (w.deeds es) := by
  induction hr with
  | nil w => rfl
  | @cons w w₁ w' e es hn hr ih =>
      have hlocal₁ := hlocal.next hn (hes e List.mem_cons_self)
      have hrest := ih hlocal₁ (hv.next hn) fun e he => hes e (List.mem_cons_of_mem _ he)
      rw [deeds_cons hn, Authority.enactAll_append, ← authority_of_next hlocal hv hn, hrest]

end World

end LeasedLocks
