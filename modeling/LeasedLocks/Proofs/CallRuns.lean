import LeasedLocks.Proofs.Clients

/-!
# One call in a run

Of all that happens in a world only the tasks of a call and its caller bring it on
(`World.CallStep`). Everything else leaves the call where it is.
-/

namespace LeasedLocks

/-- The call that a task belongs to. -/
def Task.call? : Task → Option Nat
  | .call k => some k
  | .branch k _ => some k
  | _ => none

namespace World

/-- The event is a turn of a task of the call at place `k`. -/
def Event.isTurnOf (k : Nat) : Event → Bool
  | .turn task => task.call? == some k
  | _ => false

/-- The events that bring the call at place `k` on, and what they make of it and of its
client. -/
inductive CallStep (c : Clock) (k : Nat) (s : CallState) (l : Link) :
    Event → CallState → Link → Prop where
  | call {s' : CallState} {l' : Link} : s.step c l = some (s', l') →
      CallStep c k s l (.turn (.call k)) s' l'
  | branch {b : Nat} {s' : CallState} {l' : Link} : s.stepBranch c b l = some (s', l') →
      CallStep c k s l (.turn (.branch k b)) s' l'
  | cancel : CallStep c k s l (.cancel k) (s.cancel l).1 (s.cancel l).2

variable {w w' : World} {e : Event} {es : List Event} {k : Nat} {call : Call} {l : Link}

theorem getElem?_start {i : Nat} {f : Nat → Link → CallState × Link}
    (hcall : w.calls[k]? = some call) : (w.start i f).calls[k]? = some call := by
  unfold start
  split
  · exact hcall
  · rw [List.getElem?_append_left (List.getElem?_eq_some_iff.mp hcall).1]
    exact hcall

/-- A call that begins is over at once, or it asks for all trees. -/
theorem lock_cases {i : Nat} (hl : w.link? i = some l) (requests : List Request)
    (wait : Option Duration) :
    ∃ s l', (w.lock i requests wait).calls[w.calls.length]? = some ⟨i, s⟩ ∧
      (w.lock i requests wait).link? i = some l' ∧
      l'.client.unlocks = l.client.unlocks ∧ l'.client.source = l.client.source ∧
      ((∃ result, s = .returned w.now result ∧
          ∀ o, result = .locked (.ok o) → requests = [] ∧ o = .empty) ∨
        Client.validate requests wait = .ok () ∧ s = .locking requests wait (.asking
          (.start (l.client.route.lockScript.head?.getD {}) l.client.settings.requestTimeout
            w.now))) := by
  have hlink {state : CallState} {l' : Link} :
      ({ w.withLink i l' with calls := w.calls ++ [⟨i, state⟩] } : World).link? i = some l' :=
    link?_of_set hl rfl rfl
  have hcall (state : CallState) :
      (w.calls ++ [⟨i, state⟩])[w.calls.length]? = some ⟨i, state⟩ := List.getElem?_concat_length
  unfold lock start
  simp only [hl]
  unfold CallState.lock
  split
  · exact ⟨_, l, hcall _, hlink, rfl, rfl, .inl ⟨_, rfl, fun o h => nomatch h⟩⟩
  · next hvalid =>
      split
      · next hnil =>
          refine ⟨_, l, hcall _, hlink, rfl, rfl, .inl ⟨_, rfl, ?_⟩⟩
          intro o h
          cases h
          exact ⟨List.isEmpty_iff.mp hnil, rfl⟩
      · exact ⟨_, _, hcall _, hlink, rfl, rfl, .inr ⟨hvalid, rfl⟩⟩

/-- A call goes on, or another one does. -/
theorem cases_of_stepCall {m : Nat} {f : CallState → Link → Option (CallState × Link)}
    (h : w.stepCall m f = some w') (hcall : w.calls[k]? = some call) :
    w'.now = w.now ∧ (m ≠ k ∧ w'.calls[k]? = some call ∨
      m = k ∧ ∃ l s' l', w.link? call.client = some l ∧ f call.state l = some (s', l') ∧
        w'.calls[k]? = some { call with state := s' } ∧
        w'.clients = w.clients.set call.client l'.client ∧ w'.authority = l'.authority) := by
  obtain ⟨call', l, s', l', hcall', hl, hf, rfl⟩ := stepCall_eq_some h
  refine ⟨rfl, ?_⟩
  by_cases hm : m = k
  · subst hm
    rw [hcall] at hcall'
    cases hcall'
    have hlt := (List.getElem?_eq_some_iff.mp hcall).1
    exact .inr ⟨rfl, l, s', l', hl, hf, List.getElem?_set_self hlt, rfl, rfl⟩
  · exact .inl ⟨hm, (List.getElem?_set_ne hm).trans hcall⟩

/-- An event brings a call on, or it leaves it where it is and is no turn of its tasks. -/
theorem exists_callStep_of_next (h : w.next e = some w') (hcall : w.calls[k]? = some call) :
    (w'.calls[k]? = some call ∧ e.isTurnOf k = false) ∨
      ∃ l s' l', w.link? call.client = some l ∧ CallStep w.clock k call.state l e s' l' ∧
        w'.now = w.now ∧ w'.calls[k]? = some { call with state := s' } ∧
        w'.clients = w.clients.set call.client l'.client ∧ w'.authority = l'.authority := by
  cases e with
  | lock _ _ _ | release _ _ | listen _ _ =>
      cases h
      exact .inl ⟨getElem?_start hcall, rfl⟩
  | stopListening _ _ | shutdown _ | planOpenings _ _ | closeOwn _ | reopenOwn _
  | announceOwn _ _ | visit _ | sweepEvery _ =>
      cases h
      exact .inl ⟨hcall, rfl⟩
  | wait moment calendar =>
      obtain ⟨-, h⟩ := Option.ite_none_right_eq_some.mp h
      cases h
      exact .inl ⟨hcall, rfl⟩
  | cancel m =>
      cases h
      unfold World.cancel
      cases hs : w.stepCall m fun s l => some (s.cancel l) with
      | none => exact .inl ⟨hcall, rfl⟩
      | some w' =>
          obtain ⟨hnow, ⟨-, hsame⟩ | ⟨rfl, l, s', l', hl, hf, hrest⟩⟩ :=
            cases_of_stepCall hs hcall
          · exact .inl ⟨hsame, rfl⟩
          · have hcallStep : CallStep w.clock m call.state l (.cancel m) _ _ := .cancel
            rw [Option.some.inj hf] at hcallStep
            exact .inr ⟨l, s', l', hl, hcallStep, hnow, hrest⟩
  | turn task =>
      cases task with
      | call m =>
          obtain ⟨hnow, ⟨hne, hsame⟩ | ⟨rfl, l, s', l', hl, hf, hrest⟩⟩ :=
            cases_of_stepCall (f := CallState.step w.clock) h hcall
          · exact .inl ⟨hsame, beq_eq_false_iff_ne.mpr (hne ∘ Option.some.inj)⟩
          · exact .inr ⟨l, s', l', hl, .call hf, hnow, hrest⟩
      | branch m b =>
          obtain ⟨hnow, ⟨hne, hsame⟩ | ⟨rfl, l, s', l', hl, hf, hrest⟩⟩ :=
            cases_of_stepCall (f := CallState.stepBranch w.clock b) h hcall
          · exact .inl ⟨hsame, beq_eq_false_iff_ne.mpr (hne ∘ Option.some.inj)⟩
          · exact .inr ⟨l, s', l', hl, .branch hf, hnow, hrest⟩
      | freedPump i =>
          obtain ⟨l, hl, h⟩ := Option.bind_eq_some_iff.mp h
          obtain ⟨unlocks, -, rfl⟩ := Option.map_eq_some_iff.mp h
          exact .inl ⟨hcall, rfl⟩
      | requestPump i =>
          obtain ⟨l, hl, h⟩ := Option.bind_eq_some_iff.mp h
          obtain ⟨priorities, -, rfl⟩ := Option.map_eq_some_iff.mp h
          exact .inl ⟨hcall, rfl⟩
      | sweeper m =>
          refine .inl ⟨?_, rfl⟩
          simp only [World.next, World.step] at h
          split at h
          · cases h
          · obtain ⟨-, h⟩ := Option.ite_none_right_eq_some.mp h
            cases h
            exact hcall

/-! ## After the end -/

/-- An event brings a call on and changes its client, or it leaves the call where it is. -/
theorem callStep_of_next {i : Nat} {l l' : Link} {s : CallState} (h : w.next e = some w')
    (hl : w.link? i = some l) (hl' : w'.link? i = some l') (hcall : w.calls[k]? = some ⟨i, s⟩) :
    (w'.calls[k]? = some ⟨i, s⟩ ∧ e.isTurnOf k = false) ∨
      ∃ s', CallStep w.clock k s l e s' l' ∧ w'.now = w.now ∧ w'.calls[k]? = some ⟨i, s'⟩ ∧
        w'.clients = w.clients.set i l'.client := by
  rcases exists_callStep_of_next h hcall with
    hsame | ⟨m, s', m', hm, hb, hnow, hs', hclients, hauthority⟩
  · exact .inl hsame
  · rw [hl] at hm
    cases hm
    rw [link?_of_set hl hclients hauthority] at hl'
    cases hl'
    exact .inr ⟨s', hb, hnow, hs', hclients⟩


theorem cancel_of_isOver {s : CallState} (h : s.isOver = true) (l : Link) :
    s.cancel l = (s, l) := by
  cases s with
  | locking requests wait stage => cases h
  | releasing releases x => cases h
  | joining j => cases h
  | returned moment result => rfl
  | cancelled => rfl

/-- A call that is over stays as it is. -/
theorem over_of_next (hn : w.next e = some w') (hcall : w.calls[k]? = some call)
    (hover : call.state.isOver = true) :
    w'.calls[k]? = some call ∧ e.isTurnOf k = false := by
  rcases exists_callStep_of_next hn hcall with hsame | ⟨l, s', l', -, hb, -, hs', -⟩
  · exact hsame
  · cases hb with
    | call hstep =>
        rw [isOver_eq_false_of_step hstep] at hover
        cases hover
    | branch hstep =>
        rw [(lt_branchCount_of_stepBranch hstep).1] at hover
        cases hover
    | cancel =>
        rw [cancel_of_isOver hover] at hs'
        exact ⟨hs', rfl⟩

theorem over_of_run (hr : Run w es w') (hcall : w.calls[k]? = some call)
    (hover : call.state.isOver = true) : w'.calls[k]? = some call := by
  induction hr with
  | nil w => exact hcall
  | cons hn _ ih => exact ih (over_of_next hn hcall hover).1

/-! ## The present -/

theorem now_start {i : Nat} (f : Nat → Link → CallState × Link) : (w.start i f).now = w.now := by
  unfold start
  split <;> rfl

theorem now_stepCall {f : CallState → Link → Option (CallState × Link)}
    (h : w.stepCall k f = some w') : w'.now = w.now := by
  obtain ⟨_, _, _, _, -, -, -, rfl⟩ := stepCall_eq_some h
  rfl

theorem now_of_step {task : Task} (h : w.step task = some w') : w'.now = w.now := by
  cases task with
  | call k => exact now_stepCall (f := CallState.step w.clock) h
  | branch k b => exact now_stepCall (f := CallState.stepBranch w.clock b) h
  | freedPump i =>
      obtain ⟨l, -, h⟩ := Option.bind_eq_some_iff.mp h
      obtain ⟨unlocks, -, rfl⟩ := Option.map_eq_some_iff.mp h
      rfl
  | requestPump i =>
      obtain ⟨l, -, h⟩ := Option.bind_eq_some_iff.mp h
      obtain ⟨priorities, -, rfl⟩ := Option.map_eq_some_iff.mp h
      rfl
  | sweeper k =>
      simp only [step] at h
      split at h
      · cases h
      · obtain ⟨-, h⟩ := Option.ite_none_right_eq_some.mp h
        cases h
        rfl

/-- The present moves only when time passes. -/
theorem now_of_next (h : w.next e = some w') :
    w'.now = w.now ∨ ∃ moment calendar, e = .wait moment calendar ∧ w'.now = moment := by
  cases e with
  | wait moment calendar =>
      obtain ⟨-, h⟩ := Option.ite_none_right_eq_some.mp h
      cases h
      exact .inr ⟨moment, calendar, rfl, rfl⟩
  | cancel k =>
      cases h
      unfold World.cancel
      cases hs : w.stepCall k fun s l => some (s.cancel l) with
      | none => exact .inl rfl
      | some w' => exact .inl (now_stepCall hs)
  | turn task => exact .inl (now_of_step h)
  | lock _ _ _ | release _ _ | listen _ _ =>
      cases h
      exact .inl (now_start _)
  | stopListening _ _ | shutdown _ | planOpenings _ _ | closeOwn _ | reopenOwn _
  | announceOwn _ _ | visit _ | sweepEvery _ =>
      cases h
      exact .inl rfl

end World

end LeasedLocks
