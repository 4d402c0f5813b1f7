import LeasedLocks.Proofs.Deadlines

/-!
# Punctual tasks

Time is not to pass while a task of a call can go on (`World.TimelyRun`). As long as the
call is in a stage, time then stays within the limit of the stage, and at that limit the
stage comes to its end with the turns that are left to its tasks.

## Implementation notes

Nothing is assumed of the other tasks of the world, which may take their turns at any
time or never.
-/

namespace LeasedLocks

namespace World

/-- Time does not pass while a task of the call at place `k` can go on, and no further
than to the next moment at which one of them has to wake up. -/
def IsTimely (k : Nat) (w : World) (e : Event) : Prop :=
  ∀ moment calendar, e = .wait moment calendar →
    (∀ task : Task, task.call? = some k → w.step task = none) ∧
      ∀ call, w.calls[k]? = some call → ∀ alarm ∈ call.state.alarms, w.now < alarm →
        moment ≤ alarm

/-- A run in which the tasks of the call at place `k` are punctual. -/
inductive TimelyRun (k : Nat) : World → List Event → World → Prop where
  | nil (w : World) : TimelyRun k w [] w
  | cons {w w' w'' : World} {e : Event} {es : List Event} : w.next e = some w' →
      w.IsTimely k e → TimelyRun k w' es w'' → TimelyRun k w (e :: es) w''

variable {w w' w'' : World} {e : Event} {es : List Event} {k : Nat} {call : Call}
  {l l' : Link} {s s' : CallState}

theorem TimelyRun.run (h : TimelyRun k w es w') : Run w es w' := by
  induction h with
  | nil w => exact .nil w
  | cons hn _ _ ih => exact .cons hn ih

theorem isBlocked_of_step_eq_none (hcall : w.calls[k]? = some call)
    (hl : w.link? call.client = some l)
    (h : ∀ task : Task, task.call? = some k → w.step task = none) :
    call.state.IsBlocked w.clock l :=
  ⟨stepCall_eq_none (f := CallState.step w.clock) hcall hl (h (.call k) rfl),
    fun b => stepCall_eq_none (f := CallState.stepBranch w.clock b) hcall hl
      (h (.branch k b) rfl)⟩

/-- While a call is in a stage, time does not pass its limit. -/
theorem now_le_of_isTimely {limit : Nat} (hcall : w.calls[k]? = some call)
    (hl : w.link? call.client = some l) (hlimit : call.state.limit? = some limit)
    (hle : w.now ≤ limit) (hn : w.next e = some w') (ht : w.IsTimely k e) :
    w'.now ≤ limit := by
  rcases now_of_next hn with hnow | ⟨moment, calendar, rfl, hnow⟩
  · rwa [hnow]
  · obtain ⟨hnone, halarms⟩ := ht moment calendar rfl
    have hblocked := isBlocked_of_step_eq_none hcall hl hnone
    have hlt : w.now < limit := Nat.lt_of_not_le fun hge =>
      CallState.not_isBlocked_of_limit hlimit hge hblocked
    rw [hnow]
    exact halarms call hcall limit (CallState.limit_mem_alarms hlimit) hlt

/-- A stage whose time is up does not stay where it is. -/
theorem exists_step_of_limit {limit : Nat} (hcall : w.calls[k]? = some call)
    (hl : w.link? call.client = some l) (hlimit : call.state.limit? = some limit)
    (hle : limit ≤ w.now) : ∃ task : Task, task.call? = some k ∧ w.step task ≠ none := by
  by_contra hnone
  refine CallState.not_isBlocked_of_limit hlimit hle (isBlocked_of_step_eq_none hcall hl ?_)
  intro task htask
  by_contra hstep
  exact hnone ⟨task, htask, hstep⟩

/-! ## Runs that can be computed -/

/-- Time passes only when all tasks are at rest, and no further than to the next moment
at which one of them has to wake up. -/
def keepsTime (w : World) : Event → Bool
  | .wait moment _ =>
    (system.ready w).isEmpty && w.alarms.all fun alarm => alarm ≤ w.now || moment ≤ alarm
  | _ => true

/-- The world after these events, if they can happen one after the other and time passes
only when nothing else can happen. -/
def followTimely : World → List Event → Option World
  | w, [] => some w
  | w, e :: es => if w.keepsTime e then (w.next e).bind (followTimely · es) else none

theorem isTimely_of_keepsTime (h : w.keepsTime e = true) : w.IsTimely k e := by
  rintro moment calendar rfl
  obtain ⟨hready, halarms⟩ := Bool.and_eq_true_iff.mp h
  have hq := (quiescent_iff_ready_eq_nil w).mpr (List.isEmpty_iff.mp hready)
  refine ⟨fun task _ => hq task, ?_⟩
  intro call hcall alarm halarm hlt
  have hmem : alarm ∈ w.alarms :=
    List.mem_append_left _ (List.mem_flatMap.mpr ⟨call, List.mem_of_getElem? hcall, halarm⟩)
  have hle := List.all_eq_true.mp halarms alarm hmem
  simp only [Bool.or_eq_true, decide_eq_true_eq] at hle
  exact hle.resolve_left (Nat.not_le_of_lt hlt)

/-- Where time passes only when all tasks are at rest, the tasks of every call are
punctual. -/
theorem timelyRun_of_followTimely (h : w.followTimely es = some w') : w.TimelyRun k es w' := by
  induction es generalizing w with
  | nil =>
      cases h
      exact .nil _
  | cons e es ih =>
      obtain ⟨hkeeps, h⟩ := Option.ite_none_right_eq_some.mp h
      obtain ⟨w₁, hn, h⟩ := Option.bind_eq_some_iff.mp h
      exact .cons hn (isTimely_of_keepsTime hkeeps) (ih h)

/-! ## Every stage comes to its end -/

theorem stagesLeft_le_of_callStep {c : Clock} (h : CallStep c k s l e s' l') :
    s'.stagesLeft ≤ s.stagesLeft := by
  cases h with
  | call hstep =>
      cases s with
      | locking requests wait stage =>
          have hlimit : ∃ limit, (CallState.locking requests wait stage).limit? = some limit := by
            cases stage <;> exact ⟨_, rfl⟩
          obtain ⟨limit, hlimit⟩ := hlimit
          rcases CallState.turnsLeft_lt_of_step hstep hlimit with hlt | ⟨hEq, -, -⟩
          · exact Nat.le_of_lt hlt
          · exact Nat.le_of_eq hEq
      | _ => cases CallState.steps_of_step hstep <;> exact Nat.le_refl 0
  | branch hstep =>
      obtain ⟨_, _, _, _, _, _, _, _, _, _, rfl, -, -, rfl⟩ :=
        CallState.stepBranch_eq_some hstep
      exact Nat.le_refl 1
  | cancel =>
      cases s with
      | locking requests wait stage => cases stage <;> exact Nat.zero_le _
      | releasing releases x => exact Nat.zero_le _
      | joining j => exact Nat.zero_le _
      | returned moment result => exact Nat.le_refl _
      | cancelled => exact Nat.le_refl _

theorem stagesLeft_le_of_run (hr : Run w es w') (hcall : w.calls[k]? = some call) :
    ∃ s, w'.calls[k]? = some { call with state := s } ∧
      s.stagesLeft ≤ call.state.stagesLeft := by
  induction hr generalizing call with
  | nil w => exact ⟨call.state, hcall, Nat.le_refl _⟩
  | cons hn _ ih =>
      rcases exists_callStep_of_next hn hcall with ⟨hsame, -⟩ | ⟨_, s₁, _, -, hb, -, hs₁, -⟩
      · exact ih hsame
      · obtain ⟨s, hs, hle⟩ := ih hs₁
        exact ⟨s, hs, Nat.le_trans hle (stagesLeft_le_of_callStep hb)⟩

/-- Once its time is up, a stage ends with the turns that its tasks can still take. -/
theorem stagesLeft_lt_of_run {limit : Nat} (hr : Run w es w') (hcall : w.calls[k]? = some call)
    (hlimit : call.state.limit? = some limit) (hle : limit ≤ w.now)
    (hturns : call.state.turnsLeft < es.countP (Event.isTurnOf k)) :
    ∃ s, w'.calls[k]? = some { call with state := s } ∧
      s.stagesLeft < call.state.stagesLeft := by
  induction hr generalizing call with
  | nil w => cases hturns
  | @cons w w₁ w' e es hn hr ih =>
      have hle₁ := Nat.le_trans hle (clientsStep_of_next hn).now_le
      rcases exists_callStep_of_next hn hcall with ⟨hsame, hturn⟩ | ⟨l, s₁, l₁, -, hb, -, hs₁, -⟩
      · rw [List.countP_cons_of_neg (by rw [hturn]; exact Bool.false_ne_true)] at hturns
        exact ih hsame hlimit hle₁ hturns
      · -- a turn of the call: the stage is over, or it is closer to its end
        rcases Nat.lt_or_eq_of_le (stagesLeft_le_of_callStep hb) with hlt | hstage
        · obtain ⟨s, hs, hend⟩ := stagesLeft_le_of_run hr hs₁
          exact ⟨s, hs, Nat.lt_of_le_of_lt hend hlt⟩
        · have hcloser : s₁.turnsLeft < call.state.turnsLeft ∧ s₁.limit? = some limit ∧
              e.isTurnOf k = true := by
            cases hb with
            | call hstep =>
                rcases CallState.turnsLeft_lt_of_step hstep hlimit with hlt | ⟨-, hlt, hlimit₁⟩
                · exact absurd hstage (Nat.ne_of_lt hlt)
                · exact ⟨hlt, hlimit₁, beq_self_eq_true _⟩
            | branch hstep =>
                obtain ⟨-, hlt, hlimit₁⟩ := CallState.turnsLeft_lt_of_stepBranch hstep hlimit hle
                exact ⟨hlt, hlimit₁, beq_self_eq_true _⟩
            | cancel =>
                cases hs : call.state with
                | locking requests wait stage =>
                    rw [hs] at hstage
                    cases stage <;> cases hstage
                | _ =>
                    rw [hs] at hlimit
                    cases hlimit
          obtain ⟨hlt, hlimit₁, hturn⟩ := hcloser
          rw [List.countP_cons_of_pos hturn] at hturns
          obtain ⟨s, hs, hend⟩ := ih hs₁ hlimit₁ hle₁
            (Nat.lt_of_lt_of_le hlt (Nat.le_of_lt_succ hturns))
          exact ⟨s, hs, hstage ▸ hend⟩

end World

end LeasedLocks
