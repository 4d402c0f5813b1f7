import LeasedLocks.Proofs.CallRuns

/-!
# What happens at a deadline

A call that asks for locks has a moment at which its present stage is over at the
latest (`CallState.limit?`). From that moment on one of its tasks can always go on, and
every turn that they take brings the stage closer to its end (`CallState.turnsLeft`).
-/

namespace LeasedLocks

/-- How many steps an exchange can still take. -/
def Exchange.turnsLeft {β : Type} (x : Exchange β) : Nat :=
  match x.leg with
  | .outbound _ _ => 2
  | .silent => 1
  | .inbound _ _ => 1

/-- How many steps a wait can still take when its time is up. -/
def TreeWait.turnsLeft (t : TreeWait) : Nat :=
  match t.stage with
  | .round => 1
  | .parked => 2
  | .asking _ x => 2 + x.turnsLeft
  | .arming _ j => 4 + j.stepsLeft

/-- The time of a wait is up, and nothing but that can bring it on. -/
def TreeWait.IsLate (c : Clock) (deadline : Nat) (t : TreeWait) (l : Link) : Prop :=
  deadline ≤ c.now ∧ (t.stage = .round ∨ t.step c (c.now + 1) l = none)

namespace CallState

/-- The moment at which the present stage of a call that asks for locks is over at the
latest. -/
def limit? : CallState → Option Nat
  | locking _ _ (.asking x) => some x.deadline
  | locking _ _ (.waiting started wait _ _ _) => some (started + wait.ceilMillis)
  | _ => none

/-- How many turns the tasks of a call can still take in the present stage once its time
is up. -/
def turnsLeft : CallState → Nat
  | locking _ _ (.asking x) => x.turnsLeft
  | locking _ _ (.waiting _ _ _ branches _) =>
    1 + ((branches.filterMap Branch.wait).map TreeWait.turnsLeft).sum
  | _ => 0

/-- None of the tasks of the call can go on. -/
def IsBlocked (c : Clock) (s : CallState) (l : Link) : Prop :=
  s.step c l = none ∧ ∀ b, s.stepBranch c b l = none

/-- How many stages of asking for locks a call has before it. -/
def stagesLeft : CallState → Nat
  | locking _ _ (.asking _) => 2
  | locking _ _ (.waiting ..) => 1
  | _ => 0

end CallState

variable {β : Type} {x x' : Exchange β} {a a' : Authority} {now deadline : Nat}
  {pass : Authority → Except Fault β × Authority} {t t' : TreeWait} {l l' : Link} {c : Clock}
  {s s' : CallState} {r : TreeProgress}

/-! ## Exchanges -/

namespace Exchange

theorem giveUp_of_le (h : x.deadline ≤ now) (a : Authority) :
    x.giveUp now a = some (.answered (.error (.timedOut x.limit)), a) := if_pos h

/-- Whoever sent a message does not wait for the answer beyond the deadline. -/
theorem step_ne_none_of_le (h : x.deadline ≤ now) : x.step pass now a ≠ none := by
  unfold step
  split
  · split
    · exact Option.some_ne_none _
    · rw [giveUp_of_le h]
      exact Option.some_ne_none _
  · rw [giveUp_of_le h]
    exact Option.some_ne_none _
  · split
    · exact Option.some_ne_none _
    · rw [giveUp_of_le h]
      exact Option.some_ne_none _

/-- An exchange that is not over has come closer to its end. -/
theorem of_notYet (h : x.step pass now a = some (.notYet x', a')) :
    x'.deadline = x.deadline ∧ x'.turnsLeft < x.turnsLeft := by
  have hgiveUp : x.giveUp now a ≠ some (.notYet x', a') := fun h => nomatch (eq_of_giveUp h).1
  unfold step at h
  split at h
  · next handling due hleg =>
      split at h
      · have harrive := congrArg Prod.fst (Option.some.inj h)
        simp only [arrive, arrived] at harrive
        have hturns : x.turnsLeft = 2 := by rw [turnsLeft, hleg]
        split at harrive
        · cases harrive
          exact ⟨rfl, hturns ▸ Nat.one_lt_two⟩
        · split at harrive
          · cases harrive
          · split at harrive
            · cases harrive
              exact ⟨rfl, hturns ▸ Nat.one_lt_two⟩
            · split at harrive
              · cases harrive
                exact ⟨rfl, hturns ▸ Nat.one_lt_two⟩
              · cases harrive
      · exact absurd h hgiveUp
  · exact absurd h hgiveUp
  · split at h
    · cases h
    · exact absurd h hgiveUp

end Exchange

/-! ## Waits -/

namespace TreeWait

theorem timeUp_of_le (h : deadline ≤ now) (t : TreeWait) (l : Link) :
    t.timeUp now deadline l = some (t.stop l (.ok t.latest)) := if_pos h

/-- A wait whose time is up can go on, if only to its end. -/
theorem step_ne_none_of_le (h : deadline ≤ c.now) : t.step c deadline l ≠ none := by
  unfold step
  rw [timeUp_of_le h]
  split
  · rw [if_pos h]
    exact Option.some_ne_none _
  · split <;> exact Option.some_ne_none _
  · split <;> exact Option.some_ne_none _
  · split <;> exact Option.some_ne_none _

/-- When its time is up, a wait that goes on has come closer to its end. -/
theorem turnsLeft_lt_of_step (h : deadline ≤ c.now)
    (hs : t.step c deadline l = some (.goesOn t', l')) : t'.turnsLeft < t.turnsLeft := by
  have hstop {t : TreeWait} {l : Link} {result : Except Fault (Option Reply)} :
      t.stop l result ≠ (.goesOn t', l') := fun h => nomatch congrArg Prod.fst h
  unfold step at hs
  rw [timeUp_of_le h] at hs
  split at hs
  · rw [if_pos h] at hs
    exact absurd (Option.some.inj hs) hstop
  · next armed j hstage =>
      have hturns : t.turnsLeft = 4 + j.stepsLeft := by rw [turnsLeft, hstage]
      rw [hturns]
      split at hs
      · exact absurd (Option.some.inj hs) hstop
      · next j' l₁ hj =>
          cases hs
          obtain ⟨unlocks, source, hstep, -⟩ := Link.joinUnlocks_eq_some hj
          have hlt := Joining.stepsLeft_lt (UnlockWatch.join_eq_some hstep).1
          exact Nat.add_lt_add_left hlt 4
      · next l₁ hj =>
          cases hs
          obtain ⟨unlocks, source, hstep, -⟩ := Link.joinUnlocks_eq_some hj
          have hlt := Joining.stepsLeft_lt (UnlockWatch.join_eq_some hstep).1
          exact Nat.lt_add_of_pos_right hlt
      · exact absurd (Option.some.inj hs) hstop
  · next armed x hstage =>
      have hturns : t.turnsLeft = 2 + x.turnsLeft := by rw [turnsLeft, hstage]
      rw [hturns]
      split at hs
      · exact absurd (Option.some.inj hs) hstop
      · next x' l₁ ha =>
          cases hs
          exact Nat.add_lt_add_left (Exchange.of_notYet (Link.ask_eq_some ha).2.2).2 2
      · next answer l₁ ha =>
          have hpos : 0 < x.turnsLeft := by
            unfold Exchange.turnsLeft
            split <;> omega
          have hans := Option.some.inj hs
          rcases t.answered_cases armed answer l₁ with
            ⟨e, heq⟩ | ⟨_, _, -, -, -, ⟨-, heq⟩ | ⟨-, heq⟩⟩
          · exact absurd (heq.symm.trans hans) hstop
          · exact absurd (heq.symm.trans hans) hstop
          · cases heq.symm.trans hans
            exact Nat.lt_add_of_pos_right hpos
      · exact absurd (Option.some.inj hs) hstop
  · next hstage =>
      have hturns : t.turnsLeft = 2 := by rw [turnsLeft, hstage]
      rw [hturns]
      split at hs
      · cases hs
        exact Nat.one_lt_two
      · exact absurd (Option.some.inj hs) hstop
      · exact absurd (Option.some.inj hs) hstop

end TreeWait

/-! ## Calls -/

namespace CallState

/-- A call whose time is up is not blocked. -/
theorem not_isBlocked_of_limit {limit : Nat} (hlimit : s.limit? = some limit)
    (hle : limit ≤ c.now) : ¬ s.IsBlocked c l := by
  rintro ⟨hstep, hbranch⟩
  cases s with
  | locking requests wait stage =>
      cases stage with
      | asking x =>
          cases hlimit
          have hask : l.ask c requests x = none := Option.map_eq_none_iff.mp hstep
          exact Exchange.step_ne_none_of_le hle (Option.map_eq_none_iff.mp hask)
      | waiting started wait' replies branches failure =>
          cases hlimit
          by_cases hall : branches.all (·.wait.isNone)
          · simp only [step, if_pos hall] at hstep
            cases hstep
          · -- some tree is still waited for, and its time is up
            rw [Bool.not_eq_true, List.all_eq_false] at hall
            obtain ⟨b, hb, hwait⟩ := hall
            obtain ⟨k, hk⟩ := List.mem_iff_getElem?.mp hb
            obtain ⟨index, _ | t⟩ := b
            · exact hwait rfl
            · have hnone := hbranch k
              simp only [stepBranch, hk] at hnone
              exact TreeWait.step_ne_none_of_le hle (Option.map_eq_none_iff.mp hnone)
  | releasing releases x => cases hlimit
  | joining j => cases hlimit
  | returned moment result => cases hlimit
  | cancelled => cases hlimit

/-- The limit of a call is among the moments at which it has to wake up. -/
theorem limit_mem_alarms {limit : Nat} (hlimit : s.limit? = some limit) : limit ∈ s.alarms := by
  cases s with
  | locking requests wait stage =>
      cases stage with
      | asking x =>
          cases hlimit
          change x.deadline ∈ x.alarms
          unfold Exchange.alarms
          split <;> simp
      | waiting started wait' replies branches failure =>
          cases hlimit
          exact List.mem_cons_self
  | releasing releases x => cases hlimit
  | joining j => cases hlimit
  | returned moment result => cases hlimit
  | cancelled => cases hlimit

theorem stagesLeft_answered (requests : List Request) (wait : Option Duration) (now : Nat)
    (answer : Except Fault (List Reply)) :
    (answered requests wait now answer).stagesLeft ≤ 1 := by
  rcases answered_cases requests wait now answer with
    ⟨e, heq⟩ | ⟨replies, -, -, heq | ⟨d, -, -, heq⟩⟩
  · rw [heq]
    exact Nat.zero_le 1
  · rw [heq]
    exact Nat.zero_le 1
  · rw [heq]
    exact Nat.le_refl 1

/-- A step of the task that makes the call ends the present stage or brings it closer to
its end. -/
theorem turnsLeft_lt_of_step {limit : Nat} (h : s.step c l = some (s', l'))
    (hlimit : s.limit? = some limit) :
    s'.stagesLeft < s.stagesLeft ∨ s'.stagesLeft = s.stagesLeft ∧
      s'.turnsLeft < s.turnsLeft ∧ s'.limit? = some limit := by
  cases steps_of_step h with
  | asks ha =>
      cases hlimit
      obtain ⟨hdeadline, hturns⟩ := Exchange.of_notYet (Link.ask_eq_some ha).2.2
      exact .inr ⟨rfl, hturns, congrArg some hdeadline⟩
  | hears _ => exact .inl (Nat.lt_of_le_of_lt (stagesLeft_answered _ _ _ _) Nat.one_lt_two)
  | crashes _ => exact .inl Nat.two_pos
  | finishes _ _ => exact .inl Nat.one_pos
  | passes _ | released _ | joins _ | joined _ => cases hlimit

/-- A step of a wait whose time is up brings the call closer to its end. -/
theorem turnsLeft_lt_of_stepBranch {b limit : Nat} (h : s.stepBranch c b l = some (s', l'))
    (hlimit : s.limit? = some limit) (hle : limit ≤ c.now) :
    s'.stagesLeft = s.stagesLeft ∧ s'.turnsLeft < s.turnsLeft ∧ s'.limit? = some limit := by
  obtain ⟨_, _, started, wait, _, branches, _, index, t, r, rfl, hb, hstep, rfl⟩ :=
    stepBranch_eq_some h
  cases hlimit
  refine ⟨rfl, ?_, rfl⟩
  obtain ⟨hold, hnew⟩ := perm_filterMap_wait hb
  have hsum := (hold.map TreeWait.turnsLeft).sum_nat
  have hsum' := ((hnew ⟨index, r.wait?⟩).map TreeWait.turnsLeft).sum_nat
  simp only [turnsLeft, hsum, hsum', List.map_append, List.sum_append_nat]
  have hlt : (r.wait?.toList.map TreeWait.turnsLeft).sum < t.turnsLeft := by
    cases r with
    | goesOn t' =>
        have := TreeWait.turnsLeft_lt_of_step hle hstep
        simpa [TreeProgress.wait?] using this
    | ended result =>
        have hpos : 0 < t.turnsLeft := by
          unfold TreeWait.turnsLeft
          split <;> omega
        simpa [TreeProgress.wait?] using hpos
  simp only [Option.toList_some, List.map_cons, List.map_nil, List.sum_cons, List.sum_nil]
  omega

end CallState

end LeasedLocks
