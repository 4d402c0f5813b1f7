import LeasedLocks.Schedule

/-!
# Coming to rest

Tasks take steps, in any order, until none can (`TaskSystem.Settles`). What every step keeps
holds in the end, and there is an end if every step takes some of a finite effort.
-/

namespace LeasedLocks.TaskSystem

variable {σ ι : Type} {m : TaskSystem σ ι} {s s' : σ}

/-- If only the tasks of the system can ever run, it is at rest when none of them is ready. -/
theorem quiescent_iff_ready_eq_nil
    (hmem : ∀ {i : ι} {s' : σ}, m.step i s = some s' → i ∈ m.tasks s) :
    m.Quiescent s ↔ m.ready s = [] := by
  rw [ready, List.filter_eq_nil_iff]
  constructor
  · intro hq i _
    rw [hq i]
    exact Bool.false_ne_true
  · intro hready i
    cases h : m.step i s with
    | none => rfl
    | some s' =>
        have hnot := hready i (hmem h)
        rw [h] at hnot
        exact absurd rfl hnot

/-- The tasks take steps, in any order, until none can. -/
inductive Settles (m : TaskSystem σ ι) : σ → σ → Prop where
  | rest {s : σ} : m.Quiescent s → Settles m s s
  | step {s s₁ s' : σ} {i : ι} : m.step i s = some s₁ → Settles m s₁ s' → Settles m s s'

theorem Settles.quiescent (h : m.Settles s s') : m.Quiescent s' := by
  induction h with
  | rest hq => exact hq
  | step _ _ ih => exact ih

/-- What every step keeps is kept until the tasks rest. -/
theorem Settles.preserves (h : m.Settles s s') (p : σ → Prop)
    (hstep : ∀ {s s' : σ} {i : ι}, p s → m.step i s = some s' → p s') (hs : p s) : p s' := by
  induction h with
  | rest _ => exact hs
  | step hn _ ih => exact ih (hstep hs hn)

/-- If every step takes some of a finite effort, the tasks come to rest. -/
theorem exists_settles (p : σ → Prop) (effort : σ → Nat)
    (hstep : ∀ {s s' : σ} {i : ι}, p s → m.step i s = some s' → p s' ∧ effort s' < effort s)
    (s : σ) (hs : p s) : ∃ s', m.Settles s s' := by
  induction h : effort s using Nat.strongRecOn generalizing s with
  | ind n ih =>
      by_cases hq : m.Quiescent s
      · exact ⟨s, .rest hq⟩
      · obtain ⟨i, hi⟩ := Classical.not_forall.mp hq
        obtain ⟨s₁, hs₁⟩ := Option.ne_none_iff_exists'.mp hi
        obtain ⟨hp, hlt⟩ := hstep hs hs₁
        obtain ⟨s', hs'⟩ := ih (effort s₁) (h ▸ hlt) s₁ hp rfl
        exact ⟨s', .step hs₁ hs'⟩

/-- Lets these tasks take a step each, one after the other. -/
def takeTurns (m : TaskSystem σ ι) : List ι → σ → Option σ
  | [], s => some s
  | i :: is, s => (m.step i s).bind (takeTurns m is)

theorem settles_of_takeTurns {is : List ι} (h : m.takeTurns is s = some s')
    (hq : m.Quiescent s') : m.Settles s s' := by
  induction is generalizing s with
  | nil =>
      cases h
      exact .rest hq
  | cons i is ih =>
      obtain ⟨s₁, hstep, h⟩ := Option.bind_eq_some_iff.mp h
      exact .step hstep (ih h)

end LeasedLocks.TaskSystem
