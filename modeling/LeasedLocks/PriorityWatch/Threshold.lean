import LeasedLocks.Priority
import Std.Data.ExtTreeMap
import Std.Data.ExtTreeSet

/-!
# Thresholds

The thresholds of a watch, filed by object. Whether there are any is seen from the
objects alone (`Thresholds.isEmpty_iff`), so no object is kept without a priority.
-/

namespace LeasedLocks

/-- Reports requests for an object that are more urgent than the priority. -/
abbrev Threshold := String × Priority

/-- The priorities registered for each object. -/
structure Thresholds where
  byId : Std.ExtTreeMap String (Std.ExtTreeSet Priority)
  /-- An object without priorities is not kept. -/
  isEmpty_eq : ∀ (id : String) (ps : Std.ExtTreeSet Priority),
    byId[id]? = some ps → ps.isEmpty = false

namespace Thresholds

instance : EmptyCollection Thresholds := ⟨⟨∅, by simp⟩⟩

/-- The priorities registered for an object. -/
def prioritiesOf (s : Thresholds) (id : String) : Std.ExtTreeSet Priority :=
  s.byId[id]?.getD ∅

instance : Membership Threshold Thresholds := ⟨fun s t => t.2 ∈ s.prioritiesOf t.1⟩

/-- No object has a threshold. -/
def isEmpty (s : Thresholds) : Bool := s.byId.isEmpty

variable {s : Thresholds} {t u : Threshold} {ts : List Threshold}

theorem mem_iff : t ∈ s ↔ t.2 ∈ s.prioritiesOf t.1 := Iff.rfl

@[simp] theorem not_mem_empty : t ∉ (∅ : Thresholds) := by
  change t.2 ∉ ((∅ : Std.ExtTreeMap String (Std.ExtTreeSet Priority))[t.1]?).getD ∅
  simp

/-- An object that is kept has a priority. -/
theorem exists_mem_of_getElem? {id : String} {ps : Std.ExtTreeSet Priority}
    (h : s.byId[id]? = some ps) : ∃ p, p ∈ ps := by
  have hne := Std.ExtTreeSet.isEmpty_eq_false_iff.mp (s.isEmpty_eq id ps h)
  rw [Std.ExtTreeSet.eq_empty_iff_forall_not_mem] at hne
  exact Classical.not_forall_not.mp hne

/-- There are no thresholds if no object is kept, and only then. -/
theorem isEmpty_iff : s.isEmpty ↔ ∀ t, t ∉ s := by
  rw [isEmpty, Std.ExtTreeMap.isEmpty_iff]
  constructor
  · intro h t
    rw [mem_iff, prioritiesOf, h]
    simp
  · intro h
    apply Std.ExtTreeMap.eq_empty_iff_forall_not_mem.mpr
    intro id hid
    rw [Std.ExtTreeMap.mem_iff_isSome_getElem?, Option.isSome_iff_exists] at hid
    obtain ⟨ps, hps⟩ := hid
    obtain ⟨p, hp⟩ := exists_mem_of_getElem? hps
    apply h (id, p)
    rw [mem_iff, prioritiesOf, hps]
    exact hp

theorem isEmpty_eq_false_iff : s.isEmpty = false ↔ ∃ t, t ∈ s := by
  rw [← Bool.not_eq_true, isEmpty_iff, Classical.not_forall_not]

@[simp] theorem isEmpty_empty : (∅ : Thresholds).isEmpty :=
  isEmpty_iff.mpr fun _ => not_mem_empty

/-- Registers a threshold. -/
def insert (s : Thresholds) (t : Threshold) : Thresholds where
  byId := s.byId.insert t.1 ((s.prioritiesOf t.1).insert t.2)
  isEmpty_eq := by
    intro id ps h
    rw [Std.ExtTreeMap.getElem?_insert] at h
    split at h
    · cases h
      simp
    · exact s.isEmpty_eq id ps h

theorem prioritiesOf_insert (s : Thresholds) (t : Threshold) (id : String) :
    (s.insert t).prioritiesOf id =
      if t.1 = id then (s.prioritiesOf t.1).insert t.2 else s.prioritiesOf id := by
  simp only [prioritiesOf, insert, Std.ExtTreeMap.getElem?_insert,
    Std.LawfulEqOrd.compare_eq_iff_eq]
  split <;> rfl

@[simp] theorem mem_insert : t ∈ s.insert u ↔ t = u ∨ t ∈ s := by
  rw [mem_iff, prioritiesOf_insert, mem_iff]
  split
  · next h =>
      rw [Std.ExtTreeSet.mem_insert, h, Std.LawfulEqOrd.compare_eq_iff_eq, Prod.ext_iff]
      constructor
      · rintro (hp | hp)
        · exact .inl ⟨h.symm, hp.symm⟩
        · exact .inr hp
      · rintro (⟨-, hp⟩ | hp)
        · exact .inl hp.symm
        · exact .inr hp
  · next h =>
      constructor
      · exact .inr
      · rintro (rfl | hp)
        · exact absurd rfl h
        · exact hp

/-- Withdraws a threshold, and its object with the last one. -/
def erase (s : Thresholds) (t : Threshold) : Thresholds where
  byId :=
    let rest := (s.prioritiesOf t.1).erase t.2
    if rest.isEmpty then s.byId.erase t.1 else s.byId.insert t.1 rest
  isEmpty_eq := by
    intro id ps h
    dsimp only at h
    split at h
    · rw [Std.ExtTreeMap.getElem?_erase] at h
      split at h
      · cases h
      · exact s.isEmpty_eq id ps h
    · next hrest =>
        rw [Std.ExtTreeMap.getElem?_insert] at h
        split at h
        · cases h
          simpa using hrest
        · exact s.isEmpty_eq id ps h

theorem prioritiesOf_erase (s : Thresholds) (t : Threshold) (id : String) :
    (s.erase t).prioritiesOf id =
      if t.1 = id then (s.prioritiesOf t.1).erase t.2 else s.prioritiesOf id := by
  have hbyId : (s.erase t).byId = if ((s.prioritiesOf t.1).erase t.2).isEmpty
      then s.byId.erase t.1
      else s.byId.insert t.1 ((s.prioritiesOf t.1).erase t.2) := rfl
  rw [prioritiesOf, hbyId]
  split
  · next hrest =>
      simp only [Std.ExtTreeMap.getElem?_erase, Std.LawfulEqOrd.compare_eq_iff_eq]
      split
      · exact (Std.ExtTreeSet.isEmpty_iff.mp hrest).symm
      · rfl
  · simp only [Std.ExtTreeMap.getElem?_insert, Std.LawfulEqOrd.compare_eq_iff_eq]
    split <;> rfl

@[simp] theorem mem_erase : t ∈ s.erase u ↔ t ≠ u ∧ t ∈ s := by
  rw [mem_iff, prioritiesOf_erase, mem_iff]
  split
  · next h =>
      rw [Std.ExtTreeSet.mem_erase, h, ne_eq, Std.LawfulEqOrd.compare_eq_iff_eq,
        ne_eq, Prod.ext_iff]
      constructor
      · rintro ⟨hne, hp⟩
        exact ⟨fun heq => hne heq.2.symm, hp⟩
      · rintro ⟨hne, hp⟩
        exact ⟨fun heq => hne ⟨h.symm, heq.symm⟩, hp⟩
  · next h =>
      constructor
      · intro hp
        exact ⟨fun heq => h (congrArg Prod.fst heq).symm, hp⟩
      · exact And.right

/-- Registers thresholds, one after the other. -/
def insertAll (s : Thresholds) (ts : List Threshold) : Thresholds := ts.foldl insert s

/-- Withdraws thresholds, one after the other. -/
def eraseAll (s : Thresholds) (ts : List Threshold) : Thresholds := ts.foldl erase s

@[simp] theorem mem_insertAll : t ∈ s.insertAll ts ↔ t ∈ s ∨ t ∈ ts := by
  induction ts generalizing s with
  | nil => simp [insertAll]
  | cons u ts ih =>
      change t ∈ (s.insert u).insertAll ts ↔ _
      rw [ih, mem_insert, List.mem_cons, or_assoc, or_left_comm]

@[simp] theorem mem_eraseAll : t ∈ s.eraseAll ts ↔ t ∈ s ∧ t ∉ ts := by
  induction ts generalizing s with
  | nil => simp [eraseAll]
  | cons u ts ih =>
      change t ∈ (s.erase u).eraseAll ts ↔ _
      rw [ih, mem_erase, List.mem_cons, not_or, and_assoc, and_left_comm]

end Thresholds

end LeasedLocks
