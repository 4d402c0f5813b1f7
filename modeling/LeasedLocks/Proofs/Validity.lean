import LeasedLocks.Validity

/-!
# What valid identifiers are

The loop over the identifiers keeps a set of those that it has seen and a list of those
that came again. What it finds is told from the list as a whole (`checkIds_eq`): a list is
accepted exactly when none is blank and none occurs twice.
-/

namespace LeasedLocks

/-- The identifiers of the list that stand at their second place, where `seen`
stands before the list. -/
def repeatedAfter (seen : List String) : List String → List String
  | [] => []
  | id :: ids =>
    if seen.count id = 1 then id :: repeatedAfter (id :: seen) ids
    else repeatedAfter (id :: seen) ids

/-- The identifiers that occur more than once, each once, in the order of their
second places. -/
def repeatedIds (ids : List String) : List String := repeatedAfter [] ids

theorem mem_repeatedAfter {id : String} {seen ids : List String} :
    id ∈ repeatedAfter seen ids ↔
      seen.count id ≤ 1 ∧ 2 ≤ seen.count id + ids.count id := by
  induction ids generalizing seen with
  | nil =>
    simp only [repeatedAfter, List.not_mem_nil, List.count_nil, false_iff]
    omega
  | cons k ids ih =>
    by_cases hk : k = id
    · subst hk
      by_cases h1 : seen.count k = 1
      · simp [repeatedAfter, h1]; omega
      · simp only [repeatedAfter, if_neg h1, ih, List.count_cons_self]
        omega
    · have hid : ¬ id = k := fun h => hk h.symm
      by_cases h1 : seen.count k = 1
      · simp [repeatedAfter, h1, hid, ih, List.count_cons_of_ne hk]
      · simp [repeatedAfter, if_neg h1, ih, List.count_cons_of_ne hk]

/-- Listed are exactly the identifiers that occur more than once. -/
theorem mem_repeatedIds {id : String} {ids : List String} :
    id ∈ repeatedIds ids ↔ 2 ≤ ids.count id := by
  simp [repeatedIds, mem_repeatedAfter]

theorem repeatedIds_eq_nil_iff {ids : List String} : repeatedIds ids = [] ↔ ids.Nodup := by
  rw [List.eq_nil_iff_forall_not_mem, List.nodup_iff_count]
  simp only [mem_repeatedIds, Nat.not_le]
  exact forall_congr' fun id => Nat.lt_succ_iff

/-- The verdict on a list without blank identifiers in which these repeat. -/
def verdictOnRepeated : List String → Except Fault Unit
  | [] => .ok ()
  | again => .error (.repeatedIds again)

theorem verdictOnRepeated_of_ne_nil {again : List String} (h : again ≠ []) :
    verdictOnRepeated again = .error (.repeatedIds again) := by
  cases again with
  | nil => exact absurd rfl h
  | cons id again => rfl

/-- The loop from some point on, where `before` stands before the rest of the list. -/
theorem checkAfter_eq {seen : Std.ExtTreeSet String} {again before : List String}
    (hseen : ∀ id, id ∈ seen ↔ id ∈ before) (hagain : ∀ id, id ∈ again ↔ 2 ≤ before.count id)
    (ids : List String) :
    checkAfter seen again ids =
      if ids.any isBlank then .error .blankId
      else verdictOnRepeated (again ++ repeatedAfter before ids) := by
  induction ids generalizing seen again before with
  | nil => cases again <;> simp [checkAfter, repeatedAfter, verdictOnRepeated]
  | cons id ids ih =>
      by_cases hblank : isBlank id = true
      · simp [checkAfter, hblank]
      have hseen' : ∀ k, k ∈ seen.insert id ↔ k ∈ id :: before := by
        intro k
        rw [Std.ExtTreeSet.mem_insert, Std.LawfulEqCmp.compare_eq_iff_eq, hseen, List.mem_cons,
          eq_comm]
      -- the identifier is listed now if it stood at one place before
      have hnow : (seen.contains id && !again.contains id) = true ↔ before.count id = 1 := by
        rw [Bool.and_eq_true, Bool.not_eq_true', ← Bool.not_eq_true, List.contains_iff_mem,
          hagain, Std.ExtTreeSet.contains_iff_mem, hseen, ← List.count_pos_iff]
        omega
      by_cases hone : before.count id = 1
      · have hagain' : ∀ k, k ∈ again ++ [id] ↔ 2 ≤ (id :: before).count k := by
          intro k
          by_cases hk : k = id
          · subst hk
            simp [hone]
          · simp [hagain, hk, List.count_cons_of_ne (Ne.symm hk)]
        rw [checkAfter, if_neg hblank, if_pos (hnow.mpr hone), ih hseen' hagain']
        simp [hblank, repeatedAfter, hone]
      · have hagain' : ∀ k, k ∈ again ↔ 2 ≤ (id :: before).count k := by
          intro k
          by_cases hk : k = id
          · subst hk
            rw [hagain, List.count_cons_self]
            omega
          · rw [hagain, List.count_cons_of_ne (Ne.symm hk)]
        rw [checkAfter, if_neg hblank, if_neg (mt hnow.mp hone), ih hseen' hagain']
        simp [hblank, repeatedAfter, hone]

/-- A blank identifier is reported, and if there is none, those that repeat. -/
theorem checkIds_eq (ids : List String) :
    checkIds ids =
      if ids.any isBlank then .error .blankId else verdictOnRepeated (repeatedIds ids) :=
  checkAfter_eq (by simp) (by simp) ids

theorem checkIds_of_blank {ids : List String} (h : ∃ id ∈ ids, isBlank id = true) :
    checkIds ids = .error .blankId := by
  rw [checkIds_eq, if_pos (List.any_eq_true.mpr h)]

theorem checkIds_of_not_blank {ids : List String} (h : ∀ id ∈ ids, isBlank id = false) :
    checkIds ids = verdictOnRepeated (repeatedIds ids) := by
  rw [checkIds_eq, if_neg (by simpa [List.any_eq_true] using h)]

/-- Accepted are the lists without blank and without repeated identifiers. -/
theorem checkIds_eq_ok_iff {ids : List String} :
    checkIds ids = .ok () ↔ (∀ id ∈ ids, isBlank id = false) ∧ ids.Nodup := by
  by_cases hblank : ∃ id ∈ ids, isBlank id = true
  · rw [checkIds_of_blank hblank]
    obtain ⟨id, hid, hb⟩ := hblank
    constructor
    · intro h
      cases h
    · intro h
      rw [h.1 id hid] at hb
      cases hb
  · have hnone : ∀ id ∈ ids, isBlank id = false := by simpa using hblank
    rw [checkIds_of_not_blank hnone, ← repeatedIds_eq_nil_iff]
    cases repeatedIds ids with
    | nil => simpa [verdictOnRepeated] using hnone
    | cons id rest => simp [verdictOnRepeated]

namespace Request

theorem mem_objectIds_iff {r : Request} {id : String} :
    id ∈ r.objectIds ↔ ∃ n : Request, n ∈ r.nodes ∧ n.objectId = id := by
  simp [objectIds, Tree.labels, objectId]

/-- The identifiers of a valid request differ. -/
theorem nodup_of_validate {r : Request} (h : r.validate = .ok ()) : r.objectIds.Nodup :=
  (checkIds_eq_ok_iff.mp h).2

end Request

end LeasedLocks
