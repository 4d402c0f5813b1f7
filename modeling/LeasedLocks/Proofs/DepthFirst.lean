import LeasedLocks.Proofs.Reach
import Mathlib.Algebra.GroupWithZero.Nat

/-!
# The order of a cascade

A cascade takes out exactly the objects that links lead to, in the order of a recursive
depth-first walk over the table as it was before (`Table.release_reachable`). It looks at
its first object and at every link of what it takes out once, and then it is over.

## Implementation notes

The walk `Visits` remembers where it has been and leaves the table alone, while the cascade
forgets and thins the table out. What ties them together is that the thinned table is the
whole one without the objects that were visited.
-/

namespace LeasedLocks.Table

/-- Where a recursive depth-first walk from the objects of a list comes to, in this order, if
it has been at `seen` before: an object, what its links lead to, then the rest of the list. -/
inductive Visits (t : Table) : List String → List String → List String → Prop where
  | nil {seen : List String} : Visits t seen [] []
  | skip {seen rest found : List String} {id : String} :
      id ∈ seen ∨ t.get? id = none → Visits t seen rest found → Visits t seen (id :: rest) found
  | visit {seen rest below after : List String} {id : String} {h : Holding} :
      id ∉ seen → t.get? id = some h → Visits t (id :: seen) h.linkedIds below →
        Visits t (below ++ id :: seen) rest after →
          Visits t seen (id :: rest) (id :: below ++ after)

/-- A cascade on its way: what it took out, the table that is left, and the objects that it
has still to look at. -/
structure Cascading where
  freed : List String := []
  table : Table
  stack : List String

/-- One round of a cascade: the object on top of the stack is looked at. -/
def Cascading.next? (c : Cascading) : Option Cascading :=
  match c.stack with
  | [] => none
  | id :: rest =>
    match c.table.get? id with
    | none => some { c with stack := rest }
    | some h => some ⟨c.freed ++ [id], c.table.erase id, h.linkedIds ++ rest⟩

/-- What so many rounds lead to. -/
def Cascading.after : Nat → Cascading → Option Cascading
  | 0, c => some c
  | n + 1, c => c.next?.bind (after n)

/-- How many links the record of an object has. -/
def linkCount (t : Table) (id : String) : Nat := (t.get? id).elim 0 (·.linkedIds.length)

variable {t u : Table} {seen seen' xs ys ids found found' : List String} {id : String}

/-! ## Depth-first walks -/

/-- A walk only asks whether it has been somewhere. -/
theorem Visits.congr (hv : t.Visits seen ids found) (hseen : ∀ k, k ∈ seen ↔ k ∈ seen') :
    t.Visits seen' ids found := by
  induction hv generalizing seen' with
  | nil => exact .nil
  | skip hid _ ih => exact .skip (hid.imp_left (hseen _).mp) (ih hseen)
  | visit hid e _ _ ihbelow ihafter =>
      apply Visits.visit (fun hmem => hid ((hseen _).mpr hmem)) e
      · apply ihbelow
        simp [hseen]
      · apply ihafter
        simp [hseen]

/-- A walk from two lists is one from the first, and then one from the second that knows
where the first has been. -/
theorem Visits.of_append (hv : t.Visits seen (xs ++ ys) found) :
    ∃ before after, found = before ++ after ∧ t.Visits seen xs before ∧
      t.Visits (before ++ seen) ys after := by
  induction xs generalizing seen found with
  | nil => exact ⟨[], found, rfl, .nil, hv⟩
  | cons id xs ih =>
      cases hv with
      | skip hid hrest =>
          obtain ⟨before, after, rfl, hbefore, hafter⟩ := ih hrest
          exact ⟨before, after, rfl, .skip hid hbefore, hafter⟩
      | @visit _ _ below _ _ h hid e hbelow hrest =>
          obtain ⟨before, after, rfl, hbefore, hafter⟩ := ih hrest
          refine ⟨id :: below ++ before, after, ?_, .visit hid e hbelow hbefore, ?_⟩
          · rw [List.append_assoc]
          · apply hafter.congr
            simp [or_left_comm]

/-- A walk goes one way only. -/
theorem Visits.unique (hv : t.Visits seen ids found) (hv' : t.Visits seen ids found') :
    found = found' := by
  induction hv generalizing found' with
  | nil =>
      cases hv'
      rfl
  | @skip seen rest found id hid _ ih =>
      cases hv' with
      | skip _ hrest => exact ih hrest
      | visit hid' e _ _ =>
          rcases hid with hmem | hnone
          · exact absurd hmem hid'
          · rw [e] at hnone
            cases hnone
  | @visit seen rest below after id h hid e _ _ ihbelow ihafter =>
      cases hv' with
      | skip hid' _ =>
          rcases hid' with hmem | hnone
          · exact absurd hmem hid
          · rw [e] at hnone
            cases hnone
      | visit _ e' hbelow hrest =>
          rw [e] at e'
          cases e'
          obtain rfl := ihbelow hbelow
          rw [ihafter hrest]

/-! ## Cascades as walks -/

/-- A cascade in the table without what was visited goes on where the walk does. -/
theorem visits_cascade (hseen : ∀ k, u.get? k = if k ∈ seen then none else t.get? k) :
    t.Visits seen ids (u.cascade ids).1 := by
  induction u, ids using cascade.induct generalizing seen with
  | case1 u =>
      rw [cascade]
      exact .nil
  | case2 u id rest e ih =>
      rw [cascade_cons_none e]
      apply Visits.skip _ (ih hseen)
      by_cases hid : id ∈ seen
      · exact .inl hid
      · rw [hseen, if_neg hid] at e
        exact .inr e
  | case3 u id rest h e _ _ _ ih =>
      rw [cascade_cons_some e]
      have hid : id ∉ seen := by
        intro hmem
        rw [hseen, if_pos hmem] at e
        cases e
      have he : t.get? id = some h := by rwa [hseen, if_neg hid] at e
      have hseen' (k : String) :
          (u.erase id).get? k = if k ∈ id :: seen then none else t.get? k := by
        simp only [get?_erase, hseen, List.mem_cons, @eq_comm _ id k]
        by_cases hk : k = id
        · simp [hk]
        · simp [hk]
      obtain ⟨below, after, heq, hbelow, hafter⟩ := (ih hseen').of_append
      rw [heq]
      exact .visit hid he hbelow hafter

/-- A cascade looks at the objects on its stack and at the links of what it takes out. -/
theorem after_cascade (freed : List String) :
    Cascading.after (ids.length + ((t.cascade ids).1.map t.linkCount).sum) ⟨freed, t, ids⟩ =
      some ⟨freed ++ (t.cascade ids).1, (t.cascade ids).2, []⟩ := by
  induction t, ids using cascade.induct generalizing freed with
  | case1 t => simp [cascade, Cascading.after]
  | case2 t id rest e ih =>
      rw [cascade_cons_none e, List.length_cons, Nat.add_right_comm, Cascading.after,
        Cascading.next?]
      simp only [e, Option.bind_some]
      exact ih freed
  | case3 t id rest h e _ _ _ ih =>
      rw [cascade_cons_some e]
      -- a record that is left has the links that it had before
      have hcount (k : String) (hk : k ∈ ((t.erase id).cascade (h.linkedIds ++ rest)).1) :
          t.linkCount k = (t.erase id).linkCount k := by
        obtain ⟨i, -, hl⟩ := (mem_cascade_iff _).mp hk
        obtain ⟨g, eg⟩ := hl.exists_get?
        rw [linkCount, linkCount, eg, get?_of_get?_erase eg]
      have hlength : (id :: rest).length +
          ((id :: ((t.erase id).cascade (h.linkedIds ++ rest)).1).map t.linkCount).sum =
          (h.linkedIds ++ rest).length +
            (((t.erase id).cascade (h.linkedIds ++ rest)).1.map (t.erase id).linkCount).sum
              + 1 := by
        rw [List.map_cons, List.sum_cons, List.map_congr_left hcount, List.length_cons,
          List.length_append, show t.linkCount id = h.linkedIds.length by rw [linkCount, e]; rfl]
        omega
      rw [hlength, Cascading.after, Cascading.next?]
      simp only [e, Option.bind_some]
      rw [ih]
      simp

/-! ## Releases -/

theorem freed_remove (t : Table) (id : String) :
    (t.remove id).1 = if t.contains id then [id] else [] := by
  unfold remove contains
  split
  · next e => simp [e]
  · next h e => simp [e]

/-- What a release of an object takes out, and in which order. -/
structure Reaches (t : Table) (id : String) : Prop where
  nodup : (t.release id true).1.Nodup
  mem_iff : ∀ k, k ∈ (t.release id true).1 ↔ t.Leads id k
  /-- The order is that of a depth-first walk, of which there is exactly one. -/
  visits_iff : ∀ found, t.Visits [] [id] found ↔ found = (t.release id true).1
  get?_eq : ∀ k, (t.release id true).2.get? k =
    if k ∈ (t.release id true).1 then none else t.get? k
  eq_of_get?_eq_none : t.get? id = none → t.release id true = ([], t)
  /-- So many rounds empty the stack. -/
  after_eq : Cascading.after (1 + ((t.release id true).1.map t.linkCount).sum)
    { table := t, stack := [id] } = some ⟨(t.release id true).1, (t.release id true).2, []⟩
  /-- Without its links an object goes alone. -/
  alone : (t.release id false).1 = (if t.contains id then [id] else []) ∧
    ∀ k, (t.release id false).2.get? k = if k = id then none else t.get? k

/-- Whatever the links are, a release with them takes out what they lead to, depth first, and
one without them takes out its object. -/
theorem release_reachable (t : Table) (id : String) : t.Reaches id := by
  constructor
  case nodup => exact nodup_release t id true
  case mem_iff =>
    intro k
    change k ∈ (t.cascade [id]).1 ↔ _
    simp [mem_cascade_iff]
  case visits_iff =>
    intro found
    have hv : t.Visits [] [id] (t.release id true).1 := visits_cascade (by simp)
    constructor
    · exact fun hv' => hv'.unique hv
    · rintro rfl
      exact hv
  case get?_eq => exact get?_release t id true
  case eq_of_get?_eq_none =>
    intro e
    change t.cascade [id] = _
    rw [cascade_cons_none e, cascade]
  case after_eq =>
    have hafter : Cascading.after ([id].length + ((t.cascade [id]).1.map t.linkCount).sum)
        ⟨[], t, [id]⟩ = some ⟨[] ++ (t.cascade [id]).1, (t.cascade [id]).2, []⟩ :=
      after_cascade []
    exact hafter
  case alone =>
    refine ⟨freed_remove t id, ?_⟩
    intro k
    rw [get?_release]
    change (if k ∈ (t.remove id).1 then none else _) = _
    rw [freed_remove]
    cases e : t.get? id with
    | none =>
        simp only [contains, e, Option.isSome_none, Bool.false_eq_true, if_false, List.not_mem_nil]
        split
        · next hk => rw [hk, e]
        · rfl
    | some h => simp [contains, e]

end LeasedLocks.Table
