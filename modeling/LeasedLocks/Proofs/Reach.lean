import LeasedLocks.Proofs.Maps
import LeasedLocks.Removal

/-!
# What a release reaches

The objects that a cascade takes out are those that links lead to, through
objects that are locked. The links are those of the table before the cascade,
although the walk forgets a record as soon as it has taken it out.
-/

namespace LeasedLocks.Table

variable {t : Table} {id i k : String} {h : Holding}

/-- Links lead from `i` to `k` through objects that are locked, both ends included. -/
inductive Leads (t : Table) : String → String → Prop where
  | self {id : String} {h : Holding} : t.get? id = some h → Leads t id id
  | link {id k j : String} {h : Holding} :
      t.get? id = some h → k ∈ h.linkedIds → Leads t k j → Leads t id j

theorem get?_of_get?_erase (e : (t.erase id).get? k = some h) : t.get? k = some h := by
  rw [get?_erase] at e
  split at e
  · cases e
  · exact e

/-- Without a record there are only fewer ways. -/
theorem Leads.of_erase (hl : (t.erase id).Leads i k) : t.Leads i k := by
  induction hl with
  | self e => exact .self (get?_of_get?_erase e)
  | link e hk _ ih => exact .link (get?_of_get?_erase e) hk ih

/-- A way to `k` ends at `id`, or avoids it, or goes on without it after the
last time that it passes it. -/
theorem Leads.erase_or (e : t.get? id = some h) (hl : t.Leads i k) :
    k = id ∨ (t.erase id).Leads i k ∨ ∃ j ∈ h.linkedIds, (t.erase id).Leads j k := by
  induction hl with
  | @self j g ej =>
      by_cases hj : id = j
      · exact .inl hj.symm
      · exact .inr (.inl (.self (by rw [get?_erase, if_neg hj]; exact ej)))
  | @link j m k g ej hm _ ih =>
      rcases ih with hk | hmk | hlast
      · exact .inl hk
      · by_cases hj : id = j
        · subst hj
          rw [e] at ej
          cases ej
          exact .inr (.inr ⟨m, hm, hmk⟩)
        · exact .inr (.inl (.link (by rw [get?_erase, if_neg hj]; exact ej) hm hmk))
      · exact .inr (.inr hlast)

/-- Taking `id` out and going on with its links leaves out no way. -/
theorem exists_leads_cons_iff (e : t.get? id = some h) (rest : List String) :
    (∃ i ∈ id :: rest, t.Leads i k) ↔
      k = id ∨ ∃ i ∈ h.linkedIds ++ rest, (t.erase id).Leads i k := by
  constructor
  · rintro ⟨i, hi, hl⟩
    rcases hl.erase_or e with hk | hik | ⟨j, hj, hjk⟩
    · exact .inl hk
    · rcases List.mem_cons.mp hi with rfl | hi
      · obtain ⟨g, eg⟩ : ∃ g, (t.erase i).get? i = some g := by
          cases hik with
          | self eg => exact ⟨_, eg⟩
          | link eg _ _ => exact ⟨_, eg⟩
        rw [get?_erase, if_pos rfl] at eg
        cases eg
      · exact .inr ⟨i, List.mem_append_right _ hi, hik⟩
    · exact .inr ⟨j, List.mem_append_left _ hj, hjk⟩
  · rintro (rfl | ⟨i, hi, hl⟩)
    · exact ⟨k, List.mem_cons_self, .self e⟩
    · rcases List.mem_append.mp hi with hi | hi
      · exact ⟨id, List.mem_cons_self, .link e hi hl.of_erase⟩
      · exact ⟨i, List.mem_cons_of_mem _ hi, hl.of_erase⟩

theorem cascade_cons_none (e : t.get? id = none) (rest : List String) :
    t.cascade (id :: rest) = t.cascade rest := by
  rw [cascade]
  split
  · rfl
  · next g eg => rw [e] at eg; cases eg

theorem cascade_cons_some (e : t.get? id = some h) (rest : List String) :
    t.cascade (id :: rest) =
      (id :: ((t.erase id).cascade (h.linkedIds ++ rest)).1,
        ((t.erase id).cascade (h.linkedIds ++ rest)).2) := by
  rw [cascade]
  split
  · next eg => rw [e] at eg; cases eg
  · next g eg => rw [e] at eg; cases eg; rfl

/-- What is not locked leads nowhere. -/
theorem exists_leads_cons_none_iff (e : t.get? id = none) (rest : List String) :
    (∃ i ∈ id :: rest, t.Leads i k) ↔ ∃ i ∈ rest, t.Leads i k := by
  constructor
  · rintro ⟨i, hi, hl⟩
    rcases List.mem_cons.mp hi with rfl | hi
    · cases hl with
      | self eg => rw [e] at eg; cases eg
      | link eg _ _ => rw [e] at eg; cases eg
    · exact ⟨i, hi, hl⟩
  · rintro ⟨i, hi, hl⟩
    exact ⟨i, List.mem_cons_of_mem _ hi, hl⟩

/-- A cascade takes out exactly what links lead to from the stack. -/
theorem mem_cascade_iff (stack : List String) :
    k ∈ (t.cascade stack).1 ↔ ∃ i ∈ stack, t.Leads i k := by
  induction t, stack using cascade.induct with
  | case1 t => simp [cascade]
  | case2 t id rest e ih =>
      rw [cascade_cons_none e, ih, exists_leads_cons_none_iff e]
  | case3 t id rest h e _ _ _ ih =>
      rw [cascade_cons_some e, exists_leads_cons_iff e, List.mem_cons, ih]

/-- What a cascade takes out is gone, and all else is as it was. -/
theorem get?_cascade (stack : List String) (k : String) :
    (t.cascade stack).2.get? k = if k ∈ (t.cascade stack).1 then none else t.get? k := by
  induction t, stack using cascade.induct with
  | case1 t => simp [cascade]
  | case2 t id rest e ih => rw [cascade_cons_none e, ih]
  | case3 t id rest h e _ _ _ ih =>
      rw [cascade_cons_some e]
      simp only [ih, get?_erase, List.mem_cons, @eq_comm _ id k]
      by_cases hk : k = id
      · simp [hk]
      · simp [hk]

/-- What links lead to is locked. -/
theorem Leads.exists_get? (hl : t.Leads i k) : ∃ h, t.get? k = some h := by
  induction hl with
  | self e => exact ⟨_, e⟩
  | link _ _ _ ih => exact ih

/-- A cascade takes nothing out twice. -/
theorem nodup_cascade (stack : List String) : (t.cascade stack).1.Nodup := by
  induction t, stack using cascade.induct with
  | case1 t => simp [cascade]
  | case2 t id rest e ih => rwa [cascade_cons_none e]
  | case3 t id rest h e _ _ _ ih =>
      rw [cascade_cons_some e, List.nodup_cons]
      refine ⟨?_, ih⟩
      intro hid
      obtain ⟨i, -, hl⟩ := (mem_cascade_iff _).mp hid
      obtain ⟨g, eg⟩ := hl.exists_get?
      rw [get?_erase, if_pos rfl] at eg
      cases eg

theorem get?_remove (t : Table) (id k : String) :
    (t.remove id).2.get? k = if k ∈ (t.remove id).1 then none else t.get? k := by
  unfold remove
  split
  · simp
  · simp only [get?_erase, List.mem_singleton, @eq_comm _ id k]

/-- What a release reports is gone, and all else is as it was. -/
theorem get?_release (t : Table) (id : String) (linked : Bool) (k : String) :
    (t.release id linked).2.get? k =
      if k ∈ (t.release id linked).1 then none else t.get? k := by
  cases linked with
  | false => exact get?_remove t id k
  | true => exact get?_cascade [id] k

theorem nodup_release (t : Table) (id : String) (linked : Bool) :
    (t.release id linked).1.Nodup := by
  cases linked with
  | true => exact nodup_cascade [id]
  | false =>
      simp only [release, Bool.false_eq_true, if_false, remove]
      split
      · exact List.nodup_nil
      · exact List.pairwise_singleton _ id

/-- A release takes out nothing but what is locked. -/
theorem exists_get?_of_mem_release {linked : Bool} (hk : k ∈ (t.release id linked).1) :
    ∃ h, t.get? k = some h := by
  cases linked with
  | true =>
      obtain ⟨i, -, hl⟩ := (mem_cascade_iff _).mp hk
      exact hl.exists_get?
  | false =>
      simp only [release, Bool.false_eq_true, if_false, remove] at hk
      split at hk
      · cases hk
      · next h e => exact ⟨h, List.mem_singleton.mp hk ▸ e⟩

/-- A release takes out its object and, with `linked`, all that links lead to. -/
theorem mem_release_iff (linked : Bool) (e : t.get? k = some h) :
    k ∈ (t.release id linked).1 ↔ id = k ∨ (linked = true ∧ t.Leads id k) := by
  cases linked with
  | false =>
      simp only [release, Bool.false_eq_true, if_false, false_and, or_false, remove]
      split
      · next e' =>
          simp only [List.not_mem_nil, false_iff]
          rintro rfl
          rw [e] at e'
          cases e'
      · simp [eq_comm]
  | true =>
      simp only [release, if_true, mem_cascade_iff, List.mem_singleton, exists_eq_left, true_and]
      constructor
      · exact Or.inr
      · rintro (rfl | hl)
        · exact .self e
        · exact hl

/-! ## The other two ways out -/

theorem holdings_eq_map_toList (t : Table) : t.holdings = t.byId.toList.map Prod.snd :=
  values_eq_map_toList t.byId

theorem mem_holdings_iff : h ∈ t.holdings ↔ t.get? h.objectId = some h := by
  rw [holdings, mem_values_iff]
  constructor
  · rintro ⟨id, hid⟩
    rw [t.objectId_eq id h hid]
    exact hid
  · exact fun e => ⟨h.objectId, e⟩

/-- The records carry the identifiers that they are filed under, in the same order. -/
theorem map_objectId_holdings (t : Table) : t.holdings.map Holding.objectId = t.objectIds := by
  rw [holdings_eq_map_toList, List.map_map, objectIds, ← Std.ExtTreeMap.map_fst_toList_eq_keys]
  apply List.map_congr_left
  rintro ⟨id, g⟩ hg
  exact t.objectId_eq id g (Std.ExtTreeMap.mem_toList_iff_getElem?_eq_some.mp hg)

theorem nodup_sweep (t : Table) (now : Millis) : (t.sweep now).1.Nodup := by
  have hkeys : t.objectIds.Nodup := Std.ExtTreeMap.nodup_keys
  rw [← map_objectId_holdings] at hkeys
  exact hkeys.sublist (List.filter_sublist.map Holding.objectId)

/-- A sweep takes out exactly what has expired. -/
theorem mem_sweep_iff {now : Millis} :
    k ∈ (t.sweep now).1 ↔ ∃ h, t.get? k = some h ∧ h.isExpired now = true := by
  simp only [sweep, List.mem_map, List.mem_filter, mem_holdings_iff]
  constructor
  · rintro ⟨h, ⟨e, hexp⟩, rfl⟩
    exact ⟨h, e, hexp⟩
  · rintro ⟨h, e, hexp⟩
    have hid : h.objectId = k := objectId_of_get? e
    exact ⟨h, ⟨hid ▸ e, hexp⟩, hid⟩

/-- What is taken out is gone, and all else is as it was. -/
theorem get?_eraseAll (t : Table) (ids : List String) (k : String) :
    (t.eraseAll ids).get? k = if k ∈ ids then none else t.get? k := by
  induction ids generalizing t with
  | nil => simp [eraseAll]
  | cons id ids ih =>
      change ((t.erase id).eraseAll ids).get? k = _
      rw [ih, get?_erase]
      by_cases hk : k = id
      · subst hk
        simp
      · simp [hk, Ne.symm hk]

theorem get?_sweep (t : Table) (now : Millis) (k : String) :
    (t.sweep now).2.get? k = (t.get? k).filter (!·.isExpired now) := by
  change (t.eraseAll (t.sweep now).1).get? k = _
  simp only [get?_eraseAll, mem_sweep_iff]
  cases t.get? k with
  | none => simp
  | some h => cases hexp : h.isExpired now <;> simp [Option.filter, hexp]

end LeasedLocks.Table
