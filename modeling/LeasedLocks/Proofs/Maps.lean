import Std.Data.ExtTreeMap

/-!
# Values of maps

The values of a map are what it holds under its keys.
-/

namespace LeasedLocks

variable {β : Type} {m : Std.ExtTreeMap String β} {v : β}

theorem values_eq_map_toList (m : Std.ExtTreeMap String β) :
    m.values = m.toList.map Prod.snd := by
  obtain ⟨⟨q⟩⟩ := m
  induction q using Quotient.inductionOn with
  | h m =>
      change m.inner.values =
        (Std.DTreeMap.Internal.Impl.Const.toList m.inner).map Prod.snd
      simp [Std.DTreeMap.Internal.Impl.values_eq_map_snd,
        Std.DTreeMap.Internal.Impl.Const.toList_eq_toListModel_map]

theorem mem_values_iff : v ∈ m.values ↔ ∃ k : String, m[k]? = some v := by
  simp only [values_eq_map_toList, List.mem_map, Prod.exists, exists_eq_right,
    Std.ExtTreeMap.mem_toList_iff_getElem?_eq_some]

end LeasedLocks
