import LeasedLocks.Holding
import Std.Data.ExtTreeMap

/-!
# The lock table

The objects that are locked, each under its identifier. Two tables are equal
when they hold the same records (`Table.ext_get?`); lists taken from a table are
sorted by identifier.
-/

namespace LeasedLocks

/-- The locked objects, filed by identifier. -/
structure Table where
  byId : Std.ExtTreeMap String Holding
  /-- Every record is filed under its own identifier. -/
  objectId_eq : ∀ (id : String) (h : Holding), byId[id]? = some h → h.objectId = id

namespace Table

instance : EmptyCollection Table := ⟨⟨∅, by simp⟩⟩

instance : Inhabited Table := ⟨∅⟩

/-- The record of an object, if it is locked. -/
def get? (t : Table) (id : String) : Option Holding := t.byId[id]?

def contains (t : Table) (id : String) : Bool := (t.get? id).isSome

@[simp] theorem get?_empty (id : String) : (∅ : Table).get? id = none :=
  Std.ExtTreeMap.getElem?_empty

theorem objectId_of_get? {t : Table} {id : String} {h : Holding}
    (e : t.get? id = some h) : h.objectId = id := t.objectId_eq id h e

/-- A table is known by what it answers. -/
theorem ext_get? {t u : Table} (h : ∀ id, t.get? id = u.get? id) : t = u := by
  cases t; cases u
  simp only [Table.mk.injEq]
  exact Std.ExtTreeMap.ext_getElem? h

/-- Files a record, in place of one with the same identifier. -/
def insert (t : Table) (h : Holding) : Table where
  byId := t.byId.insert h.objectId h
  objectId_eq := by
    intro id g e
    rw [Std.ExtTreeMap.getElem?_insert] at e
    split at e
    · next hid => cases e; exact Std.LawfulEqOrd.eq_of_compare hid
    · exact t.objectId_eq id g e

theorem get?_insert (t : Table) (h : Holding) (id : String) :
    (t.insert h).get? id = if h.objectId = id then some h else t.get? id := by
  simp [get?, insert, Std.ExtTreeMap.getElem?_insert]

/-- Takes the record of an object out. -/
def erase (t : Table) (id : String) : Table where
  byId := t.byId.erase id
  objectId_eq := by
    intro k g e
    rw [Std.ExtTreeMap.getElem?_erase] at e
    split at e
    · cases e
    · exact t.objectId_eq k g e

theorem get?_erase (t : Table) (id k : String) :
    (t.erase id).get? k = if id = k then none else t.get? k := by
  simp [get?, erase, Std.ExtTreeMap.getElem?_erase]

/-- All records, sorted by identifier. -/
def holdings (t : Table) : List Holding := t.byId.values

/-- The identifiers of all locked objects, sorted. -/
def objectIds (t : Table) : List String := t.byId.keys

/-- How many objects are locked. -/
def size (t : Table) : Nat := t.byId.size

theorem mem_objectIds {t : Table} {id : String} :
    id ∈ t.objectIds ↔ (t.get? id).isSome = true := by
  simp [objectIds, get?]

/-- Taking a record out makes the table smaller. -/
theorem size_erase_lt {t : Table} {id : String} {h : Holding} (e : t.get? id = some h) :
    (t.erase id).size < t.size := by
  have hmem : id ∈ t.byId := by
    rw [Std.ExtTreeMap.mem_iff_isSome_getElem?, show t.byId[id]? = some h from e]
    rfl
  have hpos : t.byId.size ≠ 0 := fun h0 =>
    Std.ExtTreeMap.not_mem_empty (Std.ExtTreeMap.eq_empty_iff_size_eq_zero.mpr h0 ▸ hmem)
  have hsize := Std.ExtTreeMap.size_erase (t := t.byId) (k := id)
  rw [if_pos (Std.ExtTreeMap.contains_iff_mem.mpr hmem)] at hsize
  simp only [size, erase]
  omega

/-- The table of these records; of two with one identifier the later is kept. -/
def ofHoldings (hs : List Holding) : Table := hs.foldl insert ∅

@[simp] theorem ofHoldings_nil : ofHoldings [] = ∅ := rfl

end Table

end LeasedLocks
