import LeasedLocks.Table

/-!
# Taking locks away

Three ways out of the table: the lease has ended, the object is given back
(with or without what was locked as linked to it), or everything is cleared.
Each reports the identifiers that it took out.
-/

namespace LeasedLocks

namespace Table

/-- Takes out the records of these objects. -/
def eraseAll (t : Table) (ids : List String) : Table := ids.foldl erase t

/-- Takes out every record whose lease ended before `now`, by the identifier that the record
carries. -/
def sweep (t : Table) (now : Millis) : List String × Table :=
  let ids := (t.holdings.filter (·.isExpired now)).map Holding.objectId
  (ids, t.eraseAll ids)

/-- Takes out the objects on the stack, each followed by the objects linked to
it. What is not locked, or not any more, is passed over. -/
def cascade (t : Table) : List String → List String × Table
  | [] => ([], t)
  | id :: rest =>
    match _found : t.get? id with
    | none => t.cascade rest
    | some h =>
      let (ids, left) := (t.erase id).cascade (h.linkedIds ++ rest)
      (id :: ids, left)
termination_by stack => (t.size, stack.length)
decreasing_by
  · exact Prod.Lex.right _ (by simp)
  · exact Prod.Lex.left _ _ (size_erase_lt ‹_›)

/-- Takes out one object. -/
def remove (t : Table) (id : String) : List String × Table :=
  match t.get? id with
  | none => ([], t)
  | some _ => ([id], t.erase id)

/-- Takes out one object, and with `linked` all that its record leads to. -/
def release (t : Table) (id : String) (linked : Bool) : List String × Table :=
  if linked then t.cascade [id] else t.remove id

/-- Takes out everything. -/
def clear (t : Table) : List String × Table := (t.objectIds, ∅)

end Table

end LeasedLocks
