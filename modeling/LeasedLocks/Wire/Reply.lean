import LeasedLocks.Json.Reader
import LeasedLocks.Json.Value
import LeasedLocks.Reply

/-!
# Replies as JSON

How replies are written and read. The end of a lease and the links are left out
where there are none.
-/

namespace LeasedLocks

open Json

namespace Reply

/-- The fields of a reply read so far. -/
structure Draft where
  objectId : Option String := none
  holder : Option String := none
  isAvailable : Option Bool := none
  isGranted : Option Bool := none
  autoUnlockAt : Option (Option Millis) := none
  linked : Option (List Reply) := none

/-- The reply of a draft, if nothing needed is missing. -/
def Draft.finish (d : Draft) : Option Reply := do
  let objectId ← d.objectId
  let holder ← d.holder
  let isAvailable ← d.isAvailable
  let isGranted ← d.isGranted
  return .node
    { objectId, holder, isAvailable, isGranted, autoUnlockAt := d.autoUnlockAt.getD none }
    (d.linked.getD [])

/-- The fields of a reply. -/
def recordOf (linked : Reader (List Reply)) : Reader.Record Draft Reply where
  fields := [
    .of "object_id" Draft.objectId (fun x d => { d with objectId := some x }) Reader.string,
    .of "holder" Draft.holder (fun x d => { d with holder := some x }) Reader.string,
    .of "is_available" Draft.isAvailable (fun x d => { d with isAvailable := some x })
      Reader.bool,
    .of "is_granted" Draft.isGranted (fun x d => { d with isGranted := some x }) Reader.bool,
    .of "auto_unlock_at" Draft.autoUnlockAt (fun x d => { d with autoUnlockAt := some x })
      (Reader.optional Reader.word) true,
    .of "linked" Draft.linked (fun x d => { d with linked := some x }) linked true]
  draft := {}
  finish := Draft.finish

/-- Reads a reply that nests at most `level` levels deep. -/
def reader : Nat → Reader Reply
  | 0 => Reader.record 0 (recordOf Reader.refuse)
  | 1 => Reader.record 1 (recordOf (Reader.list 0 Reader.refuse))
  | level + 2 =>
    Reader.record (level + 2) (recordOf (Reader.list (level + 1) (reader level)))

mutual

/-- The reply with its fields in order. -/
def toJson : Reply → Json
  | .node a ts =>
    .object (
      [("object_id", .string a.objectId),
        ("holder", .string a.holder),
        ("is_available", .bool a.isAvailable),
        ("is_granted", .bool a.isGranted)] ++
      (match a.autoUnlockAt with
        | some t => [("auto_unlock_at", .number t.toNat)]
        | none => []) ++
      (match toJsonAll ts with
        | [] => []
        | js => [("linked", .array js)]))

def toJsonAll : List Reply → List Json
  | [] => []
  | t :: ts => toJson t :: toJsonAll ts

end

theorem toJsonAll_eq_map (ts : List Reply) : toJsonAll ts = ts.map toJson := by
  induction ts with
  | nil => rw [toJsonAll, List.map_nil]
  | cons t ts ih => rw [toJsonAll, ih, List.map_cons]

end Reply

end LeasedLocks
