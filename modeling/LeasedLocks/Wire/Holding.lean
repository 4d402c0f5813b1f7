import LeasedLocks.Holding
import LeasedLocks.Outcome
import LeasedLocks.Wire.Request

/-!
# Records and states as JSON

How the record of a locked object and the state of a requested one are written
and read.
-/

namespace LeasedLocks

open Json

namespace Holding

/-- The fields of a record read so far. -/
structure Draft where
  objectId : Option String := none
  description : Option String := none
  holder : Option String := none
  priority : Option Priority := none
  acquiredAt : Option Millis := none
  autoUnlockAt : Option Millis := none
  linkedIds : Option (List String) := none

/-- The record of a draft that is complete. -/
def Draft.finish (d : Draft) : Option Holding := do
  let objectId ← d.objectId
  let description ← d.description
  let holder ← d.holder
  let priority ← d.priority
  let acquiredAt ← d.acquiredAt
  let autoUnlockAt ← d.autoUnlockAt
  let linkedIds ← d.linkedIds
  return { objectId, description, holder, priority, acquiredAt, autoUnlockAt, linkedIds }

/-- Reads a record. -/
def reader (level : Nat) : Reader Holding :=
  Reader.record level {
    fields := [
      .of "object_id" Draft.objectId (fun x d => { d with objectId := some x }) Reader.string,
      .of "description" Draft.description (fun x d => { d with description := some x })
        Reader.string,
      .of "holder" Draft.holder (fun x d => { d with holder := some x }) Reader.string,
      .of "priority" Draft.priority (fun x d => { d with priority := some x })
        (Priority.reader (level - 1)),
      .of "acquired_at" Draft.acquiredAt (fun x d => { d with acquiredAt := some x })
        Reader.word,
      .of "auto_unlock_at" Draft.autoUnlockAt (fun x d => { d with autoUnlockAt := some x })
        Reader.word,
      .of "linked_object_ids" Draft.linkedIds (fun x d => { d with linkedIds := some x })
        (Reader.list (level - 1) Reader.string)]
    draft := {}
    finish := Draft.finish }

def toJson (h : Holding) : Json :=
  .object [
    ("object_id", .string h.objectId),
    ("description", .string h.description),
    ("holder", .string h.holder),
    ("priority", h.priority.toJson),
    ("acquired_at", .number h.acquiredAt.toNat),
    ("auto_unlock_at", .number h.autoUnlockAt.toNat),
    ("linked_object_ids", .array (h.linkedIds.map .string))]

end Holding

namespace Status

/-- The fields of a state read so far. -/
structure Draft where
  objectId : Option String := none
  description : Option String := none
  holder : Option String := none
  isGranted : Option Bool := none
  autoUnlockAt : Option (Option Millis) := none
  priority : Option Priority := none

/-- The state of a draft; only the end of the lease may be missing. -/
def Draft.finish (d : Draft) : Option Status := do
  let objectId ← d.objectId
  let description ← d.description
  let holder ← d.holder
  let isGranted ← d.isGranted
  let priority ← d.priority
  return { objectId, description, holder, isGranted, priority,
           autoUnlockAt := d.autoUnlockAt.getD none }

/-- Reads the state of an object. -/
def reader (level : Nat) : Reader Status :=
  Reader.record level {
    fields := [
      .of "object_id" Draft.objectId (fun x d => { d with objectId := some x }) Reader.string,
      .of "description" Draft.description (fun x d => { d with description := some x })
        Reader.string,
      .of "holder" Draft.holder (fun x d => { d with holder := some x }) Reader.string,
      .of "is_granted" Draft.isGranted (fun x d => { d with isGranted := some x }) Reader.bool,
      .of "auto_unlock_at" Draft.autoUnlockAt (fun x d => { d with autoUnlockAt := some x })
        (Reader.optional Reader.word),
      .of "priority" Draft.priority (fun x d => { d with priority := some x })
        (Priority.reader (level - 1))]
    draft := {}
    finish := Draft.finish }

/-- The state with its fields in order; no end of a lease is written as `null`. -/
def toJson (s : Status) : Json :=
  .object [
    ("object_id", .string s.objectId),
    ("description", .string s.description),
    ("holder", .string s.holder),
    ("is_granted", .bool s.isGranted),
    ("auto_unlock_at",
      match s.autoUnlockAt with
      | some t => .number t.toNat
      | none => .null),
    ("priority", s.priority.toJson)]

end Status

end LeasedLocks
