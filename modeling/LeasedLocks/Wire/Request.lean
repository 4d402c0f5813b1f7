import LeasedLocks.Json.Reader
import LeasedLocks.Json.Value
import LeasedLocks.Request

/-!
# Requests as JSON

How requests and releases are written and read. Only the identifier is needed;
a missing field has its usual value, and what has none is not written.
-/

namespace LeasedLocks

open Json

namespace Priority

/-- Reads a priority, `level` levels of nesting being allowed. -/
def reader (level : Nat) : Reader Priority := Reader.choice level ofWord?

def toJson (p : Priority) : Json := .string p.word

end Priority

namespace Request

/-- The fields of a request read so far. -/
structure Draft where
  objectId : Option String := none
  description : Option String := none
  requester : Option String := none
  priority : Option Priority := none
  lease : Option (Option Millis) := none
  linked : Option (List Request) := none

/-- The request of a draft, if it has an identifier. -/
def Draft.finish (d : Draft) : Option Request :=
  d.objectId.map fun objectId =>
    .node
      { objectId
        description := d.description.getD ""
        requester := d.requester.getD ""
        priority := d.priority.getD .medium
        lease := d.lease.getD none }
      (d.linked.getD [])

/-- The fields of a request whose content may nest `level` levels deep. -/
def recordOf (level : Nat) (linked : Reader (List Request)) :
    Reader.Record Draft Request where
  fields := [
    .of "object_id" Draft.objectId (fun x d => { d with objectId := some x }) Reader.string,
    .of "description" Draft.description (fun x d => { d with description := some x })
      Reader.string true,
    .of "requester" Draft.requester (fun x d => { d with requester := some x })
      Reader.string true,
    .of "priority" Draft.priority (fun x d => { d with priority := some x })
      (Priority.reader level) true,
    .of "auto_unlock_ms" Draft.lease (fun x d => { d with lease := some x })
      (Reader.optional Reader.word) true,
    .of "linked" Draft.linked (fun x d => { d with linked := some x }) linked true]
  draft := {}
  finish := Draft.finish

/-- Reads a request that nests at most `level` levels deep. -/
def reader : Nat → Reader Request
  | 0 => Reader.record 0 (recordOf 0 Reader.refuse)
  | 1 => Reader.record 1 (recordOf 0 (Reader.list 0 Reader.refuse))
  | level + 2 =>
    Reader.record (level + 2) (recordOf (level + 1) (Reader.list (level + 1) (reader level)))

mutual

/-- The request with its fields in order; no lease and no links are left out. -/
def toJson : Request → Json
  | .node a ts =>
    .object (
      [("object_id", .string a.objectId),
        ("description", .string a.description),
        ("requester", .string a.requester),
        ("priority", a.priority.toJson)] ++
      (match a.lease with
        | some lease => [("auto_unlock_ms", .number lease.toNat)]
        | none => []) ++
      (match toJsonAll ts with
        | [] => []
        | js => [("linked", .array js)]))

def toJsonAll : List Request → List Json
  | [] => []
  | t :: ts => toJson t :: toJsonAll ts

end

theorem toJsonAll_eq_map (ts : List Request) : toJsonAll ts = ts.map toJson := by
  induction ts with
  | nil => rw [toJsonAll, List.map_nil]
  | cons t ts ih => rw [toJsonAll, ih, List.map_cons]

end Request

namespace Release

/-- The fields of a release read so far. -/
structure Draft where
  objectId : Option String := none
  cascade : Option Bool := none

/-- Reads a release. -/
def reader (level : Nat) : Reader Release :=
  Reader.record level {
    fields := [
      .of "object_id" Draft.objectId (fun x d => { d with objectId := some x }) Reader.string,
      .of "release_linked" Draft.cascade (fun x d => { d with cascade := some x })
        Reader.bool true]
    draft := {}
    finish := fun d => d.objectId.map ({ objectId := ·, cascade := d.cascade.getD false }) }

def toJson (r : Release) : Json :=
  .object [("object_id", .string r.objectId), ("release_linked", .bool r.cascade)]

end Release

end LeasedLocks
