import LeasedLocks.Place
import LeasedLocks.Reply
import LeasedLocks.Table
import LeasedLocks.Validity

/-!
# Granting requests

A request is granted if every object of its tree is free, and then all of them
are locked at once; otherwise nothing changes.
-/

namespace LeasedLocks

namespace Request

/-- Gives the default lease to every node that sets none. -/
def withDefaultLease (default : Millis) (r : Request) : Request :=
  r.relabel fun a => { a with lease := some (a.lease.getD default) }

theorem withDefaultLease_eq_map (default : Millis) (r : Request) :
    r.withDefaultLease default = r.map fun a => { a with lease := some (a.lease.getD default) } :=
  Tree.relabel_eq_map _ r

end Request

namespace Table

/-- The state of one object as the table has it. -/
def answer (t : Table) (now : Millis) (a : Ask) : Answer :=
  match t.get? a.objectId with
  | some h =>
    { objectId := a.objectId
      holder := h.holder
      isAvailable := false
      isGranted := false
      autoUnlockAt := some h.autoUnlockAt }
  | none =>
    { objectId := a.objectId
      holder := a.requester
      isAvailable := true
      isGranted := false
      autoUnlockAt := a.lease.map (.after now) }

@[simp] theorem objectId_answer (t : Table) (now : Millis) (a : Ask) :
    (t.answer now a).objectId = a.objectId := by
  unfold answer; split <;> rfl

/-- An object is available if it has no record. -/
theorem isAvailable_answer (t : Table) (now : Millis) (a : Ask) :
    (t.answer now a).isAvailable = (t.get? a.objectId).isNone := by
  unfold answer; split <;> simp_all

/-- The state of every object of a request; nothing is decided yet. -/
def evaluate (t : Table) (r : Request) (now : Millis) : Reply := r.map (t.answer now)

@[simp] theorem objectIds_evaluate (t : Table) (r : Request) (now : Millis) :
    (t.evaluate r now).objectIds = r.objectIds := by
  simp [evaluate, Reply.objectIds, Request.objectIds]

/-- Files the records of all nodes of a request. -/
def commit (t : Table) (r : Request) (now : Millis) : Table :=
  r.nodes.foldl (fun t node => t.insert (.ofRequest node (node.label.lease.getD 0) now)) t

end Table

namespace Answer

/-- Marks an answer with the decision. What is free in a refused tree has no
end of a lease to report. -/
def settle (granted : Bool) (a : Answer) : Answer :=
  { a with
    isGranted := granted
    autoUnlockAt := if !granted && a.isAvailable then none else a.autoUnlockAt }

@[simp] theorem objectId_settle (granted : Bool) (a : Answer) :
    (a.settle granted).objectId = a.objectId := rfl

end Answer

namespace Reply

/-- Marks every node of a reply with the decision. -/
def settle (granted : Bool) (r : Reply) : Reply := r.relabel (Answer.settle granted)

theorem settle_eq_map (granted : Bool) (r : Reply) :
    r.settle granted = r.map (Answer.settle granted) := Tree.relabel_eq_map _ r

@[simp] theorem objectIds_settle (granted : Bool) (r : Reply) :
    (r.settle granted).objectIds = r.objectIds := by
  simp [settle_eq_map, objectIds, Function.comp_def]

end Reply

namespace Table

/-- The reply to a request, and the table afterwards. -/
def grant (t : Table) (r : Request) (now : Millis) : Reply × Table :=
  let reply := t.evaluate r now
  if reply.isFree then (reply.settle true, t.commit r now) else (reply.settle false, t)

/-- Answers a valid request; nodes without a lease get the default one. The table
afterwards comes with a fault as well as with a reply. -/
def serve (t : Table) (r : Request) (default now : Millis) : Except Fault Reply × Table :=
  match r.validate with
  | .error e => (.error e, t)
  | .ok () =>
    let (reply, t) := t.grant (r.withDefaultLease default) now
    (.ok reply, t)

/-- The reply to a request together with the table afterwards, unless the request is at
fault. -/
def process (t : Table) (r : Request) (default now : Millis) :
    Except Fault (Reply × Table) :=
  let (answer, t) := t.serve r default now
  answer.map fun reply => (reply, t)

end Table

end LeasedLocks
