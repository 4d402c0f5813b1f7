import LeasedLocks.Outcome
import LeasedLocks.TreeWait

/-!
# Calls

What a client does for a caller: asking for locks, with or without waiting for
them, giving locks back, and listening for more urgent requests.
-/

namespace LeasedLocks

/-- The wait for the tree at one place of a call; nothing once it is over. -/
structure Branch where
  index : Nat
  wait : Option TreeWait

/-- Where a call that asks for locks is. -/
inductive LockStage where
  /-- All trees are asked for. -/
  | asking (x : Exchange (List Reply))
  /-- Some trees were refused and are waited for, each on its own. -/
  | waiting (started : Nat) (wait : Duration) (replies : List Reply)
      (branches : List Branch) (failure : Option Fault)

/-- What a call returned. -/
inductive CallResult where
  | locked (o : Except Fault Outcome)
  | released (ids : Except Fault (List String))
  | listening (r : Except Fault Unit)
  /-- The task that made the call died. -/
  | crashed

/-- Where a call is. -/
inductive CallState where
  | locking (requests : List Request) (wait : Option Duration) (stage : LockStage)
  | releasing (releases : List Release) (x : Exchange (List String))
  | joining (j : Joining)
  | returned (moment : Nat) (result : CallResult)
  /-- The caller is not interested any more. -/
  | cancelled

namespace CallState

def isOver : CallState → Bool
  | returned _ _ => true
  | cancelled => true
  | _ => false

/-- The call returned a result at this moment, or has none yet. -/
def result? : CallState → Option (Nat × CallResult)
  | returned moment r => some (moment, r)
  | _ => none

/-- Begins to ask for locks. Nothing is sent for requests that are not valid or
that ask for nothing. -/
def lock (requests : List Request) (wait : Option Duration) (now : Nat) (l : Link) :
    CallState × Link :=
  match Client.validate requests wait with
  | .error e => (.returned now (.locked (.error e)), l)
  | .ok () =>
    if requests.isEmpty then (.returned now (.locked (.ok .empty)), l)
    else
      let (x, client) := l.client.sendRequests requests now
      (.locking requests wait (.asking x), { l with client })

/-- Begins to give locks back. -/
def release (releases : List Release) (now : Nat) (l : Link) : CallState × Link :=
  if releases.isEmpty then (.returned now (.released (.ok [])), l)
  else if releases.any fun r => isBlank r.objectId then
    (.returned now (.released (.error .blankId)), l)
  else
    let (x, client) := l.client.sendReleases now
    (.releasing releases x, { l with client })

/-- Begins to listen for more urgent requests. -/
def listen (thresholds : List Threshold) (now : Nat) (l : Link) : CallState × Link :=
  match l.client.priorities.listen thresholds with
  | .error e => (.returned now (.listening (.error e)), l)
  | .ok (j, priorities) =>
    let l := { l with client := { l.client with priorities } }
    match j with
    | none => (.returned now (.listening (.ok ())), l)
    | some j => (.joining j, l)

/-- The waits for the trees that were refused. -/
def branchesOf (requests : List Request) (replies : List Reply) : List Branch :=
  ((requests.zip replies).zipIdx.filter fun x => !x.1.2.isGranted).map fun ((r, _), index) =>
    { index, wait := some { request := r } }

/-- Goes on with the replies to all trees. -/
def answered (requests : List Request) (wait : Option Duration) (now : Nat)
    (answer : Except Fault (List Reply)) : CallState :=
  match answer.bind (checkReplies requests) with
  | .error e => .returned now (.locked (.error e))
  | .ok replies =>
    let done := CallState.returned now (.locked (Outcome.assemble requests replies .zero))
    match wait with
    | none => done
    | some w =>
      match branchesOf requests replies with
      | [] => done
      | branches => .locking requests wait (.waiting now w replies branches none)

/-- Ends a call whose waits are all over. -/
def finish (requests : List Request) (started now : Nat) (wait : Duration)
    (replies : List Reply) : Option Fault → CallState
  | some e => .returned now (.locked (.error e))
  | none =>
    .returned now (.locked (Outcome.assemble requests replies
      (.min (.ofMillis (now - started)) wait)))

/-- The next step of the task that makes the call; nothing as long as there is
nothing to do but wait. -/
def step (c : Clock) (s : CallState) (l : Link) : Option (CallState × Link) :=
  match s with
  | locking requests wait (.asking x) =>
    (l.ask c requests x).map fun (r, l) =>
      match r with
      | .notYet x => (.locking requests wait (.asking x), l)
      | .answered answer => (answered requests wait c.now answer, l)
      | .crashed _ => (.returned c.now .crashed, l)
  | locking requests _ (.waiting started wait replies branches failure) =>
    if branches.all (·.wait.isNone) then
      some (finish requests started c.now wait replies failure, l)
    else none
  | releasing releases x =>
    (x.step (Route.passReleases releases) c.now l.authority).map fun (r, authority) =>
      let l := { l with authority }
      match r with
      | .notYet x => (.releasing releases x, l)
      | .answered answer => (.returned c.now (.released answer), l)
      | .crashed _ => (.returned c.now .crashed, l)
  | joining j =>
    (l.joinPriorities c.now j).map fun (r, l) =>
      match r with
      | .notYet j => (.joining j, l)
      | .running => (.returned c.now (.listening (.ok ())), l)
      | .failed e => (.returned c.now (.listening (.error e)), l)
  | returned _ _ => none
  | cancelled => none

/-- The next step of the wait at place `k` of the list. Its last reply takes the
place of the first one; of several faults the first counts. -/
def stepBranch (c : Clock) (k : Nat) (s : CallState) (l : Link) :
    Option (CallState × Link) :=
  match s with
  | locking requests w (.waiting started wait replies branches failure) =>
    match branches[k]? with
    | some ⟨index, some t⟩ =>
      (t.step c (started + wait.ceilMillis) l).map fun (r, l) =>
        match r with
        | .goesOn t =>
          (.locking requests w (.waiting started wait replies
            (branches.set k ⟨index, some t⟩) failure), l)
        | .ended result =>
          let branches := branches.set k ⟨index, none⟩
          match result with
          | .error e =>
            (.locking requests w (.waiting started wait replies branches
              (failure.or (some e))), l)
          | .ok none =>
            (.locking requests w (.waiting started wait replies branches failure), l)
          | .ok (some reply) =>
            (.locking requests w (.waiting started wait (replies.set index reply) branches
              failure), l)
    | _ => none
  | _ => none

/-- How many waits a call has. -/
def branchCount : CallState → Nat
  | locking _ _ (.waiting _ _ _ branches _) => branches.length
  | _ => 0

/-- Gives up a call, with all that it holds. -/
def cancel (s : CallState) (l : Link) : CallState × Link :=
  match s with
  | locking _ _ (.waiting _ _ _ branches _) =>
    (.cancelled, (branches.filterMap Branch.wait).foldl (fun l t => t.leave l) l)
  | joining j =>
    (.cancelled,
      { l with client := { l.client with priorities := l.client.priorities.leave j } })
  | returned moment r => (.returned moment r, l)
  | _ => (.cancelled, l)

/-- The moments at which the tasks of a call have to wake up. -/
def alarms : CallState → List Nat
  | locking _ _ (.asking x) => x.alarms
  | locking _ _ (.waiting started wait _ branches _) =>
    (started + wait.ceilMillis) :: (branches.filterMap Branch.wait).flatMap TreeWait.alarms
  | releasing _ x => x.alarms
  | joining j => j.alarm?.toList
  | _ => []

end CallState

end LeasedLocks
