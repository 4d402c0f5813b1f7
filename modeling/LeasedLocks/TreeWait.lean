import LeasedLocks.Client

/-!
# Waiting for one tree

Whoever waits for a tree takes tickets for all of its objects, asks for the tree
again, and if it is refused once more waits until every object that was held has
become free. Tickets are taken before asking, so that no release is missed.
-/

namespace LeasedLocks

/-- Where a wait is. -/
inductive TreeStage where
  /-- At the start of a round. -/
  | round
  /-- With tickets for all objects, until the monitor runs. -/
  | arming (armed : List Ticket) (j : Joining)
  /-- With the tree asked for again. -/
  | asking (armed : List Ticket) (x : Exchange (List Reply))
  /-- Until all objects that were held are free. -/
  | parked

/-- The wait for one tree. -/
structure TreeWait where
  request : Request
  /-- The last reply, if the tree was asked for again. -/
  latest : Option Reply := none
  /-- Tickets for the objects that were held when the tree was last refused. -/
  blocking : List Ticket := []
  stage : TreeStage := .round

/-- What became of a wait. -/
inductive TreeProgress where
  | goesOn (t : TreeWait)
  /-- The last reply of the wait, if there was one. -/
  | ended (result : Except Fault (Option Reply))

namespace TreeWait

/-- The tickets that a wait holds. -/
def tickets (t : TreeWait) : List Ticket :=
  match t.stage with
  | .arming armed _ => armed ++ t.blocking
  | .asking armed _ => armed ++ t.blocking
  | _ => t.blocking

/-- Gives everything back that the wait holds. -/
def leave (t : TreeWait) (l : Link) : Link :=
  let unlocks :=
    match t.stage with
    | .arming _ j => l.client.unlocks.leave j
    | _ => l.client.unlocks
  l.withUnlocks (unlocks.releaseAll t.tickets)

/-- Ends the wait with what it has. -/
def stop (t : TreeWait) (l : Link) (result : Except Fault (Option Reply)) :
    TreeProgress × Link :=
  (.ended result, t.leave l)

/-- Whether all tickets became free, looked at in order: false if news will
never come, nothing if it has not come yet. -/
def allFreed? (w : Waitlist) : List Ticket → Option Bool
  | [] => some true
  | t :: ts =>
    match w.outcome? t with
    | some true => allFreed? w ts
    | some false => some false
    | none => none

/-- Begins a round: takes tickets for all objects of the tree. -/
def arm (t : TreeWait) (l : Link) : TreeWait × Link :=
  let (armed, unlocks) := l.client.unlocks.register t.request.objectIds
  ({ t with stage := .arming armed .waiting }, l.withUnlocks unlocks)

/-- Asks for the tree once more. -/
def askAgain (t : TreeWait) (now : Nat) (armed : List Ticket) (l : Link) : TreeWait × Link :=
  let (x, client) := l.client.sendRequests [t.request] now
  ({ t with stage := .asking armed x }, { l with client })

/-- Keeps the tickets for the objects that the reply says are held, and gives
the others back, those of the round before last. -/
def park (t : TreeWait) (armed : List Ticket) (reply : Reply) (l : Link) :
    TreeWait × Link :=
  let held := reply.unavailableIds
  let kept := armed.filter fun k => held.contains k.objectId
  let others := armed.filter fun k => !held.contains k.objectId
  ({ t with latest := some reply, blocking := kept, stage := .parked },
    l.withUnlocks (l.client.unlocks.releaseAll (others ++ t.blocking)))

/-- Goes on with the answer to the tree asked for again. -/
def answered (t : TreeWait) (armed : List Ticket) (answer : Except Fault (List Reply))
    (l : Link) : TreeProgress × Link :=
  match answer.bind (checkReplies [t.request]) with
  | .error e => t.stop l (.error e)
  | .ok replies =>
    match replies.getLast? with
    | none => t.stop l (.error (.unexpectedReply "empty response"))
    | some reply =>
      if reply.isGranted then t.stop l (.ok (some reply))
      else
        let (t, l) := t.park armed reply l
        (.goesOn t, l)

/-- Ends the wait when its time is up. -/
def timeUp (t : TreeWait) (now deadline : Nat) (l : Link) : Option (TreeProgress × Link) :=
  if deadline ≤ now then some (t.stop l (.ok t.latest)) else none

/-- The next step of a wait that ends at `deadline`; nothing as long as there is
nothing to do but wait. What is ready counts even if time is up. -/
def step (c : Clock) (deadline : Nat) (t : TreeWait) (l : Link) :
    Option (TreeProgress × Link) :=
  match t.stage with
  | .round =>
    if deadline ≤ c.now then some (t.stop l (.ok t.latest))
    else
      let (t, l) := t.arm l
      some (.goesOn t, l)
  | .arming armed j =>
    match l.joinUnlocks c.now j with
    | none => t.timeUp c.now deadline l
    | some (.notYet j, l) => some (.goesOn { t with stage := .arming armed j }, l)
    | some (.running, l) =>
      let (t, l) := t.askAgain c.now armed l
      some (.goesOn t, l)
    | some (.failed e, l) =>
      some ({ t with stage := .arming armed .waiting }.stop l (.error e))
  | .asking armed x =>
    match l.ask c [t.request] x with
    | none => t.timeUp c.now deadline l
    | some (.notYet x, l) => some (.goesOn { t with stage := .asking armed x }, l)
    | some (.answered answer, l) => some (t.answered armed answer l)
    | some (.crashed report, l) => some (t.stop l (.error (@Fault.waitLost report)))
  | .parked =>
    match allFreed? l.client.unlocks.list t.blocking with
    | some true => some (.goesOn { t with stage := .round }, l)
    | some false => some (t.stop l (.ok t.latest))
    | none => t.timeUp c.now deadline l

/-- The moments at which a wait has to be looked at again, its deadline apart. -/
def alarms (t : TreeWait) : List Nat :=
  match t.stage with
  | .arming _ j => j.alarm?.toList
  | .asking _ x => x.alarms
  | _ => []

end TreeWait

end LeasedLocks
