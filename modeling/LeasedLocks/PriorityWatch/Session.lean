import LeasedLocks.Bulletin
import LeasedLocks.PriorityWatch
import LeasedLocks.Schedule

/-!
# Listeners for more urgent requests

Listeners who share one watch over requests, and the bulletin that it follows.
-/

namespace LeasedLocks

/-- Where a listener is. -/
inductive Listening where
  | joining (j : Joining)
  | over (r : Except Fault Unit)

/-- The listeners by name, the watch that they share, and what feeds it. -/
structure PrioritySession where
  now : Nat := 0
  source : Source := {}
  bulletin : Bulletin
  watch : PriorityWatch := .ofCapacity PriorityWatch.defaultCapacity
  listeners : List (String × Listening) := []
  /-- Nobody but listeners on their way holds on to the watch. -/
  isDropped : Bool := false

/-- Something that can take a step on its own. -/
inductive PriorityTask where
  | listener (i : Nat)
  | pump
  deriving DecidableEq, Repr

namespace Listening

def isJoining : Listening → Bool
  | joining _ => true
  | _ => false

end Listening

namespace PrioritySession

/-- The watch is gone: nobody holds on to it any more. -/
def isLost (s : PrioritySession) : Bool :=
  s.isDropped && !s.listeners.any (·.2.isJoining)

/-- The next step of a listener who is on the way. -/
def stepListener (s : PrioritySession) (i : Nat) : Option PrioritySession :=
  match s.listeners[i]? with
  | some (name, .joining j) =>
    (s.watch.join s.now s.bulletin.requested s.source j).map fun (r, watch, source) =>
      let put (x : Listening) := s.listeners.set i (name, x)
      match r with
      | .notYet j => { s with watch, source, listeners := put (.joining j) }
      | .running => { s with watch, source, listeners := put (.over (.ok ())) }
      | .failed e => { s with watch, source, listeners := put (.over (.error e)) }
  | _ => none

/-- The next step of a task; nothing while it is blocked. -/
def step (t : PriorityTask) (s : PrioritySession) : Option PrioritySession :=
  match t with
  | .listener i => s.stepListener i
  | .pump =>
    if s.isLost then none
    else (s.watch.pump s.bulletin.requested).map fun watch => { s with watch }

/-- The moments at which some task has to wake up. -/
def alarms (s : PrioritySession) : List Nat :=
  s.listeners.flatMap fun
    | (_, .joining j) => j.alarm?.toList
    | _ => []

/-- The session as a system of tasks. -/
def system : TaskSystem PrioritySession PriorityTask where
  tasks := fun s => (List.range s.listeners.length).map .listener ++ [.pump]
  step := step
  now := now
  setNow := fun now s => { s with now }
  alarms := alarms

/-- A new listener registers thresholds. -/
def listen (s : PrioritySession) (name : String) (ts : List Threshold) : PrioritySession :=
  match s.watch.listen ts with
  | .error e => { s with listeners := s.listeners ++ [(name, .over (.error e))] }
  | .ok (none, watch) =>
    { s with watch, listeners := s.listeners ++ [(name, .over (.ok ()))] }
  | .ok (some j, watch) => { s with watch, listeners := s.listeners ++ [(name, .joining j)] }

/-- A listener on the way gives up. -/
def cancel (s : PrioritySession) (name : String) : PrioritySession :=
  match s.listeners.lookup name with
  | some (.joining j) =>
    { s with watch := s.watch.leave j, listeners := s.listeners.filter (·.1 != name) }
  | _ => s

/-- Takes the listeners that are done off the list. -/
def takeOver (s : PrioritySession) : List (String × Except Fault Unit) × PrioritySession :=
  (s.listeners.filterMap fun
    | (name, .over r) => some (name, r)
    | _ => none,
    { s with listeners := s.listeners.filter (·.2.isJoining) })

def removeThresholds (s : PrioritySession) (ts : List Threshold) : PrioritySession :=
  { s with watch := s.watch.removeThresholds ts }

/-- Has one request looked at. -/
def report (s : PrioritySession) (r : Request) : PrioritySession :=
  { s with watch := s.watch.observe r }

def shutdown (s : PrioritySession) : PrioritySession := { s with watch := s.watch.shutdown }

/-- Announces requests. -/
def announce (s : PrioritySession) (rs : List Request) : PrioritySession :=
  { s with
    bulletin := { s.bulletin with requested := rs.foldl Channel.send s.bulletin.requested } }

def close (s : PrioritySession) : PrioritySession := { s with bulletin := s.bulletin.close }

/-- There is a new stream for those who open one from now on. -/
def reopen (s : PrioritySession) : PrioritySession :=
  { s with
    bulletin := { s.bulletin with requested := s.watch.monitor.renew s.bulletin.requested } }

/-- Changes the plan for openings that begin from now on. -/
def planOpenings (s : PrioritySession) (plan : OpeningPlan) : PrioritySession :=
  { s with source := { s.source with plan } }

/-- Gives up the watch; listeners on their way keep it a little longer. -/
def dropWatch (s : PrioritySession) : PrioritySession := { s with isDropped := true }

/-- The notices given so far; with the watch their channel ends. -/
def notices (s : PrioritySession) : Channel PriorityNotice :=
  if s.isLost then s.watch.notices.close else s.watch.notices

end PrioritySession

end LeasedLocks
