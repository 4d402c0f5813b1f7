import LeasedLocks.Bulletin
import LeasedLocks.Schedule
import LeasedLocks.UnlockWatch

/-!
# Subscribers of freed objects

Subscribers who share one watch over freed objects, and the bulletin that it
follows.
-/

namespace LeasedLocks

/-- Where a subscriber is. -/
inductive Subscription where
  /-- With tickets, until the monitor runs. -/
  | opening (tickets : List Ticket) (j : Joining)
  | failed (e : Fault)
  /-- With tickets; one that was given back is gone. -/
  | ready (tickets : List (Option Ticket))

/-- The subscribers by name, the watch that they share, and what feeds it. -/
structure UnlockSession where
  now : Nat := 0
  source : Source := {}
  bulletin : Bulletin
  watch : UnlockWatch := {}
  subscriptions : List (String × Subscription) := []
  /-- Nobody but subscribers on their way holds on to the watch. -/
  isDropped : Bool := false

/-- Something that can take a step on its own. -/
inductive UnlockTask where
  | subscriber (i : Nat)
  | pump
  deriving DecidableEq, Repr

namespace Subscription

def isOpening : Subscription → Bool
  | opening _ _ => true
  | _ => false

/-- The tickets that a subscriber holds. -/
def tickets : Subscription → List Ticket
  | opening ts _ => ts
  | failed _ => []
  | ready ts => ts.filterMap id

end Subscription

namespace UnlockSession

/-- The watch is gone: nobody holds on to it any more. -/
def isLost (s : UnlockSession) : Bool :=
  s.isDropped && !s.subscriptions.any (·.2.isOpening)

/-- The next step of a subscriber who is on the way. -/
def stepSubscriber (s : UnlockSession) (i : Nat) : Option UnlockSession :=
  match s.subscriptions[i]? with
  | some (name, .opening ts j) =>
    (s.watch.join s.now s.bulletin.freed s.source j).map fun (r, watch, source) =>
      let put (x : Subscription) := s.subscriptions.set i (name, x)
      match r with
      | .notYet j => { s with watch, source, subscriptions := put (.opening ts j) }
      | .running => { s with watch, source, subscriptions := put (.ready (ts.map some)) }
      | .failed e =>
        { s with watch := watch.releaseAll ts, source, subscriptions := put (.failed e) }
  | _ => none

/-- The next step of a task; nothing while it is blocked. -/
def step (t : UnlockTask) (s : UnlockSession) : Option UnlockSession :=
  match t with
  | .subscriber i => s.stepSubscriber i
  | .pump =>
    if s.isLost then none
    else (s.watch.pump s.bulletin.freed).map fun watch => { s with watch }

/-- The moments at which some task has to wake up. -/
def alarms (s : UnlockSession) : List Nat :=
  s.subscriptions.flatMap fun
    | (_, .opening _ j) => j.alarm?.toList
    | _ => []

/-- The session as a system of tasks. -/
def system : TaskSystem UnlockSession UnlockTask where
  tasks := fun s => (List.range s.subscriptions.length).map .subscriber ++ [.pump]
  step := step
  now := now
  setNow := fun now s => { s with now }
  alarms := alarms

/-- Gives back what a subscriber holds. -/
def releaseFrom (s : UnlockSession) (x : Subscription) : UnlockSession :=
  if s.isLost then s
  else
    let watch :=
      match x with
      | .opening _ j => s.watch.leave j
      | _ => s.watch
    { s with watch := watch.releaseAll x.tickets }

/-- A subscriber gives up or gives its tickets back. -/
def drop (s : UnlockSession) (name : String) : UnlockSession :=
  match s.subscriptions.lookup name with
  | none => s
  | some x =>
    let s := s.releaseFrom x
    { s with subscriptions := s.subscriptions.filter (·.1 != name) }

/-- A subscriber gives one ticket back. -/
def dropAt (s : UnlockSession) (name : String) (k : Nat) : UnlockSession :=
  match s.subscriptions.lookup name with
  | some (.ready ts) =>
    let s := s.releaseFrom (.ready (ts[k]?.toList))
    { s with
      subscriptions := s.subscriptions.map fun (n, x) =>
        if n == name then (n, .ready (ts.set k none)) else (n, x) }
  | _ => s

/-- A new subscriber takes tickets for these objects. -/
def subscribe (s : UnlockSession) (name : String) (ids : List String) : UnlockSession :=
  let s := s.drop name
  if ids.isEmpty then
    { s with subscriptions := s.subscriptions ++ [(name, .ready [])] }
  else
    let (ts, watch) := s.watch.register ids
    { s with watch, subscriptions := s.subscriptions ++ [(name, .opening ts .waiting)] }

/-- What a ticket yields: the outcome of its entry, and false once the watch is
gone. -/
def yield? (s : UnlockSession) (t : Ticket) : Option Bool :=
  match s.watch.list.outcome? t with
  | some b => some b
  | none => if s.isLost then some false else none

def report (s : UnlockSession) (ids : List String) : UnlockSession :=
  if s.isLost then s else { s with watch := s.watch.report ids }

def shutdown (s : UnlockSession) : UnlockSession :=
  if s.isLost then s else { s with watch := s.watch.shutdown }

/-- Announces freed objects, a batch at a time. -/
def announce (s : UnlockSession) (batches : List (List String)) : UnlockSession :=
  { s with
    bulletin := { s.bulletin with freed := batches.foldl Channel.send s.bulletin.freed } }

def close (s : UnlockSession) : UnlockSession := { s with bulletin := s.bulletin.close }

/-- There is a new stream for those who open one from now on. -/
def reopen (s : UnlockSession) : UnlockSession :=
  { s with bulletin := { s.bulletin with freed := s.watch.monitor.renew s.bulletin.freed } }

/-- Changes the plan for openings that begin from now on. -/
def planOpenings (s : UnlockSession) (plan : OpeningPlan) : UnlockSession :=
  { s with source := { s.source with plan } }

/-- Gives up the watch; subscribers on their way keep it a little longer. -/
def dropWatch (s : UnlockSession) : UnlockSession := { s with isDropped := true }

end UnlockSession

end LeasedLocks
