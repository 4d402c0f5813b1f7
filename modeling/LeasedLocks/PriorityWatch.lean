import LeasedLocks.Channel
import LeasedLocks.Monitor
import LeasedLocks.PriorityWatch.Threshold
import LeasedLocks.Request
import LeasedLocks.Text.Blank

/-!
# Watching for more urgent requests

Whoever holds an object may want to know when somebody asks for it more
urgently. The thresholds say for which object and above which priority; each
request that matches one gives one notice.
-/

namespace LeasedLocks

/-- Somebody asked for an object more urgently than a threshold says. -/
structure PriorityNotice where
  /-- The first object of the request that matched. -/
  objectId : String
  priority : Priority
  /-- The whole request. -/
  request : Request

/-- The thresholds, the monitor that follows the requests, and the notices given
so far. -/
structure PriorityWatch where
  thresholds : Thresholds := ∅
  monitor : Monitor := {}
  notices : Channel PriorityNotice

namespace PriorityWatch

/-- How many notices are kept where nothing is stated. -/
def defaultCapacity : Nat := 256

def ofCapacity (n : Nat) : PriorityWatch := { notices := .ofCapacity n }

/-- The priorities registered for an object, the most urgent first. -/
def thresholdsOf (w : PriorityWatch) (id : String) : List Priority :=
  (w.thresholds.prioritiesOf id).toList

theorem mem_thresholdsOf {w : PriorityWatch} {id : String} {p : Priority} :
    p ∈ w.thresholdsOf id ↔ (id, p) ∈ w.thresholds := Std.ExtTreeSet.mem_toList

/-- Registers thresholds; one that is there already is not registered again. -/
def addThresholds (w : PriorityWatch) (ts : List Threshold) : PriorityWatch :=
  { w with thresholds := w.thresholds.insertAll ts }

/-- Without thresholds the monitor is not needed. -/
def stopIfUnused (w : PriorityWatch) : PriorityWatch :=
  if w.thresholds.isEmpty then { w with monitor := w.monitor.stop } else w

/-- Withdraws thresholds. -/
def removeThresholds (w : PriorityWatch) (ts : List Threshold) : PriorityWatch :=
  { w with thresholds := w.thresholds.eraseAll ts }.stopIfUnused

/-- Withdraws all thresholds and stops the monitor. -/
def shutdown (w : PriorityWatch) : PriorityWatch :=
  { w with thresholds := ∅, monitor := w.monitor.stop }

/-- The node is more urgent than a threshold for its object. -/
def matchesAsk (w : PriorityWatch) (a : Ask) : Bool :=
  (w.thresholdsOf a.objectId).any a.priority.outranks

/-- Gives notice of a request if one of its nodes matches; the first one counts. -/
def observe (w : PriorityWatch) (r : Request) : PriorityWatch :=
  match r.labels.find? w.matchesAsk with
  | some a => { w with notices := w.notices.send ⟨a.objectId, a.priority, r⟩ }
  | none => w

/-- Reads the next request of the stream. What was missed is gone; when the
stream has ended, the monitor stops. -/
def pump (w : PriorityWatch) (requested : Channel Request) : Option PriorityWatch :=
  match w.monitor.phase with
  | .running place =>
    match requested.read place with
    | (.item r, place) =>
      some { w.observe r with monitor := { w.monitor with phase := .running place } }
    | (.lagged _, place) =>
      some { w with monitor := { w.monitor with phase := .running place } }
    | (.closed, _) => some { w with monitor := w.monitor.stop }
    | (.pending, _) => none
  | _ => none

/-- Begins to listen: registers the thresholds unless one names a blank object.
Nobody needs the monitor for no thresholds. -/
def listen (w : PriorityWatch) (ts : List Threshold) :
    Except Fault (Option Joining × PriorityWatch) :=
  if ts.any fun t => isBlank t.1 then .error .blankId
  else if ts.isEmpty then .ok (none, w)
  else .ok (some .waiting, w.addThresholds ts)

/-- The next step of somebody who listens. All thresholds may have been
withdrawn while the stream was being opened. -/
def join (w : PriorityWatch) (now : Nat) (requested : Channel Request) (s : Source)
    (j : Joining) : Option (Joined × PriorityWatch × Source) :=
  (j.step now requested.streamEnd w.monitor s).map fun (joined, monitor, s) =>
    let w := { w with monitor }
    match joined with
    | .running => (joined, w.stopIfUnused, s)
    | _ => (joined, w, s)

/-- Somebody who needed the monitor gives up; the thresholds stay. -/
def leave (w : PriorityWatch) (j : Joining) : PriorityWatch :=
  { w with monitor := j.cancel w.monitor }

end PriorityWatch

end LeasedLocks
