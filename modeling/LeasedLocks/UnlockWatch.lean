import LeasedLocks.Channel
import LeasedLocks.Monitor
import LeasedLocks.Waitlist

/-!
# Watching for freed objects

The waitlist together with the monitor that feeds it. The monitor runs at most
as long as there are tickets out.
-/

namespace LeasedLocks

/-- The waitlist and its monitor. -/
structure UnlockWatch where
  list : Waitlist := {}
  monitor : Monitor := {}

namespace UnlockWatch

/-- Gives out a ticket for each object. -/
def register (w : UnlockWatch) (ids : List String) : List Ticket × UnlockWatch :=
  let (ts, list) := w.list.registerAll ids
  (ts, { w with list })

/-- Takes a ticket back; with the last one the monitor stops. -/
def release (w : UnlockWatch) (t : Ticket) : UnlockWatch :=
  let list := w.list.release t
  { list, monitor := if list.tickets = 0 then w.monitor.stop else w.monitor }

/-- Takes tickets back, one after the other. -/
def releaseAll (w : UnlockWatch) (ts : List Ticket) : UnlockWatch := ts.foldl release w

/-- Tells those who wait that these objects became free. -/
def report (w : UnlockWatch) (ids : List String) : UnlockWatch :=
  { w with list := w.list.settleAll true ids }

/-- Tells everybody that something may have become free. -/
def wakeAll (w : UnlockWatch) : UnlockWatch :=
  { w with list := w.list.settleAll true w.list.pendingIds }

/-- Tells everybody that no news will come, and stops the monitor. -/
def shutdown (w : UnlockWatch) : UnlockWatch :=
  { list := w.list.settleAll false w.list.pendingIds, monitor := w.monitor.stop }

/-- Reads the next notice of the stream. Whoever missed some may have missed
theirs; when the stream has ended, nobody needs to wait any more. -/
def pump (w : UnlockWatch) (freed : Channel (List String)) : Option UnlockWatch :=
  match w.monitor.phase with
  | .running place =>
    match freed.read place with
    | (.item ids, place) =>
      some { w.report ids with monitor := { w.monitor with phase := .running place } }
    | (.lagged _, place) =>
      some { w.wakeAll with monitor := { w.monitor with phase := .running place } }
    | (.closed, _) => some w.shutdown
    | (.pending, _) => none
  | _ => none

/-- The next step of somebody who needs the monitor. -/
def join (w : UnlockWatch) (now : Nat) (freed : Channel (List String)) (s : Source)
    (j : Joining) : Option (Joined × UnlockWatch × Source) :=
  (j.step now freed.streamEnd w.monitor s).map fun (joined, monitor, s) =>
    (joined, { w with monitor }, s)

/-- Somebody who needed the monitor gives up. -/
def leave (w : UnlockWatch) (j : Joining) : UnlockWatch :=
  { w with monitor := j.cancel w.monitor }

end UnlockWatch

end LeasedLocks
