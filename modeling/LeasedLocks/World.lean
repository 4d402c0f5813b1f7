import LeasedLocks.Call
import LeasedLocks.Schedule

/-!
# Clients around an authority

Any number of clients, each with any number of calls, around one authority and
on one clock. `World.step` says what each task can do next; every run is a
sequence of such steps, of commands from outside and of the passing of time.
-/

namespace LeasedLocks

/-- A call and the client that makes it. -/
structure Call where
  client : Nat
  state : CallState

/-- Takes expired locks away at regular intervals. -/
structure Sweeper where
  due : Nat
  interval : Nat
  deriving DecidableEq, Repr

/-- The state of everything. -/
structure World where
  now : Nat := 0
  /-- The date in the calendar, which stands still. -/
  calendar : Millis
  /-- The date at which the common clock started, where locks are dated by it. -/
  base : Option Millis := none
  authority : Authority
  clients : List Client := []
  calls : List Call := []
  sweepers : List Sweeper := []

/-- Something that can take a step on its own. -/
inductive Task where
  | call (i : Nat)
  | branch (i k : Nat)
  | freedPump (client : Nat)
  | requestPump (client : Nat)
  | sweeper (k : Nat)
  deriving DecidableEq, Repr

namespace World

def clock (w : World) : Clock := ⟨w.now, w.calendar⟩

/-- The date of the present for what happens at the authority itself. -/
def date (w : World) : Millis := Route.date w.base w.clock

/-- The client at place `i`, with the authority. -/
def link? (w : World) (i : Nat) : Option Link :=
  w.clients[i]?.map fun client => { client, authority := w.authority }

/-- Puts the client at place `i` and the authority back. -/
def withLink (w : World) (i : Nat) (l : Link) : World :=
  { w with clients := w.clients.set i l.client, authority := l.authority }

/-- Lets a call take a step of this kind. -/
def stepCall (w : World) (i : Nat)
    (f : CallState → Link → Option (CallState × Link)) : Option World :=
  match w.calls[i]? with
  | none => none
  | some call =>
    match w.link? call.client with
    | none => none
    | some l =>
      (f call.state l).map fun (state, l) =>
        { w.withLink call.client l with calls := w.calls.set i { call with state } }

/-- The next step of a task; nothing while it is blocked. -/
def step (t : Task) (w : World) : Option World :=
  match t with
  | .call i => w.stepCall i (CallState.step w.clock)
  | .branch i k => w.stepCall i (CallState.stepBranch w.clock k)
  | .freedPump i =>
    (w.link? i).bind fun l =>
      (l.client.unlocks.pump (l.client.bulletin l.authority).freed).map fun unlocks =>
        w.withLink i (l.withUnlocks unlocks)
  | .requestPump i =>
    (w.link? i).bind fun l =>
      (l.client.priorities.pump (l.client.bulletin l.authority).requested).map
        fun priorities =>
          w.withLink i { l with client := { l.client with priorities } }
  | .sweeper k =>
    match w.sweepers[k]? with
    | none => none
    | some s =>
      if s.due ≤ w.now ∧ 0 < s.interval then
        let (_, authority) := w.authority.sweep w.calendar
        some { w with
          authority
          sweepers := w.sweepers.set k { s with due := s.due + s.interval } }
      else none

/-- All tasks. -/
def tasks (w : World) : List Task :=
  w.calls.zipIdx.flatMap (fun (call, i) =>
    if call.state.isOver then []
    else .call i :: (List.range call.state.branchCount).map (.branch i)) ++
  (List.range w.clients.length).flatMap (fun i => [.freedPump i, .requestPump i]) ++
  (List.range w.sweepers.length).map .sweeper

/-- The moments at which some task has to wake up. -/
def alarms (w : World) : List Nat :=
  w.calls.flatMap (·.state.alarms) ++ w.sweepers.map Sweeper.due

/-- The world as a system of tasks. -/
def system : TaskSystem World Task where
  tasks := tasks
  step := step
  now := now
  setNow := fun now w => { w with now }
  alarms := alarms

/-! ## Commands from outside -/

/-- Lets a client begin a call. -/
def start (w : World) (i : Nat) (f : Nat → Link → CallState × Link) : World :=
  match w.link? i with
  | none => w
  | some l =>
    let (state, l) := f w.now l
    { w.withLink i l with calls := w.calls ++ [{ client := i, state }] }

/-- Begins to ask for locks. -/
def lock (w : World) (i : Nat) (requests : List Request) (wait : Option Duration) : World :=
  w.start i (CallState.lock requests wait)

/-- Begins to give locks back. -/
def release (w : World) (i : Nat) (releases : List Release) : World :=
  w.start i (CallState.release releases)

/-- Begins to listen for more urgent requests. -/
def listen (w : World) (i : Nat) (thresholds : List Threshold) : World :=
  w.start i (CallState.listen thresholds)

/-- Gives up a call. -/
def cancel (w : World) (i : Nat) : World :=
  (w.stepCall i fun s l => some (s.cancel l)).getD w

/-- Changes a client. -/
def alter (w : World) (i : Nat) (f : Client → Client) : World :=
  { w with clients := w.clients.modify i f }

/-- Withdraws thresholds. -/
def stopListening (w : World) (i : Nat) (thresholds : List Threshold) : World :=
  w.alter i fun c => { c with priorities := c.priorities.removeThresholds thresholds }

/-- Shuts a client down. -/
def shutdown (w : World) (i : Nat) : World := w.alter i Client.shutdown

/-- Changes the plan for the openings of a client that begin from now on. -/
def planOpenings (w : World) (i : Nat) (plan : OpeningPlan) : World :=
  w.alter i fun c => { c with source := { c.source with plan } }

/-- Closes the bulletin of a client that has one of its own. -/
def closeOwn (w : World) (i : Nat) : World :=
  w.alter i fun c => { c with own := c.own.map Bulletin.close }

/-- Has new streams for a client that has a bulletin of its own. -/
def reopenOwn (w : World) (i : Nat) : World :=
  w.alter i fun c =>
    { c with own := c.own.map fun b =>
        ⟨c.unlocks.monitor.renew b.freed, c.priorities.monitor.renew b.requested⟩ }

/-- Announces freed objects on the bulletin of a client that has one of its own. -/
def announceOwn (w : World) (i : Nat) (batches : List (List String)) : World :=
  w.alter i fun c =>
    { c with own := c.own.map fun b => { b with freed := batches.foldl Channel.send b.freed } }

/-- Asks the authority itself for a tree. -/
def hold (w : World) (r : Request) (date : Millis) : Except Fault Reply × World :=
  let (answer, authority) := w.authority.serve r date
  (answer, { w with authority })

/-- Has the authority itself take locks away. -/
def remove (w : World) (f : Authority → List String × Authority) : List String × World :=
  let (ids, authority) := f w.authority
  (ids, { w with authority })

/-- Takes expired locks away now and at regular intervals from now on. -/
def sweepEvery (w : World) (interval : Nat) : World :=
  { w with sweepers := w.sweepers ++ [{ due := w.now, interval }] }

/-- How many clients follow the two channels of the authority's bulletin. -/
def readers (w : World) : Nat × Nat :=
  let following := w.clients.filter (·.own.isNone)
  (following.countP (·.unlocks.monitor.isRunning),
    following.countP (·.priorities.monitor.isRunning))

/-- How many calls are not over. -/
def unfinished (w : World) : Nat := w.calls.countP (!·.state.isOver)

end World

end LeasedLocks
