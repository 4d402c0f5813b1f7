import LeasedLocks.Exchange
import LeasedLocks.PriorityWatch
import LeasedLocks.UnlockWatch

/-!
# Clients

A client sends requests and releases to the authority and watches what the
authority announces.
-/

namespace LeasedLocks

/-- How the messages of a client are handled. -/
structure Route where
  /-- Requests are answered tree by tree and dated by the common clock, which
  started at this date; without it all trees of a message are answered together
  and dated by the calendar. -/
  base : Option Millis := none
  /-- What happens to the next messages that ask for locks. -/
  lockScript : List (Handling (List Reply)) := []
  /-- What happens to the next messages that give locks back. -/
  releaseScript : List (Handling (List String)) := []

/-- One client. -/
structure Client where
  settings : ClientSettings := {}
  route : Route := {}
  source : Source := {}
  /-- The bulletin that the client follows, if it is not that of the authority. -/
  own : Option Bulletin := none
  unlocks : UnlockWatch := {}
  priorities : PriorityWatch := .ofCapacity PriorityWatch.defaultCapacity
  /-- When requests were sent, and for which trees. -/
  sent : Array (Nat × List String) := #[]

/-- The two dates that a moment has. -/
structure Clock where
  /-- The moment, in milliseconds. -/
  now : Nat
  /-- The date of the moment in the calendar. -/
  calendar : Millis

namespace Route

/-- The date of a moment for the authority. -/
def date (base : Option Millis) (c : Clock) : Millis :=
  match base with
  | some base => .after base (UInt64.ofNat c.now)
  | none => c.calendar

/-- Has requests answered. -/
def passRequests (r : Route) (c : Clock) (rs : List Request) (a : Authority) :
    Except Fault (List Reply) × Authority :=
  let (answer, a) :=
    match r.base with
    | some _ => a.requestEach (date r.base c) rs
    | none => a.requestAll rs (date r.base c)
  match answer with
  | .ok replies => (.ok replies, a)
  | .error e => (.error (.remote e.message), a)

/-- Has releases answered. -/
def passReleases (rs : List Release) (a : Authority) :
    Except Fault (List String) × Authority :=
  let (ids, a) := a.releaseAll rs
  (.ok ids, a)

end Route

namespace Client

/-- The bulletin that the client follows. -/
def bulletin (c : Client) (a : Authority) : Bulletin := c.own.getD a.bulletin

/-- Sends requests. -/
def sendRequests (c : Client) (rs : List Request) (now : Nat) :
    Exchange (List Reply) × Client :=
  let h := c.route.lockScript.head?.getD {}
  (Exchange.start h c.settings.requestTimeout now,
    { c with
      route := { c.route with lockScript := c.route.lockScript.tail }
      sent := c.sent.push (now, rs.map Request.objectId) })

/-- Sends releases. -/
def sendReleases (c : Client) (now : Nat) : Exchange (List String) × Client :=
  let h := c.route.releaseScript.head?.getD {}
  (Exchange.start h c.settings.requestTimeout now,
    { c with route := { c.route with releaseScript := c.route.releaseScript.tail } })

/-- Accepts requests with a waiting time that is not zero and with identifiers
of which none is blank and none repeats in any of the trees. -/
def validate (requests : List Request) (wait : Option Duration) : Except Fault Unit :=
  match wait with
  | some w =>
    if w.isZero then .error (.invalidWait w) else checkIds (requests.flatMap Request.objectIds)
  | none => checkIds (requests.flatMap Request.objectIds)

/-- Tells all who wait that no news will come, and stops both monitors. -/
def shutdown (c : Client) : Client :=
  { c with unlocks := c.unlocks.shutdown, priorities := c.priorities.shutdown }

end Client

/-- A client and the authority that it asks. -/
structure Link where
  client : Client
  authority : Authority

namespace Link

/-- Changes what the client watches for. -/
def withUnlocks (l : Link) (unlocks : UnlockWatch) : Link :=
  { l with client := { l.client with unlocks } }

/-- The next step of an exchange that asks for locks. -/
def ask (l : Link) (c : Clock) (rs : List Request) (x : Exchange (List Reply)) :
    Option (Exchanged (List Reply) × Link) :=
  (x.step (l.client.route.passRequests c rs) c.now l.authority).map fun (r, authority) =>
    (r, { l with authority })

/-- The next step of somebody who waits for the monitor of freed objects. -/
def joinUnlocks (l : Link) (now : Nat) (j : Joining) : Option (Joined × Link) :=
  (l.client.unlocks.join now (l.client.bulletin l.authority).freed l.client.source j).map
    fun (r, unlocks, source) => (r, { l with client := { l.client with unlocks, source } })

/-- The next step of somebody who waits for the monitor of requests. -/
def joinPriorities (l : Link) (now : Nat) (j : Joining) : Option (Joined × Link) :=
  (l.client.priorities.join now (l.client.bulletin l.authority).requested
    l.client.source j).map
    fun (r, priorities, source) =>
      (r, { l with client := { l.client with priorities, source } })

end Link

end LeasedLocks
