import LeasedLocks.Authority

/-!
# Exchanges of messages

A message goes to the authority and an answer comes back. Either way may take
time or fail, and the sender gives up after a while.
-/

namespace LeasedLocks

/-- What happens to a message and its answer, in this order. If nothing is
stated the authority answers at once. -/
structure Handling (β : Type) where
  /-- How long the message takes, in milliseconds. -/
  delay : Nat := 0
  /-- No answer ever comes. -/
  stalls : Bool := false
  /-- The task of the sender dies. -/
  crashes : Bool := false
  /-- What is reported of its death. -/
  report : String := ""
  /-- The other side refuses, for this reason. -/
  remote : Option String := none
  /-- The message gets lost, for this reason. -/
  transport : Option String := none
  /-- The answer that comes in place of that of the authority. -/
  canned : Option β := none
  /-- The authority gets the message even if its answer does not get back. -/
  relays : Bool := false
  /-- How long an answer takes once the authority has the message, in milliseconds. -/
  replyDelay : Nat := 0

namespace Handling

variable {β : Type}

/-- What the sender is told whatever the authority answers. -/
def told? (h : Handling β) : Option (Except Fault β) :=
  match h.remote, h.transport, h.canned with
  | some reason, _, _ => some (.error (.remote reason))
  | none, some reason, _ => some (.error (.transport reason))
  | none, none, some answer => some (.ok answer)
  | none, none, none => none

/-- Whether the message is passed on to the authority. -/
def isPassedOn (h : Handling β) : Bool :=
  h.relays || !h.stalls && !h.crashes && h.told?.isNone

end Handling

/-- Where an exchange is. -/
inductive Leg (β : Type) where
  /-- The message is on its way. -/
  | outbound (h : Handling β) (due : Nat)
  /-- The message arrived, and nothing will come back. -/
  | silent
  /-- The answer is on its way. -/
  | inbound (answer : Except Fault β) (due : Nat)

/-- A message that was sent and is not answered yet. -/
structure Exchange (β : Type) where
  leg : Leg β
  /-- How long the sender is ready to wait. -/
  limit : Duration
  /-- The moment at which the sender gives up. -/
  deadline : Nat

/-- What became of an exchange. -/
inductive Exchanged (β : Type) where
  | notYet (x : Exchange β)
  | answered (answer : Except Fault β)
  /-- The task of the sender died, and this is the report of it. -/
  | crashed (report : String)

namespace Exchange

variable {β : Type}

/-- Sends a message. -/
def start (h : Handling β) (limit : Duration) (now : Nat) : Exchange β where
  leg := .outbound h (now + h.delay)
  limit := limit
  deadline := now + limit.ceilMillis

/-- The moments at which an exchange has to be looked at again. -/
def alarms (x : Exchange β) : List Nat :=
  match x.leg with
  | .outbound _ due => [due, x.deadline]
  | .silent => [x.deadline]
  | .inbound _ due => [due, x.deadline]

/-- The sender has waited long enough. -/
def giveUp (x : Exchange β) (now : Nat) (a : Authority) : Option (Exchanged β × Authority) :=
  if x.deadline ≤ now then some (.answered (.error (.timedOut x.limit)), a) else none

/-- What becomes of an exchange when the message arrives, to which the authority gives or
would give this answer. -/
def arrived (h : Handling β) (answer : Except Fault β) (now : Nat) (x : Exchange β) :
    Exchanged β :=
  if h.stalls then .notYet { x with leg := .silent }
  else if h.crashes then .crashed h.report
  else
    match h.told? with
    | none => .notYet { x with leg := .inbound answer (now + h.replyDelay) }
    | some told =>
      if h.relays then .notYet { x with leg := .inbound told (now + h.replyDelay) }
      else .answered told

/-- What happens when the message arrives. -/
def arrive (h : Handling β) (pass : Authority → Except Fault β × Authority) (now : Nat)
    (x : Exchange β) (a : Authority) : Exchanged β × Authority :=
  let (answer, asked) := pass a
  (x.arrived h answer now, if h.isPassedOn then asked else a)

/-- The next step of an exchange, where `pass` has the message answered; nothing
as long as there is nothing to do but wait. An answer that is there counts even
if it is late. -/
def step (pass : Authority → Except Fault β × Authority) (now : Nat) (x : Exchange β)
    (a : Authority) : Option (Exchanged β × Authority) :=
  match x.leg with
  | .outbound h due => if due ≤ now then some (arrive h pass now x a) else x.giveUp now a
  | .silent => x.giveUp now a
  | .inbound answer due => if due ≤ now then some (.answered answer, a) else x.giveUp now a

end Exchange

/-- Accepts replies that answer the requests one by one, object by object. -/
def checkReplies (requests : List Request) (replies : List Reply) :
    Except Fault (List Reply) :=
  if requests.length ≠ replies.length then
    .error (.unexpectedReply
      ("expected " ++ toString requests.length ++ " responses, got " ++
        toString replies.length))
  else
    match (requests.zip replies).find? fun (r, x) => r.objectIds != x.objectIds with
    | some (r, _) =>
      .error (.unexpectedReply
        ("response for '" ++ r.objectId ++ "' does not match its request"))
    | none => .ok replies

end LeasedLocks
