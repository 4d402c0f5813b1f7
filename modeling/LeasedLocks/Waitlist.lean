import Std.Data.ExtTreeMap

/-!
# The waitlist

Who waits for which object to become free. All who wait for one object share an
entry; the entry is settled once, and whoever comes later gets a new one. What
became of a settled entry is remembered under its generation.
-/

namespace LeasedLocks

/-- The place on the list of those who wait for one object. -/
structure Entry where
  /-- Tells the entries of one object apart. -/
  generation : Nat
  /-- How many wait. -/
  count : Nat
  deriving DecidableEq, Repr

/-- The right of one caller to hear that an object became free. -/
structure Ticket where
  objectId : String
  generation : Nat
  deriving DecidableEq, Repr

/-- The entries that are not settled, and what became of the others. -/
structure Waitlist where
  entries : Std.ExtTreeMap String Entry := ∅
  /-- True if the object became free, false if nobody will tell any more. -/
  outcomes : Std.ExtTreeMap Nat Bool := ∅
  /-- Tickets that were given out and not returned, settled or not. -/
  tickets : Nat := 0
  nextGeneration : Nat := 1

namespace Waitlist

/-- The objects that somebody waits for, sorted. -/
def pendingIds (w : Waitlist) : List String := w.entries.keys

def isPending (w : Waitlist) (id : String) : Bool := w.entries.contains id

/-- What became of a ticket, once it is settled. -/
def outcome? (w : Waitlist) (t : Ticket) : Option Bool := w.outcomes[t.generation]?

/-- Gives out a ticket for an object. -/
def register (w : Waitlist) (id : String) : Ticket × Waitlist :=
  match w.entries[id]? with
  | some e =>
    (⟨id, e.generation⟩,
      { w with
        entries := w.entries.insert id { e with count := e.count + 1 }
        tickets := w.tickets + 1 })
  | none =>
    (⟨id, w.nextGeneration⟩,
      { w with
        entries := w.entries.insert id ⟨w.nextGeneration, 1⟩
        tickets := w.tickets + 1
        nextGeneration := w.nextGeneration + 1 })

/-- Gives out a ticket for each object. -/
def registerAll (w : Waitlist) : List String → List Ticket × Waitlist
  | [] => ([], w)
  | id :: ids =>
    let (t, w) := w.register id
    let (ts, w) := w.registerAll ids
    (t :: ts, w)

/-- Settles the entry of an object, if there is one. -/
def settle (w : Waitlist) (freed : Bool) (id : String) : Waitlist :=
  match w.entries[id]? with
  | some e =>
    { w with
      entries := w.entries.erase id
      outcomes := w.outcomes.insert e.generation freed }
  | none => w

/-- Settles the entries of these objects. -/
def settleAll (w : Waitlist) (freed : Bool) (ids : List String) : Waitlist :=
  ids.foldl (settle · freed) w

/-- Takes a ticket back. With the last ticket of its entry the entry goes; a
ticket that is settled has no entry any more. -/
def release (w : Waitlist) (t : Ticket) : Waitlist :=
  let w := { w with tickets := w.tickets - 1 }
  match w.entries[t.objectId]? with
  | some e =>
    if e.generation = t.generation then
      if e.count ≤ 1 then w.settle false t.objectId
      else { w with entries := w.entries.insert t.objectId { e with count := e.count - 1 } }
    else w
  | none => w

end Waitlist

end LeasedLocks
