import LeasedLocks.Channel
import LeasedLocks.Request

/-!
# The bulletin

Everybody who cares is told which objects became free and which requests came in.
-/

namespace LeasedLocks

/-- One channel for freed objects, a batch per occasion, and one for requests. -/
structure Bulletin where
  freed : Channel (List String)
  requested : Channel Request

namespace Bulletin

/-- A bulletin whose channels both have this capacity. -/
def ofCapacity (n : Nat) : Bulletin := ⟨.ofCapacity n, .ofCapacity n⟩

/-- The capacity of a bulletin for which none is stated. -/
def defaultCapacity : Nat := 1024

/-- Tells which objects became free; no objects, no notice. -/
def announceFreed (b : Bulletin) : List String → Bulletin
  | [] => b
  | ids => { b with freed := b.freed.send ids }

def announceRequest (b : Bulletin) (r : Request) : Bulletin :=
  { b with requested := b.requested.send r }

/-- Closes both channels. -/
def close (b : Bulletin) : Bulletin := ⟨b.freed.close, b.requested.close⟩

end Bulletin

end LeasedLocks
