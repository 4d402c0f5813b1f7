/-!
# Broadcast channels

A channel keeps what was sent, and every reader has a place of its own in it.
Only the last few messages can still be read, as many as the capacity says: a
reader that fell behind is told how many messages it missed and goes on with
the oldest one kept.
-/

namespace LeasedLocks

/-- The messages sent so far and the number of them that readers may still get. -/
structure Channel (α : Type) where
  capacity : Nat
  capacity_pos : 0 < capacity := by decide
  log : Array α := #[]
  /-- Nothing more will be sent. -/
  isClosed : Bool := false

/-- What a reader finds at its place. -/
inductive Reading (α : Type) where
  | item (message : α)
  /-- So many messages can no longer be had. -/
  | lagged (missed : Nat)
  /-- Nothing new yet. -/
  | pending
  /-- Nothing new, ever. -/
  | closed
  deriving DecidableEq, Repr

/-- The end of a stream as somebody who opens it finds it. -/
structure StreamEnd where
  /-- The place of the next notice. -/
  place : Nat
  /-- No notice will come any more. -/
  isClosed : Bool
  deriving DecidableEq, Repr

namespace Channel

variable {α : Type}

/-- A new channel; the capacity is at least one and rounded up to a power of two. -/
def ofCapacity (n : Nat) : Channel α where
  capacity := (max n 1).nextPowerOfTwo
  capacity_pos := Nat.pos_of_isPowerOfTwo (Nat.isPowerOfTwo_nextPowerOfTwo _)

/-- How many messages were sent. A reader that joins now starts here. -/
def sent (c : Channel α) : Nat := c.log.size

/-- The place of the oldest message that is still kept. -/
def oldest (c : Channel α) : Nat := c.sent - c.capacity

def send (c : Channel α) (message : α) : Channel α :=
  { c with log := c.log.push message }

@[simp] theorem sent_send (c : Channel α) (message : α) :
    (c.send message).sent = c.sent + 1 := by
  simp [sent, send]

def close (c : Channel α) : Channel α := { c with isClosed := true }

/-- A new stream goes on where the one that has ended was left. -/
def reopen (c : Channel α) : Channel α := { c with isClosed := false }

/-- What a reader at `place` finds, and its place afterwards. -/
def read (c : Channel α) (place : Nat) : Reading α × Nat :=
  if place < c.oldest then (.lagged (c.oldest - place), c.oldest)
  else
    match c.log[place]? with
    | some message => (.item message, place + 1)
    | none => (if c.isClosed then .closed else .pending, place)

/-- The four kinds of readings, and when each is found. -/
theorem read_cases (c : Channel α) (place : Nat) :
    (place < c.oldest ∧ c.read place = (.lagged (c.oldest - place), c.oldest)) ∨
    (∃ message, c.oldest ≤ place ∧ c.log[place]? = some message ∧
      c.read place = (.item message, place + 1)) ∨
    (c.oldest ≤ place ∧ c.log[place]? = none ∧ c.isClosed ∧
      c.read place = (.closed, place)) ∨
    (c.oldest ≤ place ∧ c.log[place]? = none ∧ c.isClosed = false ∧
      c.read place = (.pending, place)) := by
  unfold read
  split
  · next hlt => exact .inl ⟨hlt, rfl⟩
  · next hge =>
      have hle := Nat.le_of_not_lt hge
      right
      split
      · next message hm => exact .inl ⟨message, hle, hm, rfl⟩
      · next hm =>
          right
          cases hc : c.isClosed with
          | true => exact .inl ⟨hle, hm, rfl, rfl⟩
          | false => exact .inr ⟨hle, hm, rfl, rfl⟩

/-- A reader that is up to date misses nothing of what is sent next. -/
theorem read_send_sent (c : Channel α) (message : α) :
    (c.send message).read c.sent = (.item message, c.sent + 1) := by
  have hpos := c.capacity_pos
  have hold : ¬ c.sent < (c.send message).oldest := by
    simp only [oldest, sent_send]
    change ¬ c.sent < c.sent + 1 - c.capacity
    omega
  rw [read, if_neg hold]
  simp [send, sent]

/-- Where somebody who joins now begins. -/
def streamEnd (c : Channel α) : StreamEnd := ⟨c.sent, c.isClosed⟩

/-- Everything that a reader at `place` can get now, the end of a closed
channel included. -/
def drain (c : Channel α) (place : Nat) : List (Reading α) :=
  (if place < c.oldest then [.lagged (c.oldest - place)] else []) ++
    (c.log.toList.drop (max place c.oldest)).map .item ++
    (if c.isClosed then [.closed] else [])

end Channel

end LeasedLocks
