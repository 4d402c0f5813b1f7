/-!
# Tasks on one clock

A system of tasks that take turns. A task runs until it is blocked, then the
next one that can run does; the clock stands still while any task can run, and
otherwise moves to the next moment at which one of them has to wake up.
-/

namespace LeasedLocks

/-- A system of tasks. -/
structure TaskSystem (σ ι : Type) where
  /-- All tasks, in the order in which they take their turns. -/
  tasks : σ → List ι
  /-- The next step of a task; nothing while it is blocked. -/
  step : ι → σ → Option σ
  /-- The present, in milliseconds. -/
  now : σ → Nat
  setNow : Nat → σ → σ
  /-- The moments at which blocked tasks have to wake up. -/
  alarms : σ → List Nat

namespace TaskSystem

variable {σ ι : Type} (m : TaskSystem σ ι)

/-- No task can run. -/
def Quiescent (s : σ) : Prop := ∀ i, m.step i s = none

/-- The tasks that can run. -/
def ready (s : σ) : List ι := (m.tasks s).filter fun i => (m.step i s).isSome

/-- Lets a task run until it is blocked, for at most `fuel` steps. -/
def turn (i : ι) : Nat → σ → σ
  | 0, s => s
  | fuel + 1, s =>
    match m.step i s with
    | none => s
    | some s => turn i fuel s

/-- How many steps a turn may have, and how many turns there may be at one
moment. No run of interest comes near. -/
def patience : Nat := 1000000

variable [DecidableEq ι]

/-- Lets the tasks of a queue take their turns. Tasks that can run after a turn
and are not in the queue are put at its end. -/
def rounds : Nat → List ι → σ → σ
  | 0, _, s => s
  | _ + 1, [], s => s
  | fuel + 1, i :: queue, s =>
    let s := m.turn i patience s
    rounds fuel (queue ++ (m.ready s).filter (!queue.contains ·)) s

/-- Lets all tasks run until every one is blocked. -/
def settle (s : σ) : σ := m.rounds patience (m.ready s) s

/-- The next moment after the present, up to `limit`, at which a task wakes up. -/
def nextAlarm? (limit : Nat) (s : σ) : Option Nat :=
  ((m.alarms s).filter fun t => m.now s < t ∧ t ≤ limit).min?

/-- Moves the clock to the moment `limit`, stopping wherever tasks wake up, and
before that if `isOver` holds. -/
def advance (isOver : σ → Bool) (limit : Nat) : Nat → σ → σ
  | 0, s => s
  | fuel + 1, s =>
    if isOver s then s
    else
      match m.nextAlarm? limit s with
      | some t => advance isOver limit fuel (m.settle (m.setNow t s))
      | none => if m.now s < limit then m.settle (m.setNow limit s) else s

/-- Lets time pass until the moment `limit`. -/
def waitUntil (limit : Nat) (s : σ) : σ := m.advance (fun _ => false) limit patience s

/-- Lets time pass until `isOver` holds, but not beyond the moment `limit`. -/
def waitWhile (isOver : σ → Bool) (limit : Nat) (s : σ) : σ :=
  m.advance isOver limit patience s

end TaskSystem

end LeasedLocks
