import LeasedLocks.Validity

/-!
# Screening messages

Before the items of a message are acted on they are looked at in order. The
first one that is not valid is named by its place.
-/

namespace LeasedLocks

/-- The place of the first item to which there is an objection, counted from
`place`, and the objection. -/
def firstObjection {α : Type} (objection? : α → Option String) (place : Nat) :
    List α → Option (Nat × String)
  | [] => none
  | x :: xs =>
    match objection? x with
    | some why => some (place, why)
    | none => firstObjection objection? (place + 1) xs

theorem firstObjection_eq_none_iff {α : Type} {objection? : α → Option String}
    {place : Nat} {xs : List α} :
    firstObjection objection? place xs = none ↔ ∀ x ∈ xs, objection? x = none := by
  induction xs generalizing place with
  | nil => simp [firstObjection]
  | cons x xs ih => cases h : objection? x <;> simp [firstObjection, h, ih]

/-- The text of an objection to an item of the list of requests. -/
def objectionText : Nat × String → String
  | (place, why) => "requests[" ++ toString place ++ "]: " ++ why

/-- Why a message that asks for locks is not looked at, if it is not. -/
def requestsObjection (rs : List Request) : Option String :=
  (firstObjection (fun r : Request =>
    match r.validate with
    | .ok () => none
    | .error e => some e.message) 0 rs).map objectionText

/-- Why a message that gives locks back is not looked at, if it is not. -/
def releasesObjection (rs : List Release) : Option String :=
  (firstObjection (fun r : Release =>
    if isBlank r.objectId then some "object_id is required" else none) 0 rs).map objectionText

end LeasedLocks
