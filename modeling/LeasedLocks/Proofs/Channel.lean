import LeasedLocks.Channel

/-!
# What a channel holds for a reader

A reader has everything from its place on still to read. Messages that are sent go to the end
of that, one that is read is the first of it, and whoever finds nothing new has read it all.
-/

namespace LeasedLocks.Channel

variable {α : Type} {c : Channel α} {place place' : Nat} {message : α}

/-- A message that is read is the first of those to be read, and the place moves on by one. -/
theorem drop_of_read (h : c.read place = (.item message, place')) :
    place' = place + 1 ∧ place' ≤ c.sent ∧
      c.log.toList.drop place = message :: c.log.toList.drop place' := by
  rcases c.read_cases place with ⟨-, hr⟩ | ⟨m, -, hm, hr⟩ | ⟨-, -, -, hr⟩ | ⟨-, -, -, hr⟩
  · rw [hr] at h
    cases h
  · rw [hr] at h
    cases h
    obtain ⟨hlt, rfl⟩ := Array.getElem?_eq_some_iff.mp hm
    refine ⟨rfl, hlt, ?_⟩
    rw [List.drop_eq_getElem_cons (by simpa using hlt), Array.getElem_toList]
  · rw [hr] at h
    cases h
  · rw [hr] at h
    cases h

/-- Behind the last message there is nothing to read. -/
theorem drop_of_none (h : c.log[place]? = none) : c.log.toList.drop place = [] := by
  rw [List.drop_eq_nil_iff, Array.length_toList]
  exact Array.getElem?_eq_none_iff.mp h

/-- Whoever finds nothing new has read everything. -/
theorem drop_of_pending (h : (c.read place).1 = .pending) : c.log.toList.drop place = [] := by
  rcases c.read_cases place with ⟨-, hr⟩ | ⟨m, -, -, hr⟩ | ⟨-, -, -, hr⟩ | ⟨-, hm, -, -⟩
  · rw [hr] at h
    cases h
  · rw [hr] at h
    cases h
  · rw [hr] at h
    cases h
  · exact drop_of_none hm

/-- Messages are sent one behind the other. -/
theorem log_foldl_send (ms : List α) (c : Channel α) :
    (ms.foldl send c).log = c.log ++ ms.toArray := by
  induction ms generalizing c with
  | nil => simp
  | cons m ms ih =>
      rw [List.foldl_cons, ih]
      simp [send]

theorem isClosed_foldl_send (ms : List α) (c : Channel α) :
    (ms.foldl send c).isClosed = c.isClosed := by
  induction ms generalizing c with
  | nil => rfl
  | cons m ms ih => exact ih (c.send m)

theorem sent_le_foldl_send (ms : List α) (c : Channel α) : c.sent ≤ (ms.foldl send c).sent := by
  simp only [sent, log_foldl_send, Array.size_append]
  exact Nat.le_add_right _ _

end LeasedLocks.Channel
