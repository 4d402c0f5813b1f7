/-!
# Decimal digits

The number that a list of decimal digits stands for. Reading the digits of a
number gives the number back (`digitsValue_toDigits`).
-/

namespace LeasedLocks

/-- The number that a list of decimal digits stands for. -/
def digitsValue (ds : List Char) : Nat :=
  ds.foldl (fun n c => n * 10 + (c.toNat - 48)) 0

/-- One more digit multiplies by ten. -/
theorem digitsValue_concat (ds : List Char) (c : Char) :
    digitsValue (ds ++ [c]) = digitsValue ds * 10 + (c.toNat - 48) := by
  simp [digitsValue]

theorem digitsValue_digitChar {n : Nat} (h : n < 10) :
    digitsValue [Nat.digitChar n] = n := by
  rw [← List.nil_append [Nat.digitChar n], digitsValue_concat,
    Nat.toNat_digitChar_of_lt_ten h]
  simp [digitsValue]

/-- The digits of a number stand for it. -/
theorem digitsValue_toDigits (n : Nat) : digitsValue (Nat.toDigits 10 n) = n := by
  induction n using Nat.strongRecOn with
  | ind n ih =>
    by_cases h : n < 10
    · rw [Nat.toDigits_of_lt_base h]
      exact digitsValue_digitChar h
    · have hlast : n % 10 < 10 := Nat.mod_lt n (by decide)
      have hhead : 0 < n / 10 := Nat.div_pos (Nat.le_of_not_lt h) (by decide)
      have hsplit := Nat.toDigits_append_toDigits (b := 10) (n := n / 10)
        (d := n % 10) (by decide) hhead hlast
      rw [Nat.div_add_mod, Nat.toDigits_of_lt_base hlast] at hsplit
      rw [← hsplit, digitsValue_concat, ih (n / 10) (by omega),
        Nat.toNat_digitChar_of_lt_ten hlast]
      omega

/-- The number written by these characters, if they are decimal digits. -/
def decimal? (digits : List Char) : Option Nat :=
  if digits.isEmpty || !digits.all Char.isDigit then none else some (digitsValue digits)

theorem decimal?_toDigits (n : Nat) : decimal? (Nat.toDigits 10 n) = some n := by
  have hall : (Nat.toDigits 10 n).all Char.isDigit = true :=
    List.all_eq_true.mpr fun _ h =>
      Nat.isDigit_of_mem_toDigits (by decide) (by decide) h
  have hne : Nat.toDigits 10 n ≠ [] := by
    intro h
    have := Nat.length_toDigits_pos (b := 10) (n := n)
    simp [h] at this
  simp [decimal?, hall, hne, digitsValue_toDigits]

end LeasedLocks
