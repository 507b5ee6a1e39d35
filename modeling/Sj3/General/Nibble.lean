import Mathlib.Algebra.Order.Ring.Nat
import Mathlib.Data.Nat.Bitwise
import Mathlib.Tactic.Common
import Mathlib.Tactic.Ring

/-! # Nibbles

A number is read four bits at a time. -/

namespace Nibble

/-- The nibble number `k`, from the lowest one on. -/
def nibble (w k : ℕ) : ℕ := w / 16 ^ k % 16

theorem sixteen_pow (k : ℕ) : 16 ^ k = 2 ^ (4 * k) := by
  rw [Nat.pow_mul]

theorem sixteen_pow_pos (k : ℕ) : 0 < 16 ^ k := Nat.pow_pos (by decide)

theorem zero_nibble (k : ℕ) : nibble 0 k = 0 := by
  rw [nibble, Nat.zero_div]

theorem nibble_or (a b k : ℕ) : nibble (a ||| b) k = nibble a k ||| nibble b k := by
  rw [nibble, nibble, nibble, sixteen_pow, Nat.or_div_two_pow]
  exact Nat.or_mod_two_pow (n := 4)

/-- A nibble that is put in place `l`. -/
theorem nibble_shiftLeft {x : ℕ} (hx : x < 16) (k l : ℕ) :
    nibble (x <<< (l * 4)) k = if k = l then x else 0 := by
  rw [nibble, Nat.shiftLeft_eq, Nat.mul_comm l 4, ← sixteen_pow]
  rcases Nat.lt_trichotomy k l with hkl | rfl | hkl
  · obtain ⟨d, rfl⟩ := Nat.exists_eq_add_of_lt hkl
    have hsplit : x * 16 ^ (k + d + 1) = 16 ^ k * (16 * (x * 16 ^ d)) := by ring
    rw [if_neg (by omega), hsplit, Nat.mul_div_cancel_left _ (sixteen_pow_pos k),
      Nat.mul_mod_right]
  · rw [if_pos rfl, Nat.mul_div_cancel _ (sixteen_pow_pos k), Nat.mod_eq_of_lt hx]
  · obtain ⟨d, rfl⟩ := Nat.exists_eq_add_of_lt hkl
    have hsplit : 16 ^ (l + d + 1) = 16 ^ l * (16 * 16 ^ d) := by ring
    have hlt : x < 16 * 16 ^ d := lt_of_lt_of_le hx 
      (Nat.le_mul_of_pos_right 16 (sixteen_pow_pos d))
    rw [if_neg (by omega), hsplit, Nat.mul_comm x,
      Nat.mul_div_mul_left _ _ (sixteen_pow_pos l), Nat.div_eq_of_lt hlt]

/-- The highest nibble of a number of `k + 1` nibbles. -/
theorem div_eq_nibble {w k : ℕ} (hw : w < 16 ^ (k + 1)) : w / 16 ^ k = nibble w k := by
  rw [nibble, Nat.mod_eq_of_lt]
  rw [Nat.div_lt_iff_lt_mul (sixteen_pow_pos k)]
  rwa [Nat.pow_succ, Nat.mul_comm] at hw

theorem and_mask (w k : ℕ) : w &&& (16 ^ k - 1) = w % 16 ^ k := by
  rw [sixteen_pow, Nat.and_two_pow_sub_one_eq_mod]

/-- Without the higher nibbles the lower ones are the same. -/
theorem nibble_mod {k l : ℕ} (h : k < l) (w : ℕ) : nibble (w % 16 ^ l) k = nibble w k := by
  obtain ⟨d, rfl⟩ := Nat.exists_eq_add_of_lt h
  have hsplit : 16 ^ (k + d + 1) = 16 ^ k * (16 * 16 ^ d) := by ring
  rw [nibble, nibble, hsplit, Nat.mod_mul_right_div_self, Nat.mod_mul_right_mod]

end Nibble
