import Mathlib.Algebra.Order.Ring.Int
import Mathlib.Tactic.Ring

/-! # Numbers as bytes, the highest one first -/

namespace BigEndian

/-- The lowest eight bits. -/
def low (c : ℤ) : UInt8 := UInt8.ofNat (c % 0x100).toNat

/-- The lowest `k` bytes. -/
def bytes (c : ℤ) : ℕ → List UInt8
  | 0 => []
  | k + 1 => low (c / 0x100 ^ k) :: bytes c k

def value (bs : List UInt8) : ℕ := bs.foldl (fun n b => n * 0x100 + b.toNat) 0

@[simp] theorem toNat_low (c : ℤ) : ((low c).toNat : ℤ) = c % 0x100 := by
  have hnonneg : 0 ≤ c % 0x100 := Int.emod_nonneg c (by decide)
  have hlt : c % 0x100 < 0x100 := Int.emod_lt_of_pos c (by decide)
  rw [low, UInt8.toNat_ofNat', Nat.mod_eq_of_lt (by omega), Int.toNat_of_nonneg hnonneg]

@[simp] theorem length_bytes (c : ℤ) (k : ℕ) : (bytes c k).length = k := by
  induction k with
  | zero => rfl
  | succ k ih => rw [bytes, List.length_cons, ih]

/-- A number in base 256 is its lowest digits and the rest. -/
theorem emod_succ (c : ℤ) (k : ℕ) :
    c % 0x100 ^ (k + 1) = c / 0x100 ^ k % 0x100 * 0x100 ^ k + c % 0x100 ^ k := by
  have hpos : (0 : ℤ) < 0x100 ^ k := pow_pos (by decide) k
  rw [pow_succ, Int.emod_def c (0x100 ^ k * 0x100), ← Int.ediv_ediv_of_nonneg hpos.le,
    Int.emod_def (c / 0x100 ^ k), Int.emod_def c (0x100 ^ k)]
  ring

theorem foldl_bytes (c : ℤ) (k acc : ℕ) :
    (((bytes c k).foldl (fun n b => n * 0x100 + b.toNat) acc : ℕ) : ℤ) =
      acc * 0x100 ^ k + c % 0x100 ^ k := by
  induction k generalizing acc with
  | zero => simp [bytes]
  | succ k ih =>
      rw [bytes, List.foldl_cons, ih, emod_succ]
      push_cast
      rw [toNat_low, pow_succ]
      ring

/-- What the lowest bytes of a number say. -/
theorem value_bytes (c : ℤ) (k : ℕ) : (value (bytes c k) : ℤ) = c % 0x100 ^ k := by
  have hfold := foldl_bytes c k 0
  rwa [Nat.cast_zero, zero_mul, zero_add] at hfold

end BigEndian
