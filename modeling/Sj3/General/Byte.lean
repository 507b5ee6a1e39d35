import Mathlib.Data.UInt
import Mathlib.Order.Defs.LinearOrder

/-! # Bytes

Bytes in order, and facts about all of them. -/

/-- Bytes are ordered as the numbers they are. -/
instance Byte.instLinearOrder : LinearOrder UInt8 where
  le_refl a := UInt8.le_refl a
  le_trans a b c := UInt8.le_trans
  le_antisymm a b := UInt8.le_antisymm
  le_total a b := UInt8.le_total a b
  lt_iff_le_not_ge a b := by
    simp only [UInt8.le_iff_toNat_le, UInt8.lt_iff_toNat_lt]
    omega
  toDecidableLE := inferInstance
  toDecidableEq := instDecidableEqUInt8
  toDecidableLT := inferInstance

/-- So are characters of two bytes. -/
instance Byte.instLinearOrderChar : LinearOrder UInt16 where
  le_refl a := UInt16.le_refl a
  le_trans a b c := UInt16.le_trans
  le_antisymm a b := UInt16.le_antisymm
  le_total a b := UInt16.le_total a b
  lt_iff_le_not_ge a b := by
    simp only [UInt16.le_iff_toNat_le, UInt16.lt_iff_toNat_lt]
    omega
  toDecidableLE := inferInstance
  toDecidableEq := instDecidableEqUInt16
  toDecidableLT := inferInstance

namespace Byte

/-- A property of the 256 values holds of every byte. -/
theorem forall_of_fin {p : UInt8 → Prop} (h : ∀ i : Fin 256, p (UInt8.ofNat i)) (b : UInt8) :
    p b := by
  simpa using h ⟨b.toNat, b.toNat_lt⟩

end Byte
