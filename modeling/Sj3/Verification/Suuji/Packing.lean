import Mathlib.Data.Nat.Digits.Defs
import Sj3.General.Nibble
import Sj3.Model.Suuji

/-! # Digits in words

The loop goes from the last digit to the first. What it has packed is a list of digits, lowest
place first; a digit is put behind as many zeros as its marks ask for. -/

namespace Sj3

open Nibble

/-- The nibble of a place. -/
def nibbleAt (wbuf : List UInt16) (p : ℕ) : ℕ := nibble (wbuf.getD (p / 4) 0).toNat (p % 4)

/-- The nibble of a digit of a list, or zero when there is no such digit. -/
def digitNibble (ds : List ℕ) (p : ℕ) : ℕ := (ds[p]?).elim 0 (· + 1)

/-- A word buffer holds digits, lowest place first. -/
def Packs (wbuf : List UInt16) (ds : List ℕ) : Prop :=
  wbuf.length = numwordbuf ∧ ∀ p, nibbleAt wbuf p = digitNibble ds p

theorem digitNibble_of_length_le {ds : List ℕ} {p : ℕ} (h : ds.length ≤ p) :
    digitNibble ds p = 0 := by
  rw [digitNibble, List.getElem?_eq_none h, Option.elim_none]

theorem digitNibble_of_lt {ds : List ℕ} {p : ℕ} (h : p < ds.length) :
    digitNibble ds p = ds[p] + 1 := by
  rw [digitNibble, List.getElem?_eq_getElem h, Option.elim_some]

/-- A digit at the end of a list. -/
theorem digitNibble_concat (ds : List ℕ) (d p : ℕ) :
    digitNibble (ds ++ [d]) p = if p = ds.length then d + 1 else digitNibble ds p := by
  by_cases hp : p = ds.length
  · rw [if_pos hp, digitNibble, hp, List.getElem?_concat_length, Option.elim_some]
  · rw [if_neg hp, digitNibble, digitNibble]
    rcases Nat.lt_or_gt_of_ne hp with hlt | hgt
    · rw [List.getElem?_append_left hlt]
    · rw [List.getElem?_append_right (by omega), List.getElem?_eq_none (by simp; omega),
        List.getElem?_eq_none (by omega)]

namespace NumState

/-! ## One nibble -/

/-- The digits up to a place are packed. -/
structure Holds (s : NumState) (ds : List ℕ) : Prop where
  packs : Packs s.wbuf ds
  lketa : s.lketa < 4
  place : 4 * s.hketa + s.lketa = ds.length

variable {s s' : NumState} {ds : List ℕ}

theorem nibbleAt_put {x : ℕ} (hx : x < 16) (hlow : s.lketa < 4) (hhigh : s.hketa < s.wbuf.length)
    (p : ℕ) :
    nibbleAt (s.put x).wbuf p =
      nibbleAt s.wbuf p ||| if p = 4 * s.hketa + s.lketa then x else 0 := by
  have hshift : (UInt16.ofNat (x <<< (s.lketa * 4))).toNat = x <<< (s.lketa * 4) := by
    have hpow : 2 ^ (s.lketa * 4) ≤ 2 ^ 12 := Nat.pow_le_pow_right (by decide) (by omega)
    rw [UInt16.toNat_ofNat', Nat.mod_eq_of_lt]
    rw [Nat.shiftLeft_eq]
    calc x * 2 ^ (s.lketa * 4) ≤ 15 * 2 ^ 12 := Nat.mul_le_mul (by omega) hpow
      _ < 2 ^ 16 := by decide
  simp only [nibbleAt, put, List.getD_eq_getElem?_getD, List.getElem?_modify]
  by_cases hword : s.hketa = p / 4
  · have hlt : p / 4 < s.wbuf.length := hword ▸ hhigh
    rw [List.getElem?_eq_getElem hlt]
    simp only [if_pos hword, Option.map_eq_map, Option.map_some, Option.getD_some, UInt16.toNat_or,
      nibble_or, hshift, nibble_shiftLeft hx]
    congr 1
    exact if_congr (by omega) rfl rfl
  · have hne : p ≠ 4 * s.hketa + s.lketa := by omega
    simp [hword, if_neg hne]

theorem Holds.hketa_lt (h : s.Holds ds) (hlt : ds.length < numketalength) :
    s.hketa < s.wbuf.length := by
  have := h.place
  have hlen : s.wbuf.length = 4 := h.packs.1
  simp only [numketalength] at hlt
  omega

/-- A digit is put at the first free place. -/
theorem Holds.put (h : s.Holds ds) (hlt : ds.length < numketalength) {d : ℕ} (hd : d + 1 < 16) :
    Packs (s.put (d + 1)).wbuf (ds ++ [d]) := by
  refine ⟨?_, ?_⟩
  · rw [← h.packs.1, NumState.put, List.length_modify]
  · intro p
    rw [nibbleAt_put hd h.lketa (h.hketa_lt hlt), h.place, h.packs.2, digitNibble_concat]
    by_cases hp : p = ds.length
    · rw [if_pos hp, if_pos hp, digitNibble_of_length_le hp.ge, Nat.zero_or]
    · rw [if_neg hp, if_neg hp, Nat.or_zero]

/-- To the next place. -/
theorem Holds.next {d : ℕ} (hpacks : Packs s.wbuf (ds ++ [d])) (hlow : s.lketa < 4)
    (hplace : 4 * s.hketa + s.lketa = ds.length) : s.next.Holds (ds ++ [d]) := by
  refine ⟨?_, ?_, ?_⟩
  · rw [NumState.next]
    split <;> exact hpacks
  · rw [lketa_next]
    split <;> omega
  · rw [hketa_next, lketa_next, List.length_append, List.length_singleton]
    split <;> omega

/-! ## Gaps -/

theorem Holds.fillSmall {k : ℕ} (h : s.Holds ds) (hk : k < 4) (hlow : s.lketa < k)
    (hhigh : s.hketa < 4) :
    (s.fillSmall k).Holds (ds ++ List.replicate (k - s.lketa) 0) ∧
      (s.fillSmall k).hketa = s.hketa := by
  fun_induction NumState.fillSmall k s generalizing ds with
  | case1 s s' hmore =>
      rename_i ih
      have hplace := h.place
      have hput : s'.Holds (ds ++ [0]) :=
        ⟨h.put (by simp only [numketalength]; omega) (by decide), by simp only [s']; omega, by
          rw [List.length_append, ← hplace]
          rfl⟩
      have hnext := ih hput hmore hhigh
      have hcount : k - s.lketa = (k - s'.lketa) + 1 := by
        simp only [s'] at hmore ⊢
        omega
      rw [hcount, List.replicate_succ, ← List.singleton_append, ← List.append_assoc]
      exact hnext
  | case2 s s' =>
      rename_i hstop
      have hplace := h.place
      have hcount : k - s.lketa = 1 := by
        simp only [s'] at hstop
        omega
      rw [hcount]
      exact ⟨⟨h.put (by simp only [numketalength]; omega) (by decide), by simp only [s']; omega, by
        rw [List.length_append, ← hplace]
        rfl⟩, rfl⟩

theorem Holds.fillLarge {j : ℕ} (h : s.Holds ds) (hj : j < 4) (hlt : s.hketa < j) :
    (s.fillLarge j).Holds (ds ++ List.replicate (4 * j - ds.length) 0) ∧
      (s.fillLarge j).hketa = j := by
  fun_induction NumState.fillLarge j s generalizing ds with
  | case1 s s' hmore =>
      rename_i ih
      have hplace := h.place
      have hlow := h.lketa
      have hput : s'.Holds (ds ++ [0]) :=
        .next (h.put (by simp only [numketalength]; omega) (by decide)) hlow hplace
      have hcount : 4 * j - ds.length = (4 * j - (ds ++ [0]).length) + 1 := by
        rw [List.length_append, List.length_singleton]
        omega
      rw [hcount, List.replicate_succ, ← List.singleton_append, ← List.append_assoc]
      exact ih hput hmore
  | case2 s s' =>
      rename_i hstop
      have hplace := h.place
      have hlow := h.lketa
      have hput : s'.Holds (ds ++ [0]) :=
        .next (h.put (by simp only [numketalength]; omega) (by decide)) hlow hplace
      have hhigh : s'.hketa = if s.lketa + 1 ≥ 4 then s.hketa + 1 else s.hketa := hketa_next _
      have hwrap : s.lketa + 1 ≥ 4 := by
        by_contra hno
        rw [if_neg hno] at hhigh
        omega
      rw [if_pos hwrap] at hhigh
      have hcount : 4 * j - ds.length = 1 := by omega
      rw [hcount]
      exact ⟨hput, by omega⟩

theorem Holds.congr (h : s.Holds ds) (hwbuf : s'.wbuf = s.wbuf) (hhigh : s'.hketa = s.hketa)
    (hlow : s'.lketa = s.lketa) : s'.Holds ds :=
  ⟨hwbuf ▸ h.packs, hlow ▸ h.lketa, by rw [hhigh, hlow]; exact h.place⟩

/-- Up to the group of a large mark there are zeros. -/
theorem Holds.large (h : s.Holds ds) {j : ℕ} (hj : j < 4) (hs' : s.large j = some s') :
    if j = 0 then s' = s
    else s'.hketa = j ∧ ds.length < 4 * j + 4 ∧
      s'.Holds (ds ++ List.replicate (4 * j - ds.length) 0) := by
  rw [NumState.large] at hs'
  have hplace := h.place
  have hlow := h.lketa
  by_cases hzero : j = 0
  · rw [if_pos hzero] at hs' ⊢
    exact (Option.some_inj.mp hs').symm
  · rw [if_neg hzero] at hs' ⊢
    by_cases hbelow : j < s.hketa
    · rw [if_pos hbelow] at hs'
      exact absurd hs' nofun
    · rw [if_neg hbelow] at hs'
      refine ⟨?_, by omega, ?_⟩
      · split at hs' <;> cases hs'
        · have : Holds { s with flag := s.flag ||| jflagN01 } ds := h.congr rfl rfl rfl
          exact (this.fillLarge hj ‹_›).2
        · omega
      · split at hs' <;> cases hs'
        · have : Holds { s with flag := s.flag ||| jflagN01 } ds := h.congr rfl rfl rfl
          exact (this.fillLarge hj ‹_›).1
        · have hcount : 4 * j - ds.length = 0 := by omega
          rw [hcount, List.replicate_zero, List.append_nil]
          exact h

/-- Up to the place of a small mark there are zeros. -/
theorem Holds.small (h : s.Holds ds) {j k : ℕ} (hk : k < 4) (hhigh : s.hketa < 4)
    (hs' : s.small j k = some s') :
    let q := if j ≠ 0 ∨ k ≠ 0 then 4 * s.hketa + k else ds.length
    ds.length ≤ q ∧ s'.hketa = s.hketa ∧
      s'.Holds (ds ++ List.replicate (q - ds.length) 0) := by
  rw [NumState.small] at hs'
  have hplace := h.place
  by_cases hmark : j ≠ 0 ∨ k ≠ 0
  · simp only [if_pos hmark] at hs' ⊢
    by_cases hbelow : k < s.lketa
    · rw [if_pos hbelow] at hs'
      exact absurd hs' nofun
    · rw [if_neg hbelow, Option.some_inj] at hs'
      have hcount : 4 * s.hketa + k - ds.length = k - s.lketa := by omega
      rw [hcount]
      subst hs'
      refine ⟨by omega, ?_⟩
      by_cases habove : k > s.lketa
      · have hflag : Holds { s with flag := s.flag ||| jflagN01 } ds := h.congr rfl rfl rfl
        obtain ⟨hfill, hsame⟩ := hflag.fillSmall hk habove hhigh
        simp only [if_pos habove]
        exact ⟨hsame, hfill.congr rfl rfl rfl⟩
      · have hnone : k - s.lketa = 0 := by omega
        rw [hnone, List.replicate_zero, List.append_nil]
        simp only [if_neg habove]
        exact ⟨trivial, h.congr rfl rfl rfl⟩
  · rw [if_neg hmark] at hs'
    cases hs'
    simp only [if_neg hmark, Nat.sub_self, List.replicate_zero, List.append_nil]
    exact ⟨le_rfl, trivial, h⟩

end NumState

end Sj3
