import Mathlib.Data.Nat.Bitwise
import Sj3.Model.Wc16
import Sj3.Verification.Kanji.Euc

/-! # Characters of EUC in 16 bits

The classes of characters are told apart by the high byte and the top bit of the low one. The
limit of bytes is tested after every byte, so that a character may be cut. -/

namespace Sj3

/-! ## Bits of a number -/

theorem and_top_bit (a : ℕ) {b : ℕ} (hb : b < 256) : (a * 256 + b) &&& 0x80 ≠ 0 ↔ 128 ≤ b := by
  have hbit : (a * 256 + b) &&& 2 ^ 7 = ((a * 256 + b).testBit 7).toNat * 2 ^ 7 :=
    Nat.and_two_pow _ 7
  rw [show (0x80 : ℕ) = 2 ^ 7 from rfl, hbit, Nat.testBit_eq_decide_div_mod_eq]
  have hdiv : (a * 256 + b) / 2 ^ 7 % 2 = b / 128 := by omega
  rw [hdiv]
  by_cases h : 128 ≤ b
  · have : b / 128 = 1 := by omega
    simp [this, h]
  · have : b / 128 = 0 := by omega
    simp [this]
    omega

/-- The top bit of the low byte is cleared. -/
theorem and_ff7f (a b c : ℕ) (hb : b < 256) (hc : c < 256) :
    (a * 65536 + b * 256 + c) &&& 0xff7f = b * 256 + c % 128 := by
  have hlow : ((a * 65536 + b * 256 + c) &&& 0xff7f) % 2 ^ 8 = c % 128 := by
    have hmod : (a * 65536 + b * 256 + c) % 2 ^ 8 = c := by omega
    rw [Nat.and_mod_two_pow, hmod, show (0xff7f : ℕ) % 2 ^ 8 = 2 ^ 7 - 1 from rfl,
      Nat.and_two_pow_sub_one_eq_mod]
  have hhigh : ((a * 65536 + b * 256 + c) &&& 0xff7f) / 2 ^ 8 = b := by
    have hdiv : (a * 65536 + b * 256 + c) / 2 ^ 8 = a * 256 + b := by omega
    rw [Nat.and_div_two_pow, hdiv, show (0xff7f : ℕ) / 2 ^ 8 = 2 ^ 8 - 1 from rfl,
      Nat.and_two_pow_sub_one_eq_mod]
    omega
  have := Nat.div_add_mod ((a * 65536 + b * 256 + c) &&& 0xff7f) (2 ^ 8)
  omega

theorem and_ff (a : ℕ) : a &&& 0xff = a % 256 := Nat.and_two_pow_sub_one_eq_mod a 8

/-! ## One character -/

namespace EucChar

/-- The wide code of a character. -/
def wide : EucChar → UInt16
  | ascii c _ => UInt16.ofNat c.toNat
  | hankaku c _ => UInt16.ofNat c.toNat
  | jisx0208 c₁ c₂ _ _ => UInt16.ofNat (c₁.toNat * 256 + c₂.toNat)
  | jisx0212 c₁ c₂ _ _ => UInt16.ofNat (c₁.toNat * 256 + c₂.toNat % 128)

/-- Its bytes in one number. -/
def packed : EucChar → ℕ
  | ascii c _ => c.toNat
  | hankaku c _ => 0x8e * 256 + c.toNat
  | jisx0208 c₁ c₂ _ _ => c₁.toNat * 256 + c₂.toNat
  | jisx0212 c₁ c₂ _ _ => 0x8f * 65536 + c₁.toNat * 256 + c₂.toNat

end EucChar

theorem byte_range {c : UInt8} (h : 0xa1 ≤ c ∧ c ≤ 0xfe) : 0xa1 ≤ c.toNat ∧ c.toNat ≤ 0xfe :=
  ⟨UInt8.le_iff_toNat_le.mp h.1, UInt8.le_iff_toNat_le.mp h.2⟩

theorem kana_range {c : UInt8} (h : 0xa1 ≤ c ∧ c ≤ 0xdf) : 0xa1 ≤ c.toNat ∧ c.toNat ≤ 0xdf :=
  ⟨UInt8.le_iff_toNat_le.mp h.1, UInt8.le_iff_toNat_le.mp h.2⟩

theorem ascii_lt {c : UInt8} (h : c ≠ 0 ∧ c < 0x80) : 0 < c.toNat ∧ c.toNat < 0x80 :=
  ⟨Nat.pos_of_ne_zero fun hzero => h.1 (UInt8.toNat_inj.mp hzero), UInt8.lt_iff_toNat_lt.mp h.2⟩

theorem euc2wc16_packed (ch : EucChar) : euc2wc16 ch.packed = ch.wide := by
  have hss2 : ss2.toNat = 0x8e := rfl
  have hss3 : ss3.toNat = 0x8f := rfl
  cases ch with
  | ascii c h =>
      have := ascii_lt h
      simp only [euc2wc16, EucChar.packed, and_ff, Nat.shiftRight_eq_div_pow, hss2, hss3]
      rw [if_neg (by omega), if_neg (by omega)]
      rfl
  | hankaku c h =>
      have := kana_range h
      simp only [euc2wc16, EucChar.packed, and_ff, Nat.shiftRight_eq_div_pow, hss2, hss3]
      rw [if_neg (by omega), if_pos (by omega),
        show (0x8e * 256 + c.toNat) % 256 = c.toNat by omega]
      rfl
  | jisx0208 c₁ c₂ h₁ h₂ =>
      have := byte_range h₁
      have := byte_range h₂
      simp only [euc2wc16, EucChar.packed, and_ff, Nat.shiftRight_eq_div_pow, hss2, hss3]
      rw [if_neg (by omega), if_neg (by omega)]
      rfl
  | jisx0212 c₁ c₂ h₁ h₂ =>
      have := byte_range h₁
      have := byte_range h₂
      simp only [euc2wc16, EucChar.packed, and_ff, Nat.shiftRight_eq_div_pow, hss2, hss3]
      rw [if_pos (by omega), and_ff7f _ _ _ (by omega) (by omega)]
      rfl

theorem wc2euc16_pair {a b : ℕ} (ha : a < 256) (hb : b < 256) :
    wc2euc16 (UInt16.ofNat (a * 256 + b)) =
      if a ≠ 0 then
        if 128 ≤ b then a * 256 + b else 0x8f * 65536 + (a * 256 + b) + 0x80
      else if 128 ≤ b then 0x8e * 256 + (a * 256 + b)
      else a * 256 + b := by
  have htoNat : (UInt16.ofNat (a * 256 + b)).toNat = a * 256 + b := by
    rw [UInt16.toNat_ofNat']
    omega
  have hhigh : (UInt8.ofNat ((a * 256 + b) >>> 8) ≠ 0) ↔ a ≠ 0 := by
    have hdiv : (a * 256 + b) >>> 8 = a := by
      rw [Nat.shiftRight_eq_div_pow]
      omega
    rw [hdiv, not_iff_not]
    constructor
    · intro hzero
      have := congrArg UInt8.toNat hzero
      rw [UInt8.toNat_ofNat'] at this
      have hmod : a % 2 ^ 8 = 0 := this
      omega
    · rintro rfl
      rfl
  have hss2 : ss2.toNat = 0x8e := rfl
  have hss3 : ss3.toNat = 0x8f := rfl
  simp only [wc2euc16, htoNat, hhigh, and_top_bit a hb, Nat.shiftLeft_eq, hss2, hss3]

theorem wc2euc16_wide (ch : EucChar) : wc2euc16 ch.wide = ch.packed := by
  cases ch with
  | ascii c h =>
      have := ascii_lt h
      have hpair := @wc2euc16_pair 0 c.toNat (by omega) (by omega)
      rw [Nat.zero_mul, Nat.zero_add, if_neg (by omega), if_neg (by omega)] at hpair
      exact hpair
  | hankaku c h =>
      have := kana_range h
      have hpair := @wc2euc16_pair 0 c.toNat (by omega) (by omega)
      rw [Nat.zero_mul, Nat.zero_add, if_neg (by omega), if_pos (by omega)] at hpair
      exact hpair
  | jisx0208 c₁ c₂ h₁ h₂ =>
      have := byte_range h₁
      have := byte_range h₂
      have hpair := @wc2euc16_pair c₁.toNat c₂.toNat (by omega) (by omega)
      rw [if_pos (by omega), if_pos (by omega)] at hpair
      exact hpair
  | jisx0212 c₁ c₂ h₁ h₂ =>
      have := byte_range h₁
      have := byte_range h₂
      have hpair := @wc2euc16_pair c₁.toNat (c₂.toNat % 128) (by omega) (by omega)
      rw [if_pos (by omega), if_neg (by omega)] at hpair
      refine hpair.trans ?_
      simp only [EucChar.packed]
      omega

theorem packed_ne_zero (ch : EucChar) : ch.packed ≠ 0 := by
  cases ch with
  | ascii c h => exact Nat.ne_of_gt (ascii_lt h).1
  | hankaku c h => simp only [EucChar.packed]; omega
  | jisx0208 c₁ c₂ h₁ h₂ =>
      have := byte_range h₁
      simp only [EucChar.packed]
      omega
  | jisx0212 c₁ c₂ h₁ h₂ => simp only [EucChar.packed]; omega

theorem wide_ne_zero (ch : EucChar) : ch.wide ≠ 0 := by
  intro hzero
  have := wc2euc16_wide ch
  rw [hzero] at this
  exact packed_ne_zero ch this.symm

theorem ofNat_eq {n : ℕ} {c : UInt8} (h : n % 256 = c.toNat) : UInt8.ofNat n = c :=
  UInt8.toNat_inj.mp (UInt8.toNat_ofNat'.trans h)

/-- The bytes of the packed code. -/
theorem packed_bytes (ch : EucChar) :
    [UInt8.ofNat (ch.packed >>> 16), UInt8.ofNat (ch.packed >>> 8), UInt8.ofNat ch.packed] =
      List.replicate (3 - ch.bytes.length) 0 ++ ch.bytes := by
  have hss2 : ss2.toNat = 0x8e := rfl
  have hss3 : ss3.toNat = 0x8f := rfl
  have hzero : (0 : UInt8).toNat = 0 := rfl
  simp only [Nat.shiftRight_eq_div_pow]
  cases ch with
  | ascii c h =>
      have := ascii_lt h
      simp only [EucChar.packed, EucChar.bytes]
      rw [@ofNat_eq _ 0 (by omega), @ofNat_eq _ 0 (by omega), @ofNat_eq _ c (by omega)]
      rfl
  | hankaku c h =>
      have := kana_range h
      simp only [EucChar.packed, EucChar.bytes]
      rw [@ofNat_eq _ 0 (by omega), @ofNat_eq _ ss2 (by omega), @ofNat_eq _ c (by omega)]
      rfl
  | jisx0208 c₁ c₂ h₁ h₂ =>
      have := byte_range h₁
      have := byte_range h₂
      simp only [EucChar.packed, EucChar.bytes]
      rw [@ofNat_eq _ 0 (by omega), @ofNat_eq _ c₁ (by omega), @ofNat_eq _ c₂ (by omega)]
      rfl
  | jisx0212 c₁ c₂ h₁ h₂ =>
      have := byte_range h₁
      have := byte_range h₂
      simp only [EucChar.packed, EucChar.bytes]
      rw [@ofNat_eq _ ss3 (by omega), @ofNat_eq _ c₁ (by omega), @ofNat_eq _ c₂ (by omega)]
      rfl

/-- The bytes of the packed code, by the number of bytes of the character. -/
theorem packed_cases (ch : EucChar) :
    (∃ c0, c0 ≠ 0 ∧ ch.bytes = [c0] ∧ UInt8.ofNat (ch.packed >>> 16) = 0 ∧
      UInt8.ofNat (ch.packed >>> 8) = 0 ∧ UInt8.ofNat ch.packed = c0) ∨
    (∃ c1 c0, c1 ≠ 0 ∧ ch.bytes = [c1, c0] ∧ UInt8.ofNat (ch.packed >>> 16) = 0 ∧
      UInt8.ofNat (ch.packed >>> 8) = c1 ∧ UInt8.ofNat ch.packed = c0) ∨
    ∃ c2 c1 c0, c2 ≠ 0 ∧ ch.bytes = [c2, c1, c0] ∧ UInt8.ofNat (ch.packed >>> 16) = c2 ∧
      UInt8.ofNat (ch.packed >>> 8) = c1 ∧ UInt8.ofNat ch.packed = c0 := by
  have h := packed_bytes ch
  cases ch with
  | ascii c hc =>
      simp only [EucChar.bytes, List.length_cons, List.length_nil] at h
      obtain ⟨h2, h⟩ := List.cons.inj h
      obtain ⟨h1, h⟩ := List.cons.inj h
      exact .inl ⟨c, hc.1, rfl, h2, h1, (List.cons.inj h).1⟩
  | hankaku c hc =>
      obtain ⟨h2, h⟩ := List.cons.inj h
      obtain ⟨h1, h⟩ := List.cons.inj h
      exact .inr (.inl ⟨ss2, c, by decide, rfl, h2, h1, (List.cons.inj h).1⟩)
  | jisx0208 c₁ c₂ h₁ h₂ =>
      have hne : c₁ ≠ 0 := by
        rintro rfl
        exact absurd h₁.1 (by decide)
      obtain ⟨h2, h⟩ := List.cons.inj h
      obtain ⟨h1, h⟩ := List.cons.inj h
      exact .inr (.inl ⟨c₁, c₂, hne, rfl, h2, h1, (List.cons.inj h).1⟩)
  | jisx0212 c₁ c₂ h₁ h₂ =>
      obtain ⟨h2, h⟩ := List.cons.inj h
      obtain ⟨h1, h⟩ := List.cons.inj h
      exact .inr (.inr ⟨ss3, c₁, c₂, by decide, rfl, h2, h1, (List.cons.inj h).1⟩)

/-! ## Strings -/

/-- The limit cuts the bytes of the string, wherever it falls. -/
theorem wcs2eucs16Loop_wide (s : List EucChar) (rest : List UInt16) (m : ℕ) {n i : ℤ}
    (hn : (n - i).toNat = m) :
    (wcs2eucs16Loop n i (s.map EucChar.wide ++ 0 :: rest)).out = (eucBytes s).take m ∧
      (wcs2eucs16Loop n i (s.map EucChar.wide ++ 0 :: rest)).ret =
        i + ((eucBytes s).take m).length := by
  induction s generalizing m i with
  | nil =>
      have hstop : wcs2eucs16Loop n i (([] : List EucChar).map EucChar.wide ++ 0 :: rest) =
        ⟨[], true, i⟩ := rfl
      rw [hstop]
      simp
  | cons ch s ih =>
      rw [List.map_cons, List.cons_append, wcs2eucs16Loop, wc2euc16_wide]
      cases m with
      | zero =>
          rw [if_neg (by omega)]
          simp
      | succ m =>
          rw [if_pos ⟨wide_ne_zero ch, by omega⟩, eucBytes_cons]
          rcases packed_cases ch with ⟨c0, h0, hbytes, hb2, hb1, hb0⟩ |
            ⟨c1, c0, h1, hbytes, hb2, hb1, hb0⟩ | ⟨c2, c1, c0, h2, hbytes, hb2, hb1, hb0⟩
          · obtain ⟨hout, hret⟩ := @ih m (i + 1) (by omega)
            simp only [hb2, hb1, hb0, hbytes, h0, ne_eq, not_true_eq_false, not_false_eq_true,
              if_true, if_false, WcConverted.put, hout, hret]
            simp
            omega
          · simp only [hb2, hb1, hb0, hbytes, h1, ne_eq, not_true_eq_false, not_false_eq_true,
              if_true, if_false]
            match m with
            | 0 =>
                rw [if_pos (by omega)]
                simp
            | 1 =>
                rw [if_neg (by omega), if_pos (by omega)]
                simp
            | m + 2 =>
                obtain ⟨hout, hret⟩ := @ih (m + 1) (i + 2) (by omega)
                rw [if_neg (by omega), if_neg (by omega), WcConverted.put, hout, hret]
                simp
                omega
          · simp only [hb2, hb1, hb0, hbytes, h2, ne_eq, not_false_eq_true, if_true]
            match m with
            | 0 =>
                rw [if_pos (by omega)]
                simp
            | 1 =>
                rw [if_neg (by omega), if_pos (by omega)]
                simp
            | 2 =>
                rw [if_neg (by omega), if_neg (by omega), if_pos (by omega)]
                simp
            | m + 3 =>
                obtain ⟨hout, hret⟩ := @ih (m + 1) (i + 3) (by omega)
                rw [if_neg (by omega), if_neg (by omega), if_neg (by omega), WcConverted.put, hout,
                  hret]
                simp
                omega

theorem ascii_class : ∀ c : UInt8, c < 0x80 → c ≠ ss3 ∧ c ≠ ss2 ∧ c &&& 0x80 = 0 := by
  apply Byte.forall_of_fin
  decide +kernel

theorem row_class : ∀ c : UInt8, 0xa1 ≤ c ∧ c ≤ 0xfe → c ≠ 0 ∧ c ≠ ss3 ∧ c &&& 0x80 ≠ 0 := by
  apply Byte.forall_of_fin
  decide +kernel

/-- The turn on one character. -/
theorem eucs2wcs16_char (ch : EucChar) (mb : Bytes) :
    (if (ch.bytes ++ mb).headD 0 = ss3 then
        (((ch.bytes ++ mb).headD 0).toNat <<< 16 + ((ch.bytes ++ mb).getD 1 0).toNat <<< 8 +
          ((ch.bytes ++ mb).getD 2 0).toNat, 3)
      else if (ch.bytes ++ mb).headD 0 = ss2 ∨ (ch.bytes ++ mb).headD 0 &&& 0x80 ≠ 0 then
        (((ch.bytes ++ mb).headD 0).toNat <<< 8 + ((ch.bytes ++ mb).getD 1 0).toNat, 2)
      else (((ch.bytes ++ mb).headD 0).toNat, 1)) = (ch.packed, ch.bytes.length) := by
  have hss2 : ss2.toNat = 0x8e := rfl
  have hss3 : ss3.toNat = 0x8f := rfl
  cases ch with
  | ascii c h =>
      obtain ⟨h3, h2, h1⟩ := ascii_class c h.2
      simp [EucChar.bytes, EucChar.packed, h3, h2, h1]
  | hankaku c h => rfl
  | jisx0208 c₁ c₂ h₁ h₂ =>
      obtain ⟨-, h3, h1⟩ := row_class c₁ h₁
      simp [EucChar.bytes, EucChar.packed, h3, h1, Nat.shiftLeft_eq]
  | jisx0212 c₁ c₂ h₁ h₂ => simp [EucChar.bytes, EucChar.packed, Nat.shiftLeft_eq, hss3]

theorem headD_bytes (ch : EucChar) (mb : Bytes) : (ch.bytes ++ mb).headD 0 ≠ 0 := by
  cases ch with
  | ascii c h => exact h.1
  | hankaku c h => exact show ss2 ≠ 0 by decide
  | jisx0208 c₁ c₂ h₁ h₂ => exact (row_class c₁ h₁).1
  | jisx0212 c₁ c₂ h₁ h₂ => exact show ss3 ≠ 0 by decide

/-- The first characters, as many as the limit says. -/
theorem eucs2wcs16Loop_bytes (s : List EucChar) (rest : Bytes) (m : ℕ) {n i : ℤ} {fuel : ℕ}
    (hn : (n - i).toNat = m) (hfuel : s.length < fuel) :
    (eucs2wcs16Loop n fuel i (eucBytes s ++ 0 :: rest)).out = (s.take m).map EucChar.wide ∧
      (eucs2wcs16Loop n fuel i (eucBytes s ++ 0 :: rest)).ret = i + (s.take m).length := by
  induction s generalizing m i fuel with
  | nil =>
      cases fuel with
      | zero => cases hfuel
      | succ fuel =>
          have hstop : eucs2wcs16Loop n (fuel + 1) i (eucBytes [] ++ 0 :: rest) =
            ⟨[], true, i⟩ := rfl
          rw [hstop]
          simp
  | cons ch s ih =>
      cases fuel with
      | zero => cases hfuel
      | succ fuel =>
          have hhead := headD_bytes ch (eucBytes s ++ 0 :: rest)
          rw [eucBytes_cons, List.append_assoc, eucs2wcs16Loop]
          simp only [eucs2wcs16_char, euc2wc16_packed, wide_ne_zero ch, if_false]
          cases m with
          | zero =>
              rw [if_neg (by omega)]
              simp
          | succ m =>
              obtain ⟨hout, hret⟩ := @ih m (i + 1) fuel (by omega) (Nat.lt_of_succ_lt_succ hfuel)
              rw [if_pos ⟨hhead, by omega⟩, List.drop_left, WcConverted.put, hout, hret]
              simp
              omega

theorem wcs2eucs16_wide (s : List EucChar) (rest : List UInt16) (n : ℤ) :
    (wcs2eucs16 (s.map EucChar.wide ++ 0 :: rest) n).out = (eucBytes s).take n.toNat ∧
      (wcs2eucs16 (s.map EucChar.wide ++ 0 :: rest) n).ret =
        (wcs2eucs16 (s.map EucChar.wide ++ 0 :: rest) n).out.length := by
  obtain ⟨hout, hret⟩ := @wcs2eucs16Loop_wide s rest n.toNat n 0 (by rw [sub_zero])
  refine ⟨hout, ?_⟩
  rw [wcs2eucs16, hout, hret, zero_add]

theorem length_le_eucBytes (s : List EucChar) : s.length ≤ (eucBytes s).length := by
  induction s with
  | nil => exact Nat.le_refl 0
  | cons ch s ih =>
      have hpos : 0 < ch.bytes.length := by
        cases ch <;> exact Nat.succ_pos _
      rw [eucBytes_cons, List.length_append, List.length_cons]
      omega

theorem eucs2wcs16_bytes (s : List EucChar) (rest : Bytes) (n : ℤ) :
    (eucs2wcs16 (eucBytes s ++ 0 :: rest) n).out = (s.take n.toNat).map EucChar.wide ∧
      (eucs2wcs16 (eucBytes s ++ 0 :: rest) n).ret =
        (eucs2wcs16 (eucBytes s ++ 0 :: rest) n).out.length := by
  have hlen : s.length < (eucBytes s ++ 0 :: rest).length + 1 := by
    have := length_le_eucBytes s
    rw [List.length_append]
    omega
  obtain ⟨hout, hret⟩ := @eucs2wcs16Loop_bytes s rest n.toNat n 0 _ (by rw [sub_zero]) hlen
  refine ⟨hout, ?_⟩
  rw [eucs2wcs16, hout, hret, zero_add, List.length_map]

/-- The conversions of the string `s` keep its characters whole: to wide characters the first
ones, as many as `l` says, back as many as fit into `n` bytes, and with room for all of them
there and back is the string itself. -/
structure KeepsWhole (s : List EucChar) (l n : ℤ) : Prop where
  toWide : ∀ rest, (eucs2wcs16 (eucBytes s ++ 0 :: rest) l).out =
    (s.take l.toNat).map EucChar.wide ∧
    (eucs2wcs16 (eucBytes s ++ 0 :: rest) l).ret =
      (eucs2wcs16 (eucBytes s ++ 0 :: rest) l).out.length
  toEuc : ∀ rest, ∃ k ≤ s.length, (eucBytes (s.take k)).length ≤ n.toNat ∧
    (∀ j, k < j → j ≤ s.length → n.toNat < (eucBytes (s.take j)).length) ∧
    (wcs2eucs16 (s.map EucChar.wide ++ 0 :: rest) n).out = eucBytes (s.take k) ∧
    (wcs2eucs16 (s.map EucChar.wide ++ 0 :: rest) n).ret =
      (wcs2eucs16 (s.map EucChar.wide ++ 0 :: rest) n).out.length
  back : ∀ (rest : Bytes) (rest' : List UInt16) (l' n' : ℤ), s.length ≤ l' →
    (eucBytes s).length ≤ n' →
    (wcs2eucs16 ((eucs2wcs16 (eucBytes s ++ 0 :: rest) l').out ++ 0 :: rest') n').out = eucBytes s

theorem eucBytes_take_lt (s : List EucChar) {j k : ℕ} (hjk : k < j) (hj : j ≤ s.length) :
    (eucBytes (s.take k)).length < (eucBytes (s.take j)).length := by
  obtain ⟨d, rfl⟩ := Nat.exists_eq_add_of_lt hjk
  have hmore : 0 < ((s.drop k).take (d + 1)).length := by
    rw [List.length_take, List.length_drop]
    omega
  have := length_le_eucBytes ((s.drop k).take (d + 1))
  rw [Nat.add_assoc, List.take_add, eucBytes_append, List.length_append]
  omega

/-- They do so if and only if all bytes are within the limit or it falls between two
characters. -/
theorem keepsWhole_iff (s : List EucChar) (l n : ℤ) :
    KeepsWhole s l n ↔ (eucBytes s).length ≤ n.toNat ∨
      ∃ k ≤ s.length, (eucBytes (s.take k)).length = n.toNat := by
  constructor
  · intro h
    obtain ⟨k, hk, hfit, -, hout, -⟩ := h.toEuc []
    rw [(wcs2eucs16_wide s [] n).1] at hout
    have hlen := congrArg List.length hout
    rw [List.length_take] at hlen
    by_cases hall : (eucBytes s).length ≤ n.toNat
    · exact .inl hall
    · exact .inr ⟨k, hk, by omega⟩
  · intro h
    refine ⟨fun rest => eucs2wcs16_bytes s rest l, fun rest => ?_, fun rest rest' l' n' hl hn => ?_⟩
    · obtain ⟨hout, hret⟩ := wcs2eucs16_wide s rest n
      rcases h with hall | ⟨k, hk, hcut⟩
      · refine ⟨s.length, Nat.le_refl _, ?_, fun j hj hle => by omega, ?_, hret⟩
        · rwa [List.take_length]
        · rw [hout, List.take_length, List.take_of_length_le hall]
      · refine ⟨k, hk, Nat.le_of_eq hcut, fun j hj hle => ?_, ?_, hret⟩
        · rw [← hcut]
          exact eucBytes_take_lt s hj hle
        · rw [hout, ← hcut]
          nth_rewrite 2 [← List.take_append_drop k s]
          rw [eucBytes_append, List.take_left]
    · rw [(eucs2wcs16_bytes s rest l').1, List.take_of_length_le (by omega),
        (wcs2eucs16_wide s rest' n').1, List.take_of_length_le (by omega)]

/-- One hiragana and a limit of one byte, which is what is written of it. -/
theorem not_keepsWhole : ¬ ∀ (s : List EucChar) (l n : ℤ), KeepsWhole s l n := by
  intro h
  obtain ⟨k, hk, hfit, -, hout, -⟩ :=
    (h [.jisx0208 0xa4 0xa2 (by decide) (by decide)] 1 1).toEuc []
  have hbyte : (wcs2eucs16 ([EucChar.jisx0208 0xa4 0xa2 (by decide) (by decide)].map EucChar.wide ++
      [0]) 1).out = [0xa4] := rfl
  rw [hbyte] at hout
  match k with
  | 0 => cases hout
  | 1 => exact absurd hfit (by decide)
  | k + 2 => exact absurd hk (by simp)

end Sj3
