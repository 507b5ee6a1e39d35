import Sj3.Model.Kanji
import Sj3.Verification.Reading.Accepted

/-! # EUC text

Kanji strings as sequences of whole characters, and the text of a reading as a sequence of
two-byte ones. -/

namespace Sj3

/-! ## Characters -/

/-- A character of a kanji string: ASCII, half-width kana, JIS X 0208 or JIS X 0212. -/
inductive EucChar where
  | ascii (c : UInt8) (h : c ≠ 0 ∧ c < 0x80)
  | hankaku (c : UInt8) (h : 0xa1 ≤ c ∧ c ≤ 0xdf)
  | jisx0208 (c₁ c₂ : UInt8) (h₁ : 0xa1 ≤ c₁ ∧ c₁ ≤ 0xfe) (h₂ : 0xa1 ≤ c₂ ∧ c₂ ≤ 0xfe)
  | jisx0212 (c₁ c₂ : UInt8) (h₁ : 0xa1 ≤ c₁ ∧ c₁ ≤ 0xfe) (h₂ : 0xa1 ≤ c₂ ∧ c₂ ≤ 0xfe)

namespace EucChar

def bytes : EucChar → Bytes
  | ascii c _ => [c]
  | hankaku c _ => [ss2, c]
  | jisx0208 c₁ c₂ _ _ => [c₁, c₂]
  | jisx0212 c₁ c₂ _ _ => [ss3, c₁, c₂]

/-- The code of a character that is not abbreviated. -/
def code : EucChar → Bytes
  | ascii c _ => [leadingHankaku, c]
  | hankaku c _ => [leadingHankaku, c]
  | jisx0208 c₁ c₂ _ _ => [c₁ &&& normalKanjiMask, c₂ &&& normalKanjiMask]
  | jisx0212 c₁ c₂ _ _ => [c₁ &&& normalKanjiMask, c₂]

end EucChar

/-- The bytes of a string of characters. -/
def eucBytes (s : List EucChar) : Bytes := s.flatMap EucChar.bytes

@[simp] theorem eucBytes_nil : eucBytes [] = [] := rfl

@[simp] theorem eucBytes_cons (ch : EucChar) (s : List EucChar) :
    eucBytes (ch :: s) = ch.bytes ++ eucBytes s := rfl

theorem eucBytes_append (s t : List EucChar) :
    eucBytes (s ++ t) = eucBytes s ++ eucBytes t := List.flatMap_append

/-- A byte of the second half of a row. -/
theorem row_byte {c : UInt8} (h : 0xa1 ≤ c ∧ c ≤ 0xfe) :
    c ≠ 0 ∧ c ≠ 0xff ∧ ¬ c < 0x80 ∧ c ≠ ss2 ∧ c ≠ ss3 := by
  revert h
  revert c
  apply Byte.forall_of_fin
  decide +kernel

theorem EucChar.zero_notMem (ch : EucChar) : 0 ∉ ch.bytes := by
  cases ch with
  | ascii c h => simpa [bytes] using h.1.symm
  | hankaku c h =>
      have := (row_byte ⟨h.1, h.2.trans (by decide)⟩).1
      simp [bytes, ss2, this.symm]
  | jisx0208 c₁ c₂ h₁ h₂ =>
      simp [bytes, (row_byte h₁).1.symm, (row_byte h₂).1.symm]
  | jisx0212 c₁ c₂ h₁ h₂ =>
      simp [bytes, ss3, (row_byte h₁).1.symm, (row_byte h₂).1.symm]

theorem zero_notMem_eucBytes (s : List EucChar) : 0 ∉ eucBytes s := by
  intro h
  obtain ⟨ch, -, h⟩ := List.mem_flatMap.mp h
  exact ch.zero_notMem h

theorem EucChar.length_pos (ch : EucChar) : 0 < ch.bytes.length := by
  cases ch <;> simp [bytes]

/-- Characters whose bytes all lie in the rows are the two-byte ones. -/
theorem length_eucBytes_of_row {s : List EucChar} (h : ∀ b ∈ eucBytes s, 0xa1 ≤ b) :
    (eucBytes s).length = 2 * s.length := by
  induction s with
  | nil => rfl
  | cons ch s ih =>
      have hs : ∀ b ∈ eucBytes s, 0xa1 ≤ b := fun b hb => h b (by simp [hb])
      have hch : ∀ b ∈ ch.bytes, 0xa1 ≤ b := fun b hb => h b (by simp [hb])
      rw [eucBytes_cons, List.length_append, ih hs, List.length_cons]
      cases ch with
      | ascii c hc =>
          have := hch c (by simp [EucChar.bytes])
          exact absurd (hc.2.trans_le (le_trans (by decide) this)) (lt_irrefl c)
      | hankaku c hc => exact absurd (hch ss2 (by simp [EucChar.bytes])) (by decide)
      | jisx0208 c₁ c₂ h₁ h₂ =>
          simp only [EucChar.bytes, List.length_cons, List.length_nil]
          omega
      | jisx0212 c₁ c₂ h₁ h₂ => exact absurd (hch ss3 (by simp [EucChar.bytes])) (by decide)

/-! ## Readings -/

/-- A character of a reading: in row 4 it is a hiragana. -/
def IsYomiPair (p : UInt8 × UInt8) : Prop :=
  (0xa1 ≤ p.1 ∧ p.1 ≤ 0xfe) ∧ (0xa1 ≤ p.2 ∧ p.2 ≤ 0xfe) ∧ (p.1 = 0xa4 → p.2 ≤ 0xf3)

/-- The text of a sequence of two-byte characters. -/
def flat (ps : List (UInt8 × UInt8)) : Bytes := ps.flatMap fun p => [p.1, p.2]

@[simp] theorem flat_nil : flat [] = [] := rfl

@[simp] theorem flat_cons (p : UInt8 × UInt8) (ps : List (UInt8 × UInt8)) :
    flat (p :: ps) = p.1 :: p.2 :: flat ps := rfl

theorem flat_append (ps qs : List (UInt8 × UInt8)) : flat (ps ++ qs) = flat ps ++ flat qs :=
  List.flatMap_append

@[simp] theorem length_flat (ps : List (UInt8 × UInt8)) : (flat ps).length = 2 * ps.length := by
  induction ps with
  | nil => rfl
  | cons p ps ih =>
      simp only [flat_cons, List.length_cons, ih]
      omega

theorem flat_take (ps : List (UInt8 × UInt8)) (n : ℕ) :
    (flat ps).take (2 * n) = flat (ps.take n) := by
  induction n generalizing ps with
  | zero => simp
  | succ n ih =>
      cases ps with
      | nil => simp
      | cons p ps => simp [Nat.mul_succ, ih]

theorem flat_drop (ps : List (UInt8 × UInt8)) (n : ℕ) :
    (flat ps).drop (2 * n) = flat (ps.drop n) := by
  induction n generalizing ps with
  | zero => simp
  | succ n ih =>
      cases ps with
      | nil => simp
      | cons p ps => simp [Nat.mul_succ, ih]

theorem flat_row {ps : List (UInt8 × UInt8)} (h : ∀ p ∈ ps, IsYomiPair p) :
    ∀ b ∈ flat ps, 0xa1 ≤ b := by
  intro b hb
  obtain ⟨p, hp, hb⟩ := List.mem_flatMap.mp hb
  have hp := h p hp
  simp only [List.mem_cons, List.not_mem_nil, or_false] at hb
  rcases hb with rfl | rfl
  · exact hp.1.1
  · exact hp.2.1.1

theorem zero_notMem_flat {ps : List (UInt8 × UInt8)} (h : ∀ p ∈ ps, IsYomiPair p) :
    0 ∉ flat ps :=
  fun h0 => absurd (flat_row h 0 h0) (by decide)

/-- The katakana form of a character. -/
def kataPair (p : UInt8 × UInt8) : UInt8 × UInt8 := (if p.1 = 0xa4 then 0xa5 else p.1, p.2)

theorem IsYomiPair.kata {p : UInt8 × UInt8} (h : IsYomiPair p) : IsYomiPair (kataPair p) := by
  obtain ⟨h₁, h₂, h₃⟩ := h
  unfold kataPair
  split
  · exact ⟨(by decide : (0xa1 : UInt8) ≤ 0xa5 ∧ (0xa5 : UInt8) ≤ 0xfe), h₂,
      fun h : (0xa5 : UInt8) = 0xa4 => absurd h (by decide)⟩
  · exact ⟨h₁, h₂, h₃⟩

theorem yomi2kata_flat {ps : List (UInt8 × UInt8)} (h : ∀ p ∈ ps, IsYomiPair p) (rest : Bytes)
    (hr : rest.headD 0 = 0) : yomi2kata (flat ps ++ rest) = flat (ps.map kataPair) := by
  induction ps with
  | nil =>
      match rest with
      | [] => rfl
      | [c] =>
          have hc : c = 0 := hr
          simp [yomi2kata, hc]
      | c :: c' :: rest =>
          have hc : c = 0 := hr
          simp [yomi2kata, hc]
  | cons p ps ih =>
      have hp := (row_byte (h p (by simp)).1).1
      simp only [flat_cons, List.cons_append, yomi2kata, if_neg hp, List.map_cons,
        ih fun q hq => h q (by simp [hq])]
      rfl

/-- Every reading code stands for such a character. -/
theorem cd2sjhChr_pair {c : UInt8} (h : IsYomiCode c) :
    ∃ p, IsYomiPair p ∧ cd2sjhChr c = [p.1, p.2] := by
  have table : ∀ c : UInt8, IsYomiCode c →
      let b₀ := (cd2sjhChr c).getD 0 0
      let b₁ := (cd2sjhChr c).getD 1 0
      ((0xa1 ≤ b₀ ∧ b₀ ≤ 0xfe) ∧ (0xa1 ≤ b₁ ∧ b₁ ≤ 0xfe) ∧ (b₀ = 0xa4 → b₁ ≤ 0xf3)) ∧
        cd2sjhChr c = [b₀, b₁] := by
    apply Byte.forall_of_fin
    decide +kernel
  exact ⟨(_, _), (table c h).1, (table c h).2⟩

/-- The text of reading codes has as many characters. -/
theorem eucOf_eq_flat {codes : Bytes} (h : ∀ c ∈ codes, IsYomiCode c) :
    ∃ ps, (∀ p ∈ ps, IsYomiPair p) ∧ ps.length = codes.length ∧ eucOf codes = flat ps := by
  induction codes with
  | nil => exact ⟨[], by simp, rfl, rfl⟩
  | cons c codes ih =>
      obtain ⟨p, hp, he⟩ := cd2sjhChr_pair (h c (by simp))
      obtain ⟨ps, hps, hlen, hps'⟩ := ih fun c hc => h c (by simp [hc])
      exact ⟨p :: ps, List.forall_mem_cons.mpr ⟨hp, hps⟩, by simp [hlen], by simp [he, hps']⟩

/-- The text of an accepted reading, and what is behind it in memory. -/
structure YomiText (yomi : Bytes) (ps : List (UInt8 × UInt8)) : Prop where
  isPair : ∀ p ∈ ps, IsYomiPair p
  length : ps.length = (yomiCodes yomi).length
  ne_nil : ps ≠ []
  text : ∃ rest, yomi = flat ps ++ rest ∧ rest.headD 0 = 0

theorem AcceptedYomi.exists_text {yomi : Bytes} (h : AcceptedYomi yomi) :
    ∃ ps, YomiText yomi ps := by
  obtain ⟨rest, he, hr⟩ := h.text
  obtain ⟨ps, hps, hlen, hflat⟩ := eucOf_eq_flat h.codes
  refine ⟨ps, hps, hlen, ?_, rest, by rw [← hflat]; exact he, hr⟩
  rintro rfl
  exact h.isYomi.ne_nil (List.length_eq_zero_iff.mp hlen.symm)

end Sj3
