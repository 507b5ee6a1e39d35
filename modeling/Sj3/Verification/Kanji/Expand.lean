import Sj3.Verification.Kanji.Compress

/-! # Expansion

What `getkanji` makes of the codes `cvtknj` produces, one after the other. -/

namespace Sj3

variable {below : ℕ → UInt8} {ref : SegRef} {ym : Bytes} {yl fuel : ℕ}

/-! ## Characters -/

/-- What the first code at `s` expands to; `f` tells whether it may be the last one. -/
def expandOne (below : ℕ → UInt8) (ref : SegRef) (fuel : ℕ) (s ym : Bytes) (yl : ℕ)
    (f : Bool) : Bytes :=
  let mode := s.headD 0 &&& kanjiModeMask
  if mode = zenHiraAssyuku then getkanHira below s ym yl f
  else if mode = zenKataAssyuku then getkanKata below s ym yl f
  else if mode = offsetAssyuku then
    code2kanji below ref fuel
      (ref.dicbuf.drop ((s.headD 0 &&& kanjiCodeMask).toNat * 0x100 + (s.getD 1 0).toNat))
      ym yl f
  else if mode = aiAttribute then []
  else if mode = leadingHankaku then getkanAscii s
  else if mode = kanjiAssyuku then
    code2kanji below ref fuel (ref.askknj.getD (s.headD 0 &&& kanjiCodeMask).toNat []) ym yl f
  else getkanNorm s

theorem code2kanji_succ (s : Bytes) (flg : Bool) :
    code2kanji below ref (fuel + 1) s ym yl flg =
      if s.getD (codesize (s.headD 0)) 0 = kanjiStrEnd then
        expandOne below ref fuel s ym yl flg
      else expandOne below ref fuel s ym yl false ++
        code2kanji below ref fuel (s.drop (codesize (s.headD 0))) ym yl flg := rfl

theorem expandOne_ascii {c : UInt8} (p : Bytes) (f : Bool) :
    expandOne below ref fuel (leadingHankaku :: c :: p) ym yl f =
      getkanAscii (leadingHankaku :: c :: p) := by
  have hmode : leadingHankaku &&& kanjiModeMask = leadingHankaku := by decide
  have h₁ : leadingHankaku ≠ zenHiraAssyuku := by decide
  have h₂ : leadingHankaku ≠ zenKataAssyuku := by decide
  have h₃ : leadingHankaku ≠ offsetAssyuku := by decide
  have h₄ : leadingHankaku ≠ aiAttribute := by decide
  rw [expandOne, List.headD_cons, hmode, if_neg h₁, if_neg h₂, if_neg h₃, if_neg h₄, if_pos rfl]

theorem expandOne_norm {c : UInt8} (h : 0xa1 ≤ c ∧ c ≤ 0xfe) (p : Bytes) (f : Bool) :
    expandOne below ref fuel ((c &&& normalKanjiMask) :: p) ym yl f =
      getkanNorm ((c &&& normalKanjiMask) :: p) := by
  obtain ⟨n₁, n₂, n₃, n₄, n₅, n₆⟩ := mask_row_mode h
  rw [expandOne, List.headD_cons, if_neg n₁, if_neg n₂, if_neg n₃, if_neg n₄, if_neg n₅,
    if_neg n₆]

/-- The code of a character expands to it, last or not. -/
theorem expandOne_code (ch : EucChar) (p : Bytes) (f : Bool) :
    expandOne below ref fuel (ch.code ++ p) ym yl f = ch.bytes := by
  cases ch with
  | ascii c h =>
      have h₈ := (ascii_byte h).2.2
      simp only [EucChar.code, List.cons_append, List.nil_append, expandOne_ascii, getkanAscii,
        List.getD_cons_succ, List.getD_cons_zero, h₈]
      rfl
  | hankaku c h =>
      have h₈ := (mask_row (c := c) ⟨h.1, h.2.trans (by decide)⟩).2.2.2.2.2.1
      simp only [EucChar.code, List.cons_append, List.nil_append, expandOne_ascii, getkanAscii,
        List.getD_cons_succ, List.getD_cons_zero, if_pos h₈]
      rfl
  | jisx0208 c₁ c₂ h₁ h₂ =>
      obtain ⟨m₀, -, -, mo, -⟩ := mask_row h₁
      obtain ⟨-, -, -, mo', mz, -⟩ := mask_row h₂
      simp only [EucChar.code, List.cons_append, List.nil_append, expandOne_norm h₁, getkanNorm,
        List.headD_cons, List.getD_cons_succ, List.getD_cons_zero, if_pos m₀, mo, mo', mz]
      rfl
  | jisx0212 c₁ c₂ h₁ h₂ =>
      obtain ⟨m₀, -, -, mo, -⟩ := mask_row h₁
      obtain ⟨-, -, -, -, -, mn, mo'⟩ := mask_row h₂
      simp only [EucChar.code, List.cons_append, List.nil_append, expandOne_norm h₁, getkanNorm,
        List.headD_cons, List.getD_cons_succ, List.getD_cons_zero, if_pos m₀, if_pos mn, mo, mo']
      rfl

theorem codesize_code (ch : EucChar) :
    ∃ c c', ch.code = [c, c'] ∧ codesize c = 2 := by
  cases ch with
  | ascii c h => exact ⟨_, _, rfl, by decide⟩
  | hankaku c h => exact ⟨_, _, rfl, by decide⟩
  | jisx0208 c₁ c₂ h₁ h₂ => exact ⟨_, _, rfl, (mask_row h₁).2.2.1⟩
  | jisx0212 c₁ c₂ h₁ h₂ => exact ⟨_, _, rfl, (mask_row h₁).2.2.1⟩

theorem code2kanji_code (ch : EucChar) (p : Bytes) (flg : Bool) :
    code2kanji below ref (fuel + 1) (ch.code ++ p) ym yl flg =
      ch.bytes ++ if p.headD 0 = kanjiStrEnd then []
        else code2kanji below ref fuel p ym yl flg := by
  obtain ⟨c, c', he, hs⟩ := codesize_code ch
  have hhead : (ch.code ++ p).headD 0 = c := by rw [he]; rfl
  have hnext : (ch.code ++ p).getD 2 0 = p.headD 0 := by
    rw [he]
    cases p <;> rfl
  have hdrop : (ch.code ++ p).drop 2 = p := by rw [he]; rfl
  rw [code2kanji_succ, hhead, hs, hnext, hdrop, expandOne_code, expandOne_code]
  split <;> simp

/-! ## Abbreviations -/

/-- In front of other codes an abbreviation stands for the beginning of the reading, as the
last code for its end. -/
theorem code2kanji_hira {n : ℕ} (hn : n ≠ 0) (hle : n ≤ maxYomiAskNumber) (p : Bytes) :
    code2kanji below ref (fuel + 1) (hiraCode n :: p) ym yl true =
      if p.headD 0 = kanjiStrEnd then
        readN (n * 2) (around below ym (((yl : ℤ) - n) * 2))
      else readN (n * 2) ym ++ code2kanji below ref fuel p ym yl true := by
  obtain ⟨-, -, hs, hmode, hcnt⟩ := hiraCode_facts ⟨n, Nat.lt_succ_of_le hle⟩ hn
  simp only at hs hmode hcnt
  have hnext : (hiraCode n :: p).getD 1 0 = p.headD 0 := by
    cases p <;> rfl
  rw [code2kanji]
  simp only [List.headD_cons, hs, hmode, if_true, hnext, List.drop_succ_cons, List.drop_zero,
    getkanHira, askStart, askCount, hcnt, true_and, Bool.false_eq_true, false_and, if_false]
  split <;> rfl

theorem code2kanji_kata {n : ℕ} (hn : n ≠ 0) (hle : n ≤ maxYomiAskNumber) (p : Bytes) :
    code2kanji below ref (fuel + 1) (kataCode n :: p) ym yl true =
      if p.headD 0 = kanjiStrEnd then
        kataN n (around below ym (((yl : ℤ) - n) * 2))
      else kataN n ym ++ code2kanji below ref fuel p ym yl true := by
  obtain ⟨-, -, hs, hmode, hcnt⟩ := kataCode_facts ⟨n, Nat.lt_succ_of_le hle⟩ hn
  simp only at hs hmode hcnt
  have hnext : (kataCode n :: p).getD 1 0 = p.headD 0 := by
    cases p <;> rfl
  have hne : zenKataAssyuku ≠ zenHiraAssyuku := by decide
  rw [code2kanji]
  simp only [List.headD_cons, hs, hmode, if_neg hne, if_true, hnext, List.drop_succ_cons,
    List.drop_zero, getkanKata, askStart, askCount, hcnt, true_and, Bool.false_eq_true,
    false_and, if_false]
  split <;> rfl

/-- Turning characters of the reading into katakana is what `yomi2kata` does. -/
theorem kataN_flat {qs : List (UInt8 × UInt8)} (h : ∀ p ∈ qs, IsYomiPair p) {n : ℕ}
    (hn : n ≤ qs.length) (rest : Bytes) :
    kataN n (flat qs ++ rest) = flat ((qs.take n).map kataPair) := by
  induction n generalizing qs with
  | zero => simp [kataN]
  | succ n ih =>
      cases qs with
      | nil => simp at hn
      | cons q qs =>
          obtain ⟨-, h₂, h₄⟩ := h q (by simp)
          have hqs : ∀ p ∈ qs, IsYomiPair p := fun p hp => h p (by simp [hp])
          have ih := ih hqs (by simpa using hn)
          simp only [flat_cons, List.cons_append, kataN, List.headD_cons, List.getD_cons_succ,
            List.getD_cons_zero, List.drop_succ_cons, List.drop_zero, ih, List.take_succ_cons,
            List.map_cons, kataPair]
          by_cases hq : q.1 = 0xa4
          · rw [if_pos hq, if_pos ⟨h₂.1, h₄ hq⟩, if_pos hq]
          · rw [if_neg hq, if_neg hq]

theorem readN_flat {qs : List (UInt8 × UInt8)} {n : ℕ} (hn : n ≤ qs.length) (rest : Bytes) :
    readN (n * 2) (flat qs ++ rest) = flat (qs.take n) := by
  rw [readN_eq_take (by simp only [List.length_append, length_flat]; omega),
    List.take_append_of_le_length (by rw [length_flat]; omega), Nat.mul_comm, flat_take]

/-- The last characters of the reading. -/
theorem around_flat {ps : List (UInt8 × UInt8)} {n : ℕ} (hn : n ≤ ps.length) (rest : Bytes) :
    around below (flat ps ++ rest) (((ps.length : ℤ) - n) * 2) =
      flat (ps.drop (ps.length - n)) ++ rest := by
  have he : (((ps.length : ℤ) - n) * 2).toNat = 2 * (ps.length - n) := by omega
  rw [around, if_pos (by omega), he,
    List.drop_append_of_le_length (by rw [length_flat]; omega), flat_drop]

end Sj3
