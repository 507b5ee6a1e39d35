import Sj3.Verification.Kanji.Codes
import Sj3.Verification.Kanji.Euc
import Sj3.Verification.Text

/-! # Compression

What the comparisons of `cvtknj` find, and the code strings it produces. -/

namespace Sj3

/-! ## The beginning of a reading -/

/-- The number of leading characters a reading and a kanji string share. -/
def lead : List (UInt8 × UInt8) → List EucChar → ℕ
  | p :: ps, .jisx0208 c₁ c₂ _ _ :: s => if p = (c₁, c₂) then lead ps s + 1 else 0
  | _, _ => 0

theorem lead_le_left (ps : List (UInt8 × UInt8)) (s : List EucChar) : lead ps s ≤ ps.length := by
  induction ps generalizing s with
  | nil => simp [lead]
  | cons p ps ih =>
      match s with
      | [] => simp [lead]
      | .ascii .. :: s => simp [lead]
      | .hankaku .. :: s => simp [lead]
      | .jisx0212 .. :: s => simp [lead]
      | .jisx0208 c₁ c₂ h₁ h₂ :: s =>
          simp only [lead, List.length_cons]
          split
          · exact Nat.succ_le_succ (ih s)
          · exact Nat.zero_le _

theorem lead_le_right (ps : List (UInt8 × UInt8)) (s : List EucChar) : lead ps s ≤ s.length := by
  induction ps generalizing s with
  | nil => simp [lead]
  | cons p ps ih =>
      match s with
      | [] => simp [lead]
      | .ascii .. :: s => simp [lead]
      | .hankaku .. :: s => simp [lead]
      | .jisx0212 .. :: s => simp [lead]
      | .jisx0208 c₁ c₂ h₁ h₂ :: s =>
          simp only [lead, List.length_cons]
          split
          · exact Nat.succ_le_succ (ih s)
          · exact Nat.zero_le _

theorem eucBytes_take_of_le_lead (ps : List (UInt8 × UInt8)) {s : List EucChar} {n : ℕ}
    (h : n ≤ lead ps s) : eucBytes (s.take n) = flat (ps.take n) := by
  induction ps generalizing s n with
  | nil =>
      simp only [lead, Nat.le_zero] at h
      simp [h]
  | cons p ps ih =>
      cases n with
      | zero => simp
      | succ n =>
          match s with
          | [] => simp [lead] at h
          | .ascii .. :: s => simp [lead] at h
          | .hankaku .. :: s => simp [lead] at h
          | .jisx0212 .. :: s => simp [lead] at h
          | .jisx0208 c₁ c₂ h₁ h₂ :: s =>
              simp only [lead] at h
              split at h
              · rename_i he
                simp [he, EucChar.bytes, ih (Nat.le_of_succ_le_succ h)]
              · simp at h

/-- Comparing bytes finds the shared characters, and perhaps one more byte. -/
theorem topMatch_div_two {ps : List (UInt8 × UInt8)} (h : ∀ p ∈ ps, IsYomiPair p) (rest : Bytes)
    (hr : rest.headD 0 = 0) (s : List EucChar) :
    topMatch (flat ps ++ rest) (eucBytes s) / 2 = lead ps s := by
  induction ps generalizing s with
  | nil =>
      cases rest with
      | nil => simp [topMatch, lead]
      | cons c rest =>
          have hc : c = 0 := hr
          simp [topMatch, lead, hc]
  | cons p ps ih =>
      have hp := h p (by simp)
      obtain ⟨h₀, -, hlt, hss2, hss3⟩ := row_byte hp.1
      have h₀' := (row_byte hp.2.1).1
      have ih := ih fun q hq => h q (by simp [hq])
      -- a first byte outside the rows ends the comparison
      have hout : ∀ (b : UInt8) (t : Bytes), p.1 ≠ b →
          topMatch (flat (p :: ps) ++ rest) (b :: t) = 0 := by
        intro b t hb
        rw [flat_cons, List.cons_append, topMatch, if_neg]
        simp [hb]
      match s with
      | [] =>
          rw [flat_cons, List.cons_append, topMatch, if_neg (by simp [h₀])]
          rfl
      | .ascii c hc :: s =>
          rw [eucBytes_cons, EucChar.bytes, List.singleton_append, hout]
          · rfl
          · rintro rfl
            exact hlt hc.2
      | .hankaku c hc :: s =>
          rw [eucBytes_cons, EucChar.bytes, List.cons_append, hout _ _ hss2]
          rfl
      | .jisx0212 c₁ c₂ h₁ h₂ :: s =>
          rw [eucBytes_cons, EucChar.bytes, List.cons_append, hout _ _ hss3]
          rfl
      | .jisx0208 c₁ c₂ h₁ h₂ :: s =>
          rw [eucBytes_cons, EucChar.bytes, List.cons_append]
          by_cases he₁ : p.1 = c₁
          · rw [flat_cons, List.cons_append, topMatch, if_pos ⟨h₀, he₁⟩, List.cons_append,
              topMatch, List.tail_cons, List.cons_append, List.headD_cons, List.tail_cons,
              List.nil_append]
            by_cases he₂ : p.2 = c₂
            · rw [if_pos ⟨h₀', he₂⟩, lead, if_pos (Prod.ext he₁ he₂), ← ih s]
              omega
            · rw [if_neg (by simp [he₂]), lead, if_neg (by simp [Prod.ext_iff, he₂])]
          · rw [hout _ _ he₁, lead, if_neg (by simp [Prod.ext_iff, he₁])]

theorem topStrcmp_eq {ps : List (UInt8 × UInt8)} (h : ∀ p ∈ ps, IsYomiPair p) (rest : Bytes)
    (hr : rest.headD 0 = 0) (s : List EucChar) :
    topStrcmp (flat ps ++ rest) (eucBytes s) = min (lead ps s) maxYomiAskNumber := by
  rw [topStrcmp, topMatch_div_two h rest hr]

/-! ## The end of a reading -/

/-- The `n` bytes that end where the text `w` ends, with what is in front of it. -/
def window (below : ℕ → UInt8) (w : Bytes) (n : ℕ) : Bytes :=
  if n ≤ w.length then w.drop (w.length - n) else belowBytes below (n - w.length) ++ w

@[simp] theorem length_belowBytes (below : ℕ → UInt8) (k : ℕ) :
    (belowBytes below k).length = k := by
  simp [belowBytes]

theorem length_window (below : ℕ → UInt8) (w : Bytes) (n : ℕ) :
    (window below w n).length = n := by
  unfold window
  split
  · simp
    omega
  · simp
    omega

theorem around_window (below : ℕ → UInt8) (w rest : Bytes) (n : ℕ) :
    around below (w ++ rest) ((w.length : ℤ) - n) = window below w n ++ rest := by
  unfold around window
  by_cases h : n ≤ w.length
  · rw [if_pos (by omega), if_pos h, List.drop_append_of_le_length (by omega)]
    congr 2
    omega
  · rw [if_neg (by omega), if_neg h, List.append_assoc]
    congr 2
    omega

theorem sstrcmp_eq_zero_iff {w dst : Bytes} (hlen : w.length = dst.length) (h0 : 0 ∉ dst)
    (rest : Bytes) (hr : rest.headD 0 = 0) : sstrcmp (w ++ rest) dst = 0 ↔ w = dst := by
  induction w generalizing dst with
  | nil =>
      obtain rfl : dst = [] := List.length_eq_zero_iff.mp hlen.symm
      cases rest with
      | nil => simp [sstrcmp]
      | cons c rest =>
          have hc : c = 0 := hr
          simp [sstrcmp, hc]
  | cons c w ih =>
      cases dst with
      | nil => simp at hlen
      | cons b dst =>
          simp only [List.mem_cons, not_or] at h0
          rw [List.cons_append, sstrcmp, List.headD_cons, List.tail_cons, List.cons.injEq]
          by_cases hcb : c = b
          · subst hcb
            rw [if_pos ⟨Ne.symm h0.1, rfl⟩, ih (by simpa using hlen) h0.2]
            simp
          · rw [if_neg (by simp [hcb])]
            have : c.toNat ≠ b.toNat := fun h => hcb (UInt8.toNat_inj.mp h)
            simp only [hcb, false_and, iff_false]
            omega

/-- `last_strcmp` compares the kanji with as many bytes in front of the terminator of the
reading, be they the reading's or not. -/
theorem lastStrcmp_eq (below : ℕ → UInt8) {w dst : Bytes} (hw : 0 ∉ w) (hd : 0 ∉ dst)
    (rest : Bytes) (hr : rest.headD 0 = 0) :
    lastStrcmp below (w ++ rest) dst =
      if dst.length ≤ maxYomiAskNumber * 2 ∧ window below w dst.length = dst
      then dst.length / 2 else 0 := by
  have hcmp := sstrcmp_eq_zero_iff (length_window below w dst.length) hd rest hr
  simp only [lastStrcmp, sstrlen_append hw rest hr, sstrlen_eq_length hd, around_window]
  by_cases hlen : dst.length > maxYomiAskNumber * 2
  · rw [if_pos hlen, if_neg (by omega)]
  · rw [if_neg hlen]
    by_cases he : window below w dst.length = dst
    · rw [if_neg (by simpa using hcmp.mpr he), if_pos ⟨by omega, he⟩]
    · rw [if_pos (by simpa using fun h => he (hcmp.mp h)), if_neg (by simp [he])]

/-! ## The codes of characters -/

theorem mask_row {c : UInt8} (h : 0xa1 ≤ c ∧ c ≤ 0xfe) :
    c &&& normalKanjiMask ≠ 0 ∧ c &&& normalKanjiMask ≠ 0xff ∧
      codesize (c &&& normalKanjiMask) = 2 ∧
      (c &&& normalKanjiMask) ||| 0x80 = c ∧ (c &&& normalKanjiMask) &&& 0x80 = 0 ∧
      c &&& 0x80 ≠ 0 ∧ c ||| 0x80 = c := by
  revert h
  revert c
  apply Byte.forall_of_fin
  decide +kernel

theorem mask_row_mode {c : UInt8} (h : 0xa1 ≤ c ∧ c ≤ 0xfe) :
    let mode := (c &&& normalKanjiMask) &&& kanjiModeMask
    mode ≠ zenHiraAssyuku ∧ mode ≠ zenKataAssyuku ∧ mode ≠ offsetAssyuku ∧
      mode ≠ aiAttribute ∧ mode ≠ leadingHankaku ∧ mode ≠ kanjiAssyuku := by
  revert h
  revert c
  apply Byte.forall_of_fin
  decide +kernel

theorem EucChar.isCodes (ch : EucChar) : IsCodes ch.code ∧ ch.code ≠ [] ∧
    kanjiStrEnd ∉ ch.code ∧ hinsiBlkTerm ∉ ch.code := by
  cases ch with
  | ascii c h =>
      have h' : c ≠ 0xff := by
        rintro rfl
        exact absurd h.2 (by decide)
      exact ⟨.long (by decide) (by decide) .nil, by simp [code], by
        simpa [code, kanjiStrEnd, leadingHankaku] using h.1.symm, by
        simpa [code, hinsiBlkTerm, leadingHankaku] using h'.symm⟩
  | hankaku c h =>
      obtain ⟨h₀, h₁, -⟩ := row_byte (c := c) ⟨h.1, h.2.trans (by decide)⟩
      exact ⟨.long (by decide) (by decide) .nil, by simp [code], by
        simpa [code, kanjiStrEnd, leadingHankaku] using h₀.symm, by
        simpa [code, hinsiBlkTerm, leadingHankaku] using h₁.symm⟩
  | jisx0208 c₁ c₂ h₁ h₂ =>
      have m₁ := mask_row h₁
      have m₂ := mask_row h₂
      refine ⟨.long m₁.1 (by rw [m₁.2.2.1]; decide) .nil, by simp [code], ?_, ?_⟩
      · simp [code, kanjiStrEnd, m₁.1.symm, m₂.1.symm]
      · simp [code, hinsiBlkTerm, m₁.2.1.symm, m₂.2.1.symm]
  | jisx0212 c₁ c₂ h₁ h₂ =>
      have m₁ := mask_row h₁
      obtain ⟨h₀, h₃, -⟩ := row_byte h₂
      refine ⟨.long m₁.1 (by rw [m₁.2.2.1]; decide) .nil, by simp [code], ?_, ?_⟩
      · simp [code, kanjiStrEnd, m₁.1.symm, h₀.symm]
      · simp [code, hinsiBlkTerm, m₁.2.1.symm, h₃.symm]

theorem ascii_byte {c : UInt8} (h : c ≠ 0 ∧ c < 0x80) :
    c ≠ ss2 ∧ c ≠ ss3 ∧ c &&& 0x80 = 0 := by
  revert h
  revert c
  apply Byte.forall_of_fin
  decide +kernel

/-- The loop of `cvtknj` at the beginning of a character. -/
theorem cvtknjLoop_cons (below belowKana : ℕ → UInt8) (yomi kana : Bytes) (ch : EucChar)
    (s : List EucChar) :
    cvtknjLoop below belowKana yomi kana (eucBytes (ch :: s)) =
      if lastStrcmp below yomi (eucBytes (ch :: s)) ≠ 0 then
        [hiraCode (lastStrcmp below yomi (eucBytes (ch :: s)))]
      else if lastStrcmp belowKana kana (eucBytes (ch :: s)) ≠ 0 then
        [kataCode (lastStrcmp belowKana kana (eucBytes (ch :: s)))]
      else ch.code ++ cvtknjLoop below belowKana yomi kana (eucBytes s) := by
  cases ch with
  | ascii c h =>
      obtain ⟨h₂, h₃, h₈⟩ := ascii_byte h
      rw [eucBytes_cons, EucChar.bytes, List.singleton_append, cvtknjLoop.eq_def]
      simp only [if_neg h.1, if_neg h₂, if_neg h₃, h₈, ne_eq, not_true_eq_false, if_false]
      rfl
  | hankaku c h =>
      rw [eucBytes_cons, EucChar.bytes, List.cons_append, cvtknjLoop.eq_def]
      simp only [if_neg (by decide : ss2 ≠ 0), List.singleton_append, if_pos]
      rfl
  | jisx0208 c₁ c₂ h₁ h₂ =>
      obtain ⟨h₀, -, -, h₂', h₃⟩ := row_byte h₁
      have h₈ := (mask_row h₁).2.2.2.2.2.1
      rw [eucBytes_cons, EucChar.bytes, List.cons_append, cvtknjLoop.eq_def]
      simp only [if_neg h₀, if_neg h₂', if_neg h₃, if_pos h₈, List.singleton_append]
      rfl
  | jisx0212 c₁ c₂ h₁ h₂ =>
      rw [eucBytes_cons, EucChar.bytes, List.cons_append, cvtknjLoop.eq_def]
      simp only [if_neg (by decide : ss3 ≠ 0), if_neg (by decide : ss3 ≠ ss2), if_pos,
        List.cons_append, List.nil_append]
      rfl

/-! ## Code strings -/

theorem hiraCode_facts : ∀ n : Fin 17, n.val ≠ 0 →
    hiraCode n ≠ 0 ∧ hiraCode n ≠ 0xff ∧ codesize (hiraCode n) = 1 ∧
      hiraCode n &&& kanjiModeMask = zenHiraAssyuku ∧
      (hiraCode n &&& kanjiCodeMask).toNat + 1 = n := by
  decide

theorem kataCode_facts : ∀ n : Fin 17, n.val ≠ 0 →
    kataCode n ≠ 0 ∧ kataCode n ≠ 0xff ∧ codesize (kataCode n) = 1 ∧
      kataCode n &&& kanjiModeMask = zenKataAssyuku ∧
      (kataCode n &&& kanjiCodeMask).toNat + 1 = n := by
  decide

theorem lastStrcmp_le (below : ℕ → UInt8) (src dst : Bytes) :
    lastStrcmp below src dst ≤ maxYomiAskNumber := by
  simp only [lastStrcmp]
  split
  · exact Nat.zero_le _
  · split
    · exact Nat.zero_le _
    · simp only [maxYomiAskNumber] at *
      omega

/-- A code string as `cvtknj` builds it: it holds no terminator of any kind. -/
structure IsPlain (k : Bytes) : Prop where
  codes : IsCodes k
  end_notMem : kanjiStrEnd ∉ k
  term_notMem : hinsiBlkTerm ∉ k

theorem IsPlain.append {k l : Bytes} (hk : IsPlain k) (hl : IsPlain l) : IsPlain (k ++ l) :=
  ⟨hk.codes.append hl.codes, by simp [hk.end_notMem, hl.end_notMem], by
    simp [hk.term_notMem, hl.term_notMem]⟩

theorem IsPlain.isUsrKnjStr {k : Bytes} (h : IsPlain k) (hne : k ≠ []) : IsUsrKnjStr k where
  codes := h.codes
  ne_nil := hne
  ne_term := by
    cases k with
    | nil => exact absurd rfl hne
    | cons c k =>
        have := h.term_notMem
        simp only [List.mem_cons, not_or] at this
        exact Ne.symm this.1
  end_notMem := h.end_notMem
  term_notMem := h.term_notMem

theorem EucChar.isPlain (ch : EucChar) : IsPlain ch.code :=
  ⟨ch.isCodes.1, ch.isCodes.2.2.1, ch.isCodes.2.2.2⟩

theorem isPlain_hira {n : ℕ} (hn : n ≠ 0) (hle : n ≤ maxYomiAskNumber) :
    IsPlain [hiraCode n] := by
  obtain ⟨h₀, h₁, hs, -⟩ := hiraCode_facts ⟨n, Nat.lt_succ_of_le hle⟩ hn
  exact ⟨.short h₀ hs .nil, fun h => h₀ (List.mem_singleton.mp h).symm,
    fun h => h₁ (List.mem_singleton.mp h).symm⟩

theorem isPlain_kata {n : ℕ} (hn : n ≠ 0) (hle : n ≤ maxYomiAskNumber) :
    IsPlain [kataCode n] := by
  obtain ⟨h₀, h₁, hs, -⟩ := kataCode_facts ⟨n, Nat.lt_succ_of_le hle⟩ hn
  exact ⟨.short h₀ hs .nil, fun h => h₀ (List.mem_singleton.mp h).symm,
    fun h => h₁ (List.mem_singleton.mp h).symm⟩

theorem isPlain_cvtknjLoop (below belowKana : ℕ → UInt8) (yomi kana : Bytes)
    (s : List EucChar) : IsPlain (cvtknjLoop below belowKana yomi kana (eucBytes s)) := by
  induction s with
  | nil => exact ⟨.nil, by simp [cvtknjLoop], by simp [cvtknjLoop]⟩
  | cons ch s ih =>
      rw [cvtknjLoop_cons]
      split
      · rename_i h
        exact isPlain_hira h (lastStrcmp_le _ _ _)
      · split
        · rename_i h
          exact isPlain_kata h (lastStrcmp_le _ _ _)
        · exact ch.isPlain.append ih

theorem cvtknjLoop_ne_nil (below belowKana : ℕ → UInt8) (yomi kana : Bytes)
    {s : List EucChar} (hs : s ≠ []) :
    cvtknjLoop below belowKana yomi kana (eucBytes s) ≠ [] := by
  cases s with
  | nil => exact absurd rfl hs
  | cons ch s =>
      rw [cvtknjLoop_cons]
      split
      · simp
      · split
        · simp
        · intro h
          exact ch.isCodes.2.1 (List.append_eq_nil_iff.mp h).1

/-! ## The whole string -/

section Cvtknj

variable {yomi : Bytes} {ps : List (UInt8 × UInt8)}

/-- How many characters the leading abbreviation of `s` stands for: characters of the
reading, or if not even one is shared, of its katakana form. -/
def topLen (ps : List (UInt8 × UInt8)) (s : List EucChar) : ℕ :=
  if min (lead ps s) maxYomiAskNumber ≠ 0 then min (lead ps s) maxYomiAskNumber
  else min (lead (ps.map kataPair) s) maxYomiAskNumber

/-- The leading abbreviation. -/
def topCode (ps : List (UInt8 × UInt8)) (s : List EucChar) : Bytes :=
  if min (lead ps s) maxYomiAskNumber ≠ 0 then [hiraCode (topLen ps s)]
  else if topLen ps s ≠ 0 then [kataCode (topLen ps s)]
  else []

theorem topLen_le (ps : List (UInt8 × UInt8)) (s : List EucChar) :
    topLen ps s ≤ maxYomiAskNumber ∧ topLen ps s ≤ s.length ∧ topLen ps s ≤ ps.length := by
  have h₁ := lead_le_left ps s
  have h₂ := lead_le_right ps s
  have h₃ := lead_le_left (ps.map kataPair) s
  have h₄ := lead_le_right (ps.map kataPair) s
  rw [List.length_map] at h₃
  unfold topLen
  split <;> omega

theorem eucBytes_take_topLen (ps : List (UInt8 × UInt8)) (s : List EucChar) :
    (eucBytes (s.take (topLen ps s))).length = topLen ps s * 2 := by
  have hlen : ∀ qs : List (UInt8 × UInt8), topLen ps s ≤ qs.length →
      (flat (qs.take (topLen ps s))).length = topLen ps s * 2 := by
    intro qs h
    simp only [length_flat, List.length_take]
    omega
  have hle := (topLen_le ps s).2.2
  by_cases h : min (lead ps s) maxYomiAskNumber ≠ 0
  · have he : topLen ps s = min (lead ps s) maxYomiAskNumber := if_pos h
    rw [eucBytes_take_of_le_lead ps (by rw [he]; exact min_le_left _ _), hlen ps hle]
  · have he : topLen ps s = min (lead (ps.map kataPair) s) maxYomiAskNumber := if_neg h
    rw [eucBytes_take_of_le_lead (ps.map kataPair) (by rw [he]; exact min_le_left _ _),
      hlen _ (by simpa using hle)]

theorem cvtknjTop_eq (h : YomiText yomi ps) (s : List EucChar) :
    cvtknjTop yomi (flat (ps.map kataPair)) (eucBytes s) = (topCode ps s, topLen ps s) := by
  obtain ⟨rest, hy, hr⟩ := h.text
  have hkpair : ∀ p ∈ ps.map kataPair, IsYomiPair p := by
    intro p hp
    obtain ⟨q, hq, rfl⟩ := List.mem_map.mp hp
    exact (h.isPair q hq).kata
  have h₁ : topStrcmp yomi (eucBytes s) = min (lead ps s) maxYomiAskNumber := by
    rw [hy, topStrcmp_eq h.isPair rest hr]
  have h₂ : topStrcmp (flat (ps.map kataPair)) (eucBytes s) =
      min (lead (ps.map kataPair) s) maxYomiAskNumber := by
    have := topStrcmp_eq hkpair [] rfl s
    rwa [List.append_nil] at this
  rw [cvtknjTop, h₁, h₂, topCode, topLen]
  by_cases hlead : min (lead ps s) maxYomiAskNumber ≠ 0
  · simp only [if_pos hlead]
  · by_cases hkata : min (lead (ps.map kataPair) s) maxYomiAskNumber ≠ 0
    · simp only [if_neg hlead, if_pos hkata]
    · simp only [if_neg hlead, if_neg hkata]
      simp only [ne_eq, not_not] at hkata
      rw [hkata]

/-- `cvtknj` abbreviates the beginning of the string and goes on with what is left of it. -/
theorem cvtknj_eq (h : YomiText yomi ps) (below belowKana : ℕ → UInt8) (s : List EucChar) :
    cvtknj below belowKana yomi (eucBytes s) =
      topCode ps s ++ cvtknjLoop below belowKana yomi (flat (ps.map kataPair))
        (eucBytes (s.drop (topLen ps s))) := by
  obtain ⟨rest, hy, hr⟩ := h.text
  have hkana : yomi2kata yomi = flat (ps.map kataPair) := by
    rw [hy, yomi2kata_flat h.isPair rest hr]
  have hdrop : (eucBytes s).drop (topLen ps s * 2) = eucBytes (s.drop (topLen ps s)) := by
    have hsplit := eucBytes_append (s.take (topLen ps s)) (s.drop (topLen ps s))
    rw [List.take_append_drop] at hsplit
    rw [hsplit, ← eucBytes_take_topLen, List.drop_left]
  rw [cvtknj, hkana]
  simp only [cvtknjTop_eq h, hdrop]

theorem isPlain_topCode (ps : List (UInt8 × UInt8)) (s : List EucChar) :
    IsPlain (topCode ps s) := by
  have hle := (topLen_le ps s).1
  unfold topCode
  split
  · rename_i h
    refine isPlain_hira ?_ hle
    rwa [topLen, if_pos h]
  · split
    · rename_i h
      exact isPlain_kata h hle
    · exact ⟨.nil, by simp, by simp⟩

theorem topCode_ne_nil {ps : List (UInt8 × UInt8)} {s : List EucChar} (h : topLen ps s ≠ 0) :
    topCode ps s ≠ [] := by
  unfold topCode
  split
  · simp
  · simp

/-- What `cvtknj` produces is a kanji string of a user dictionary. -/
theorem cvtknj_isUsrKnjStr (h : YomiText yomi ps) (below belowKana : ℕ → UInt8)
    {s : List EucChar} (hs : s ≠ []) :
    IsUsrKnjStr (cvtknj below belowKana yomi (eucBytes s)) := by
  rw [cvtknj_eq h]
  refine ((isPlain_topCode ps s).append
    (isPlain_cvtknjLoop _ _ _ _ _)).isUsrKnjStr fun hnil => ?_
  obtain ⟨htop, hloop⟩ := List.append_eq_nil_iff.mp hnil
  have hz : topLen ps s = 0 := by
    by_contra hz
    exact topCode_ne_nil hz htop
  rw [hz, List.drop_zero] at hloop
  exact cvtknjLoop_ne_nil _ _ _ _ hs hloop

end Cvtknj

end Sj3
