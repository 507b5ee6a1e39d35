import Sj3.Verification.Kanji.Expand

/-! # Compressing and expanding

When the expansion of a compressed string is the string again. It is not when the last
code abbreviates the wrong end of the reading, or more than the reading has. -/

namespace Sj3

/-! ## The loop -/

/-- The string `t` ends with the whole text `w`, and what it has in front of it happens to
lie in memory in front of `w`. -/
def Beyond (below : ℕ → UInt8) (w t : Bytes) : Prop :=
  w.length < t.length ∧ t.length ≤ maxYomiAskNumber * 2 ∧ window below w t.length = t

section Loop

variable {below belowKana below' : ℕ → UInt8} {ref : SegRef} {yomi : Bytes}
  {ps : List (UInt8 × UInt8)} {s : List EucChar}

theorem YomiText.kata (h : YomiText yomi ps) : ∀ p ∈ ps.map kataPair, IsYomiPair p := by
  intro p hp
  obtain ⟨q, hq, rfl⟩ := List.mem_map.mp hp
  exact (h.isPair q hq).kata

theorem YomiText.lastStrcmp_yomi (h : YomiText yomi ps) (below : ℕ → UInt8)
    (s : List EucChar) :
    lastStrcmp below yomi (eucBytes s) =
      if (eucBytes s).length ≤ maxYomiAskNumber * 2 ∧
          window below (flat ps) (eucBytes s).length = eucBytes s
        then (eucBytes s).length / 2 else 0 := by
  obtain ⟨rest, hy, hr⟩ := h.text
  rw [hy]
  exact lastStrcmp_eq below (zero_notMem_flat h.isPair) (zero_notMem_eucBytes s) rest hr

theorem YomiText.lastStrcmp_kana (h : YomiText yomi ps) (below : ℕ → UInt8)
    (s : List EucChar) :
    lastStrcmp below (flat (ps.map kataPair)) (eucBytes s) =
      if (eucBytes s).length ≤ maxYomiAskNumber * 2 ∧
          window below (flat (ps.map kataPair)) (eucBytes s).length = eucBytes s
        then (eucBytes s).length / 2 else 0 := by
  have := lastStrcmp_eq below (zero_notMem_flat h.kata) (zero_notMem_eucBytes s) [] rfl
  rwa [List.append_nil] at this

/-- A string that fits into the reading and ends it consists of its last characters. -/
theorem drop_of_window {qs : List (UInt8 × UInt8)} (hqs : ∀ p ∈ qs, IsYomiPair p)
    (hw : window below (flat qs) (eucBytes s).length = eucBytes s)
    (hle : (eucBytes s).length ≤ (flat qs).length) :
    (eucBytes s).length = 2 * s.length ∧ s.length ≤ qs.length ∧
      flat (qs.drop (qs.length - s.length)) = eucBytes s := by
  rw [window, if_pos hle] at hw
  have hlen : (eucBytes s).length = 2 * s.length := by
    refine length_eucBytes_of_row fun b hb => ?_
    rw [← hw] at hb
    exact flat_row hqs b (List.mem_of_mem_drop hb)
  rw [length_flat] at hle hw
  refine ⟨hlen, by omega, ?_⟩
  rw [← flat_drop, ← hw]
  congr 1
  omega

theorem headD_cvtknjLoop (hs : s ≠ []) (yomi kana rest : Bytes) :
    (cvtknjLoop below belowKana yomi kana (eucBytes s) ++ rest).headD 0 ≠ kanjiStrEnd :=
  (isPlain_cvtknjLoop _ _ _ _ _).codes.headD_ne (cvtknjLoop_ne_nil _ _ _ _ hs) _ _

theorem length_code_append (ch : EucChar) (p : Bytes) :
    (ch.code ++ p).length = p.length + 2 := by
  obtain ⟨c, c', he, -⟩ := codesize_code ch
  simp [he]

/-- Unless it runs into the memory in front of the reading, the loop is reversible. -/
theorem code2kanji_cvtknjLoop (h : YomiText yomi ps) (hs : s ≠ [])
    (hin : ∀ k < s.length, ¬ Beyond below (flat ps) (eucBytes (s.drop k)) ∧
      ¬ Beyond belowKana (flat (ps.map kataPair)) (eucBytes (s.drop k)))
    (rest : Bytes) {fuel : ℕ}
    (hfuel : (cvtknjLoop below belowKana yomi (flat (ps.map kataPair)) (eucBytes s)).length
      ≤ fuel) :
    code2kanji below' ref fuel
      (cvtknjLoop below belowKana yomi (flat (ps.map kataPair)) (eucBytes s) ++
        kanjiStrEnd :: rest) yomi ps.length true = eucBytes s := by
  induction s generalizing fuel with
  | nil => exact absurd rfl hs
  | cons ch s ih =>
      obtain ⟨junk, hy, hr⟩ := h.text
      have hin0 := hin 0 (by simp)
      rw [List.drop_zero] at hin0
      have hpos : 0 < (cvtknjLoop below belowKana yomi (flat (ps.map kataPair))
          (eucBytes (ch :: s))).length :=
        List.length_pos_of_ne_nil (cvtknjLoop_ne_nil _ _ _ _ hs)
      obtain ⟨fuel, rfl⟩ : ∃ m, fuel = m + 1 := ⟨fuel - 1, by omega⟩
      rw [cvtknjLoop_cons] at hfuel ⊢
      by_cases h₁ : lastStrcmp below yomi (eucBytes (ch :: s)) ≠ 0
      · -- the rest is the end of the reading
        rw [if_pos h₁]
        have hle := lastStrcmp_le below yomi (eucBytes (ch :: s))
        have hcmp := h.lastStrcmp_yomi below (ch :: s)
        rw [hcmp] at h₁ hle ⊢
        split at h₁
        · rename_i hw
          have hfit : (eucBytes (ch :: s)).length ≤ (flat ps).length := by
            by_contra hgt
            exact hin0.1 ⟨by omega, hw.1, hw.2⟩
          obtain ⟨hlen, hn, hdrop⟩ := drop_of_window h.isPair hw.2 hfit
          rw [if_pos hw] at hle ⊢
          rw [List.singleton_append, code2kanji_hira h₁ hle, List.headD_cons, if_pos rfl, hlen,
            Nat.mul_div_cancel_left _ (by decide), hy, around_flat hn,
            readN_flat (by rw [List.length_drop]; omega), ← hdrop,
            List.take_of_length_le (by rw [List.length_drop]; omega)]
        · exact absurd rfl h₁
      · rw [if_neg h₁] at hfuel ⊢
        by_cases h₂ : lastStrcmp belowKana (flat (ps.map kataPair)) (eucBytes (ch :: s)) ≠ 0
        · rw [if_pos h₂]
          have hle := lastStrcmp_le belowKana (flat (ps.map kataPair)) (eucBytes (ch :: s))
          have hcmp := h.lastStrcmp_kana belowKana (ch :: s)
          rw [hcmp] at h₂ hle ⊢
          split at h₂
          · rename_i hw
            have hfit : (eucBytes (ch :: s)).length ≤ (flat (ps.map kataPair)).length := by
              by_contra hgt
              exact hin0.2 ⟨by omega, hw.1, hw.2⟩
            obtain ⟨hlen, hn, hdrop⟩ := drop_of_window h.kata hw.2 hfit
            rw [List.length_map] at hn hdrop
            rw [if_pos hw] at hle ⊢
            rw [List.singleton_append, code2kanji_kata h₂ hle, List.headD_cons, if_pos rfl, hlen,
              Nat.mul_div_cancel_left _ (by decide), hy, around_flat hn,
              kataN_flat (fun p hp => h.isPair p (List.mem_of_mem_drop hp))
                (by rw [List.length_drop]; omega), ← hdrop,
              List.take_of_length_le (by rw [List.length_drop]; omega), List.map_drop]
          · exact absurd rfl h₂
        · rw [if_neg h₂, length_code_append] at hfuel
          rw [if_neg h₂, List.append_assoc, code2kanji_code]
          by_cases hs' : s = []
          · subst hs'
            simp [cvtknjLoop]
          · rw [if_neg (headD_cvtknjLoop hs' _ _ _), ih hs' ?_ (by omega)]
            · rfl
            · intro k hk
              have := hin (k + 1) (by simpa using hk)
              rwa [List.drop_succ_cons] at this

/-- The first byte of what is expanded from the memory in front of the reading. -/
theorem headD_around_beyond (b : UInt8) {w : Bytes} {yl n : ℕ} (h : yl < n) :
    (around (fun _ => b) w (((yl : ℤ) - n) * 2)).headD 0 = b := by
  obtain ⟨k, hk⟩ : ∃ k, (-(((yl : ℤ) - n) * 2)).toNat = k + 1 :=
    ⟨(-(((yl : ℤ) - n) * 2)).toNat - 1, by omega⟩
  have hrange : (List.range (k + 1)).reverse.map (fun _ : ℕ => b) =
      List.replicate (k + 1) b := by
    simp [List.map_const']
  rw [around, if_neg (by omega), hk, belowBytes, hrange]
  rfl

@[simp] theorem length_kataN (n : ℕ) (p : Bytes) : (kataN n p).length = n * 2 := by
  induction n generalizing p with
  | zero => rfl
  | succ n ih =>
      rw [kataN, List.length_cons, List.length_cons, ih]
      omega

theorem headD_kataN {n : ℕ} (hn : n ≠ 0) {p : Bytes} (h : p.headD 0 ≠ 0xa4) :
    (kataN n p).headD 0 = p.headD 0 := by
  obtain ⟨m, rfl⟩ := Nat.exists_eq_succ_of_ne_zero hn
  rw [kataN, if_neg h]
  rfl

/-- What stands for more characters than the reading has is not the string it was made
for, when other bytes lie in front of the reading. -/
theorem out_ne {t out : Bytes} {b : UInt8} {yl : ℕ} (hlt : 2 * yl < t.length)
    (hlen : out.length = t.length / 2 * 2)
    (hhead : yl < t.length / 2 → out.headD 0 = b) (hb : b ≠ t.headD 0) : out ≠ t := by
  rintro rfl
  exact hb (hhead (by omega)).symm

theorem Beyond.length_lt {below : ℕ → UInt8} {ps : List (UInt8 × UInt8)} {t : Bytes}
    (h : Beyond below (flat ps) t) : 2 * ps.length < t.length := by
  have := h.1
  rwa [length_flat] at this

theorem length_eucBytes_drop_le (s : List EucChar) (k : ℕ) :
    (eucBytes (s.drop k)).length ≤ (eucBytes s).length := by
  have h := eucBytes_append (s.take k) (s.drop k)
  rw [List.take_append_drop] at h
  rw [h, List.length_append]
  omega

/-- If the loop runs into the memory in front of the reading it is not reversible. -/
theorem code2kanji_cvtknjLoop_beyond (h : YomiText yomi ps) {k : ℕ} (hk : k < s.length)
    (hout : Beyond below (flat ps) (eucBytes (s.drop k)) ∨
      Beyond belowKana (flat (ps.map kataPair)) (eucBytes (s.drop k))) :
    ∃ below', ∀ (ref : SegRef) (rest : Bytes) (fuel : ℕ),
      (cvtknjLoop below belowKana yomi (flat (ps.map kataPair)) (eucBytes s)).length ≤ fuel →
      code2kanji below' ref fuel
        (cvtknjLoop below belowKana yomi (flat (ps.map kataPair)) (eucBytes s) ++
          kanjiStrEnd :: rest) yomi ps.length true ≠ eucBytes s := by
  induction s generalizing k with
  | nil => simp at hk
  | cons ch s ih =>
      have hlong : 2 * ps.length < (eucBytes (ch :: s)).length := by
        refine lt_of_lt_of_le ?_ (length_eucBytes_drop_le (ch :: s) k)
        rcases hout with hout | hout
        · exact hout.length_lt
        · have := hout.length_lt
          rwa [List.length_map] at this
      obtain ⟨b, hb, hb4⟩ : ∃ b : UInt8, b ≠ (eucBytes (ch :: s)).headD 0 ∧ b ≠ 0xa4 := by
        by_cases h1 : (eucBytes (ch :: s)).headD 0 = 1
        · exact ⟨2, by rw [h1]; decide, by decide⟩
        · exact ⟨1, Ne.symm h1, by decide⟩
      by_cases h₁ : lastStrcmp below yomi (eucBytes (ch :: s)) ≠ 0
      · refine ⟨fun _ => b, fun ref rest fuel hfuel => ?_⟩
        have hle := lastStrcmp_le below yomi (eucBytes (ch :: s))
        have hcmp := h.lastStrcmp_yomi below (ch :: s)
        rw [cvtknjLoop_cons, if_pos h₁] at hfuel ⊢
        obtain ⟨fuel, rfl⟩ : ∃ m, fuel = m + 1 := ⟨fuel - 1, by simp at hfuel; omega⟩
        rw [hcmp] at h₁ hle ⊢
        split at h₁
        · rename_i hw
          rw [if_pos hw] at hle ⊢
          rw [List.singleton_append, code2kanji_hira h₁ hle, List.headD_cons, if_pos rfl]
          refine out_ne hlong (by simp) (fun hn => ?_) hb
          rw [headD_readN (by omega), headD_around_beyond b hn]
        · exact absurd rfl h₁
      · by_cases h₂ : lastStrcmp belowKana (flat (ps.map kataPair)) (eucBytes (ch :: s)) ≠ 0
        · refine ⟨fun _ => b, fun ref rest fuel hfuel => ?_⟩
          have hle := lastStrcmp_le belowKana (flat (ps.map kataPair)) (eucBytes (ch :: s))
          have hcmp := h.lastStrcmp_kana belowKana (ch :: s)
          rw [cvtknjLoop_cons, if_neg h₁, if_pos h₂] at hfuel ⊢
          obtain ⟨fuel, rfl⟩ : ∃ m, fuel = m + 1 := ⟨fuel - 1, by simp at hfuel; omega⟩
          rw [hcmp] at h₂ hle ⊢
          split at h₂
          · rename_i hw
            rw [if_pos hw] at hle ⊢
            rw [List.singleton_append, code2kanji_kata h₂ hle, List.headD_cons, if_pos rfl]
            refine out_ne hlong (by simp) (fun hn => ?_) hb
            have hhead := headD_around_beyond b (w := yomi) hn
            rw [headD_kataN (by omega) (by rw [hhead]; exact hb4), hhead]
          · exact absurd rfl h₂
        · -- the overrun comes later
          have hpos : 0 < ps.length := List.length_pos_of_ne_nil h.ne_nil
          obtain ⟨k, rfl⟩ : ∃ m, k = m + 1 := by
            refine ⟨k - 1, ?_⟩
            by_contra hk0
            obtain rfl : k = 0 := by omega
            rw [List.drop_zero] at hout
            rcases hout with ⟨-, hw⟩ | ⟨-, hw⟩
            · exact h₁ (by rw [h.lastStrcmp_yomi, if_pos hw]; omega)
            · exact h₂ (by rw [h.lastStrcmp_kana, if_pos hw]; omega)
          rw [List.drop_succ_cons] at hout
          have hk' : k < s.length := by simpa using hk
          obtain ⟨below', hb'⟩ := ih hk' hout
          refine ⟨below', fun ref rest fuel hfuel he => ?_⟩
          have hs' : s ≠ [] := by
            rintro rfl
            simp at hk'
          rw [cvtknjLoop_cons, if_neg h₁, if_neg h₂] at hfuel he
          rw [length_code_append] at hfuel
          obtain ⟨fuel, rfl⟩ : ∃ m, fuel = m + 1 := ⟨fuel - 1, by omega⟩
          rw [List.append_assoc, code2kanji_code, if_neg (headD_cvtknjLoop hs' _ _ _),
            eucBytes_cons, List.append_cancel_left_eq] at he
          exact hb' ref rest fuel (by omega) he

end Loop

/-! ## The whole string -/

/-- The code string of `knj` expands to `knj`, and every walk over it consumes it and its
terminator. -/
def RoundTrip (below belowKana : ℕ → UInt8) (yomi knj : Bytes) : Prop :=
  ∀ (below' : ℕ → UInt8) (ref : SegRef) (rest : Bytes),
    let ptr := cvtknj below belowKana yomi knj ++ kanjiStrEnd :: rest
    getkanji below' ref yomi (yomiCodes yomi).length ptr = knj ∧
      code2kanjiStop ptr = kanjiStrEnd :: rest ∧ skipkstr ptr = rest

/-- A string that is the beginning of the reading (or, if nothing of it is, of its katakana
form) and is abbreviated by one code is its end as well, and no part of the string behind
its leading abbreviation matches the reading only together with what lies in front of it
in memory. -/
structure Reversible (below belowKana : ℕ → UInt8) (yomi : Bytes) (s : List EucChar) :
    Prop where
  hira : eucBytes s <+: cstr yomi → s.length ≤ maxYomiAskNumber → eucBytes s <:+ cstr yomi
  kata : topStrcmp yomi (eucBytes s) = 0 → eucBytes s <+: yomi2kata yomi →
    s.length ≤ maxYomiAskNumber → eucBytes s <:+ yomi2kata yomi
  inside : ∀ k < s.length, (cvtknjTop yomi (yomi2kata yomi) (eucBytes s)).2 ≤ k →
    ¬ Beyond below (cstr yomi) (eucBytes (s.drop k)) ∧
      ¬ Beyond belowKana (yomi2kata yomi) (eucBytes (s.drop k))

section Whole

variable {below belowKana below' : ℕ → UInt8} {ref : SegRef} {yomi : Bytes}
  {ps : List (UInt8 × UInt8)} {s : List EucChar}

/-- The leading abbreviation is one of the reading, one of its katakana form, or none. -/
theorem topCode_cases (ps : List (UInt8 × UInt8)) (s : List EucChar) :
    (lead ps s ≠ 0 ∧ topLen ps s ≠ 0 ∧ topCode ps s = [hiraCode (topLen ps s)] ∧
        eucBytes (s.take (topLen ps s)) = flat (ps.take (topLen ps s))) ∨
      (lead ps s = 0 ∧ topLen ps s ≠ 0 ∧ topCode ps s = [kataCode (topLen ps s)] ∧
        eucBytes (s.take (topLen ps s)) = flat ((ps.map kataPair).take (topLen ps s))) ∨
      (topLen ps s = 0 ∧ topCode ps s = []) := by
  by_cases h : min (lead ps s) maxYomiAskNumber ≠ 0
  · have he : topLen ps s = min (lead ps s) maxYomiAskNumber := if_pos h
    refine .inl ⟨by omega, by rwa [he], if_pos h, ?_⟩
    exact eucBytes_take_of_le_lead _ (by rw [he]; exact min_le_left _ _)
  · have he : topLen ps s = min (lead (ps.map kataPair) s) maxYomiAskNumber := if_neg h
    have hlead : lead ps s = 0 := by
      simp only [maxYomiAskNumber] at h
      omega
    by_cases hn : topLen ps s ≠ 0
    · refine .inr (.inl ⟨hlead, hn, ?_, ?_⟩)
      · rw [topCode, if_neg h, if_pos hn]
      · exact eucBytes_take_of_le_lead _ (by rw [he]; exact min_le_left _ _)
    · refine .inr (.inr ⟨not_not.mp hn, ?_⟩)
      rw [topCode, if_neg h, if_neg hn]

/-- With more codes behind it the leading abbreviation expands to what it stands for. -/
theorem code2kanji_topCode (h : YomiText yomi ps) {p : Bytes} (hp : p.headD 0 ≠ kanjiStrEnd)
    (fuel : ℕ) :
    code2kanji below' ref (fuel + (topCode ps s).length) (topCode ps s ++ p) yomi ps.length
        true =
      eucBytes (s.take (topLen ps s)) ++ code2kanji below' ref fuel p yomi ps.length true := by
  obtain ⟨rest, hy, -⟩ := h.text
  obtain ⟨hmax, -, hle⟩ := topLen_le ps s
  rcases topCode_cases ps s with ⟨-, hn, hc, he⟩ | ⟨-, hn, hc, he⟩ | ⟨hn, hc⟩
  · rw [hc, List.length_singleton, List.singleton_append, code2kanji_hira hn hmax, if_neg hp, he,
      hy, readN_flat hle]
  · rw [hc, List.length_singleton, List.singleton_append, code2kanji_kata hn hmax, if_neg hp, he,
      hy, kataN_flat h.isPair hle, List.map_take]
  · rw [hc, hn]
    rfl

/-- As the last code the leading abbreviation stands for the end of the reading. -/
theorem code2kanji_topCode_last (h : YomiText yomi ps) (hn : topLen ps s ≠ 0) (fuel : ℕ)
    (rest : Bytes) :
    code2kanji below' ref (fuel + 1) (topCode ps s ++ kanjiStrEnd :: rest) yomi ps.length
        true =
      if lead ps s = 0 then flat ((ps.map kataPair).drop (ps.length - topLen ps s))
      else flat (ps.drop (ps.length - topLen ps s)) := by
  obtain ⟨junk, hy, -⟩ := h.text
  obtain ⟨hmax, -, hle⟩ := topLen_le ps s
  rcases topCode_cases ps s with ⟨hl, -, hc, -⟩ | ⟨hl, -, hc, -⟩ | ⟨hn', -⟩
  · rw [hc, List.singleton_append, code2kanji_hira hn hmax, List.headD_cons, if_pos rfl,
      if_neg hl, hy, around_flat hle, readN_flat (by rw [List.length_drop]; omega),
      List.take_of_length_le (by rw [List.length_drop]; omega)]
  · rw [hc, List.singleton_append, code2kanji_kata hn hmax, List.headD_cons, if_pos rfl,
      if_pos hl, hy, around_flat hle,
      kataN_flat (fun p hp => h.isPair p (List.mem_of_mem_drop hp))
        (by rw [List.length_drop]; omega),
      List.take_of_length_le (by rw [List.length_drop]; omega), List.map_drop]
  · exact absurd hn' hn

theorem topMatch_append {w : Bytes} (h : 0 ∉ w) (z : Bytes) : topMatch (w ++ z) w = w.length := by
  induction w with
  | nil =>
      cases z with
      | nil => rfl
      | cons c z =>
          rw [List.nil_append, topMatch, if_neg]
          · rfl
          · rintro ⟨hc, he⟩
            exact hc he
  | cons c w ih =>
      simp only [List.mem_cons, not_or] at h
      rw [List.cons_append, topMatch, List.headD_cons, List.tail_cons,
        if_pos ⟨Ne.symm h.1, rfl⟩, ih h.2, List.length_cons]

theorem lead_eq_length_iff {qs : List (UInt8 × UInt8)} (hqs : ∀ p ∈ qs, IsYomiPair p) :
    lead qs s = s.length ↔ eucBytes s <+: flat qs := by
  constructor
  · intro h
    have he := eucBytes_take_of_le_lead qs h.ge
    rw [List.take_length] at he
    rw [he, ← flat_take]
    exact List.take_prefix _ _
  · rintro ⟨z, hz⟩
    have hlen := length_eucBytes_of_row (s := s) fun b hb =>
      flat_row hqs b (by rw [← hz]; exact List.mem_append_left _ hb)
    have hmatch := topMatch_div_two hqs [] rfl s
    rw [List.append_nil, ← hz, topMatch_append (zero_notMem_eucBytes s), hlen,
      Nat.mul_div_cancel_left _ (by decide)] at hmatch
    exact hmatch.symm

theorem suffix_flat_iff {qs : List (UInt8 × UInt8)} {t : Bytes} {n : ℕ} (hn : n ≤ qs.length)
    (hlen : t.length = n * 2) : t <:+ flat qs ↔ flat (qs.drop (qs.length - n)) = t := by
  have hdrop : (flat qs).drop ((flat qs).length - t.length) = flat (qs.drop (qs.length - n)) := by
    rw [← flat_drop, length_flat, hlen]
    congr 1
    omega
  rw [List.suffix_iff_eq_drop, hdrop, eq_comm]

theorem YomiText.cstr_eq (h : YomiText yomi ps) : cstr yomi = flat ps := by
  obtain ⟨rest, hy, hr⟩ := h.text
  have h0 : ∀ b ∈ flat ps, decide (b ≠ 0) = true := by
    intro b hb
    simp only [decide_eq_true_eq]
    rintro rfl
    exact zero_notMem_flat h.isPair hb
  rw [cstr, hy, List.takeWhile_append_of_pos h0]
  cases rest with
  | nil => simp
  | cons c rest =>
      have hc : c = 0 := hr
      simp [hc]

theorem YomiText.yomi2kata_eq (h : YomiText yomi ps) :
    yomi2kata yomi = flat (ps.map kataPair) := by
  obtain ⟨rest, hy, hr⟩ := h.text
  rw [hy, yomi2kata_flat h.isPair rest hr]

theorem YomiText.topStrcmp_eq_zero_iff (h : YomiText yomi ps) (s : List EucChar) :
    topStrcmp yomi (eucBytes s) = 0 ↔ lead ps s = 0 := by
  obtain ⟨rest, hy, hr⟩ := h.text
  rw [hy, topStrcmp_eq h.isPair rest hr]
  simp only [maxYomiAskNumber]
  omega

theorem YomiText.cvtknjTop_snd (h : YomiText yomi ps) (s : List EucChar) :
    (cvtknjTop yomi (yomi2kata yomi) (eucBytes s)).2 = topLen ps s := by
  rw [h.yomi2kata_eq, cvtknjTop_eq h]

/-- Walks over the codes stop where they should, whatever the codes stand for. -/
theorem walks_cvtknj (h : YomiText yomi ps) (hs : s ≠ []) (rest : Bytes) :
    code2kanjiStop (cvtknj below belowKana yomi (eucBytes s) ++ kanjiStrEnd :: rest) =
        kanjiStrEnd :: rest ∧
      skipkstr (cvtknj below belowKana yomi (eucBytes s) ++ kanjiStrEnd :: rest) = rest := by
  have hk := cvtknj_isUsrKnjStr h below belowKana hs
  exact ⟨code2kanjiStop_codes hk.codes hk.ne_nil rest, skipkstr_codes hk.codes hk.ne_nil rest⟩

/-- `getkanji` may take as many steps as the code string has bytes, and more. -/
theorem exists_fuel (ref : SegRef) (k rest : Bytes) (n : ℕ) (hn : n ≤ k.length + 1) :
    ∃ m, ref.fuel (k ++ kanjiStrEnd :: rest) = m + n ∧ k.length ≤ m + n := by
  have hlen : k.length + 1 ≤ ref.fuel (k ++ kanjiStrEnd :: rest) := by
    simp only [SegRef.fuel, List.length_append, List.length_cons]
    omega
  exact ⟨ref.fuel (k ++ kanjiStrEnd :: rest) - n, by omega, by omega⟩

theorem roundTrip_iff_of_top (h : YomiText yomi ps) (hs : s ≠ [])
    (hall : topLen ps s = s.length) :
    RoundTrip below belowKana yomi (eucBytes s) ↔
      if lead ps s = 0 then eucBytes s <:+ flat (ps.map kataPair)
      else eucBytes s <:+ flat ps := by
  have hn : topLen ps s ≠ 0 := by
    rw [hall]
    exact fun hz => hs (List.length_eq_zero_iff.mp hz)
  obtain ⟨-, -, hle⟩ := topLen_le ps s
  have hlen : (eucBytes s).length = topLen ps s * 2 := by
    have := eucBytes_take_topLen ps s
    rwa [hall, List.take_length, ← hall] at this
  have hcode : cvtknj below belowKana yomi (eucBytes s) = topCode ps s := by
    rw [cvtknj_eq h, hall, List.drop_length, eucBytes_nil, cvtknjLoop, List.append_nil]
  have hout : ∀ (below' : ℕ → UInt8) (ref : SegRef) (rest : Bytes),
      getkanji below' ref yomi (yomiCodes yomi).length
          (cvtknj below belowKana yomi (eucBytes s) ++ kanjiStrEnd :: rest) =
        if lead ps s = 0 then flat ((ps.map kataPair).drop (ps.length - topLen ps s))
        else flat (ps.drop (ps.length - topLen ps s)) := by
    intro below' ref rest
    obtain ⟨m, hm, -⟩ := exists_fuel ref (topCode ps s) rest 1 (by simp)
    rw [hcode, getkanji, ← h.length, hm, code2kanji_topCode_last h hn]
  have hk : topLen ps s ≤ (ps.map kataPair).length := by rwa [List.length_map]
  have hsuf := suffix_flat_iff hle hlen
  have hsuf' := suffix_flat_iff hk hlen
  rw [List.length_map] at hsuf'
  constructor
  · intro hrt
    have := (hrt (fun _ => 0) ⟨[], []⟩ []).1
    rw [hout] at this
    split
    · rename_i hz
      rw [if_pos hz] at this
      exact hsuf'.mpr this
    · rename_i hz
      rw [if_neg hz] at this
      exact hsuf.mpr this
  · intro hw below' ref rest
    refine ⟨?_, walks_cvtknj h hs rest⟩
    rw [hout]
    split
    · rename_i hz
      rw [if_pos hz] at hw
      exact hsuf'.mp hw
    · rename_i hz
      rw [if_neg hz] at hw
      exact hsuf.mp hw

theorem roundTrip_iff_of_rest (h : YomiText yomi ps) (hs : s ≠ [])
    (hrest : topLen ps s < s.length) :
    RoundTrip below belowKana yomi (eucBytes s) ↔
      ∀ k < s.length, topLen ps s ≤ k →
        ¬ Beyond below (flat ps) (eucBytes (s.drop k)) ∧
          ¬ Beyond belowKana (flat (ps.map kataPair)) (eucBytes (s.drop k)) := by
  have hr : s.drop (topLen ps s) ≠ [] := by
    rw [ne_eq, List.drop_eq_nil_iff]
    omega
  have hout : ∀ (below' : ℕ → UInt8) (ref : SegRef) (rest : Bytes), ∃ fuel,
      (cvtknjLoop below belowKana yomi (flat (ps.map kataPair))
        (eucBytes (s.drop (topLen ps s)))).length ≤ fuel ∧
      (getkanji below' ref yomi (yomiCodes yomi).length
          (cvtknj below belowKana yomi (eucBytes s) ++ kanjiStrEnd :: rest) = eucBytes s ↔
        code2kanji below' ref fuel
          (cvtknjLoop below belowKana yomi (flat (ps.map kataPair))
            (eucBytes (s.drop (topLen ps s))) ++ kanjiStrEnd :: rest) yomi ps.length true =
          eucBytes (s.drop (topLen ps s))) := by
    intro below' ref rest
    obtain ⟨m, hm, hlen⟩ := exists_fuel ref (cvtknj below belowKana yomi (eucBytes s)) rest
      (topCode ps s).length (by rw [cvtknj_eq h, List.length_append]; omega)
    rw [cvtknj_eq h, List.length_append] at hlen
    refine ⟨m, by omega, ?_⟩
    have hsplit : eucBytes s =
        eucBytes (s.take (topLen ps s)) ++ eucBytes (s.drop (topLen ps s)) := by
      rw [← eucBytes_append, List.take_append_drop]
    rw [getkanji, ← h.length, hm, cvtknj_eq h, List.append_assoc,
      code2kanji_topCode h (headD_cvtknjLoop hr _ _ _)]
    conv_lhs => rw [hsplit]
    exact List.append_right_inj _
  constructor
  · intro hrt k hk hle
    by_contra hnot
    rw [not_and_or, not_not, not_not] at hnot
    have hk' : k - topLen ps s < (s.drop (topLen ps s)).length := by
      rw [List.length_drop]
      omega
    have hdrop : (s.drop (topLen ps s)).drop (k - topLen ps s) = s.drop k := by
      rw [List.drop_drop, Nat.add_sub_cancel' hle]
    rw [← hdrop] at hnot
    obtain ⟨below', hb⟩ := code2kanji_cvtknjLoop_beyond h hk' hnot
    obtain ⟨fuel, hfuel, hiff⟩ := hout below' ⟨[], []⟩ []
    exact hb _ _ fuel hfuel (hiff.mp (hrt below' ⟨[], []⟩ []).1)
  · intro hin below' ref rest
    obtain ⟨fuel, hfuel, hiff⟩ := hout below' ref rest
    refine ⟨hiff.mpr (code2kanji_cvtknjLoop h hr (fun k hk => ?_) rest hfuel),
      walks_cvtknj h hs rest⟩
    rw [List.length_drop] at hk
    rw [List.drop_drop]
    exact hin _ (by omega) (Nat.le_add_right _ _)

end Whole

/-- The expansion of a compressed string is the string if and only if the string is
`Reversible`. -/
theorem cvtknj_roundTrip_iff (below belowKana : ℕ → UInt8) (yomi : Bytes) (s : List EucChar)
    (hall : (sj2cdStr yomi (maxWdYomiLen + 1)).2 = true)
    (hv : isvyomi (yomiCodes yomi) = true) (hk : isvknj (eucBytes s) = true) :
    RoundTrip below belowKana yomi (eucBytes s) ↔ Reversible below belowKana yomi s := by
  obtain ⟨ps, h⟩ := (acceptedYomi_of_check hall hv).exists_text
  have hs : s ≠ [] := by
    rintro rfl
    simp [isvknj] at hk
  have hpos : 0 < s.length := List.length_pos_of_ne_nil hs
  obtain ⟨hmax, hle, -⟩ := topLen_le ps s
  have hhira := lead_eq_length_iff (s := s) h.isPair
  have hkata := lead_eq_length_iff (s := s) h.kata
  have htop : (lead ps s ≠ 0 ∧ topLen ps s = min (lead ps s) maxYomiAskNumber) ∨
      (lead ps s = 0 ∧ topLen ps s = min (lead (ps.map kataPair) s) maxYomiAskNumber) := by
    by_cases hz : lead ps s = 0
    · exact .inr ⟨hz, if_neg (by rw [hz]; simp)⟩
    · exact .inl ⟨hz, if_pos (by simp only [maxYomiAskNumber]; omega)⟩
  rcases Nat.lt_or_ge (topLen ps s) s.length with hrest | hall
  · -- some of the string is left behind the leading abbreviation
    rw [roundTrip_iff_of_rest h hs hrest]
    constructor
    · intro hin
      refine ⟨fun hpre hlen => ?_, fun hz hpre hlen => ?_, ?_⟩
      · rw [h.cstr_eq, ← hhira] at hpre
        omega
      · rw [h.yomi2kata_eq, ← hkata] at hpre
        rw [h.topStrcmp_eq_zero_iff] at hz
        omega
      · rwa [h.cvtknjTop_snd, h.cstr_eq, h.yomi2kata_eq]
    · intro hrev
      have hin := hrev.inside
      rwa [h.cvtknjTop_snd, h.cstr_eq, h.yomi2kata_eq] at hin
  · -- the whole string is one abbreviation
    rw [roundTrip_iff_of_top h hs (le_antisymm hle hall)]
    constructor
    · intro hsuf
      refine ⟨fun hpre hlen => ?_, fun hz hpre hlen => ?_, fun k hk hge => ?_⟩
      · rw [h.cstr_eq] at hpre ⊢
        rwa [if_neg (by have := hhira.mpr hpre; omega)] at hsuf
      · rw [h.yomi2kata_eq]
        rw [h.topStrcmp_eq_zero_iff] at hz
        rwa [if_pos hz] at hsuf
      · rw [h.cvtknjTop_snd] at hge
        omega
    · intro hrev
      have hh := hrev.hira
      have hk := hrev.kata
      rw [h.cstr_eq] at hh
      rw [h.topStrcmp_eq_zero_iff, h.yomi2kata_eq] at hk
      split
      · rename_i hz
        exact hk hz (hkata.mp (by have := lead_le_right (ps.map kataPair) s; omega)) (by omega)
      · exact hh (hhira.mp (by have := lead_le_right ps s; omega)) (by omega)

/-! ### Strings that do not come back -/

/-- The reading あい and the kanji あ. -/
def aiYomi : Bytes := [0xa4, 0xa2, 0xa4, 0xa4]

def aKanji : List EucChar := [.jisx0208 0xa4 0xa2 (by decide) (by decide)]

theorem cvtknj_roundTrip_iff_ai :
    RoundTrip (fun _ => 0) (fun _ => 0) aiYomi (eucBytes aKanji) ↔
      Reversible (fun _ => 0) (fun _ => 0) aiYomi aKanji :=
  cvtknj_roundTrip_iff (fun _ => 0) (fun _ => 0) aiYomi aKanji (by decide +kernel)
    (by decide +kernel) (by decide +kernel)

/-- The beginning of a reading is taken for its end: あ comes back as い. -/
theorem cvtknj_not_roundTrip :
    ¬ ∀ (below belowKana : ℕ → UInt8) (yomi : Bytes) (s : List EucChar),
      (sj2cdStr yomi (maxWdYomiLen + 1)).2 = true → isvyomi (yomiCodes yomi) = true →
      isvknj (eucBytes s) = true → RoundTrip below belowKana yomi (eucBytes s) := by
  intro h
  have hrt := h (fun _ => 0) (fun _ => 0) aiYomi aKanji (by decide +kernel) (by decide +kernel)
    (by decide +kernel) (fun _ => 0) ⟨[], []⟩ []
  exact absurd hrt.1 (by decide +kernel)

end Sj3
