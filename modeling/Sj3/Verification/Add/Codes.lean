import Sj3.Verification.Add.Arguments

/-! # The code string of any kanji

An accepted kanji need not be text. Whatever its bytes are, its code string is not empty and
has at most two codes a character. -/

namespace Sj3

/-! ## Character by character -/

/-- The loops over a kanji go on with what is behind its first character. -/
theorem charInduction {P : Bytes → Prop} (nil : P []) (stop : ∀ knj, P (0 :: knj))
    (char : ∀ c knj, c ≠ 0 → P ((c :: knj).drop (eucWidth c)) → P (c :: knj)) (knj : Bytes) :
    P knj := by
  induction hn : knj.length using Nat.strong_induction_on generalizing knj with
  | _ n ih =>
      cases knj with
      | nil => exact nil
      | cons c knj =>
          by_cases hc : c = 0
          · exact hc ▸ stop knj
          · apply char c knj hc
            have hpos := eucWidth_pos c
            apply ih _ _ _ rfl
            rw [List.length_drop, ← hn, List.length_cons]
            omega

/-- The two codes of a character that is not abbreviated. -/
def charCodes (c : UInt8) (knj : Bytes) : UInt8 × UInt8 :=
  if c = ss2 then (leadingHankaku, knj.headD 0)
  else if c = ss3 then (knj.headD 0 &&& normalKanjiMask, knj.getD 1 0)
  else if c &&& 0x80 ≠ 0 then (c &&& normalKanjiMask, knj.headD 0 &&& normalKanjiMask)
  else (leadingHankaku, c)

theorem mask_ne_term (c : UInt8) : c &&& normalKanjiMask ≠ hinsiBlkTerm := by
  revert c
  apply Byte.forall_of_fin
  decide +kernel

theorem charCodes_ne_term (c : UInt8) (knj : Bytes) : (charCodes c knj).1 ≠ hinsiBlkTerm := by
  have hhan : leadingHankaku ≠ hinsiBlkTerm := by decide
  rw [charCodes]
  split_ifs
  · exact hhan
  · exact mask_ne_term _
  · exact mask_ne_term _
  · exact hhan

section Loop

variable (below belowKana : ℕ → UInt8) (yomi kana : Bytes)

/-- One turn of the loop of `cvtknj`. -/
theorem cvtknjLoop_char {c : UInt8} (hc : c ≠ 0) (knj : Bytes) :
    cvtknjLoop below belowKana yomi kana (c :: knj) =
      if lastStrcmp below yomi (c :: knj) ≠ 0 then [hiraCode (lastStrcmp below yomi (c :: knj))]
      else if lastStrcmp belowKana kana (c :: knj) ≠ 0 then
        [kataCode (lastStrcmp belowKana kana (c :: knj))]
      else (charCodes c knj).1 :: (charCodes c knj).2 ::
        cvtknjLoop below belowKana yomi kana ((c :: knj).drop (eucWidth c)) := by
  rw [cvtknjLoop.eq_def, charCodes, eucWidth]
  simp only [if_neg hc]
  congr 2
  by_cases h2 : c = ss2
  · subst h2
    rw [if_pos rfl, if_pos rfl, if_neg (by decide), if_pos (by decide)]
    match knj with
    | [] => simp [cvtknjLoop.eq_def]
    | _ :: _ => rfl
  by_cases h3 : c = ss3
  · subst h3
    rw [if_neg h2, if_neg h2, if_pos rfl, if_pos rfl, if_pos rfl]
    match knj with
    | [] => simp [cvtknjLoop.eq_def]
    | [_] => simp [cvtknjLoop.eq_def]
    | _ :: _ :: _ => rfl
  rw [if_neg h2, if_neg h2, if_neg h3, if_neg h3, if_neg h3]
  by_cases h8 : c &&& 0x80 ≠ 0
  · rw [if_pos h8, if_pos h8, if_pos ((isknj1_eq h2 h3).mpr h8)]
    match knj with
    | [] => simp [cvtknjLoop.eq_def]
    | _ :: _ => rfl
  · rw [if_neg h8, if_neg h8, if_neg fun h => h8 ((isknj1_eq h2 h3).mp h)]
    rfl

/-- No two terminators of a grammar block follow each other. -/
theorem cvtknjLoop_apart (knj : Bytes) :
    (cvtknjLoop below belowKana yomi kana knj).headD 0 ≠ hinsiBlkTerm ∧
      ¬ [hinsiBlkTerm, hinsiBlkTerm] <:+: cvtknjLoop below belowKana yomi kana knj := by
  have hone : ∀ c : UInt8, ¬ [hinsiBlkTerm, hinsiBlkTerm] <:+: [c] := fun c h => by
    have := h.length_le
    simp at this
  induction knj using charInduction with
  | nil => exact ⟨by simp [cvtknjLoop, hinsiBlkTerm], by simp [cvtknjLoop]⟩
  | stop knj => exact ⟨by simp [cvtknjLoop.eq_def, hinsiBlkTerm], by simp [cvtknjLoop.eq_def]⟩
  | char c knj hc ih =>
      rw [cvtknjLoop_char _ _ _ _ hc]
      split_ifs with hhira hkata
      · have hle := lastStrcmp_le below yomi (c :: knj)
        exact ⟨(hiraCode_facts ⟨_, Nat.lt_succ_of_le hle⟩ hhira).2.1, hone _⟩
      · have hle := lastStrcmp_le belowKana kana (c :: knj)
        exact ⟨(kataCode_facts ⟨_, Nat.lt_succ_of_le hle⟩ hkata).2.1, hone _⟩
      · have hfst := charCodes_ne_term c knj
        refine ⟨hfst, ?_⟩
        rw [List.infix_cons_iff, List.infix_cons_iff, not_or, not_or]
        refine ⟨fun h => hfst (List.cons_prefix_cons.mp h).1.symm, fun h => ?_, ih.2⟩
        -- the second code may be a terminator, but what comes next is not
        obtain ⟨-, x, hx⟩ := List.cons_prefix_cons.mp h
        exact ih.1 (by rw [← hx]; rfl)

theorem length_cvtknjLoop_le {len n : ℕ} {knj : Bytes} (hn : len + 2 * n = maxWdKanjiLen)
    (h : isvknjLoop len knj = true) :
    (cvtknjLoop below belowKana yomi kana knj).length ≤ 2 * n := by
  induction n generalizing len knj with
  | zero =>
      cases knj with
      | nil => simp [cvtknjLoop]
      | cons c knj =>
          by_cases hc : c = 0
          · simp [cvtknjLoop.eq_def, hc]
          · rw [isvknjLoop.eq_def] at h
            simp only [if_neg hc, if_pos (by omega : len + 2 > maxWdKanjiLen)] at h
            cases h
  | succ n ih =>
      cases knj with
      | nil => simp [cvtknjLoop]
      | cons c knj =>
          by_cases hc : c = 0
          · simp [cvtknjLoop.eq_def, hc]
          · rw [isvknjLoop_turn hc (by omega)] at h
            have hrest := ih (by omega) h
            rw [cvtknjLoop_char _ _ _ _ hc]
            split_ifs <;> simp only [List.length_cons, List.length_nil] <;> omega

end Loop

/-! ## The leading abbreviation -/

theorem take_of_le_topMatch {src dst : Bytes} {n : ℕ} (h : n ≤ topMatch src dst) :
    src.take n = dst.take n ∧ n ≤ src.length := by
  induction n generalizing src dst with
  | zero => simp
  | succ n ih =>
      cases src with
      | nil => simp [topMatch] at h
      | cons c src =>
          rw [topMatch] at h
          split at h
          case isFalse => omega
          rename_i hc
          cases dst with
          | nil => exact absurd hc.2 hc.1
          | cons d dst =>
              obtain rfl : c = d := hc.2
              obtain ⟨htake, hle⟩ := ih (Nat.le_of_succ_le_succ h)
              exact ⟨congrArg (c :: ·) htake, Nat.succ_le_succ hle⟩

/-- What a reading and a kanji have in common are characters of the reading. -/
theorem exists_flat_of_topMatch {ps : List (UInt8 × UInt8)} (hps : ∀ p ∈ ps, IsYomiPair p)
    {rest : Bytes} (hr : rest.headD 0 = 0) {knj : Bytes} {n : ℕ}
    (hn : 2 * n ≤ topMatch (flat ps ++ rest) knj) :
    n ≤ ps.length ∧ knj = flat (ps.take n) ++ knj.drop (n * 2) := by
  have hle : topMatch (flat ps ++ rest) knj ≤ (flat ps).length := by
    cases rest with
    | nil =>
        rw [List.append_nil]
        exact (take_of_le_topMatch le_rfl).2
    | cons c rest =>
        obtain rfl : c = 0 := hr
        exact topMatch_le_left (zero_notMem_flat hps) rest knj
  rw [length_flat] at hle
  refine ⟨by omega, ?_⟩
  obtain ⟨htake, -⟩ := take_of_le_topMatch hn
  rw [List.take_append_of_le_length (by rw [length_flat]; omega), flat_take] at htake
  rw [htake, Nat.mul_comm, List.take_append_drop]

/-- `cvtknj` abbreviates characters of the reading at the beginning of the kanji by one code,
or it abbreviates none. -/
theorem cvtknjTop_spec {yomi : Bytes} {ps : List (UInt8 × UInt8)} (h : YomiText yomi ps)
    (knj : Bytes) :
    ∃ qs code, cvtknjTop yomi (yomi2kata yomi) knj = (code, qs.length) ∧
      (∀ p ∈ qs, IsYomiPair p) ∧ knj = flat qs ++ knj.drop (qs.length * 2) ∧
      (code = [] ∧ qs = [] ∨ qs ≠ [] ∧ qs.length ≤ maxYomiAskNumber ∧
        (code = [hiraCode qs.length] ∨ code = [kataCode qs.length])) := by
  have hone : ∀ {rest : Bytes} {ps : List (UInt8 × UInt8)}, (∀ p ∈ ps, IsYomiPair p) →
      rest.headD 0 = 0 → topStrcmp (flat ps ++ rest) knj ≠ 0 →
      ∃ qs, (∀ p ∈ qs, IsYomiPair p) ∧ knj = flat qs ++ knj.drop (qs.length * 2) ∧ qs ≠ [] ∧
        qs.length ≤ maxYomiAskNumber ∧ qs.length = topStrcmp (flat ps ++ rest) knj := by
    intro rest ps hps hr hne
    obtain ⟨n, hn⟩ : ∃ n, n = topStrcmp (flat ps ++ rest) knj := ⟨_, rfl⟩
    have htop : n = min (topMatch (flat ps ++ rest) knj / 2) maxYomiAskNumber := hn
    obtain ⟨hle, hknj⟩ : n ≤ ps.length ∧ knj = flat (ps.take n) ++ knj.drop (n * 2) :=
      exists_flat_of_topMatch hps hr (by omega)
    have hlen : (ps.take n).length = n := List.length_take_of_le hle
    refine ⟨ps.take n, fun p hp => hps p (List.mem_of_mem_take hp), by rwa [hlen], ?_, ?_, ?_⟩
    · rw [← List.length_pos_iff]
      omega
    · rw [hlen, htop]
      exact min_le_right _ _
    · rw [hlen, hn]
  obtain ⟨rest, htext, hr⟩ := h.text
  have hkana := h.yomi2kata_eq
  rw [cvtknjTop]
  split_ifs with hhira hkata
  · rw [htext] at hhira ⊢
    obtain ⟨qs, hqs, hknj, hne, hle, hlen⟩ := hone h.isPair hr hhira
    exact ⟨qs, _, by rw [hlen], hqs, hknj, .inr ⟨hne, hle, .inl (by rw [hlen])⟩⟩
  · rw [hkana, ← List.append_nil (flat _)] at hkata ⊢
    obtain ⟨qs, hqs, hknj, hne, hle, hlen⟩ := hone h.kata rfl hkata
    exact ⟨qs, _, by rw [hlen], hqs, hknj, .inr ⟨hne, hle, .inr (by rw [hlen])⟩⟩
  · exact ⟨[], [], rfl, by simp, by simp, .inl ⟨rfl, rfl⟩⟩

theorem isvknjLoop_flat {qs : List (UInt8 × UInt8)} (hqs : ∀ p ∈ qs, IsYomiPair p) {len : ℕ}
    {knj : Bytes} (hlen : len ≤ maxWdKanjiLen) (h : isvknjLoop len (flat qs ++ knj) = true) :
    len + 2 * qs.length ≤ maxWdKanjiLen ∧ isvknjLoop (len + 2 * qs.length) knj = true := by
  induction qs generalizing len with
  | nil => exact ⟨hlen, h⟩
  | cons p qs ih =>
      have hp := (hqs p List.mem_cons_self).1
      have hp0 := (row_byte hp).1
      rw [flat_cons, List.cons_append] at h
      by_cases hroom : len + 2 ≤ maxWdKanjiLen
      · rw [isvknjLoop_turn hp0 hroom, eucWidth_row hp] at h
        have hrest := ih (fun q hq => hqs q (List.mem_cons_of_mem _ hq)) hroom h
        rw [List.length_cons]
        rwa [show len + 2 * (qs.length + 1) = len + 2 + 2 * qs.length by omega]
      · rw [isvknjLoop.eq_def] at h
        simp only [if_neg hp0, if_pos (not_le.mp hroom)] at h
        cases h

/-! ## The whole string -/

section Accepted

variable {yomi kanji : Bytes} {ps : List (UInt8 × UInt8)} (h : YomiText yomi ps)
  (below belowKana : ℕ → UInt8)

include h

/-- The code string of an accepted kanji takes at most two bytes a character. -/
theorem length_cvtknj_le (hk : isvknj kanji = true) :
    (cvtknj below belowKana yomi kanji).length ≤ maxWdKanjiLen := by
  obtain ⟨qs, code, htop, hqs, hknj, hcode⟩ := cvtknjTop_spec h kanji
  have hloop : isvknjLoop 0 kanji = true := by
    rw [isvknj] at hk
    split at hk
    · cases hk
    · exact hk
  rw [hknj] at hloop
  obtain ⟨hle, hrest⟩ := isvknjLoop_flat hqs (Nat.zero_le _) hloop
  have hlen := length_cvtknjLoop_le below belowKana yomi (yomi2kata yomi)
    (n := maxWdKanjiLen / 2 - qs.length) (by simp only [maxWdKanjiLen] at *; omega) hrest
  have hone : code.length ≤ qs.length := by
    rcases hcode with ⟨rfl, rfl⟩ | ⟨hne, -, rfl | rfl⟩
    · exact le_rfl
    · exact List.length_pos_of_ne_nil hne
    · exact List.length_pos_of_ne_nil hne
  rw [cvtknj]
  simp only [htop, List.length_append]
  simp only [maxWdKanjiLen] at *
  omega

theorem cvtknj_ne_nil (hk : kanji.headD 0 ≠ 0) : cvtknj below belowKana yomi kanji ≠ [] := by
  obtain ⟨qs, code, htop, hqs, hknj, hcode⟩ := cvtknjTop_spec h kanji
  rw [cvtknj]
  simp only [htop]
  rcases hcode with ⟨rfl, rfl⟩ | ⟨-, -, rfl | rfl⟩
  · cases kanji with
    | nil => exact absurd rfl hk
    | cons c kanji =>
        rw [List.nil_append, List.length_nil, Nat.zero_mul, List.drop_zero,
          cvtknjLoop_char _ _ _ _ (show c ≠ 0 from hk)]
        split_ifs <;> simp
  · simp
  · simp

theorem cvtknj_apart (kanji : Bytes) :
    ¬ [hinsiBlkTerm, hinsiBlkTerm] <:+: cvtknj below belowKana yomi kanji := by
  obtain ⟨qs, code, htop, hqs, hknj, hcode⟩ := cvtknjTop_spec h kanji
  have hloop := (cvtknjLoop_apart below belowKana yomi (yomi2kata yomi)
    (kanji.drop (qs.length * 2))).2
  have hcons : ∀ c : UInt8, c ≠ hinsiBlkTerm →
      ¬ [hinsiBlkTerm, hinsiBlkTerm] <:+: [c] ++ cvtknjLoop below belowKana yomi (yomi2kata yomi)
        (kanji.drop (qs.length * 2)) := by
    intro c hc
    rw [List.singleton_append, List.infix_cons_iff, not_or]
    exact ⟨fun hp => hc (List.cons_prefix_cons.mp hp).1.symm, hloop⟩
  rw [cvtknj]
  simp only [htop]
  rcases hcode with ⟨rfl, rfl⟩ | ⟨hne, hle, rfl | rfl⟩
  · exact hloop
  · exact hcons _
      (hiraCode_facts ⟨_, Nat.lt_succ_of_le hle⟩ (List.length_pos_of_ne_nil hne).ne').2.1
  · exact hcons _
      (kataCode_facts ⟨_, Nat.lt_succ_of_le hle⟩ (List.length_pos_of_ne_nil hne).ne').2.1

end Accepted

end Sj3
