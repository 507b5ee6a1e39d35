import Sj3.General.Strides
import Sj3.Verification.Kanji.RoundTrip

/-! # Arguments are read within their terminators

The loops over the arguments of a registration step from character to character by the first
byte. They stay in front of the terminator unless one of the characters they come to is cut
off by it. -/

namespace Sj3

open Strides

/-! ## Where the loops stop -/

/-- The size that a first byte stands for in `sj2cd_chr`, `isvknj` and `cvtknj`. -/
def eucWidth (c : UInt8) : ℕ := if c = ss3 then 3 else if isknj1 c then 2 else 1

/-- How far the loop of `sj2cd_str` comes, with room for `len` codes; the byte there is the last
it looks at. -/
def sj2cdStop : ℕ → Bytes → ℕ
  | 0, _ => 0
  | len + 1, euc =>
      if euc.headD 0 = 0 then 0
      else (sj2cdChr euc).2 + sj2cdStop len (euc.drop (sj2cdChr euc).2)

/-- How far the loop of `isvknj` comes. It steps over a character too many as well, but does not
look at what is behind it. -/
def isvknjStop : ℕ → Bytes → ℕ
  | _, [] => 0
  | len, c :: kanji =>
      if c = 0 then 0
      else if len + 2 > maxWdKanjiLen then 0
      else if c = ss3 then
        match kanji with
        | _ :: _ :: kanji => 3 + isvknjStop (len + 2) kanji
        | _ => 3
      else if isknj1 c then
        match kanji with
        | _ :: kanji => 2 + isvknjStop (len + 2) kanji
        | _ => 2
      else 1 + isvknjStop (len + 2) kanji

/-- How far `yomi2kata` comes. -/
def yomi2kataStop : Bytes → ℕ
  | [] => 0
  | [first] => if first = 0 then 0 else 2
  | first :: _ :: src => if first = 0 then 0 else 2 + yomi2kataStop src

/-- How far the loop of `cvtknj` comes. -/
def cvtknjStop (below belowKana : ℕ → UInt8) (yomi kana : Bytes) : Bytes → ℕ
  | [] => 0
  | c :: knj =>
      if c = 0 then 0
      else if lastStrcmp below yomi (c :: knj) ≠ 0 then 0
      else if lastStrcmp belowKana kana (c :: knj) ≠ 0 then 0
      else if c = ss2 then
        match knj with
        | [] => 2
        | _ :: knj => 2 + cvtknjStop below belowKana yomi kana knj
      else if c = ss3 then
        match knj with
        | [] => 3
        | [_] => 3
        | _ :: _ :: knj => 3 + cvtknjStop below belowKana yomi kana knj
      else if c &&& 0x80 ≠ 0 then
        match knj with
        | [] => 2
        | _ :: knj => 2 + cvtknjStop below belowKana yomi kana knj
      else 1 + cvtknjStop below belowKana yomi kana knj

/-! ## The checks -/

theorem eucWidth_pos (c : UInt8) : 0 < eucWidth c := by
  rw [eucWidth]
  split_ifs <;> decide

theorem sj2cdChr_width (euc : Bytes) : (sj2cdChr euc).2 = eucWidth (euc.headD 0) := by
  have htable : ∀ c : UInt8, (if c = 0xa1 then 2 else if c = 0xa2 then 2 else if c = 0xa3 then 2
      else if c = 0xa4 then 2 else if c = 0xa5 then 2 else if c &&& 0x80 = 0 then 1
      else if c = ss2 then 2 else if c = ss3 then 3 else 2) = eucWidth c := by
    apply Byte.forall_of_fin
    decide +kernel
  simp only [sj2cdChr, apply_ite Prod.snd]
  exact htable _

theorem sj2cdStop_eq (len : ℕ) (euc : Bytes) : sj2cdStop len euc = passed eucWidth 0 len euc := by
  induction len generalizing euc with
  | zero => rfl
  | succ len ih =>
      cases euc with
      | nil => rfl
      | cons c euc =>
          rw [sj2cdStop, passed, sj2cdChr_width, ih, List.headD_cons]

theorem length_sj2cdLoop (len : ℕ) (euc : Bytes) : (sj2cdLoop len euc).1.length ≤ len := by
  induction len generalizing euc with
  | zero => simp [sj2cdLoop]
  | succ len ih =>
      rw [sj2cdLoop]
      split
      · simp
      · exact Nat.succ_le_succ (ih _)

/-- One turn of `isvknj`. -/
theorem isvknjStop_turn {len : ℕ} {c : UInt8} {kanji : Bytes} (hc : c ≠ 0)
    (hlen : len + 2 ≤ maxWdKanjiLen) :
    isvknjStop len (c :: kanji) =
      eucWidth c + isvknjStop (len + 2) ((c :: kanji).drop (eucWidth c)) := by
  rw [isvknjStop.eq_def, eucWidth]
  simp only [if_neg hc, if_neg (Nat.not_lt.mpr hlen)]
  by_cases h3 : c = ss3
  · rw [if_pos h3, if_pos h3]
    match kanji with
    | [] => simp [isvknjStop]
    | [_] => simp [isvknjStop]
    | _ :: _ :: _ => rfl
  rw [if_neg h3, if_neg h3]
  by_cases h2 : isknj1 c
  · rw [if_pos h2, if_pos h2]
    match kanji with
    | [] => simp [isvknjStop]
    | _ :: _ => rfl
  · rw [if_neg h2, if_neg h2]
    rfl

theorem isvknjLoop_turn {len : ℕ} {c : UInt8} {kanji : Bytes} (hc : c ≠ 0)
    (hlen : len + 2 ≤ maxWdKanjiLen) :
    isvknjLoop len (c :: kanji) = isvknjLoop (len + 2) ((c :: kanji).drop (eucWidth c)) := by
  rw [isvknjLoop.eq_def, eucWidth]
  simp only [if_neg hc, if_neg (Nat.not_lt.mpr hlen)]
  by_cases h3 : c = ss3
  · rw [if_pos h3, if_pos h3]
    match kanji with
    | [] => simp [isvknjLoop]
    | [_] => simp [isvknjLoop]
    | _ :: _ :: _ => rfl
  rw [if_neg h3, if_neg h3]
  by_cases h2 : isknj1 c
  · rw [if_pos h2, if_pos h2]
    match kanji with
    | [] => simp [isvknjLoop]
    | _ :: _ => rfl
  · rw [if_neg h2, if_neg h2]
    rfl

theorem isvknjStop_eq {len n : ℕ} (kanji : Bytes) (hn : len + 2 * n = maxWdKanjiLen) :
    isvknjStop len kanji = passed eucWidth 0 n kanji := by
  induction n generalizing len kanji with
  | zero =>
      cases kanji with
      | nil => rfl
      | cons c kanji =>
          rw [isvknjStop.eq_def]
          simp only [if_pos (by omega : len + 2 > maxWdKanjiLen), ite_self]
          rfl
  | succ n ih =>
      cases kanji with
      | nil => rfl
      | cons c kanji =>
          by_cases hc : c = 0
          · rw [hc, passed_terminator]
            simp [isvknjStop.eq_def]
          · rw [isvknjStop_turn hc (by omega), ih _ (by omega), passed, if_neg hc]

/-- `isvknj` looks whether it has come to the terminator. -/
theorem isvknjLoop_eq {len n : ℕ} (kanji : Bytes) (hn : len + 2 * n = maxWdKanjiLen) :
    isvknjLoop len kanji = decide ((kanji.drop (passed eucWidth 0 n kanji)).headD 0 = 0) := by
  induction n generalizing len kanji with
  | zero =>
      cases kanji with
      | nil => rfl
      | cons c kanji =>
          rw [isvknjLoop.eq_def]
          simp only [if_pos (by omega : len + 2 > maxWdKanjiLen), passed, List.drop_zero,
            List.headD_cons]
          by_cases hc : c = 0
          · simp [hc]
          · simp [hc]
  | succ n ih =>
      cases kanji with
      | nil => rfl
      | cons c kanji =>
          by_cases hc : c = 0
          · rw [hc, passed_terminator]
            simp [isvknjLoop.eq_def]
          · rw [isvknjLoop_turn hc (by omega), ih _ (by omega), passed, if_neg hc,
              List.drop_drop]

/-! ## Rejected arguments -/

/-- A loop that stays in front of the terminator does not come to it if a character is cut off. -/
theorem headD_passed_ne_zero {s : Bytes} {n : ℕ} (q : Bytes) (hs : 0 ∉ s)
    (hn : overlong eucWidth n s = false) (hcut : overlong eucWidth s.length s = true) :
    ((s ++ 0 :: q).drop (passed eucWidth 0 n (s ++ 0 :: q))).headD 0 ≠ 0 := by
  intro hend
  have hpassed := (passed_le_iff (q := q) hs).mpr hn
  have hhead : ((s ++ 0 :: q).drop (passed eucWidth 0 n (s ++ 0 :: q))).head? = some 0 := by
    rw [List.drop_append_of_le_length hpassed] at hend ⊢
    cases h : s.drop (passed eucWidth 0 n (s ++ 0 :: q)) with
    | nil => rfl
    | cons c t =>
        rw [h] at hend
        exact congrArg some hend
  obtain ⟨ps, rfl, -, hps⟩ := exists_pieces eucWidth_pos hs hn hhead
  rw [overlong_flatten eucWidth hps] at hcut
  cases hcut

theorem sj2cdLoop_snd (len : ℕ) (euc : Bytes) :
    (sj2cdLoop len euc).2 = decide ((euc.drop (sj2cdStop len euc)).headD 0 = 0) := by
  induction len generalizing euc with
  | zero => rfl
  | succ len ih =>
      rw [sj2cdLoop, sj2cdStop]
      by_cases hz : euc.headD 0 = 0
      · rw [if_pos hz, if_pos hz, List.drop_zero, decide_eq_true hz]
      · rw [if_neg hz, if_neg hz, ← List.drop_drop]
        exact ih _

/-- `isvknj` accepts at most 32 whole characters. -/
theorem isvknj_pieces {kanji q : Bytes} (h0 : 0 ∉ kanji)
    (hover : overlong eucWidth 32 kanji = false) (h : isvknj (kanji ++ 0 :: q) = true) :
    ∃ ks : List Bytes, kanji = ks.flatten ∧ ks.length ≤ 32 ∧ ∀ k ∈ ks, Whole eucWidth k := by
  refine exists_pieces (q := q) eucWidth_pos h0 hover ?_
  rw [isvknj] at h
  split at h
  · cases h
  rw [isvknjLoop_eq (n := 32) _ rfl, decide_eq_true_eq] at h
  have hpassed := (passed_le_iff (q := q) h0).mpr hover
  rw [List.drop_append_of_le_length hpassed] at h ⊢
  cases hd : kanji.drop (passed eucWidth 0 32 (kanji ++ 0 :: q)) with
  | nil => rfl
  | cons c t =>
      rw [hd] at h
      exact congrArg some h

/-! ## The conversion of the kanji -/

theorem eucWidth_row {c : UInt8} (h : 0xa1 ≤ c ∧ c ≤ 0xfe) : eucWidth c = 2 := by
  revert h
  revert c
  apply Byte.forall_of_fin
  decide +kernel

theorem isknj1_eq {c : UInt8} : c ≠ ss2 → c ≠ ss3 → (isknj1 c = true ↔ c &&& 0x80 ≠ 0) := by
  revert c
  apply Byte.forall_of_fin
  decide +kernel

theorem topMatch_le_left {s : Bytes} (hs : 0 ∉ s) (q dst : Bytes) :
    topMatch (s ++ 0 :: q) dst ≤ s.length := by
  induction s generalizing dst with
  | nil => simp [topMatch]
  | cons c s ih =>
      rw [List.cons_append, topMatch]
      split
      · exact Nat.succ_le_succ (ih (fun h => hs (List.mem_cons_of_mem _ h)) _)
      · exact Nat.zero_le _

theorem topMatch_le_right (s q src : Bytes) : topMatch src (s ++ 0 :: q) ≤ s.length := by
  induction src generalizing s with
  | nil => exact Nat.zero_le _
  | cons c src ih =>
      rw [topMatch]
      split
      case isFalse => exact Nat.zero_le _
      rename_i hc
      cases s with
      | nil => exact absurd hc.2 hc.1
      | cons d s => exact Nat.succ_le_succ (ih s)

theorem yomi2kataStop_flat {ps : List (UInt8 × UInt8)} (h : ∀ p ∈ ps, IsYomiPair p) (q : Bytes) :
    yomi2kataStop (flat ps ++ 0 :: q) = 2 * ps.length := by
  induction ps with
  | nil => cases q <;> rfl
  | cons p ps ih =>
      have hp := (row_byte (h p List.mem_cons_self).1).1
      rw [flat_cons, List.cons_append, List.cons_append, yomi2kataStop, if_neg hp,
        ih fun p hp => h p (List.mem_cons_of_mem _ hp), List.length_cons]
      omega

section Pieces

variable {ks : List Bytes} {q : Bytes}

/-- What a reading and whole characters have in common are characters of both. -/
theorem flatten_eq_of_topMatch {ps : List (UInt8 × UInt8)} (hps : ∀ p ∈ ps, IsYomiPair p)
    {rest : Bytes} (hr : rest.headD 0 = 0) (hks : ∀ k ∈ ks, Whole eucWidth k) {n : ℕ}
    (hn : 2 * n ≤ topMatch (flat ps ++ rest) (ks.flatten ++ 0 :: q)) :
    ks.flatten = flat (ps.take n) ++ (ks.drop n).flatten ∧ n ≤ ps.length ∧ n ≤ ks.length := by
  induction n generalizing ps ks with
  | zero => simp
  | succ n ih =>
      cases ps with
      | nil =>
          have hzero : topMatch rest (ks.flatten ++ 0 :: q) = 0 := by
            cases rest with
            | nil => rfl
            | cons c rest =>
                rw [topMatch, if_neg]
                rintro ⟨hc, -⟩
                exact hc hr
          rw [flat_nil, List.nil_append, hzero] at hn
          omega
      | cons p ps =>
          obtain ⟨h₁, h₂, -⟩ := hps p List.mem_cons_self
          rw [flat_cons, List.cons_append, topMatch] at hn
          split at hn
          case isFalse => omega
          rename_i hfst
          cases ks with
          | nil => exact absurd hfst.2 (row_byte h₁).1
          | cons k ks =>
              obtain ⟨c, hc, hlen⟩ := hks k List.mem_cons_self
              obtain ⟨k, rfl⟩ := List.head?_eq_some_iff.mp hc
              obtain rfl : p.1 = c := hfst.2
              rw [eucWidth_row h₁, List.length_cons] at hlen
              obtain ⟨d, rfl⟩ := List.length_eq_one_iff.mp (Nat.succ.inj hlen)
              rw [List.cons_append, topMatch] at hn
              split at hn
              case isFalse => omega
              rename_i hsnd
              obtain rfl : p.2 = d := hsnd.2
              obtain ⟨heq, hps, hks⟩ := ih (fun p hp => hps p (List.mem_cons_of_mem _ hp))
                (fun k hk => hks k (List.mem_cons_of_mem _ hk)) (by
                  simp only [List.flatten_cons, List.cons_append, List.nil_append,
                    List.tail_cons] at hn
                  omega)
              refine ⟨?_, Nat.succ_le_succ hps, Nat.succ_le_succ hks⟩
              rw [List.flatten_cons, heq]
              rfl

variable (below belowKana : ℕ → UInt8) (yomi kana : Bytes)

/-- One turn of `cvtknj` reads a character and writes two codes. -/
theorem cvtknjLoop_turn {k : Bytes} (knj : Bytes) (hk : Whole eucWidth k) :
    (cvtknjLoop below belowKana yomi kana (k ++ knj)).length ≤
        2 + (cvtknjLoop below belowKana yomi kana knj).length ∧
      cvtknjStop below belowKana yomi kana (k ++ knj) ≤
        k.length + cvtknjStop below belowKana yomi kana knj := by
  obtain ⟨c, hc, hlen⟩ := hk
  obtain ⟨k, rfl⟩ := List.head?_eq_some_iff.mp hc
  rw [List.cons_append, cvtknjLoop.eq_def, cvtknjStop.eq_def]
  by_cases h0 : c = 0
  · simp [h0]
  by_cases hy : lastStrcmp below yomi (c :: (k ++ knj)) ≠ 0
  · simp only [if_neg h0, if_pos hy, List.length_singleton]
    omega
  by_cases hkana : lastStrcmp belowKana kana (c :: (k ++ knj)) ≠ 0
  · simp only [if_neg h0, if_neg hy, if_pos hkana, List.length_singleton]
    omega
  simp only [if_neg h0, if_neg hy, if_neg hkana]
  rw [eucWidth, List.length_cons] at hlen
  by_cases h2 : c = ss2
  · subst h2
    rw [if_neg (by decide), if_pos (by decide)] at hlen
    obtain ⟨a, rfl⟩ := List.length_eq_one_iff.mp (Nat.succ.inj hlen)
    simp only [if_true, List.cons_append, List.nil_append, List.length_cons, List.length_nil]
    omega
  by_cases h3 : c = ss3
  · subst h3
    rw [if_pos rfl] at hlen
    obtain ⟨a, b, rfl⟩ := List.length_eq_two.mp (Nat.succ.inj hlen)
    simp only [if_neg h2, if_true, List.cons_append, List.nil_append, List.length_cons,
      List.length_nil]
    omega
  rw [if_neg h3] at hlen
  by_cases h8 : c &&& 0x80 ≠ 0
  · rw [if_pos ((isknj1_eq h2 h3).mpr h8)] at hlen
    obtain ⟨a, rfl⟩ := List.length_eq_one_iff.mp (Nat.succ.inj hlen)
    simp only [if_neg h2, if_neg h3, if_pos h8, List.cons_append, List.nil_append,
      List.length_cons, List.length_nil]
    omega
  · rw [if_neg (fun h => h8 ((isknj1_eq h2 h3).mp h))] at hlen
    obtain rfl := List.length_eq_zero_iff.mp (Nat.succ.inj hlen)
    simp only [if_neg h2, if_neg h3, if_neg h8, List.nil_append, List.length_cons,
      List.length_nil]
    omega

/-- The loop of `cvtknj` stays within whole characters. -/
theorem cvtknjLoop_pieces {ks : List Bytes} (q : Bytes) (hks : ∀ k ∈ ks, Whole eucWidth k) :
    (cvtknjLoop below belowKana yomi kana (ks.flatten ++ 0 :: q)).length ≤ 2 * ks.length ∧
      cvtknjStop below belowKana yomi kana (ks.flatten ++ 0 :: q) ≤ ks.flatten.length := by
  induction ks with
  | nil => simp [cvtknjLoop.eq_def, cvtknjStop.eq_def]
  | cons k ks ih =>
      obtain ⟨hwritten, hread⟩ := ih fun k hk => hks k (List.mem_cons_of_mem _ hk)
      obtain ⟨hwritten', hread'⟩ := cvtknjLoop_turn below belowKana yomi kana
        (ks.flatten ++ 0 :: q) (hks k List.mem_cons_self)
      rw [List.flatten_cons, List.append_assoc, List.length_cons, List.length_append]
      omega

/-- `cvtknj` leaves the beginning of whole characters to its loop. -/
theorem cvtknj_pieces {ps : List (UInt8 × UInt8)} (hyomi : YomiText yomi ps)
    (hks : ∀ k ∈ ks, Whole eucWidth k) (hlen : ks.length ≤ 32) :
    let top := (cvtknjTop yomi (yomi2kata yomi) (ks.flatten ++ 0 :: q)).2 * 2
    top + cvtknjStop below belowKana yomi (yomi2kata yomi) ((ks.flatten ++ 0 :: q).drop top) ≤
        ks.flatten.length ∧
      (cvtknj below belowKana yomi (ks.flatten ++ 0 :: q)).length ≤ 64 := by
  obtain ⟨rest, htext, hr⟩ := hyomi.text
  -- an abbreviation of `n` characters is one code and leaves the other characters
  have htop : ∃ n, (cvtknjTop yomi (yomi2kata yomi) (ks.flatten ++ 0 :: q)).2 = n ∧
      (cvtknjTop yomi (yomi2kata yomi) (ks.flatten ++ 0 :: q)).1.length ≤ 2 * n ∧
      ∃ ps : List (UInt8 × UInt8), ks.flatten = flat ps ++ (ks.drop n).flatten ∧
        ps.length = n ∧ n ≤ ks.length := by
    rw [cvtknjTop]
    split_ifs with hhira hkata
    · refine ⟨_, rfl, by rw [List.length_singleton]; omega, ?_⟩
      have hle : 2 * topStrcmp yomi (ks.flatten ++ 0 :: q) ≤
          topMatch (flat ps ++ rest) (ks.flatten ++ 0 :: q) := by
        rw [topStrcmp, htext]
        omega
      obtain ⟨heq, hps, hks⟩ := flatten_eq_of_topMatch hyomi.isPair hr hks hle
      exact ⟨_, heq, List.length_take_of_le hps, hks⟩
    · refine ⟨_, rfl, by rw [List.length_singleton]; omega, ?_⟩
      have hle : 2 * topStrcmp (yomi2kata yomi) (ks.flatten ++ 0 :: q) ≤
          topMatch (flat (ps.map kataPair) ++ []) (ks.flatten ++ 0 :: q) := by
        rw [topStrcmp, hyomi.yomi2kata_eq, List.append_nil]
        omega
      obtain ⟨heq, hps, hks⟩ := flatten_eq_of_topMatch hyomi.kata rfl hks hle
      exact ⟨_, heq, List.length_take_of_le hps, hks⟩
    · exact ⟨0, rfl, Nat.le_refl 0, [], rfl, rfl, Nat.zero_le _⟩
  obtain ⟨n, hn, hcode, ps', heq, rfl, hle⟩ := htop
  have hdrop : (ks.flatten ++ 0 :: q).drop (ps'.length * 2) =
      (ks.drop ps'.length).flatten ++ 0 :: q := by
    rw [heq, List.append_assoc, Nat.mul_comm, ← length_flat, List.drop_left]
  obtain ⟨hwritten, hread⟩ := cvtknjLoop_pieces below belowKana yomi (yomi2kata yomi) q
    fun k hk => hks k (List.mem_of_mem_drop (i := ps'.length) hk)
  have hflat := congrArg List.length heq
  rw [List.length_append, length_flat] at hflat
  simp only [cvtknj, hn, hdrop, List.length_append]
  rw [List.length_drop] at hwritten
  constructor
  · omega
  · omega

end Pieces

/-! ## Arguments -/

/-- The arguments of a registration are read up to their terminators, what is converted fits
the buffers, and a character cut off is not accepted. `qy` and `qk` are in memory behind the
reading and the kanji. -/
structure ParsedWithin (below belowKana : ℕ → UInt8) (yomi qy kanji qk : Bytes) (hinsi : UInt8) :
    Prop where
  yomi_read : sj2cdStop maxWdYomiLen (yomi ++ 0 :: qy) ≤ yomi.length
  yomi_written : (yomiCodes (yomi ++ 0 :: qy)).length < maxWdYomiLen + 1
  yomi_cut : overlong eucWidth yomi.length yomi = true →
    addelArg (yomi ++ 0 :: qy) (kanji ++ 0 :: qk) hinsi ≠ 0
  kanji_read : isvknjStop 0 (kanji ++ 0 :: qk) ≤ kanji.length
  kanji_cut : overlong eucWidth kanji.length kanji = true →
    addelArg (yomi ++ 0 :: qy) (kanji ++ 0 :: qk) hinsi ≠ 0
  compared (kana : Bytes) : topMatch (yomi ++ 0 :: qy) (kanji ++ 0 :: qk) ≤ yomi.length ∧
    topMatch (yomi ++ 0 :: qy) (kanji ++ 0 :: qk) ≤ kanji.length ∧
    topMatch kana (kanji ++ 0 :: qk) ≤ kanji.length
  converted : addelArg (yomi ++ 0 :: qy) (kanji ++ 0 :: qk) hinsi = 0 →
    let kana := yomi2kata (yomi ++ 0 :: qy)
    let top := (cvtknjTop (yomi ++ 0 :: qy) kana (kanji ++ 0 :: qk)).2 * 2
    yomi2kataStop (yomi ++ 0 :: qy) ≤ yomi.length ∧
      kana.length < maxWdYomiLen * 2 + 1 ∧
      top + cvtknjStop below belowKana (yomi ++ 0 :: qy) kana ((kanji ++ 0 :: qk).drop top) ≤
        kanji.length ∧
      (cvtknj below belowKana (yomi ++ 0 :: qy) (kanji ++ 0 :: qk)).length < maxWdKanjiLen + 1

/-- That is so exactly if none of the 31 characters of the reading and of the 32 characters of the
kanji that the checks come to is cut off by the terminator. -/
theorem parsedWithin_iff (below belowKana : ℕ → UInt8) {yomi kanji : Bytes} (hy : 0 ∉ yomi)
    (hk : 0 ∉ kanji) (qy qk : Bytes) (hinsi : UInt8) :
    ParsedWithin below belowKana yomi qy kanji qk hinsi ↔
      overlong eucWidth maxWdYomiLen yomi = false ∧
        overlong eucWidth (maxWdKanjiLen / 2) kanji = false := by
  have hyread : sj2cdStop maxWdYomiLen (yomi ++ 0 :: qy) ≤ yomi.length ↔
      overlong eucWidth maxWdYomiLen yomi = false := by
    rw [sj2cdStop_eq, passed_le_iff hy]
  have hkread : isvknjStop 0 (kanji ++ 0 :: qk) ≤ kanji.length ↔
      overlong eucWidth (maxWdKanjiLen / 2) kanji = false := by
    rw [isvknjStop_eq (n := maxWdKanjiLen / 2) _ rfl, passed_le_iff hk]
  constructor
  · intro h
    exact ⟨hyread.mp h.yomi_read, hkread.mp h.kanji_read⟩
  rintro ⟨hyover, hkover⟩
  refine ⟨hyread.mpr hyover, Nat.lt_succ_of_le (length_sj2cdLoop _ _), ?_, hkread.mpr hkover, ?_,
    fun kana => ⟨topMatch_le_left hy _ _, topMatch_le_right _ _ _, topMatch_le_right _ _ _⟩, ?_⟩
  · intro hcut haccept
    have hall := ((addelArg_eq_zero_iff _ _ _).mp haccept).1
    rw [sj2cdStr, if_neg (by decide), sj2cdLoop_snd, decide_eq_true_eq, sj2cdStop_eq] at hall
    exact headD_passed_ne_zero qy hy hyover hcut hall
  · intro hcut haccept
    obtain ⟨ks, rfl, -, hks⟩ :=
      isvknj_pieces hk hkover ((addelArg_eq_zero_iff _ _ _).mp haccept).2.2.1
    rw [overlong_flatten eucWidth hks] at hcut
    cases hcut
  · intro haccept
    obtain ⟨ks, rfl, hlen, hks⟩ :=
      isvknj_pieces hk hkover ((addelArg_eq_zero_iff _ _ _).mp haccept).2.2.1
    obtain ⟨ps, hps⟩ := (addelArg_accepted haccept).exists_text
    have hyomi : yomi = flat ps := by rw [← cstr_append_zero hy qy, hps.cstr_eq]
    have hps31 : ps.length ≤ maxWdYomiLen :=
      hps.length.trans_le (addelArg_accepted haccept).isYomi.length_le
    obtain ⟨hread, hwritten⟩ := cvtknj_pieces (q := qk) below belowKana _ hps hks hlen
    refine ⟨?_, ?_, hread, Nat.lt_succ_of_le hwritten⟩
    · rw [hyomi, yomi2kataStop_flat hps.isPair, length_flat]
    · rw [hps.yomi2kata_eq, length_flat, List.length_map]
      omega

/-- かな for 仮名. -/
theorem parsedWithin_kana :
    ParsedWithin (fun _ => 0) (fun _ => 0) [0xa4, 0xab, 0xa4, 0xca] [] [0xb2, 0xbe, 0xcc, 0xbe]
      [0xa1] 1 :=
  (parsedWithin_iff _ _ (by decide) (by decide) _ _ _).mpr (by decide)

/-- あ for 亜 without its second byte, in front of another byte. -/
theorem not_parsedWithin_cut :
    ¬ ∀ (below belowKana : ℕ → UInt8) (yomi qy kanji qk : Bytes) (hinsi : UInt8), 0 ∉ yomi →
      0 ∉ kanji → ParsedWithin below belowKana yomi qy kanji qk hinsi := by
  intro h
  have hcut := (h (fun _ => 0) (fun _ => 0) [0xa4, 0xa2] [] [0xb0] [0xa1, 0] 1 (by decide)
    (by decide)).kanji_cut
  exact absurd (hcut (by decide)) (by decide)

end Sj3
