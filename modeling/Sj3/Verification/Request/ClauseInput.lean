import Sj3.Verification.Reading.Accepted
import Sj3.Verification.Request.Count
import Sj3.Verification.Text

/-! # The input of a clause

What `cl2knj` reads of the reading a client sends, and what it makes of it. The loop counts the
bytes of a character by `isknj1`; the pointer moves by what `sj2cd_chr` returns. -/

namespace Sj3

open Buffer

def maxPhInputLen : ℕ := 256

/-! ## The turns of the loop -/

/-- A turn of the loop: where its character starts, what stands there, and whether it was
converted or left out because its second byte lies behind the length. -/
structure KanaTurn where
  ofs : ℕ
  euc : Bytes
  taken : Bool
  deriving DecidableEq

/-- The bytes of the character that are looked at; `sj2cd_chr` looks at a second one in the rows
that it has tables for. -/
def KanaTurn.read (t : KanaTurn) : ℕ :=
  if t.taken ∧ 0xa1 ≤ t.euc.headD 0 ∧ t.euc.headD 0 ≤ 0xa5 then 2 else 1

/-- The bytes by which the pointer moves. -/
def KanaTurn.width (t : KanaTurn) : ℕ := (sj2cdChr t.euc).2

/-- The turns for `len` more bytes of the input, when the pointer is at `ofs`. -/
def kanaTurns : ℕ → ℕ → Bytes → List KanaTurn
  | 0, _, _ => []
  | len + 1, ofs, ptr =>
      let width := (sj2cdChr ptr).2
      if isknj1 (ptr.headD 0) then
        match len with
        | 0 => [⟨ofs, ptr, false⟩]
        | len + 1 => ⟨ofs, ptr, true⟩ :: kanaTurns len (ofs + width) (ptr.drop width)
      else ⟨ofs, ptr, true⟩ :: kanaTurns len (ofs + width) (ptr.drop width)

/-- The whole characters among the first `len` bytes, when the bytes of a character are counted
by `isknj1`. -/
def wholeKana : ℕ → Bytes → List Bytes
  | 0, _ => []
  | len + 1, ptr =>
      if isknj1 (ptr.headD 0) then
        match len with
        | 0 => []
        | len + 1 => readN 2 ptr :: wholeKana len (ptr.drop 2)
      else readN 1 ptr :: wholeKana len (ptr.drop 1)

/-- None of them is of the character set whose characters take three bytes. -/
def NoSs3 (kana : List Bytes) : Prop := ∀ ch ∈ kana, ch.headD 0 ≠ ss3

/-- The first byte tells the width. -/
theorem width_eq (ptr : Bytes) : (sj2cdChr ptr).2 =
    if isknj1 (ptr.headD 0) then 2 else if ptr.headD 0 = ss3 then 3 else 1 := by
  unfold sj2cdChr
  simp only [apply_ite Prod.snd]
  generalize ptr.headD 0 = c
  revert c
  apply Byte.forall_of_fin
  decide +kernel

theorem width_knj1 {ptr : Bytes} (h : isknj1 (ptr.headD 0) = true) : (sj2cdChr ptr).2 = 2 := by
  rw [width_eq, if_pos h]

theorem width_not_knj1 {ptr : Bytes} (h : isknj1 (ptr.headD 0) = false) :
    (ptr.headD 0 = ss3 ∧ (sj2cdChr ptr).2 = 3) ∨ (ptr.headD 0 ≠ ss3 ∧ (sj2cdChr ptr).2 = 1) := by
  rw [width_eq, h]
  by_cases hss3 : ptr.headD 0 = ss3
  · exact .inl ⟨hss3, by rw [if_pos hss3]; rfl⟩
  · exact .inr ⟨hss3, by rw [if_neg hss3]; rfl⟩

/-- The turns of the loop: a character of one byte, one of two of which the second is left out,
or one of two bytes. -/
theorem kana_induction {motive : ℕ → Bytes → Prop} (nothing : ∀ ptr, motive 0 ptr)
    (cut : ∀ ptr, isknj1 (ptr.headD 0) = true → motive 1 ptr)
    (double : ∀ len ptr, isknj1 (ptr.headD 0) = true → motive len (ptr.drop 2) →
      motive (len + 2) ptr)
    (single : ∀ len ptr, isknj1 (ptr.headD 0) = false →
      motive len (ptr.drop (sj2cdChr ptr).2) → motive (len + 1) ptr)
    (len : ℕ) (ptr : Bytes) : motive len ptr := by
  induction len using Nat.strong_induction_on generalizing ptr with
  | _ len ih =>
      cases len with
      | zero => exact nothing ptr
      | succ len =>
          cases h : isknj1 (ptr.headD 0) with
          | false => exact single len ptr h (ih len (by omega) _)
          | true =>
              cases len with
              | zero => exact cut ptr h
              | succ len => exact double len ptr h (ih len (by omega) _)

section Turn

variable {len : ℕ} {ptr : Bytes}

theorem cl2kana_cut (h : isknj1 (ptr.headD 0) = true) : cl2kana 1 ptr = ([], 0) := by
  rw [cl2kana.eq_def]
  simp only [h, if_true]

theorem cl2kana_double (h : isknj1 (ptr.headD 0) = true) :
    cl2kana (len + 2) ptr = ((sj2cdChr ptr).1 :: (cl2kana len (ptr.drop 2)).1,
      2 + (cl2kana len (ptr.drop 2)).2) := by
  rw [cl2kana.eq_def]
  simp only [h, if_true, width_knj1 h]

theorem cl2kana_single (h : isknj1 (ptr.headD 0) = false) :
    cl2kana (len + 1) ptr = ((sj2cdChr ptr).1 :: (cl2kana len (ptr.drop (sj2cdChr ptr).2)).1,
      (sj2cdChr ptr).2 + (cl2kana len (ptr.drop (sj2cdChr ptr).2)).2) := by
  rw [cl2kana.eq_def]
  simp only [h, Bool.false_eq_true, if_false]

theorem kanaTurns_cut (h : isknj1 (ptr.headD 0) = true) (ofs : ℕ) :
    kanaTurns 1 ofs ptr = [⟨ofs, ptr, false⟩] := by
  rw [kanaTurns.eq_def]
  simp only [h, if_true]

theorem kanaTurns_double (h : isknj1 (ptr.headD 0) = true) (ofs : ℕ) :
    kanaTurns (len + 2) ofs ptr = ⟨ofs, ptr, true⟩ :: kanaTurns len (ofs + 2) (ptr.drop 2) := by
  rw [kanaTurns.eq_def]
  simp only [h, if_true, width_knj1 h]

theorem kanaTurns_single (h : isknj1 (ptr.headD 0) = false) (ofs : ℕ) :
    kanaTurns (len + 1) ofs ptr = ⟨ofs, ptr, true⟩ ::
      kanaTurns len (ofs + (sj2cdChr ptr).2) (ptr.drop (sj2cdChr ptr).2) := by
  rw [kanaTurns.eq_def]
  simp only [h, Bool.false_eq_true, if_false]

theorem wholeKana_cut (h : isknj1 (ptr.headD 0) = true) : wholeKana 1 ptr = [] := by
  rw [wholeKana.eq_def]
  simp only [h, if_true]

theorem wholeKana_double (h : isknj1 (ptr.headD 0) = true) :
    wholeKana (len + 2) ptr = readN 2 ptr :: wholeKana len (ptr.drop 2) := by
  rw [wholeKana.eq_def]
  simp only [h, if_true]

theorem wholeKana_single (h : isknj1 (ptr.headD 0) = false) :
    wholeKana (len + 1) ptr = readN 1 ptr :: wholeKana len (ptr.drop 1) := by
  rw [wholeKana.eq_def]
  simp only [h, Bool.false_eq_true, if_false]

end Turn

/-- The characters that are converted are those of the turns. -/
theorem cl2kana_eq_turns (len ofs : ℕ) (ptr : Bytes) :
    (cl2kana len ptr).1 =
      ((kanaTurns len ofs ptr).filter KanaTurn.taken).map fun t => (sj2cdChr t.euc).1 := by
  induction len, ptr using kana_induction generalizing ofs with
  | nothing ptr => rfl
  | cut ptr h => rw [cl2kana_cut h, kanaTurns_cut h]; rfl
  | double len ptr h ih => rw [cl2kana_double h, kanaTurns_double h, ih (ofs + 2)]; rfl
  | single len ptr h ih => rw [cl2kana_single h, kanaTurns_single h, ih (ofs + _)]; rfl

theorem headD_cl2kana {len : ℕ} {ptr : Bytes} (h : (cl2kana len ptr).1 ≠ []) :
    (cl2kana len ptr).1.headD 0 ≠ 0 := by
  obtain ⟨c, codes, heq⟩ := List.exists_cons_of_ne_nil h
  have hc : c ∈ (cl2kana len ptr).1 := by simp [heq]
  rw [cl2kana_eq_turns len 0] at hc
  obtain ⟨t, -, hcode⟩ := List.mem_map.mp hc
  rw [heq, List.headD_cons, ← hcode]
  exact sj2cdChr_ne_zero t.euc

/-! ## Where the pointer ends -/

/-- The pointer ends behind the last character that was converted. -/
theorem exists_turn_end (len ofs : ℕ) (ptr : Bytes) : (cl2kana len ptr).2 = 0 ∨
    ∃ t ∈ kanaTurns len ofs ptr, t.taken = true ∧ t.ofs + t.width = ofs + (cl2kana len ptr).2 := by
  induction len, ptr using kana_induction generalizing ofs with
  | nothing ptr => exact .inl rfl
  | cut ptr h =>
      rw [cl2kana_cut h]
      exact .inl rfl
  | double len ptr h ih =>
      rw [cl2kana_double h, kanaTurns_double h]
      right
      rcases ih (ofs + 2) with hzero | ⟨t, ht, htaken, hend⟩
      · exact ⟨_, List.mem_cons_self, rfl, by simp [KanaTurn.width, width_knj1 h, hzero]⟩
      · exact ⟨t, List.mem_cons_of_mem _ ht, htaken, by rw [hend, Nat.add_assoc]⟩
  | single len ptr h ih =>
      rw [cl2kana_single h, kanaTurns_single h]
      right
      rcases ih (ofs + (sj2cdChr ptr).2) with hzero | ⟨t, ht, htaken, hend⟩
      · exact ⟨_, List.mem_cons_self, rfl, by simp [KanaTurn.width, hzero]⟩
      · exact ⟨t, List.mem_cons_of_mem _ ht, htaken, by rw [hend, Nat.add_assoc]⟩

/-- The pointer moves as far as the bytes are counted, except for a character that is left out. -/
theorem le_cl2kana (len : ℕ) (ptr : Bytes) : len ≤ (cl2kana len ptr).2 ∨
    (len = (cl2kana len ptr).2 + 1 ∧ isknj1 (ptr.getD (cl2kana len ptr).2 0) = true) := by
  induction len, ptr using kana_induction with
  | nothing ptr => exact .inl (Nat.zero_le _)
  | cut ptr h =>
      rw [cl2kana_cut h]
      exact .inr ⟨rfl, by simpa [List.head?_eq_getElem?] using h⟩
  | double len ptr h ih =>
      rw [cl2kana_double h]
      rcases ih with hle | ⟨hlen, hknj⟩
      · exact .inl (by simp only []; omega)
      · refine .inr ⟨by simp only []; omega, ?_⟩
        simpa [List.getElem?_drop] using hknj
  | single len ptr h ih =>
      rw [cl2kana_single h]
      rcases ih with hle | ⟨hlen, hknj⟩
      · rcases width_not_knj1 h with hw | hw
        · exact .inl (by simp only []; omega)
        · exact .inl (by simp only []; omega)
      · rcases width_not_knj1 h with hw | hw
        · exact .inl (by simp only []; omega)
        · refine .inr ⟨by simp only []; omega, ?_⟩
          simpa [List.getElem?_drop] using hknj

/-- Behind a character of three bytes the pointer is ahead of the count. -/
theorem lt_cl2kana_of_ss3 {len : ℕ} {ptr : Bytes} (h : ¬ NoSs3 (wholeKana len ptr)) :
    len < (cl2kana len ptr).2 := by
  unfold NoSs3 at h
  induction len, ptr using kana_induction with
  | nothing ptr => exact absurd (fun ch hch => by cases hch) h
  | cut ptr hknj =>
      rw [wholeKana_cut hknj] at h
      exact absurd (fun ch hch => by cases hch) h
  | double len ptr hknj ih =>
      rw [wholeKana_double hknj, List.forall_mem_cons] at h
      rw [cl2kana_double hknj]
      have hss3 : (readN 2 ptr).headD 0 ≠ ss3 := by
        intro heq
        rw [headD_readN (by omega)] at heq
        rw [heq] at hknj
        exact absurd hknj (by decide)
      have := ih fun hall => h ⟨hss3, hall⟩
      simp only []
      omega
  | single len ptr hknj ih =>
      rw [wholeKana_single hknj, List.forall_mem_cons, headD_readN one_ne_zero] at h
      rw [cl2kana_single hknj]
      rcases width_not_knj1 hknj with ⟨hss3, hw⟩ | ⟨hss3, hw⟩
      · rcases le_cl2kana len (ptr.drop (sj2cdChr ptr).2) with hle | ⟨hlen, -⟩
        · simp only []
          omega
        · simp only []
          omega
      · rw [hw] at ih ⊢
        have := ih fun hall => h ⟨hss3, hall⟩
        simp only []
        omega

theorem isknj1_of_row : ∀ c : UInt8, 0xa1 ≤ c → c ≤ 0xa5 → isknj1 c = true := by
  apply Byte.forall_of_fin
  decide +kernel

/-- Without a character of three bytes both stay together. -/
theorem turns_within {len : ℕ} {ptr : Bytes} (h : NoSs3 (wholeKana len ptr)) (ofs : ℕ) :
    (∀ t ∈ kanaTurns len ofs ptr, t.ofs + t.read ≤ ofs + len ∧
      (t.taken = true → t.ofs + t.width ≤ ofs + len)) ∧
      (cl2kana len ptr).2 ≤ len ∧ (cl2kana len ptr).1.length ≤ len := by
  unfold NoSs3 at h
  induction len, ptr using kana_induction generalizing ofs with
  | nothing ptr => exact ⟨fun t ht => (by cases ht), le_rfl, le_rfl⟩
  | cut ptr hknj =>
      rw [kanaTurns_cut hknj, cl2kana_cut hknj]
      refine ⟨fun t ht => ?_, Nat.zero_le _, Nat.zero_le _⟩
      rw [List.mem_singleton.mp ht]
      simp [KanaTurn.read]
  | double len ptr hknj ih =>
      rw [wholeKana_double hknj, List.forall_mem_cons] at h
      rw [kanaTurns_double hknj, cl2kana_double hknj]
      obtain ⟨hturns, hend, hcodes⟩ := ih h.2 (ofs + 2)
      refine ⟨fun t ht => ?_, by simp only []; omega, by simp only [List.length_cons]; omega⟩
      rcases List.mem_cons.mp ht with rfl | ht
      · have hread : KanaTurn.read ⟨ofs, ptr, true⟩ ≤ 2 := by
          unfold KanaTurn.read
          split <;> omega
        simp only [KanaTurn.width, width_knj1 hknj] at hread ⊢
        omega
      · obtain ⟨hread, hwidth⟩ := hturns t ht
        exact ⟨by omega, fun htaken => by have := hwidth htaken; omega⟩
  | single len ptr hknj ih =>
      rw [wholeKana_single hknj, List.forall_mem_cons, headD_readN one_ne_zero] at h
      rw [kanaTurns_single hknj, cl2kana_single hknj]
      obtain ⟨-, hw⟩ := (width_not_knj1 hknj).resolve_left fun hss3 => h.1 hss3.1
      rw [hw] at ih ⊢
      obtain ⟨hturns, hend, hcodes⟩ := ih h.2 (ofs + 1)
      refine ⟨fun t ht => ?_, by simp only []; omega, by simp only [List.length_cons]; omega⟩
      rcases List.mem_cons.mp ht with rfl | ht
      · have hread : KanaTurn.read ⟨ofs, ptr, true⟩ = 1 := by
          unfold KanaTurn.read
          refine if_neg fun hrow => ?_
          rw [isknj1_of_row _ hrow.2.1 hrow.2.2] at hknj
          cases hknj
        simp only [KanaTurn.width, hw] at hread ⊢
        omega
      · obtain ⟨hread, hwidth⟩ := hturns t ht
        exact ⟨by omega, fun htaken => by have := hwidth htaken; omega⟩

/-- Then the codes and the bytes are those of the whole characters. -/
theorem cl2kana_wholeKana {len : ℕ} {ptr : Bytes} (h : NoSs3 (wholeKana len ptr)) :
    (cl2kana len ptr).1.length = (wholeKana len ptr).length ∧
      readN (cl2kana len ptr).2 ptr = (wholeKana len ptr).flatten := by
  unfold NoSs3 at h
  induction len, ptr using kana_induction with
  | nothing ptr => exact ⟨rfl, rfl⟩
  | cut ptr hknj =>
      rw [cl2kana_cut hknj, wholeKana_cut hknj]
      exact ⟨rfl, rfl⟩
  | double len ptr hknj ih =>
      rw [wholeKana_double hknj, List.forall_mem_cons] at h
      obtain ⟨hcodes, hbytes⟩ := ih h.2
      rw [cl2kana_double hknj, wholeKana_double hknj, List.flatten_cons, readN_succ_add, hbytes]
      exact ⟨by simp only [List.length_cons, hcodes], rfl⟩
  | single len ptr hknj ih =>
      rw [wholeKana_single hknj, List.forall_mem_cons, headD_readN one_ne_zero] at h
      obtain ⟨-, hw⟩ := (width_not_knj1 hknj).resolve_left fun hss3 => h.1 hss3.1
      rw [hw] at ih
      obtain ⟨hcodes, hbytes⟩ := ih h.2
      rw [cl2kana_single hknj, wholeKana_single hknj, hw, List.flatten_cons, readN_succ_add,
        hbytes]
      exact ⟨by simp only [List.length_cons, hcodes], rfl⟩

/-! ## The limits -/

/-- The most bytes of the input that `cl2knj` takes. -/
def kanaLen (len : ℤ) : ℕ := min len.toNat (maxClInputLen * 2)

/-- The clauses found for a reading are stretches of it. -/
def CnvEnv.Inside (env : CnvEnv) (codes : Bytes) : Prop :=
  ∀ c ∈ env.mkbunsetu codes ++ env.wakachi codes, c.2.cllen ≤ codes.length

/-- `cl2knj` stays within its limits: no byte is read behind the length or the terminator, a
character that is converted lies in front of both, what is copied and the codes fit their
arrays, and what is returned is no more than the length. -/
structure InputWithin (w : Work) (yomi : Bytes) (len : ℤ) : Prop where
  read : ∀ t ∈ kanaTurns (kanaLen len) 0 yomi,
    t.ofs + t.read ≤ len.toNat ∧ t.ofs + t.read ≤ sstrlen yomi + 1
  whole : ∀ t ∈ kanaTurns (kanaLen len) 0 yomi, t.taken = true →
    t.ofs + t.width ≤ len.toNat ∧ t.ofs + t.width ≤ sstrlen yomi
  orgyomi : (cstr (readN (cl2kana (kanaLen len) yomi).2 yomi)).length + 1 ≤ maxClInputLen * 2 + 1
  hyomi : (cl2kana (kanaLen len) yomi).1.length + 1 ≤ maxPhInputLen + 1
  returned : ∀ env : CnvEnv, env.Inside (cl2kana (kanaLen len) yomi).1 →
    (cl2knj env w yomi len).1 ≤ len.toNat

/-- What `orgyomi` has after the whole characters were copied to it. -/
def orgyomiOf (w : Work) (yomi : Bytes) (len : ℤ) : Bytes :=
  overwrite w.orgyomi 0 ((wholeKana (kanaLen len) yomi).flatten ++ [0])

theorem orgyomi_eq {w : Work} {yomi : Bytes} {len : ℤ} (hlen : kanaLen len ≤ sstrlen yomi)
    (hss3 : NoSs3 (wholeKana (kanaLen len) yomi)) :
    overwrite w.orgyomi 0 (cstr (readN (cl2kana (kanaLen len) yomi).2 yomi) ++ [0]) =
      orgyomiOf w yomi len := by
  have hend := (turns_within hss3 0).2.1
  rw [orgyomiOf, cstr_readN (hend.trans hlen), (cl2kana_wholeKana hss3).2]

theorem kanaLen_le_toNat (len : ℤ) : kanaLen len ≤ len.toNat := Nat.min_le_left _ _

theorem kanaLen_le_max (len : ℤ) : kanaLen len ≤ maxClInputLen * 2 := Nat.min_le_right _ _

section Limits

variable {w : Work} {yomi : Bytes} {len : ℤ}

/-- Where the pointer ends. -/
theorem InputWithin.cl2kana_le (h : InputWithin w yomi len) :
    (cl2kana (kanaLen len) yomi).2 ≤ len.toNat ∧
      (cl2kana (kanaLen len) yomi).2 ≤ sstrlen yomi := by
  rcases exists_turn_end (kanaLen len) 0 yomi with hzero | ⟨t, ht, htaken, hend⟩
  · omega
  · have := h.whole t ht htaken
    omega

theorem InputWithin.kanaLen_le (h : InputWithin w yomi len) : kanaLen len ≤ sstrlen yomi := by
  obtain ⟨-, hstr⟩ := h.cl2kana_le
  rcases le_cl2kana (kanaLen len) yomi with hle | ⟨hlen, hknj⟩
  · exact hle.trans hstr
  · -- the character that is left out is not the terminator
    have hne : (cl2kana (kanaLen len) yomi).2 ≠ sstrlen yomi := by
      intro heq
      rw [heq, getD_sstrlen] at hknj
      exact absurd hknj (by decide)
    omega

theorem InputWithin.noSs3 (h : InputWithin w yomi len) :
    NoSs3 (wholeKana (kanaLen len) yomi) := by
  by_contra hss3
  obtain ⟨htoNat, hstr⟩ := h.cl2kana_le
  have hlt := lt_cl2kana_of_ss3 hss3
  have horg := h.orgyomi
  rw [cstr_readN hstr, length_readN] at horg
  have hmin : kanaLen len = len.toNat ∨ kanaLen len = maxClInputLen * 2 := min_choice _ _
  omega

theorem InputWithin.hzstrlen_le (h : InputWithin w yomi len) {k : ℕ} (hpos : 0 < k)
    (hk : k ≤ maxClInputLen) (hwhole : k ≤ (wholeKana (kanaLen len) yomi).length) :
    hzstrlen k (orgyomiOf w yomi len) ≤ len.toNat := by
  have hcodes := (cl2kana_wholeKana h.noSs3).1
  have hhead : (cl2kana (kanaLen len) yomi).1.headD 0 ≠ 0 := by
    refine headD_cl2kana ?_
    rw [← List.length_pos_iff, hcodes]
    omega
  have hinside : (oneEnv [] k).Inside (cl2kana (kanaLen len) yomi).1 := by
    intro c hc
    have hclause : c.2.cllen = k := by
      rcases List.mem_append.mp hc with hc | hc
      · rw [List.mem_singleton.mp hc]
        rfl
      · rw [List.mem_singleton.mp hc]
        rfl
    rw [hclause, hcodes]
    exact hwhole
  have hret := h.returned _ hinside
  rwa [(@oneEnv_spec [] k ⟨hpos, hk⟩ w yomi len hhead).1, ← kanaLen,
    orgyomi_eq h.kanaLen_le h.noSs3] at hret

theorem inputWithin_of (hlen : kanaLen len ≤ sstrlen yomi)
    (hss3 : NoSs3 (wholeKana (kanaLen len) yomi))
    (hsize : ∀ k, 0 < k → k ≤ maxClInputLen → k ≤ (wholeKana (kanaLen len) yomi).length →
      hzstrlen k (orgyomiOf w yomi len) ≤ len.toNat) : InputWithin w yomi len := by
  have htoNat := kanaLen_le_toNat len
  have hmax := kanaLen_le_max len
  obtain ⟨hturns, hend, hcodes⟩ := turns_within hss3 0
  refine ⟨fun t ht => ?_, fun t ht htaken => ?_, ?_, ?_, fun env henv => ?_⟩
  · have := (hturns t ht).1
    omega
  · have := (hturns t ht).2 htaken
    omega
  · rw [cstr_readN (hend.trans hlen), length_readN]
    omega
  · unfold maxPhInputLen
    unfold maxClInputLen at hmax
    omega
  · have hclause := cl2knj_clause
      (P := fun c => c.cllen ≤ (cl2kana (kanaLen len) yomi).1.length) w henv
    rcases hclause with ⟨hzero, -⟩ | ⟨-, c, hinside, hpos, hk, hret⟩
    · rw [hzero]
      exact Nat.zero_le _
    · rw [hret, ← kanaLen, orgyomi_eq hlen hss3]
      exact hsize c.cllen hpos hk (by rwa [← (cl2kana_wholeKana hss3).1])

end Limits

/-- When `cl2knj` stays within its limits: the length does not reach behind the terminator, no
character takes three bytes, and the characters of the clause take no more bytes by
`euc_codesize`. The walk of `strlcpy` to the end of its source is no part of this. -/
theorem inputWithin_iff (w : Work) (yomi : Bytes) (len : ℤ) :
    InputWithin w yomi len ↔
      kanaLen len ≤ sstrlen yomi ∧ NoSs3 (wholeKana (kanaLen len) yomi) ∧
        ∀ k, 0 < k → k ≤ maxClInputLen → k ≤ (wholeKana (kanaLen len) yomi).length →
          hzstrlen k (orgyomiOf w yomi len) ≤ len.toNat :=
  ⟨fun h => ⟨h.kanaLen_le, h.noSs3, fun _ hpos hk hwhole => h.hzstrlen_le hpos hk hwhole⟩,
    fun h => inputWithin_of h.1 h.2.1 h.2.2⟩

/-- The reading is one character of three bytes, and the loop goes on behind its terminator. -/
theorem not_inputWithin : ¬ ∀ (w : Work) (yomi : Bytes) (len : ℤ), InputWithin w yomi len := by
  intro h
  have hturn : (⟨3, [0], true⟩ : KanaTurn) ∈ kanaTurns (kanaLen 3) 0 [0x8f, 0xb0, 0xa1, 0] := by
    decide
  have hwhole := (h ⟨[], [], [], [], [], 0, ⟨[], []⟩⟩ [0x8f, 0xb0, 0xa1, 0] 3).whole _ hturn rfl
  exact absurd hwhole.1 (by decide)

/-! ## Characters of EUC -/

/-- Where `euc_codesize` tells the length of each character, a clause takes what its characters
have. -/
theorem hzstrlen_flatten {kana : List Bytes}
    (h : ∀ ch ∈ kana, eucCodesize (ch.headD 0) = ch.length) (hne : ∀ ch ∈ kana, ch ≠ [])
    (rest : Bytes) {k : ℕ} (hk : k ≤ kana.length) :
    hzstrlen k (kana.flatten ++ rest) ≤ kana.flatten.length := by
  induction kana generalizing k with
  | nil =>
      rw [Nat.le_zero.mp hk]
      exact Nat.zero_le _
  | cons ch kana ih =>
      cases k with
      | zero => exact Nat.zero_le _
      | succ k =>
          have hhead : ((ch :: kana).flatten ++ rest).headD 0 = ch.headD 0 := by
            obtain ⟨c, t, rfl⟩ := List.exists_cons_of_ne_nil (hne ch List.mem_cons_self)
            rfl
          have hdrop : ((ch :: kana).flatten ++ rest).drop ch.length = kana.flatten ++ rest := by
            rw [List.flatten_cons, List.append_assoc, List.drop_left]
          have := ih (fun c hc => h c (List.mem_cons_of_mem _ hc))
            (fun c hc => hne c (List.mem_cons_of_mem _ hc)) (Nat.le_of_succ_le_succ hk)
          rw [hzstrlen, hhead, h ch List.mem_cons_self, hdrop, List.flatten_cons,
            List.length_append]
          omega

theorem eucCodesize_wholeKana {len : ℕ} {ptr : Bytes} (hss3 : NoSs3 (wholeKana len ptr))
    (hreg : ∀ ch ∈ wholeKana len ptr, ch.headD 0 &&& kanjiModeMask ≠ 0x90) :
    ∀ ch ∈ wholeKana len ptr, eucCodesize (ch.headD 0) = ch.length ∧ ch ≠ [] := by
  unfold NoSs3 at hss3
  induction len, ptr using kana_induction with
  | nothing ptr => exact fun ch hch => by cases hch
  | cut ptr hknj =>
      rw [wholeKana_cut hknj]
      exact fun ch hch => by cases hch
  | double len ptr hknj ih =>
      rw [wholeKana_double hknj, List.forall_mem_cons] at hss3 hreg ⊢
      refine ⟨⟨?_, List.cons_ne_nil _ _⟩, ih hss3.2 hreg.2⟩
      have hreg' := hreg.1
      rw [headD_readN (by omega)] at hreg' ⊢
      rw [eucCodesize, if_neg hreg', if_pos hknj, length_readN]
  | single len ptr hknj ih =>
      rw [wholeKana_single hknj, List.forall_mem_cons, headD_readN one_ne_zero] at hss3 hreg ⊢
      obtain ⟨-, hw⟩ := (width_not_knj1 hknj).resolve_left fun h => hss3.1 h.1
      rw [hw] at ih
      refine ⟨⟨?_, List.cons_ne_nil _ _⟩, ih hss3.2 hreg.2⟩
      rw [eucCodesize, if_neg hreg.1, if_neg (ne_true_of_eq_false hknj), if_neg hss3.1,
        length_readN]

/-- In a reading that has no byte `0x90` to `0x9f` in front of another, the first two
conditions are all. -/
theorem inputWithin_iff_of_euc {w : Work} {yomi : Bytes} {len : ℤ}
    (hreg : ∀ ch ∈ wholeKana (kanaLen len) yomi, ch.headD 0 &&& kanjiModeMask ≠ 0x90) :
    InputWithin w yomi len ↔
      kanaLen len ≤ sstrlen yomi ∧ NoSs3 (wholeKana (kanaLen len) yomi) := by
  constructor
  · exact fun h => ⟨h.kanaLen_le, h.noSs3⟩
  · rintro ⟨hlen, hss3⟩
    have hsize := eucCodesize_wholeKana hss3 hreg
    have hbytes : (wholeKana (kanaLen len) yomi).flatten.length ≤ kanaLen len := by
      rw [← (cl2kana_wholeKana hss3).2, length_readN]
      exact (turns_within hss3 0).2.1
    refine inputWithin_of hlen hss3 fun k _ _ hk => ?_
    have horg : orgyomiOf w yomi len = (wholeKana (kanaLen len) yomi).flatten ++
        ([0] ++ w.orgyomi.drop ((wholeKana (kanaLen len) yomi).flatten ++ [0]).length) := by
      rw [orgyomiOf, overwrite, List.take_zero, List.nil_append, Nat.zero_add,
        List.append_assoc]
    rw [horg]
    have := hzstrlen_flatten (fun ch hch => (hsize ch hch).1) (fun ch hch => (hsize ch hch).2)
      ([0] ++ w.orgyomi.drop ((wholeKana (kanaLen len) yomi).flatten ++ [0]).length) hk
    have := kanaLen_le_toNat len
    omega

end Sj3
