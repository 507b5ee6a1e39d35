import Sj3.Verification.Suuji.Numeral
import Sj3.Verification.Suuji.Places

/-! # Printed words

The words are printed nibble by nibble, from the highest one on. -/

namespace Sj3

open Nibble

/-! ## Figures -/

section Figures

variable (tbl : Bytes) (comma : Bool)

/-- Nothing is printed for an absent digit, and nothing for a leading zero. -/
def Blank (v : ℕ) (flg : Bool) : Prop := v = 0 ∨ (v = num0 ∧ ¬flg)

instance (v : ℕ) (flg : Bool) : Decidable (Blank v flg) := inferInstanceAs (Decidable (_ ∨ _))

/-- What is printed for the nibble of a place. -/
def placeText (p v : ℕ) (flg : Bool) : Bytes :=
  if Blank v flg then []
  else tblChar tbl ((v - num0) * 2) ++
    if comma ∧ p ≠ 0 ∧ p % 3 = 0 then [commahigh, commalow] else []

/-- Whether anything has been printed. -/
def placeFlg (v : ℕ) (flg : Bool) : Bool := if Blank v flg then flg else true

/-- What is printed for the places below one. -/
def textBelow (f : ℕ → ℕ) : ℕ → Bool → Bytes
  | 0, _ => []
  | p + 1, flg => placeText tbl comma p (f p) flg ++ textBelow f p (placeFlg (f p) flg)

/-- `keta` at a place. -/
def ketaAt (p : ℕ) : ℤ := if comma then p else 0

theorem wordMask_eq {w k : ℕ} (hw : w < 16 ^ (k + 1)) (kanjitmp : Bytes) (p : ℕ) (flg : Bool) :
    wordMask tbl ⟨kanjitmp, w, ketaAt comma p, flg⟩ (16 ^ k) =
      ⟨kanjitmp ++ placeText tbl comma p (nibble w k) flg, w % 16 ^ k, ketaAt comma (p - 1),
        placeFlg (nibble w k) flg⟩ := by
  have hketa : (if ketaAt comma p ≠ 0 then ketaAt comma p - 1 else ketaAt comma p) =
      ketaAt comma (p - 1) := by
    cases comma with
    | false => rfl
    | true =>
        simp only [ketaAt, if_true]
        split <;> omega
  have hcomma : (ketaAt comma p ≠ 0 ∧ (ketaAt comma p).tmod 3 = 0) ↔
      (comma ∧ p ≠ 0 ∧ p % 3 = 0) := by
    cases comma with
    | false => simp [ketaAt]
    | true =>
        simp only [ketaAt, if_true, true_and]
        rw [Int.tmod_eq_emod_of_nonneg (Int.natCast_nonneg p)]
        omega
  rw [wordMask]
  simp only [div_eq_nibble hw, and_mask]
  by_cases hblank : nibble w k = 0 ∨ (nibble w k = num0 ∧ ¬flg)
  · have hb : Blank (nibble w k) flg := hblank
    simp only [if_pos hblank, placeText, placeFlg, if_pos hb, List.append_nil, hketa]
  · have hb : ¬Blank (nibble w k) flg := hblank
    simp only [if_neg hblank, placeText, placeFlg, if_neg hb, hketa, hcomma, List.append_assoc]

/-- A word of four places. -/
theorem word2char_eq {w : ℕ} (hw : w < 16 ^ 4) (f : ℕ → ℕ) (h : ℕ)
    (hf : ∀ k < 4, f (4 * h + k) = nibble w k) (flg : Bool) :
    ∃ text flg',
      (∀ kanjitmp, word2char kanjitmp w tbl (ketaAt comma (4 * h + 3)) flg =
        (kanjitmp ++ text, flg')) ∧
      textBelow tbl comma f (4 * h + 4) flg = text ++ textBelow tbl comma f (4 * h) flg' := by
  have hloop : ∀ kanjitmp, word2char kanjitmp w tbl (ketaAt comma (4 * h + 3)) flg =
      (kanjitmp ++ placeText tbl comma (4 * h + 3) (f (4 * h + 3)) flg ++
        placeText tbl comma (4 * h + 2) (f (4 * h + 2)) (placeFlg (f (4 * h + 3)) flg) ++
        placeText tbl comma (4 * h + 1) (f (4 * h + 1))
          (placeFlg (f (4 * h + 2)) (placeFlg (f (4 * h + 3)) flg)) ++
        placeText tbl comma (4 * h) (f (4 * h)) (placeFlg (f (4 * h + 1))
          (placeFlg (f (4 * h + 2)) (placeFlg (f (4 * h + 3)) flg))),
      placeFlg (f (4 * h)) (placeFlg (f (4 * h + 1))
        (placeFlg (f (4 * h + 2)) (placeFlg (f (4 * h + 3)) flg)))) := by
    intro kanjitmp
    have h₂ : w % 16 ^ 3 < 16 ^ 3 := Nat.mod_lt _ (sixteen_pow_pos 3)
    have h₁ : w % 16 ^ 3 % 16 ^ 2 < 16 ^ 2 := Nat.mod_lt _ (sixteen_pow_pos 2)
    have h₀ : w % 16 ^ 3 % 16 ^ 2 % 16 ^ 1 < 16 ^ 1 := Nat.mod_lt _ (sixteen_pow_pos 1)
    have hmasks : ([0x1000, 0x100, 0x10, 0x1] : List ℕ) = [16 ^ 3, 16 ^ 2, 16 ^ 1, 16 ^ 0] := rfl
    have hzero := hf 0 (by decide)
    rw [Nat.add_zero] at hzero
    rw [word2char, hmasks, List.foldl_cons, wordMask_eq tbl comma hw, List.foldl_cons,
      wordMask_eq tbl comma h₂, List.foldl_cons, wordMask_eq tbl comma h₁, List.foldl_cons,
      wordMask_eq tbl comma h₀, List.foldl_nil, hf 3 (by decide), hf 2 (by decide),
      hf 1 (by decide), hzero, nibble_mod (by decide), nibble_mod (by decide),
      nibble_mod (by decide), nibble_mod (by decide), nibble_mod (by decide),
      nibble_mod (by decide)]
    rfl
  refine ⟨(word2char [] w tbl (ketaAt comma (4 * h + 3)) flg).1,
    (word2char [] w tbl (ketaAt comma (4 * h + 3)) flg).2, ?_, ?_⟩
  · intro kanjitmp
    rw [hloop kanjitmp, hloop []]
    simp only [List.append_assoc, List.nil_append]
  · rw [hloop []]
    simp only [textBelow, List.append_assoc, List.nil_append]

theorem nibbleAt_append_left {wd : List UInt16} (w : UInt16) {p : ℕ} (hp : p < 4 * wd.length) :
    nibbleAt (wd ++ [w]) p = nibbleAt wd p := by
  rw [nibbleAt, nibbleAt, List.getD_append _ _ _ _ (by omega)]

theorem nibbleAt_append_right (wd : List UInt16) (w : UInt16) {k : ℕ} (hk : k < 4) :
    nibbleAt (wd ++ [w]) (4 * wd.length + k) = nibble w.toNat k := by
  have hword : (4 * wd.length + k) / 4 = wd.length := by omega
  have hplace : (4 * wd.length + k) % 4 = k := by omega
  rw [nibbleAt, hword, hplace, List.getD_append_right _ _ _ _ le_rfl, Nat.sub_self]
  rfl

theorem textBelow_congr {f g : ℕ → ℕ} {p : ℕ} (h : ∀ q < p, f q = g q) (flg : Bool) :
    textBelow tbl comma f p flg = textBelow tbl comma g p flg := by
  induction p generalizing flg with
  | zero => rfl
  | succ p ih =>
      rw [textBelow, textBelow, h p (Nat.lt_succ_self p),
        ih fun q hq => h q (Nat.lt_succ_of_lt hq)]

theorem words2numLoop_eq (wd : List UInt16) (kanjitmp : Bytes) (flg : Bool) :
    words2numLoop tbl wd.reverse kanjitmp (ketaAt comma (4 * wd.length - 1)) flg =
      kanjitmp ++ textBelow tbl comma (nibbleAt wd) (4 * wd.length) flg := by
  induction wd using List.reverseRecOn generalizing kanjitmp flg with
  | nil => exact (List.append_nil kanjitmp).symm
  | append_singleton wd w ih =>
      have hw : w.toNat < 16 ^ 4 := w.toNat_lt
      have hlen : 4 * (wd ++ [w]).length = 4 * wd.length + 4 := by
        rw [List.length_append, List.length_singleton]
        omega
      obtain ⟨text, flg', hout, htext⟩ := word2char_eq tbl comma hw (nibbleAt (wd ++ [w])) wd.length
        (fun k hk => nibbleAt_append_right wd w hk) flg
      have hketa : wd ≠ [] →
          (if ketaAt comma (4 * wd.length + 3) ≠ 0 then ketaAt comma (4 * wd.length + 3) - 4
            else ketaAt comma (4 * wd.length + 3)) = ketaAt comma (4 * wd.length - 1) := by
        intro hne
        have hpos : 0 < wd.length := List.length_pos_of_ne_nil hne
        cases comma with
        | false => rfl
        | true =>
            simp only [ketaAt, if_true]
            split <;> omega
      have hbelow : textBelow tbl comma (nibbleAt (wd ++ [w])) (4 * wd.length) flg' =
          textBelow tbl comma (nibbleAt wd) (4 * wd.length) flg' :=
        textBelow_congr tbl comma (fun q hq => nibbleAt_append_left w hq) flg'
      rw [List.reverse_append, List.reverse_singleton, List.singleton_append, words2numLoop, hlen,
        Nat.add_sub_assoc (by decide), hout, htext, hbelow, ← List.append_assoc]
      by_cases hne : wd = []
      · subst hne
        simp [words2numLoop, textBelow]
      · simp only
        rw [hketa hne, ih]

end Figures

/-! ## Numbers in figures -/

open Numeral

/-- The digits of a list are those of the number. -/
theorem getD_ofDigits {ds : List ℕ} (hds : ∀ d ∈ ds, d < 10) (p : ℕ) :
    ds.getD p 0 = (digitAt (Nat.ofDigits 10 ds) p).val := by
  rw [digitAt_val, Nat.ofDigits_div_pow_eq_ofDigits_drop p (by decide) ds hds]
  by_cases hp : p < ds.length
  · rw [List.getD_eq_getElem _ _ hp, List.drop_eq_getElem_cons hp, Nat.ofDigits_cons,
      Nat.add_mul_mod_self_left, Nat.mod_eq_of_lt (hds _ (List.getElem_mem hp))]
  · have hle : ds.length ≤ p := Nat.le_of_not_lt hp
    rw [List.getD_eq_default _ _ hle, List.drop_eq_nil_of_le hle, Nat.ofDigits_nil]

theorem digitNibble_eq {ds : List ℕ} (hds : ∀ d ∈ ds, d < 10) (p : ℕ) :
    digitNibble ds p =
      if p < ds.length then (digitAt (Nat.ofDigits 10 ds) p).val + 1 else 0 := by
  by_cases hp : p < ds.length
  · rw [if_pos hp, digitNibble_of_lt hp, ← getD_ofDigits hds, List.getD_eq_getElem _ _ hp]
  · rw [if_neg hp, digitNibble_of_length_le (Nat.le_of_not_lt hp)]

theorem digitAt_eq_zero {ds : List ℕ} (hds : ∀ d ∈ ds, d < 10) {p : ℕ} (hp : ds.length ≤ p) :
    digitAt (Nat.ofDigits 10 ds) p = 0 := by
  apply Fin.ext
  rw [← getD_ofDigits hds, List.getD_eq_default _ _ hp]
  rfl

/-- Without digits from a place on a number is below that power of ten. -/
theorem lt_pow_of_digitAt {n len m : ℕ} (hlen : len ≤ m) (hn : n < 10 ^ m)
    (h : ∀ q, len ≤ q → q < m → digitAt n q = 0) : n < 10 ^ len := by
  induction m with
  | zero => rwa [Nat.le_zero.mp hlen]
  | succ m ih =>
      rcases Nat.lt_or_eq_of_le hlen with hlt | rfl
      · have hzero : n / 10 ^ m % 10 = 0 := by
          rw [← digitAt_val, h m (Nat.le_of_lt_succ hlt) (Nat.lt_succ_self m)]
          rfl
        have hsmall : n / 10 ^ m < 10 := by
          rw [Nat.div_lt_iff_lt_mul (Nat.pow_pos (by decide)), Nat.mul_comm]
          rwa [Nat.pow_succ] at hn
        have hn' : n < 10 ^ m := by
          have : n / 10 ^ m = 0 := by rw [← hzero, Nat.mod_eq_of_lt hsmall]
          exact (Nat.div_eq_zero_iff_lt (Nat.pow_pos (by decide))).mp this
        exact ih (Nat.le_of_lt_succ hlt) hn' fun q hq hqm => h q hq (Nat.lt_succ_of_lt hqm)
      · exact hn

theorem textBelow_above (tbl : Bytes) (comma : Bool) {ds : List ℕ} {p : ℕ} (hp : ds.length ≤ p)
    (flg : Bool) :
    textBelow tbl comma (digitNibble ds) p flg =
      textBelow tbl comma (digitNibble ds) ds.length flg := by
  induction p, hp using Nat.le_induction with
  | base => rfl
  | succ p hp ih =>
      have hblank : Blank (digitNibble ds p) flg := .inl (digitNibble_of_length_le hp)
      rw [textBelow, placeText, placeFlg, if_pos hblank, if_pos hblank, List.nil_append, ih]

section Arabic

variable {tbl1 : Bytes} (tbl2 : Bytes) (comma : Bool) {ds : List ℕ} (hds : ∀ d ∈ ds, d < 10)

include hds

/-- The text of a digit that is not left out. -/
theorem placeText_eq {p : ℕ} (hp : p < ds.length) {flg : Bool}
    (hshown : ¬Blank (digitNibble ds p) flg) :
    placeText tbl1 comma p (digitNibble ds p) flg =
      (Numeral.digit (digitAt (Nat.ofDigits 10 ds) p) ::
        if comma ∧ p ≠ 0 ∧ p % 3 = 0 then [Numeral.comma] else []).flatMap
          (bytes tbl1 tbl2) := by
  rw [placeText, if_neg hshown, digitNibble_eq hds, if_pos hp, List.flatMap_cons]
  congr 1
  split <;> rfl

/-- Once a digit has been printed all of them are. -/
theorem textBelow_true {p : ℕ} (hp : p ≤ ds.length) :
    textBelow tbl1 comma (digitNibble ds) p true =
      (arabic comma (Nat.ofDigits 10 ds) p).flatMap (bytes tbl1 tbl2) := by
  induction p with
  | zero => rfl
  | succ p ih =>
      have hshown : ¬Blank (digitNibble ds p) true := by
        rw [digitNibble_of_lt hp, Blank]
        simp
      rw [textBelow, placeText_eq tbl2 comma hds hp hshown, placeFlg, if_neg hshown,
        ih (Nat.le_of_succ_le hp), arabic, ← List.flatMap_append, List.cons_append]

/-- At first zeros are left out. -/
theorem textBelow_false {p : ℕ} (hp : p ≤ ds.length) :
    ∃ len ≤ p, textBelow tbl1 comma (digitNibble ds) p false =
        (arabic comma (Nat.ofDigits 10 ds) len).flatMap (bytes tbl1 tbl2) ∧
      (len ≠ 0 → digitAt (Nat.ofDigits 10 ds) (len - 1) ≠ 0) ∧
      ∀ q, len ≤ q → q < p → digitAt (Nat.ofDigits 10 ds) q = 0 := by
  induction p with
  | zero =>
      exact ⟨0, le_rfl, rfl, fun h => absurd rfl h, fun q _ hq => absurd hq (Nat.not_lt_zero q)⟩
  | succ p ih =>
      have hnibble := digitNibble_eq hds p
      rw [if_pos (Nat.lt_of_succ_le hp)] at hnibble
      by_cases hzero : digitAt (Nat.ofDigits 10 ds) p = 0
      · have hblank : Blank (digitNibble ds p) false :=
          .inr ⟨by rw [hnibble, hzero]; rfl, by decide⟩
        obtain ⟨len, hlen, htext, htop, habove⟩ := ih (Nat.le_of_succ_le hp)
        refine ⟨len, Nat.le_succ_of_le hlen, ?_, htop, ?_⟩
        · rw [textBelow, placeText, placeFlg, if_pos hblank, if_pos hblank, List.nil_append, htext]
        · intro q hq hqp
          rcases Nat.lt_succ_iff_lt_or_eq.mp hqp with hlt | rfl
          · exact habove q hq hlt
          · exact hzero
      · have hshown : ¬Blank (digitNibble ds p) false := by
          have hne : (digitAt (Nat.ofDigits 10 ds) p).val ≠ 0 := fun h => hzero (Fin.ext h)
          rw [hnibble, Blank, num0]
          omega
        refine ⟨p + 1, le_rfl, ?_, fun _ => hzero, fun q hq hqp => absurd hq (by omega)⟩
        rw [textBelow, placeText_eq tbl2 comma hds (Nat.lt_of_succ_le hp) hshown, placeFlg,
          if_neg hshown, textBelow_true tbl2 comma hds (Nat.le_of_succ_le hp), arabic,
          ← List.flatMap_append, List.cons_append]

end Arabic

theorem flatMap_arabic_ne_nil (tbl1 tbl2 : Bytes) (comma : Bool) (n : ℕ) {len : ℕ}
    (hlen : len ≠ 0) : (arabic comma n len).flatMap (bytes tbl1 tbl2) ≠ [] := by
  obtain ⟨p, rfl⟩ := Nat.exists_eq_succ_of_ne_zero hlen
  rw [arabic, List.flatMap_cons]
  exact List.cons_ne_nil _ _

/-- The words that hold digits are printed as the number of the digits. With commas the first
digit is not a zero, unless it is the only one. -/
theorem words2num_eq {wd : List UInt16} {ds : List ℕ} (hwd : Packs wd ds)
    (hlen : ds.length ≤ numketalength) (hds : ∀ d ∈ ds, d < 10) (tbl1 tbl2 : Bytes)
    (flgc : Bool) :
    ∃ len, 0 < len ∧ Nat.ofDigits 10 ds < 10 ^ len ∧
      words2num wd tbl1 flgc =
        (arabic flgc (Nat.ofDigits 10 ds) len).flatMap (bytes tbl1 tbl2) ∧
      (flgc → len = 1 ∨ digitAt (Nat.ofDigits 10 ds) (len - 1) ≠ 0) := by
  have hlt : Nat.ofDigits 10 ds < 10 ^ ds.length :=
    Nat.ofDigits_lt_base_pow_length (by decide) hds
  have hloop (flg : Bool) : words2numLoop tbl1 wd.reverse [] (ketaAt flgc 15) flg =
      textBelow tbl1 flgc (digitNibble ds) ds.length flg := by
    have hcount : 4 * wd.length = numketalength := by rw [hwd.1]; rfl
    have := words2numLoop_eq tbl1 flgc wd [] flg
    rw [hcount, List.nil_append, textBelow_congr tbl1 flgc fun q _ => hwd.2 q,
      textBelow_above tbl1 flgc hlen] at this
    exact this
  have hprinted : ∃ len, Nat.ofDigits 10 ds < 10 ^ len ∧
      (if flgc then words2numLoop tbl1 wd.reverse [] (numketalength - 1) false
        else words2numLoop tbl1 wd.reverse [] 0 true) =
        (arabic flgc (Nat.ofDigits 10 ds) len).flatMap (bytes tbl1 tbl2) ∧
      (flgc → len ≠ 0 → digitAt (Nat.ofDigits 10 ds) (len - 1) ≠ 0) := by
    cases flgc with
    | false =>
        refine ⟨ds.length, hlt, ?_, nofun⟩
        exact (hloop true).trans (textBelow_true tbl2 false hds le_rfl)
    | true =>
        obtain ⟨len, hle, htext, htop, habove⟩ :=
          @textBelow_false tbl1 tbl2 true ds hds _ le_rfl
        exact ⟨len, lt_pow_of_digitAt hle hlt habove, (hloop false).trans htext, fun _ => htop⟩
  obtain ⟨len, hn, htext, htop⟩ := hprinted
  rw [words2num]
  simp only [htext]
  by_cases hzero : len = 0
  · subst hzero
    have hn' : Nat.ofDigits 10 ds = 0 := by simpa using hn
    refine ⟨1, by decide, by rw [hn']; decide, ?_, fun _ => .inl rfl⟩
    rw [hn']
    cases flgc <;> rfl
  · refine ⟨len, Nat.pos_of_ne_zero hzero, hn, ?_, fun hc => .inr (htop hc hzero)⟩
    rw [if_neg (flatMap_arabic_ne_nil tbl1 tbl2 flgc _ hzero)]

/-! ## Numbers with units -/

section Kanji

variable {tbl1 tbl2 : Bytes}

/-- Three units, and none behind them. -/
def UnitTable (tbl2 : Bytes) : Prop :=
  ∀ k ≤ 3, tbl2.getD (2 * (3 - k)) 0 ≠ 0 ↔ k ≠ 0

variable (tbl1 tbl2) in
/-- What is written for a nibble at place `k` of its word. -/
def kanPlaceText (k v : ℕ) : Bytes :=
  if v > num0 then
    (if v ≠ num1 ∨ k = 0 then tblChar tbl1 ((v - num0) * 2) else []) ++
      if k ≠ 0 then tblChar tbl2 (2 * (3 - k)) else []
  else []

/-- The unit of the next place. Behind the last one it does not matter. -/
def kuraiAfter (k v : ℕ) : ℕ := if v > num0 ∧ k = 0 then 2 * (3 - k) else 2 * (3 - k) + 2

theorem KanState.digit_eq (hunit : UnitTable tbl2) {tmp k : ℕ} (hk : k ≤ 3)
    (htmp : tmp < 16 ^ (k + 1)) (kanjitmp : Bytes) (wd : List UInt16) (flg : Bool) (kurai2 : ℤ) :
    KanState.digit tbl1 tbl2 ⟨kanjitmp, wd, tmp, 16 ^ k, flg, 2 * (3 - k), kurai2⟩ =
      ⟨kanjitmp ++ kanPlaceText tbl1 tbl2 k (nibble tmp k), wd, tmp % 16 ^ k, 16 ^ k >>> 4,
        flg || decide (nibble tmp k > num0), kuraiAfter k (nibble tmp k), kurai2⟩ := by
  rw [KanState.digit]
  simp only [div_eq_nibble htmp, kanPlaceText, kuraiAfter]
  have hend : tbl2.getD (2 * (3 - k)) 0 = 0 ↔ k = 0 := not_iff_not.mp (hunit k hk)
  by_cases hshown : nibble tmp k > num0
  · simp only [hend, hunit k hk, decide_true, Bool.or_true, List.append_assoc, hshown, true_and]
    by_cases hzero : k = 0
    · simp only [hzero, ne_eq, not_true_eq_false, if_false, if_true]
      rw [and_mask]
    · simp only [hzero, ne_eq, not_false_eq_true, if_true, if_false]
      rw [and_mask]
  · simp only [hshown, false_and, if_false, decide_false, Bool.or_false, List.append_nil]
    rw [and_mask]

/-- What is written for a word. -/
def kanWordText (tbl1 tbl2 : Bytes) (v : ℕ → ℕ) : Bytes :=
  kanPlaceText tbl1 tbl2 3 (v 3) ++ kanPlaceText tbl1 tbl2 2 (v 2) ++
    kanPlaceText tbl1 tbl2 1 (v 1) ++ kanPlaceText tbl1 tbl2 0 (v 0)

/-- Whether there is a digit other than zero in a word. -/
def wordFlg (v : ℕ → ℕ) : Bool :=
  decide (v 3 > num0) || decide (v 2 > num0) || decide (v 1 > num0) || decide (v 0 > num0)

theorem KanState.turn_word (hunit : UnitTable tbl2) (w : UInt16) (s : KanState)
    (hmask : s.mask = 0) (wd : List UInt16) (hwd : s.wd = w :: wd) :
    let s' := (KanState.turn tbl1 tbl2)^[4] s
    s'.kanjitmp = s.kanjitmp ++ (if s.flg then tblChar num6tbl s.kurai2.toNat else []) ++
        kanWordText tbl1 tbl2 (nibble w.toNat) ∧
      s'.mask = 0 ∧ s'.wd = wd ∧ s'.flg = wordFlg (nibble w.toNat) ∧
      s'.kurai2 = s.kurai2 + 2 := by
  have h₃ : w.toNat < 16 ^ (3 + 1) := w.toNat_lt
  have h₂ : w.toNat % 16 ^ 3 < 16 ^ (2 + 1) := Nat.mod_lt _ (sixteen_pow_pos 3)
  have h₁ : w.toNat % 16 ^ 3 % 16 ^ 2 < 16 ^ (1 + 1) := Nat.mod_lt _ (sixteen_pow_pos 2)
  have h₀ : w.toNat % 16 ^ 3 % 16 ^ 2 % 16 ^ 1 < 16 ^ (0 + 1) := Nat.mod_lt _ (sixteen_pow_pos 1)
  have hfirst : s.turn tbl1 tbl2 = KanState.digit tbl1 tbl2
      ⟨s.kanjitmp ++ (if s.flg then tblChar num6tbl s.kurai2.toNat else []), wd, w.toNat, 16 ^ 3,
        false, 2 * (3 - 3), s.kurai2 + 2⟩ := by
    rw [KanState.turn, if_pos hmask, KanState.word, hwd]
    rfl
  have hnext (k : ℕ) (kanjitmp : Bytes) (tmp : ℕ) (flg : Bool) (v : ℕ) (hk : k < 3) :
      KanState.turn tbl1 tbl2 ⟨kanjitmp, wd, tmp, 16 ^ (k + 1) >>> 4, flg, kuraiAfter (k + 1) v,
          s.kurai2 + 2⟩ =
        KanState.digit tbl1 tbl2 ⟨kanjitmp, wd, tmp, 16 ^ k, flg, 2 * (3 - k), s.kurai2 + 2⟩ := by
    have hshift : 16 ^ (k + 1) >>> 4 = 16 ^ k := by
      rw [Nat.shiftRight_eq_div_pow, Nat.pow_succ]
      exact Nat.mul_div_cancel _ (by decide)
    have hkurai : kuraiAfter (k + 1) v = 2 * (3 - k) := by
      rw [kuraiAfter, if_neg (by omega)]
      omega
    have hne : ¬(16 ^ k = 0) := (sixteen_pow_pos k).ne'
    rw [hshift, hkurai, KanState.turn, if_neg hne]
  have hrun : (KanState.turn tbl1 tbl2)^[4] s =
      (s.turn tbl1 tbl2 |>.turn tbl1 tbl2 |>.turn tbl1 tbl2 |>.turn tbl1 tbl2) := rfl
  rw [hrun, hfirst, KanState.digit_eq hunit le_rfl h₃, hnext 2 _ _ _ _ (by decide),
    KanState.digit_eq hunit (by decide) h₂, hnext 1 _ _ _ _ (by decide),
    KanState.digit_eq hunit (by decide) h₁, hnext 0 _ _ _ _ (by decide),
    KanState.digit_eq hunit (by decide) h₀, nibble_mod (by decide), nibble_mod (by decide),
    nibble_mod (by decide), nibble_mod (by decide), nibble_mod (by decide),
    nibble_mod (by decide)]
  refine ⟨?_, rfl, rfl, ?_, rfl⟩
  · simp only [kanWordText, List.append_assoc]
  · simp only [wordFlg, Bool.false_or]

/-- Four words are written group by group. -/
theorem kanNum_words (hunit : UnitTable tbl2) {wd : List UInt16} (hwd : wd.length = numwordbuf) :
    ((KanState.turn tbl1 tbl2)^[numketalength] ⟨[], wd.reverse, 0, 0, false, 0, -2⟩).kanjitmp =
      kanWordText tbl1 tbl2 (fun k => nibbleAt wd (12 + k)) ++
        (if wordFlg fun k => nibbleAt wd (12 + k) then tblChar num6tbl 0 else []) ++
      kanWordText tbl1 tbl2 (fun k => nibbleAt wd (8 + k)) ++
        (if wordFlg fun k => nibbleAt wd (8 + k) then tblChar num6tbl 2 else []) ++
      kanWordText tbl1 tbl2 (fun k => nibbleAt wd (4 + k)) ++
        (if wordFlg fun k => nibbleAt wd (4 + k) then tblChar num6tbl 4 else []) ++
      kanWordText tbl1 tbl2 (fun k => nibbleAt wd k) := by
  match wd, hwd with
  | [w₀, w₁, w₂, w₃], _ =>
      have hrun : numketalength = 4 + (4 + (4 + 4)) := rfl
      have hrev : [w₀, w₁, w₂, w₃].reverse = [w₃, w₂, w₁, w₀] := rfl
      rw [hrev, hrun, Function.iterate_add_apply, Function.iterate_add_apply,
        Function.iterate_add_apply]
      obtain ⟨ht₃, hm₃, hw₃, hf₃, hk₃⟩ := @KanState.turn_word tbl1 tbl2 hunit w₃
        ⟨[], [w₃, w₂, w₁, w₀], 0, 0, false, 0, -2⟩ rfl _ rfl
      obtain ⟨ht₂, hm₂, hw₂, hf₂, hk₂⟩ := @KanState.turn_word tbl1 tbl2 hunit w₂ _ hm₃ _ hw₃
      obtain ⟨ht₁, hm₁, hw₁, hf₁, hk₁⟩ := @KanState.turn_word tbl1 tbl2 hunit w₁ _ hm₂ _ hw₂
      have ht₀ := (@KanState.turn_word tbl1 tbl2 hunit w₀ _ hm₁ _ hw₁).1
      rw [ht₀, ht₁, ht₂, ht₃, hf₁, hf₂, hf₃, hk₁, hk₂, hk₃]
      simp only [List.append_assoc]
      rfl

/-- The text of one place. -/
theorem kanPlaceText_eq {v k : ℕ} {d : Fin 10} (hk : k ≤ 3)
    (hv : v = d.val + 1 ∨ (v = 0 ∧ d = 0)) :
    kanPlaceText tbl1 tbl2 k v = (kanPlace d k).flatMap (bytes tbl1 tbl2) := by
  by_cases hzero : d = 0
  · have hsmall : ¬v > num0 := by
      rcases hv with hv | hv
      · rw [hv, hzero]
        decide
      · rw [hv.1]
        decide
    rw [kanPlaceText, if_neg hsmall]
    cases k with
    | zero => rw [kanPlace, if_pos hzero, List.flatMap_nil]
    | succ k => rw [kanPlace, if_pos hzero, List.flatMap_nil]
  · have hval : v = d.val + 1 := hv.resolve_right fun h => hzero h.2
    have hne : d.val ≠ 0 := fun h => hzero (Fin.ext h)
    have hone : v ≠ num1 ↔ ¬d = 1 := by
      rw [hval, num1, Fin.ext_iff]
      exact not_congr (by simp)
    have hdigit : tblChar tbl1 ((v - num0) * 2) = bytes tbl1 tbl2 (.digit d) := by
      rw [hval, bytes, num0, Nat.add_sub_cancel]
    rw [kanPlaceText, if_pos (by rw [hval, num0]; omega)]
    cases k with
    | zero =>
        rw [if_pos (.inr rfl), if_neg (by simp), kanPlace, if_neg hzero, List.flatMap_singleton,
          List.append_nil, hdigit]
    | succ k =>
        have hsmall : tblChar tbl2 (2 * (3 - (k + 1))) =
            bytes tbl1 tbl2 (.small (Fin.ofNat 3 k)) := by
          have hval : (Fin.ofNat 3 k).val = k := Nat.mod_eq_of_lt hk
          rw [bytes, hval]
          congr 1
          omega
        rw [if_pos (Nat.succ_ne_zero k), kanPlace, if_neg hzero, List.flatMap_append,
          List.flatMap_singleton, hsmall]
        congr 1
        by_cases h : d = 1
        · rw [if_pos h, List.flatMap_nil, if_neg]
          rw [hone]
          simp [h]
        · rw [if_neg h, if_pos (.inl (hone.mpr h)), hdigit, List.flatMap_singleton]

variable {ds : List ℕ} (hds : ∀ d ∈ ds, d < 10)

include hds

theorem digitNibble_cases (p : ℕ) :
    digitNibble ds p = (digitAt (Nat.ofDigits 10 ds) p).val + 1 ∨
      (digitNibble ds p = 0 ∧ digitAt (Nat.ofDigits 10 ds) p = 0) := by
  rw [digitNibble_eq hds]
  by_cases hp : p < ds.length
  · exact .inl (if_pos hp)
  · exact .inr ⟨if_neg hp, digitAt_eq_zero hds (Nat.le_of_not_lt hp)⟩

theorem kanWordText_eq (q : ℕ) :
    kanWordText tbl1 tbl2 (fun k => digitNibble ds (q + k)) =
      (kanGroup fun k => digitAt (Nat.ofDigits 10 ds) (q + k)).flatMap (bytes tbl1 tbl2) := by
  rw [kanWordText, kanGroup, List.flatMap_append, List.flatMap_append, List.flatMap_append,
    kanPlaceText_eq le_rfl (digitNibble_cases hds (q + 3)),
    kanPlaceText_eq (by decide) (digitNibble_cases hds (q + 2)),
    kanPlaceText_eq (by decide) (digitNibble_cases hds (q + 1)),
    kanPlaceText_eq (by decide) (digitNibble_cases hds (q + 0))]

theorem wordFlg_eq (q : ℕ) :
    wordFlg (fun k => digitNibble ds (q + k)) =
      decide (groupValue (fun k => digitAt (Nat.ofDigits 10 ds) (q + k)) ≠ 0) := by
  have hplace : ∀ p, digitNibble ds p > num0 ↔ (digitAt (Nat.ofDigits 10 ds) p).val ≠ 0 := by
    intro p
    rcases digitNibble_cases hds p with h | h
    · rw [h, num0]
      omega
    · rw [h.1, h.2]
      decide
  rw [Bool.eq_iff_iff, decide_eq_true_iff]
  simp only [wordFlg, Bool.or_eq_true, decide_eq_true_eq, hplace, groupValue]
  omega

/-- The groups of a number as they are written. -/
theorem kanLarge_eq (q : ℕ) (j : Fin 3) :
    kanWordText tbl1 tbl2 (fun k => digitNibble ds (q + k)) ++
        (if wordFlg fun k => digitNibble ds (q + k) then tblChar num6tbl ((2 - j) * 2) else []) =
      (kanLarge (fun k => digitAt (Nat.ofDigits 10 ds) (q + k)) j).flatMap
        (bytes tbl1 tbl2) := by
  rw [kanLarge, List.flatMap_append, kanWordText_eq hds, wordFlg_eq hds]
  congr 1
  by_cases hzero : groupValue (fun k => digitAt (Nat.ofDigits 10 ds) (q + k)) = 0
  · simp [hzero]
  · simp [hzero, bytes]

omit hds in
theorem bytes_ne_nil (tbl1 tbl2 : Bytes) (t : Numeral) : bytes tbl1 tbl2 t ≠ [] := by
  cases t <;> exact nofun

/-- The words that hold digits are written with units as the number of the digits. -/
theorem kanNum_eq (hunit : UnitTable tbl2) {wd : List UInt16} (hwd : Packs wd ds)
    (hlen : ds.length ≤ numketalength) :
    kanNum wd tbl1 tbl2 = (kan (Nat.ofDigits 10 ds)).flatMap (bytes tbl1 tbl2) := by
  have hn : Nat.ofDigits 10 ds < 10 ^ 16 :=
    (Nat.ofDigits_lt_base_pow_length (by decide) hds).trans_le
      (Nat.pow_le_pow_right (by decide) hlen)
  have htext : ((KanState.turn tbl1 tbl2)^[numketalength]
      ⟨[], wd.reverse, 0, 0, false, 0, -2⟩).kanjitmp =
      (kanGroups (Nat.ofDigits 10 ds)).flatMap (bytes tbl1 tbl2) := by
    have hlow := @kanWordText_eq tbl1 tbl2 ds hds 0
    simp only [Nat.zero_add] at hlow
    rw [kanNum_words hunit hwd.1, kanGroups, List.flatMap_append, List.flatMap_append,
      List.flatMap_append]
    simp only [hwd.2]
    rw [← kanLarge_eq hds, ← kanLarge_eq hds, ← kanLarge_eq hds, hlow]
    simp only [List.append_assoc]
    rfl
  rw [kanNum]
  simp only [htext]
  by_cases hzero : Nat.ofDigits 10 ds = 0
  · rw [kan, if_pos hzero, hzero]
    rfl
  · have hne : kanGroups (Nat.ofDigits 10 ds) ≠ [] := by
      intro h
      have := value_kanGroups hn
      rw [h] at this
      exact hzero this.symm
    have hbytes : (kanGroups (Nat.ofDigits 10 ds)).flatMap (bytes tbl1 tbl2) ≠ [] := by
      intro h
      obtain ⟨t, ht⟩ := List.exists_mem_of_ne_nil _ hne
      exact bytes_ne_nil tbl1 tbl2 t (List.flatMap_eq_nil_iff.mp h t ht)
    rw [if_neg hbytes, kan, if_neg hzero]

end Kanji

end Sj3
