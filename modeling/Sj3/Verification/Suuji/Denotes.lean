import Sj3.Verification.Suuji.Printing

/-! # Packing and printing agree

What is packed from digits with marks and what is printed from the words is one number. -/

namespace Sj3

open Numeral

/-- The number that words stand for. -/
def wordsNumber (wd : List UInt16) : ℕ :=
  Nat.ofDigits 10 ((List.range numketalength).map fun p => nibbleAt wd p - 1)

theorem wordsNumber_eq {wd : List UInt16} {ds : List ℕ} (hwd : Packs wd ds)
    (hlen : ds.length ≤ numketalength) : wordsNumber wd = Nat.ofDigits 10 ds := by
  have hpad : ((List.range numketalength).map fun p => nibbleAt wd p - 1) =
      ds ++ List.replicate (numketalength - ds.length) 0 := by
    apply List.ext_getElem
    · rw [List.length_map, List.length_range, List.length_append, List.length_replicate]
      omega
    · intro p hp _
      rw [List.getElem_map, List.getElem_range, hwd.2]
      by_cases hlt : p < ds.length
      · rw [digitNibble_of_lt hlt, List.getElem_append_left hlt, Nat.add_sub_cancel]
      · rw [digitNibble_of_length_le (Nat.le_of_not_lt hlt),
          List.getElem_append_right (Nat.le_of_not_lt hlt), List.getElem_replicate]
  rw [wordsNumber, hpad, Nat.ofDigits_append_replicate_zero]

/-- The words hold every digit at its place, zeros in the gaps and nothing above, and stand for
the sum. -/
def PacksNumber (wd : List UInt16) (us : List Keta) (ps : List ℕ) : Prop :=
  wordsNumber wd = Keta.number us ps ∧
    (∀ e ∈ us.zip ps, nibbleAt wd e.2 = e.1.digit + num0) ∧
    ∀ p, p ∉ ps → nibbleAt wd p = if ∃ q ∈ ps, p < q then num0 else 0

/-- A text is read as these numerals, and they mean the number. -/
def Denotes (t : Bytes × Bytes) (text : Bytes) (ts : List Numeral) (n : ℕ) : Prop :=
  readText t.1 t.2 text = some ts ∧ value ts = n

/-- The tables of `kan_num`. -/
def kanTables : List (Bytes × Bytes) := [(num2tbl, num4tbl), (num3tbl, num5tbl)]

theorem unitTable_of_mem {t : Bytes × Bytes} (ht : t ∈ kanTables) : UnitTable t.2 := by
  have hall : ∀ t ∈ kanTables, ∀ k : Fin 4, t.2.getD (2 * (3 - k)) 0 ≠ 0 ↔ k.val ≠ 0 := by decide
  intro k hk
  exact hall t ht ⟨k, Nat.lt_succ_of_le hk⟩

theorem packsNumber_of_packs {us : List Keta} {wd : List UInt16} (hplaced : Keta.Placed 0 us)
    (hwd : Packs wd (Keta.assemble [] us)) : PacksNumber wd us (Keta.places 0 us) := by
  have hplaced' : Keta.Placed ([] : List ℕ).length us := hplaced
  obtain ⟨hlen, -⟩ := hplaced'.assemble (Nat.zero_le _) (by simp)
  refine ⟨?_, ?_, ?_⟩
  · rw [wordsNumber_eq hwd hlen, hplaced'.ofDigits, Nat.ofDigits_nil, Nat.zero_add]
    rfl
  · intro e he
    rw [hwd.2, digitNibble, hplaced'.getElem?_of_mem he, Option.elim_some]
    rfl
  · intro p hp
    rw [hwd.2, digitNibble, hplaced'.getElem?_of_notMem (Nat.zero_le p) hp]
    by_cases habove : ∃ q ∈ Keta.places 0 us, p < q
    · rw [if_pos habove]
      simp only [List.length_nil, if_pos habove]
      rfl
    · rw [if_neg habove]
      simp only [List.length_nil, if_neg habove]
      rfl

/-- When a sequence of digits is a number, every digit is above the ones behind it, the words
stand for the sum of the digits at their places, and the words are printed as this number: in
figures, with commas between groups of three or without, and with units where there is a digit
other than zero. -/
theorem checkNum_denotes (us : List Keta) (tmp : ℕ) (wd : List UInt16) (flag : UInt16)
    (h : checkNum (us.map Keta.byte) tmp = some (wd, flag)) :
    let ps := Keta.places 0 us.reverse
    let n := Keta.number us.reverse ps
    (ps.Pairwise (· < ·) ∧ ∀ p ∈ ps, p < numketalength) ∧ PacksNumber wd us.reverse ps ∧
      (∀ t ∈ tables, ∀ flgc, ∃ len, 0 < len ∧
        Denotes t (words2num wd t.1 flgc) (arabic flgc n len) n) ∧
      ∀ t ∈ kanTables, Denotes t (kanNum wd t.1 t.2) (kan n) n := by
  obtain ⟨hplaced, hwd⟩ := checkNum_packs h
  have hplaced' : Keta.Placed ([] : List ℕ).length us.reverse := hplaced
  obtain ⟨hlen, hds⟩ := hplaced'.assemble (Nat.zero_le _) (by simp)
  have hn : Nat.ofDigits 10 (Keta.assemble [] us.reverse) =
      Keta.number us.reverse (Keta.places 0 us.reverse) := by
    rw [hplaced'.ofDigits, Nat.ofDigits_nil, Nat.zero_add]
    rfl
  refine ⟨⟨hplaced.pairwise, fun p hp => (hplaced.le_of_mem hp).2⟩,
    packsNumber_of_packs hplaced hwd, ?_, ?_⟩
  · intro t ht flgc
    obtain ⟨len, hpos, hlt, htext, -⟩ := words2num_eq hwd hlen hds t.1 t.2 flgc
    rw [hn] at hlt htext
    refine ⟨len, hpos, ?_, value_arabic flgc hpos hlt⟩
    rw [htext, readText_bytes ht]
  · intro t ht
    have hmem : t ∈ tables := by
      have hall : ∀ t ∈ kanTables, t ∈ tables := by decide
      exact hall t ht
    have hlt : Nat.ofDigits 10 (Keta.assemble [] us.reverse) < 10 ^ 16 :=
      (Nat.ofDigits_lt_base_pow_length (by decide) hds).trans_le
        (Nat.pow_le_pow_right (by decide) hlen)
    rw [hn] at hlt
    refine ⟨?_, value_kan hlt⟩
    rw [kanNum_eq hds (unitTable_of_mem ht) hwd hlen, hn, readText_bytes hmem]

/-- Two tens and four. -/
theorem checkNum_denotes_nijuyon :
    let us : List Keta := [⟨2, 1, 0⟩, ⟨4, 0, 0⟩]
    let wd : List UInt16 := [0x35, 0, 0, 0]
    let ps := Keta.places 0 us.reverse
    let n := Keta.number us.reverse ps
    (ps.Pairwise (· < ·) ∧ ∀ p ∈ ps, p < numketalength) ∧ PacksNumber wd us.reverse ps ∧
      (∀ t ∈ tables, ∀ flgc, ∃ len, 0 < len ∧
        Denotes t (words2num wd t.1 flgc) (arabic flgc n len) n) ∧
      ∀ t ∈ kanTables, Denotes t (kanNum wd t.1 t.2) (kan n) n :=
  checkNum_denotes [⟨2, 1, 0⟩, ⟨4, 0, 0⟩] 0 [0x35, 0, 0, 0]
    (jflagN10 ||| jflagN23 ||| jflagNN0 ||| jflagNK2 ||| jflagNSN) (by decide)

end Sj3
