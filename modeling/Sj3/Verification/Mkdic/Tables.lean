import Mathlib.Data.List.Lex
import Sj3.General.Byte
import Sj3.Model.Mkdic
import Sj3.Verification.Kanji.Codes

/-! # Tables of strings

The tables of the dictionary compiler are sorted, and the binary search finds what is in them. -/

namespace Sj3.Mkdic

open Bisect

/-! ## Comparing -/

theorem stringCmp_neg_iff (p q : Bytes) : stringCmp p q < 0 ↔ p < q := by
  induction p generalizing q with
  | nil =>
      cases q with
      | nil => simp [stringCmp]
      | cons b q => simp [stringCmp]
  | cons a p ih =>
      cases q with
      | nil => simp [stringCmp]
      | cons b q =>
          rw [stringCmp, List.cons_lt_cons_iff]
          by_cases hab : a = b
          · simp [hab, ih]
          · have hlt : a < b ↔ a.toNat < b.toNat := UInt8.lt_iff_toNat_lt
            simp only [ne_eq, hab, not_false_eq_true, if_true, false_and, or_false, hlt]
            omega

theorem stringCmp_pos_iff (p q : Bytes) : 0 < stringCmp p q ↔ q < p := by
  induction p generalizing q with
  | nil =>
      cases q with
      | nil => simp [stringCmp]
      | cons b q => simp [stringCmp]
  | cons a p ih =>
      cases q with
      | nil => simp [stringCmp]
      | cons b q =>
          rw [stringCmp, List.cons_lt_cons_iff]
          by_cases hab : a = b
          · simp [hab, ih]
          · have hlt : b < a ↔ b.toNat < a.toNat := UInt8.lt_iff_toNat_lt
            simp only [ne_eq, hab, not_false_eq_true, if_true, Ne.symm hab, false_and, or_false,
              hlt]
            omega

theorem stringCmp_eq_zero_iff (p q : Bytes) : stringCmp p q = 0 ↔ p = q := by
  constructor
  · intro h
    apply le_antisymm
    · exact not_lt.mp fun hlt => by
        have := (stringCmp_pos_iff p q).mpr hlt
        omega
    · exact not_lt.mp fun hlt => by
        have := (stringCmp_neg_iff p q).mpr hlt
        omega
  · rintro rfl
    have h₁ := stringCmp_neg_iff p p
    have h₂ := stringCmp_pos_iff p p
    simp only [lt_irrefl, iff_false] at h₁ h₂
    omega

/-! ## Searching -/

section Search

variable {τ : Type*} {kptr : τ → Bytes} {tbl : List τ}

/-- The strings of the table ascend. -/
def SortedBy (kptr : τ → Bytes) (tbl : List τ) : Prop := (tbl.map kptr).Pairwise (· < ·)

theorem tableSearch_spec (hs : SortedBy kptr tbl) (ptr : Bytes) :
    Bisect.Spot kptr ptr tbl (tableSearch kptr tbl ptr) := by
  apply search_spec hs
  constructor
  · intro i hi
    simp only [List.getElem?_eq_getElem hi, Option.elim_some]
    exact stringCmp_pos_iff _ _
  · intro i hi
    simp only [List.getElem?_eq_getElem hi, Option.elim_some]
    exact stringCmp_neg_iff _ _

/-- A table has a string once. -/
theorem SortedBy.eq_of_mem (hs : SortedBy kptr tbl) {t u : τ} (ht : t ∈ tbl) (hu : u ∈ tbl)
    (h : kptr t = kptr u) : t = u := by
  induction tbl with
  | nil => simp at ht
  | cons v tbl ih =>
      rw [SortedBy, List.map_cons, List.pairwise_cons] at hs
      rcases List.mem_cons.mp ht with rfl | ht'
      · rcases List.mem_cons.mp hu with rfl | hu'
        · rfl
        · exact absurd h (hs.1 _ (List.mem_map_of_mem hu')).ne
      · rcases List.mem_cons.mp hu with rfl | hu'
        · exact absurd h (hs.1 _ (List.mem_map_of_mem ht')).ne'
        · exact ih hs.2 ht' hu'

/-- A string that is not there is found missing. -/
theorem tableSearch_cases (hs : SortedBy kptr tbl) (ptr : Bytes) :
    (∃ l t r, tbl = l ++ t :: r ∧ kptr t = ptr ∧ tableSearch kptr tbl ptr = (true, l.length)) ∨
      ∃ l r, tbl = l ++ r ∧ (∀ t ∈ l, kptr t < ptr) ∧ (∀ t ∈ r, ptr < kptr t) ∧
        tableSearch kptr tbl ptr = (false, l.length) := by
  have h := tableSearch_spec hs ptr
  generalize tableSearch kptr tbl ptr = found at h ⊢
  cases h with
  | @found l r t htbl ht => exact .inl ⟨l, t, r, htbl, ht, rfl⟩
  | @absent l r htbl hl hr => exact .inr ⟨l, r, htbl, hl, hr, rfl⟩

end Search

/-! ## Strings and their numbers -/

variable {ofsrec ofsrec' : List OffsetRec} {ptr : Bytes} {ofs : ℕ}

theorem isknjexist_of_mem (hs : SortedBy OffsetRec.kptr ofsrec) {p : OffsetRec} (hp : p ∈ ofsrec) :
    isknjexist ofsrec p.kptr = p.offset := by
  rcases tableSearch_cases hs p.kptr with ⟨l, t, r, rfl, ht, he⟩ | ⟨l, r, rfl, hl, hr, he⟩
  · obtain rfl := hs.eq_of_mem (by simp) hp ht
    simp [isknjexist, he]
  · rcases List.mem_append.mp hp with hp | hp
    · exact absurd rfl (hl p hp).ne
    · exact absurd rfl (hr p hp).ne

theorem isknjexist_ne_zero (hs : SortedBy OffsetRec.kptr ofsrec) (h : isknjexist ofsrec ptr ≠ 0) :
    ∃ p ∈ ofsrec, p.kptr = ptr ∧ p.offset = isknjexist ofsrec ptr := by
  rcases tableSearch_cases hs ptr with ⟨l, t, r, rfl, rfl, he⟩ | ⟨l, r, rfl, hl, hr, he⟩
  · exact ⟨t, by simp, rfl, (isknjexist_of_mem hs (by simp)).symm⟩
  · exact absurd (by simp [isknjexist, he]) h

/-- The table stays as it is, or gets a string it does not have yet. -/
theorem setOfsrec_spec (hs : SortedBy OffsetRec.kptr ofsrec)
    (h : setOfsrec ofsrec ptr ofs = some ofsrec') :
    SortedBy OffsetRec.kptr ofsrec' ∧
      (ofsrec' = ofsrec ∧ (∃ p ∈ ofsrec, p.kptr = ptr) ∨
        (∀ p ∈ ofsrec, p.kptr ≠ ptr) ∧ ofsrec.length < maxOffsetNumber ∧
          ∃ l r, ofsrec = l ++ r ∧ ofsrec' = l ++ makeoffset ofsrec.length ptr ofs :: r) := by
  rw [setOfsrec] at h
  rcases tableSearch_cases hs ptr with ⟨l, t, r, rfl, rfl, he⟩ | ⟨l, r, rfl, hl, hr, he⟩
  · simp only [he, if_true, Option.some.injEq] at h
    subst h
    exact ⟨hs, .inl ⟨rfl, t, by simp, rfl⟩⟩
  · simp only [he, Bool.false_eq_true, if_false] at h
    by_cases hfull : (l ++ r).length ≥ maxOffsetNumber
    · rw [if_pos hfull] at h
      cases h
    · rw [if_neg hfull, Option.some.injEq] at h
      rw [insertIdx_append] at h
      subst h
      refine ⟨pairwise_insert hs hl hr, .inr ⟨?_, not_le.mp hfull, l, r, rfl, rfl⟩⟩
      intro p hp
      rcases List.mem_append.mp hp with hp | hp
      · exact (hl p hp).ne
      · exact (hr p hp).ne'

end Sj3.Mkdic
