import Sj3.General.Byte
import Sj3.Model.Addel

/-! # Accepted readings

A reading that passes the checks consists of two-byte characters only, and its codes
determine it. -/

namespace Sj3

/-- A code that may stand in the reading of a registered word. -/
def IsYomiCode (c : UInt8) : Prop := chrtbl c ≠ 0 ∧ c < yKuten

instance (c : UInt8) : Decidable (IsYomiCode c) := inferInstanceAs (Decidable (_ ∧ _))

/-- The EUC text of a sequence of reading codes. -/
def eucOf (codes : Bytes) : Bytes := codes.flatMap cd2sjhChr

@[simp] theorem eucOf_nil : eucOf [] = [] := rfl

@[simp] theorem eucOf_cons (c : UInt8) (codes : Bytes) :
    eucOf (c :: codes) = cd2sjhChr c ++ eucOf codes := rfl

theorem IsYomiCode.ne_zero {c : UInt8} (h : IsYomiCode c) : c ≠ 0 := by
  rintro rfl
  exact h.1 (by decide)

theorem IsYomiCode.ne_term {c : UInt8} (h : IsYomiCode c) : c ≠ 0xff := by
  rintro rfl
  exact absurd h.2 (by decide)

/-- The codes of a row are looked up byte by byte. -/
private theorem sj2cdChr_row (b₀ : UInt8) (h : b₀ ∈ [0xa1, 0xa2, 0xa3, 0xa4, 0xa5]) :
    ∀ b₁ : UInt8, (sj2cdChr [b₀, b₁]).1 ≠ 0 ∧ (IsYomiCode (sj2cdChr [b₀, b₁]).1 →
      (sj2cdChr [b₀, b₁]).2 = 2 ∧ b₁ ≠ 0 ∧ cd2sjhChr (sj2cdChr [b₀, b₁]).1 = [b₀, b₁]) := by
  apply Byte.forall_of_fin
  revert b₀
  decide +kernel

/-- Outside the five rows every character has a code no reading may contain. -/
private theorem sj2cdChr_other (euc : Bytes) (h : euc.headD 0 ∉ [0xa1, 0xa2, 0xa3, 0xa4, 0xa5]) :
    (sj2cdChr euc).1 = yHankaku ∨ (sj2cdChr euc).1 = yZenkaku := by
  simp only [List.mem_cons, List.not_mem_nil, or_false, not_or] at h
  obtain ⟨h₁, h₂, h₃, h₄, h₅⟩ := h
  simp only [sj2cdChr, h₁, h₂, h₃, h₄, h₅, if_false]
  split
  · simp
  · split
    · simp
    · split <;> simp

private theorem sj2cdChr_take (euc : Bytes) :
    sj2cdChr euc = sj2cdChr [euc.headD 0, euc.getD 1 0] := rfl

theorem sj2cdChr_ne_zero (euc : Bytes) : (sj2cdChr euc).1 ≠ 0 := by
  by_cases h : euc.headD 0 ∈ [0xa1, 0xa2, 0xa3, 0xa4, 0xa5]
  · rw [sj2cdChr_take]
    exact (sj2cdChr_row _ h _).1
  · rcases sj2cdChr_other euc h with h | h <;> rw [h] <;> decide

/-- An accepted code comes from a character of two bytes, and leads back to it. -/
theorem sj2cdChr_sound (euc : Bytes) (h : IsYomiCode (sj2cdChr euc).1) :
    ∃ b₀ b₁ rest, euc = b₀ :: b₁ :: rest ∧ (sj2cdChr euc).2 = 2 ∧
      cd2sjhChr (sj2cdChr euc).1 = [b₀, b₁] := by
  have hrow : euc.headD 0 ∈ [0xa1, 0xa2, 0xa3, 0xa4, 0xa5] := by
    by_contra hrow
    rcases sj2cdChr_other euc hrow with he | he <;> rw [he] at h <;> exact absurd h (by decide)
  rw [sj2cdChr_take] at h ⊢
  obtain ⟨hw, hb, hc⟩ := (sj2cdChr_row _ hrow _).2 h
  match euc with
  | [] => simp at hrow
  | [b₀] => exact absurd rfl hb
  | b₀ :: b₁ :: rest => exact ⟨b₀, b₁, rest, rfl, hw, hc⟩

theorem sj2cdLoop_ne_zero (len : ℕ) (euc : Bytes) : 0 ∉ (sj2cdLoop len euc).1 := by
  induction len generalizing euc with
  | zero => simp [sj2cdLoop]
  | succ len ih =>
      rw [sj2cdLoop]
      split
      · simp
      · simp only [List.mem_cons, not_or]
        exact ⟨(sj2cdChr_ne_zero euc).symm, ih _⟩

/-- If all of `euc` was converted, to codes a reading may contain, it is the text of
these codes. -/
theorem sj2cdLoop_sound (len : ℕ) (euc : Bytes) (hall : (sj2cdLoop len euc).2 = true)
    (hc : ∀ c ∈ (sj2cdLoop len euc).1, IsYomiCode c) :
    ∃ rest, euc = eucOf (sj2cdLoop len euc).1 ++ rest ∧ rest.headD 0 = 0 := by
  induction len generalizing euc with
  | zero => exact ⟨euc, rfl, by simpa [sj2cdLoop] using hall⟩
  | succ len ih =>
      rw [sj2cdLoop] at hall hc ⊢
      by_cases hz : euc.headD 0 = 0
      · rw [if_pos hz]
        exact ⟨euc, rfl, hz⟩
      · simp only [hz, if_false, List.mem_cons, forall_eq_or_imp] at hall hc ⊢
        obtain ⟨b₀, b₁, tail, rfl, hw, hb⟩ := sj2cdChr_sound euc hc.1
        rw [hw] at hall hc
        obtain ⟨rest, he, hr⟩ := ih _ hall hc.2
        refine ⟨rest, ?_, hr⟩
        rw [hw, eucOf_cons, hb, List.append_assoc, ← he]
        rfl

/-! ## The check of the codes -/

theorem isvyomiLoop_spec (len : ℕ) (yp : Bytes) (h0 : 0 ∉ yp) (h : isvyomiLoop len yp = true)
    (hl : len ≤ maxWdYomiLen) :
    (∀ c ∈ yp, IsYomiCode c) ∧ len + yp.length ≤ maxWdYomiLen := by
  induction yp generalizing len with
  | nil => simpa using hl
  | cons y yp ih =>
      simp only [List.mem_cons, not_or] at h0
      rw [isvyomiLoop, if_neg (Ne.symm h0.1)] at h
      split at h
      · cases h
      · rename_i hy
        split at h
        · cases h
        · rename_i hlen
          obtain ⟨hc, hn⟩ := ih _ h0.2 h (by omega)
          have hcode : IsYomiCode y := ⟨fun e => hy (.inl e), UInt8.not_le.mp fun e => hy (.inr e)⟩
          refine ⟨?_, by simp; omega⟩
          simpa using ⟨hcode, hc⟩

/-- What makes a sequence of codes the reading of a word. -/
structure IsYomi (y : Bytes) : Prop where
  ne_nil : y ≠ []
  length_le : y.length ≤ maxWdYomiLen
  ne_zero : 0 ∉ y

/-- A reading argument that passes: its codes, and nothing else, are in front of the
terminator. -/
structure AcceptedYomi (yomi : Bytes) : Prop where
  isYomi : IsYomi (yomiCodes yomi)
  codes : ∀ c ∈ yomiCodes yomi, IsYomiCode c
  text : ∃ rest, yomi = eucOf (yomiCodes yomi) ++ rest ∧ rest.headD 0 = 0

theorem acceptedYomi_of_check {yomi : Bytes} (hall : (sj2cdStr yomi (maxWdYomiLen + 1)).2 = true)
    (hv : isvyomi (yomiCodes yomi) = true) : AcceptedYomi yomi := by
  have h0 : 0 ∉ yomiCodes yomi := sj2cdLoop_ne_zero _ _
  rw [isvyomi] at hv
  split at hv
  · cases hv
  · rename_i hne
    split at hv
    · cases hv
    · obtain ⟨hc, hl⟩ := isvyomiLoop_spec 0 _ h0 hv (Nat.zero_le _)
      refine ⟨⟨?_, by omega, h0⟩, hc, sj2cdLoop_sound _ _ hall hc⟩
      intro he
      rw [he] at hne
      exact hne rfl

/-! ## Accepted arguments -/

theorem addelArg_eq_zero_iff (yomi kanji : Bytes) (hinsi : UInt8) :
    addelArg yomi kanji hinsi = 0 ↔
      (sj2cdStr yomi (maxWdYomiLen + 1)).2 = true ∧ isvyomi (yomiCodes yomi) = true ∧
        isvknj kanji = true ∧ isgrm hinsi = true := by
  unfold addelArg
  cases (sj2cdStr yomi (maxWdYomiLen + 1)).2 <;> cases isvyomi (yomiCodes yomi) <;>
    cases isvknj kanji <;> cases isgrm hinsi <;> simp <;> decide

theorem addelArg_accepted {yomi kanji : Bytes} {hinsi : UInt8}
    (h : addelArg yomi kanji hinsi = 0) : AcceptedYomi yomi :=
  have h := (addelArg_eq_zero_iff yomi kanji hinsi).mp h
  acceptedYomi_of_check h.1 h.2.1

theorem isgrm_ne_term {hinsi : UInt8} (h : isgrm hinsi = true) : hinsi ≠ hinsiBlkTerm := by
  rintro rfl
  exact absurd h (by decide)

end Sj3
