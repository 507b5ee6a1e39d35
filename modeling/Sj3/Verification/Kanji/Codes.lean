import Sj3.Model.Segment

/-! # Code strings

A kanji string is stored as a sequence of one- and two-byte codes. The walks over it go
from code to code; only the one over a whole grammar block may get out of step. -/

namespace Sj3

/-- The bytes of a code string, its terminator left out. -/
inductive IsCodes : Bytes → Prop
  | nil : IsCodes []
  | short {c k} (h₀ : c ≠ kanjiStrEnd) (hs : codesize c = 1) (hk : IsCodes k) :
      IsCodes (c :: k)
  | long {c c' k} (h₀ : c ≠ kanjiStrEnd) (hs : codesize c ≠ 1) (hk : IsCodes k) :
      IsCodes (c :: c' :: k)

theorem IsCodes.append {k l : Bytes} (hk : IsCodes k) (hl : IsCodes l) : IsCodes (k ++ l) := by
  induction hk with
  | nil => exact hl
  | short h₀ hs hk ih => exact .short h₀ hs ih
  | long h₀ hs hk ih => exact .long h₀ hs ih

/-- A kanji string of a dictionary. It does not look like the end of its grammar block. -/
structure IsKnjStr (k : Bytes) : Prop where
  codes : IsCodes k
  ne_nil : k ≠ []
  ne_term : k.headD 0 ≠ hinsiBlkTerm

/-- A kanji string of a user dictionary: it refers to nothing but its reading, so no
byte of it is a terminator. -/
structure IsUsrKnjStr (k : Bytes) : Prop extends IsKnjStr k where
  end_notMem : kanjiStrEnd ∉ k
  term_notMem : hinsiBlkTerm ∉ k

/-! ## Single steps -/

theorem skipkstr_short {c : UInt8} (hs : codesize c = 1) (p : Bytes) :
    skipkstr (c :: p) = if p.headD dicSegTerm = kanjiStrEnd then p.tail else skipkstr p := by
  rw [skipkstr.eq_def]
  exact if_pos hs

theorem skipkstr_long {c : UInt8} (hs : codesize c ≠ 1) (c' : UInt8) (p : Bytes) :
    skipkstr (c :: c' :: p) =
      if p.headD dicSegTerm = kanjiStrEnd then p.tail else skipkstr p := by
  rw [skipkstr.eq_def]
  exact if_neg hs

theorem code2kanjiStop_short {c : UInt8} (hs : codesize c = 1) (p : Bytes) :
    code2kanjiStop (c :: p) = if p.headD 0 = kanjiStrEnd then p else code2kanjiStop p := by
  rw [code2kanjiStop.eq_def]
  exact if_pos hs

theorem code2kanjiStop_long {c : UInt8} (hs : codesize c ≠ 1) (c' : UInt8) (p : Bytes) :
    code2kanjiStop (c :: c' :: p) =
      if p.headD 0 = kanjiStrEnd then p else code2kanjiStop p := by
  rw [code2kanjiStop.eq_def]
  exact if_neg hs

theorem knjEnd_short {c : UInt8} (h₀ : c ≠ kanjiStrEnd) (hs : codesize c = 1) (p : Bytes) :
    knjEnd (c :: p) = knjEnd p := by
  rw [knjEnd.eq_def]
  exact (if_neg h₀).trans (if_pos hs)

theorem knjEnd_long {c : UInt8} (h₀ : c ≠ kanjiStrEnd) (hs : codesize c ≠ 1) (c' : UInt8)
    (p : Bytes) : knjEnd (c :: c' :: p) = knjEnd p := by
  rw [knjEnd.eq_def]
  exact (if_neg h₀).trans (if_neg hs)

theorem gramEnd_short {c : UInt8} (hs : codesize c = 1) (p : Bytes) :
    gramEnd (c :: p) = if p.headD dicSegTerm = hinsiBlkTerm then p else gramEnd p := by
  rw [gramEnd.eq_def]
  exact if_pos hs

theorem gramEnd_long {c : UInt8} (hs : codesize c ≠ 1) (c' : UInt8) (p : Bytes) :
    gramEnd (c :: c' :: p) =
      if p.headD dicSegTerm = hinsiBlkTerm then p else gramEnd p := by
  rw [gramEnd.eq_def]
  exact if_neg hs

/-! ## Walking over a code string -/

/-- In front of a nonempty code string with its terminator there is no terminator yet. -/
theorem IsCodes.headD_ne {k : Bytes} (h : IsCodes k) (hne : k ≠ []) (d : UInt8) (rest : Bytes) :
    (k ++ rest).headD d ≠ kanjiStrEnd := by
  cases h with
  | nil => exact absurd rfl hne
  | short h₀ hs hk => exact h₀
  | long h₀ hs hk => exact h₀

theorem skipkstr_codes {k : Bytes} (h : IsCodes k) (hne : k ≠ []) (rest : Bytes) :
    skipkstr (k ++ kanjiStrEnd :: rest) = rest := by
  have last : ∀ k, IsCodes k → (k ≠ [] → skipkstr (k ++ kanjiStrEnd :: rest) = rest) →
      (if (k ++ kanjiStrEnd :: rest).headD dicSegTerm = kanjiStrEnd then
        (k ++ kanjiStrEnd :: rest).tail else skipkstr (k ++ kanjiStrEnd :: rest)) = rest := by
    intro k hk ih
    by_cases hk0 : k = []
    · subst hk0
      rfl
    · rw [if_neg (hk.headD_ne hk0 _ _), ih hk0]
  induction h with
  | nil => exact absurd rfl hne
  | short h₀ hs hk ih =>
      rw [List.cons_append, skipkstr_short hs]
      exact last _ hk ih
  | long h₀ hs hk ih =>
      rw [List.cons_append, List.cons_append, skipkstr_long hs]
      exact last _ hk ih

theorem code2kanjiStop_codes {k : Bytes} (h : IsCodes k) (hne : k ≠ []) (rest : Bytes) :
    code2kanjiStop (k ++ kanjiStrEnd :: rest) = kanjiStrEnd :: rest := by
  have last : ∀ k, IsCodes k →
      (k ≠ [] → code2kanjiStop (k ++ kanjiStrEnd :: rest) = kanjiStrEnd :: rest) →
      (if (k ++ kanjiStrEnd :: rest).headD 0 = kanjiStrEnd then k ++ kanjiStrEnd :: rest
        else code2kanjiStop (k ++ kanjiStrEnd :: rest)) = kanjiStrEnd :: rest := by
    intro k hk ih
    by_cases hk0 : k = []
    · subst hk0
      rfl
    · rw [if_neg (hk.headD_ne hk0 _ _), ih hk0]
  induction h with
  | nil => exact absurd rfl hne
  | short h₀ hs hk ih =>
      rw [List.cons_append, code2kanjiStop_short hs]
      exact last _ hk ih
  | long h₀ hs hk ih =>
      rw [List.cons_append, List.cons_append, code2kanjiStop_long hs]
      exact last _ hk ih

theorem knjEnd_codes {k : Bytes} (h : IsCodes k) (rest : Bytes) :
    knjEnd (k ++ kanjiStrEnd :: rest) = kanjiStrEnd :: rest := by
  induction h with
  | nil =>
      rw [List.nil_append, knjEnd.eq_def]
      exact if_pos rfl
  | short h₀ hs hk ih => rw [List.cons_append, knjEnd_short h₀ hs, ih]
  | long h₀ hs hk ih => rw [List.cons_append, List.cons_append, knjEnd_long h₀ hs, ih]

/-- The walk over a grammar block steps over its code byte with the width of a kanji code,
so it may run through the first kanji string out of step. It still stops at the
terminator of the block: that follows the terminator of a kanji string, which is one byte
wide. -/
theorem gramEnd_append (w rest : Bytes) (hw : hinsiBlkTerm ∉ w) :
    gramEnd (w ++ kanjiStrEnd :: hinsiBlkTerm :: rest) = hinsiBlkTerm :: rest := by
  induction w using List.twoStepInduction with
  | nil => exact gramEnd_short (by decide) _
  | singleton c =>
      rw [List.cons_append]
      by_cases hs : codesize c = 1
      · rw [gramEnd_short hs]
        exact gramEnd_short (by decide) _
      · exact gramEnd_long hs _ _
  | cons_cons c c' w ih ih' =>
      simp only [List.mem_cons, not_or] at hw
      have hw' : hinsiBlkTerm ∉ c' :: w := by simp [hw]
      rw [List.cons_append, List.cons_append]
      by_cases hs : codesize c = 1
      · rw [gramEnd_short hs]
        exact (if_neg (Ne.symm hw.2.1)).trans (ih' c' hw')
      · rw [gramEnd_long hs, ih hw.2.2, if_neg]
        cases w with
        | nil => exact fun h : kanjiStrEnd = hinsiBlkTerm => absurd h (by decide)
        | cons b w =>
            simp only [List.mem_cons, not_or] at hw
            exact Ne.symm hw.2.2.1

end Sj3
