import Sj3.Verification.Kanji.Expand
import Sj3.Verification.Mkdic.Knjcvt

/-! # Reading an abbreviation

The server reads an abbreviated string as it would read the string itself. -/

namespace Sj3.Mkdic

open Macro

/-! ## Codes of a segment -/

/-- A code that stands for no other string. -/
inductive PlainCode : Bytes → Prop
  | short {c : UInt8} (hs : codesize c = 1) (hl : IsLiteral c) : PlainCode [c]
  | long {c c' : UInt8} (hs : codesize c ≠ 1) (hl : IsLiteral c) : PlainCode [c, c']

/-- The codes of the string a code refers to. -/
inductive Body (ref : SegRef) : Bytes → List Bytes → Prop
  | offset {c c' : UInt8} {b rest : Bytes} (hs : codesize c ≠ 1)
      (hm : c &&& kanjiModeMask = offsetAssyuku) (hb : IsCodes b)
      (ht : ref.dicbuf.drop (offsetOf c c') = b ++ kanjiStrEnd :: rest) :
      Body ref [c, c'] (codesOf b)
  | ask {c : UInt8} {b rest : Bytes} (hs : codesize c = 1)
      (hm : c &&& kanjiModeMask = kanjiAssyuku) (hb : IsCodes b)
      (ht : ref.askknj.getD (c &&& kanjiCodeMask).toNat [] = b ++ kanjiStrEnd :: rest) :
      Body ref [c] (codesOf b)

variable {below : ℕ → UInt8} {ref : SegRef} {ym : Bytes} {yl n : ℕ} {s k : List Bytes}

theorem IsPlainCodes.forall_plainCode {k : Bytes} (h : IsPlainCodes k) :
    ∀ code ∈ codesOf k, PlainCode code := by
  induction h with
  | nil => simp [codesOf]
  | short hs hl hk ih =>
      rw [codesOf_short hs]
      intro code hcode
      rcases List.mem_cons.mp hcode with rfl | hcode
      · exact .short hs hl
      · exact ih code hcode
  | long hs hl hk ih =>
      rw [codesOf_long hs]
      intro code hcode
      rcases List.mem_cons.mp hcode with rfl | hcode
      · exact .long hs hl
      · exact ih code hcode

/-- A plain string expands to itself. -/
theorem IsPlainCodes.expands {k : Bytes} (h : IsPlainCodes k) (ref : SegRef) :
    Expands PlainCode (Body ref) (codesOf k).length (codesOf k) (codesOf k) :=
  .of_plain h.forall_plainCode

theorem ref_ne_end {c : UInt8}
    (h : c &&& kanjiModeMask = offsetAssyuku ∨ c &&& kanjiModeMask = kanjiAssyuku) :
    c ≠ kanjiStrEnd := by
  rintro rfl
  revert h
  decide

/-- Codes do not start with the end of a string. -/
theorem headD_ne_end (h : Expands PlainCode (Body ref) n s k) (hs : s ≠ []) (d : UInt8)
    (rest : Bytes) : (s.flatten ++ rest).headD d ≠ kanjiStrEnd := by
  cases h with
  | nil => exact absurd rfl hs
  | plain ha h =>
      cases ha with
      | short _ hl => exact hl.ne_end
      | long _ hl => exact hl.ne_end
  | body ha hne hb h =>
      cases ha with
      | offset _ hm _ _ => exact ref_ne_end (.inl hm)
      | ask _ hm _ _ => exact ref_ne_end (.inr hm)

/-! ## Reading a code -/

/-- What a plain code is read as; the last one of a string may stand for the end of the
reading. -/
def readCode (below : ℕ → UInt8) (ym : Bytes) (yl : ℕ) (flg : Bool) (code : Bytes) : Bytes :=
  expandOne below ⟨[], []⟩ 0 (code ++ [kanjiStrEnd]) ym yl flg

theorem askStart_false (s : Bytes) : askStart below s ym yl false = ym := by
  simp [askStart]

private theorem literal_modes : ∀ c : UInt8, codesize c = 1 → IsLiteral c →
    c &&& kanjiModeMask = zenHiraAssyuku ∨ c &&& kanjiModeMask = zenKataAssyuku := by
  apply Byte.forall_of_fin
  decide +kernel

theorem expandOne_short {c : UInt8} (hs : codesize c = 1) (hl : IsLiteral c) (p : Bytes)
    (flg : Bool) (hp : flg = true → p.headD 0 = kanjiStrEnd) :
    expandOne below ref n (c :: p) ym yl flg = readCode below ym yl flg [c] := by
  have hstart : askStart below (c :: p) ym yl flg =
      askStart below ([c] ++ [kanjiStrEnd]) ym yl flg := by
    cases flg with
    | false => rw [askStart_false, askStart_false]
    | true =>
        have hget : ∀ q : Bytes, (c :: q).getD (codesize c) 0 = q.headD 0 := by
          intro q
          rw [hs]
          cases q <;> rfl
        simp only [askStart, List.cons_append, List.nil_append, List.headD_cons, hget, hp rfl,
          askCount, and_self, if_true]
  have hcount : askCount (c :: p) = askCount ([c] ++ [kanjiStrEnd]) := rfl
  have hhead : ([c] ++ [kanjiStrEnd] : Bytes).headD 0 = c := rfl
  rw [readCode, expandOne, expandOne, hhead, List.headD_cons]
  rcases literal_modes c hs hl with hm | hm
  · simp only [hm, if_true, getkanHira, hstart, hcount]
  · have hne : zenKataAssyuku ≠ zenHiraAssyuku := by decide
    simp only [hm, if_neg hne, if_true, getkanKata, hstart, hcount]

private theorem long_modes : ∀ c : UInt8, codesize c ≠ 1 →
    c &&& kanjiModeMask ≠ zenHiraAssyuku ∧ c &&& kanjiModeMask ≠ zenKataAssyuku := by
  apply Byte.forall_of_fin
  decide +kernel

theorem expandOne_long {c c' : UInt8} (hs : codesize c ≠ 1) (hl : IsLiteral c) (p : Bytes)
    (flg : Bool) :
    expandOne below ref n (c :: c' :: p) ym yl flg = readCode below ym yl flg [c, c'] := by
  have hhead : ([c, c'] ++ [kanjiStrEnd] : Bytes).headD 0 = c := rfl
  obtain ⟨hh, hk⟩ := long_modes c hs
  have hascii : getkanAscii (c :: c' :: p) = getkanAscii ([c, c'] ++ [kanjiStrEnd]) := rfl
  have hnorm : getkanNorm (c :: c' :: p) = getkanNorm ([c, c'] ++ [kanjiStrEnd]) := rfl
  rw [readCode, expandOne, expandOne, hhead, List.headD_cons]
  simp only [if_neg hh, if_neg hk, if_neg hl.2.1, if_neg hl.2.2.1, hascii, hnorm]

theorem expandOne_plain {code : Bytes} (h : PlainCode code) (p : Bytes) (flg : Bool)
    (hp : flg = true → p.headD 0 = kanjiStrEnd) :
    expandOne below ref n (code ++ p) ym yl flg = readCode below ym yl flg code := by
  cases h with
  | short hs hl => exact expandOne_short hs hl p flg hp
  | long hs hl => exact expandOne_long hs hl p flg

/-- A code that refers to a string is read as the string is. -/
theorem expandOne_body {code : Bytes} {b : List Bytes} (h : Body ref code b) (p : Bytes)
    (flg : Bool) : ∃ rest, expandOne below ref n (code ++ p) ym yl flg =
      code2kanji below ref n (b.flatten ++ kanjiStrEnd :: rest) ym yl flg := by
  cases h with
  | @offset c c' b rest hs hm hb ht =>
      refine ⟨rest, ?_⟩
      have h₁ : offsetAssyuku ≠ zenHiraAssyuku := by decide
      have h₂ : offsetAssyuku ≠ zenKataAssyuku := by decide
      rw [flatten_codesOf hb, ← ht, List.cons_append, expandOne, List.headD_cons, hm, if_neg h₁,
        if_neg h₂, if_pos rfl]
      rfl
  | @ask c b rest hs hm hb ht =>
      refine ⟨rest, ?_⟩
      have h₁ : kanjiAssyuku ≠ zenHiraAssyuku := by decide
      have h₂ : kanjiAssyuku ≠ zenKataAssyuku := by decide
      have h₃ : kanjiAssyuku ≠ offsetAssyuku := by decide
      have h₄ : kanjiAssyuku ≠ aiAttribute := by decide
      have h₅ : kanjiAssyuku ≠ leadingHankaku := by decide
      rw [flatten_codesOf hb, ← ht, List.cons_append, expandOne, List.headD_cons, hm, if_neg h₁,
        if_neg h₂, if_neg h₃, if_neg h₄, if_neg h₅, if_pos rfl]

/-- Codes are as long as they say. -/
theorem codesize_code_of {code : Bytes} (h : PlainCode code ∨ ∃ b, Body ref code b) :
    codesize (code.headD 0) = code.length ∧ code ≠ [] := by
  have hlong : ∀ {c : UInt8}, codesize c ≠ 1 → codesize c = 2 :=
    fun {c} hs => (codesize_cases c).resolve_left hs
  rcases h with h | ⟨b, h⟩
  · cases h with
    | short hs hl => exact ⟨hs, by simp⟩
    | long hs hl => exact ⟨hlong hs, by simp⟩
  · cases h with
    | offset hs hm hb ht => exact ⟨hlong hs, by simp⟩
    | ask hs hm hb ht => exact ⟨hs, by simp⟩

/-- Reading goes on behind a code, unless the string ends there. -/
theorem code2kanji_append {code : Bytes} (hsize : codesize (code.headD 0) = code.length)
    (hne : code ≠ []) (p : Bytes) (flg : Bool) :
    code2kanji below ref (n + 1) (code ++ p) ym yl flg =
      if p.headD 0 = kanjiStrEnd then expandOne below ref n (code ++ p) ym yl flg
      else expandOne below ref n (code ++ p) ym yl false ++ code2kanji below ref n p ym yl flg := by
  obtain ⟨c, q, rfl⟩ := List.exists_cons_of_ne_nil hne
  rw [List.headD_cons] at hsize
  have hget : ((c :: q) ++ p).getD (codesize (((c :: q) ++ p).headD 0)) 0 = p.headD 0 := by
    rw [List.cons_append, List.headD_cons, hsize, ← List.cons_append]
    rw [List.getD_eq_getElem?_getD, List.getElem?_append_right le_rfl, Nat.sub_self]
    cases p <;> rfl
  have hdrop : ((c :: q) ++ p).drop (codesize (((c :: q) ++ p).headD 0)) = p := by
    rw [List.cons_append, List.headD_cons, hsize, ← List.cons_append, List.drop_left]
  rw [code2kanji_succ, hget, hdrop]

/-- The server reads what the codes expand to. -/
theorem code2kanji_expands (h : Expands PlainCode (Body ref) n s k) (hs : s ≠ []) (rest : Bytes)
    (flg : Bool) :
    code2kanji below ref n (s.flatten ++ kanjiStrEnd :: rest) ym yl flg =
      render (readCode below ym yl) flg k := by
  induction h generalizing rest flg with
  | nil => exact absurd rfl hs
  | @plain n a s k ha h ih =>
      obtain ⟨hsize, hne⟩ := codesize_code_of (.inl ha : PlainCode a ∨ ∃ b, Body ref a b)
      rw [List.flatten_cons, List.append_assoc, code2kanji_append hsize hne]
      by_cases hs' : s = []
      · subst hs'
        cases h with
        | nil => exact (if_pos rfl).trans (expandOne_plain ha _ _ fun _ => rfl)
      · rw [if_neg (headD_ne_end h hs' _ _), ih hs', expandOne_plain ha _ _ (by simp),
          render_cons a (h.ne_nil hs')]
  | @body n a b s kb k ha hne' hb h ihb ih =>
      obtain ⟨hsize, hne⟩ := codesize_code_of (.inr ⟨b, ha⟩ : PlainCode a ∨ ∃ b, Body ref a b)
      rw [List.flatten_cons, List.append_assoc, code2kanji_append hsize hne]
      by_cases hs' : s = []
      · subst hs'
        cases h with
        | nil =>
            obtain ⟨r, hr⟩ :=
              expandOne_body ha (([] : List Bytes).flatten ++ kanjiStrEnd :: rest) flg
            rw [List.append_nil, ← ihb hne' r flg, ← hr]
            exact if_pos rfl
      · obtain ⟨r, hr⟩ := expandOne_body ha (s.flatten ++ kanjiStrEnd :: rest) false
        rw [if_neg (headD_ne_end h hs' _ _), hr, ihb hne', ih hs', render_append (h.ne_nil hs')]

/-! ## Strings of a segment -/

/-- The string `s` of the segment is read as `k` would be by itself. -/
def Means (dicbuf s k : Bytes) : Prop :=
  ∀ (below : ℕ → UInt8) (ym : Bytes) (yl : ℕ) (rest : Bytes),
    getkanji below (Dict.segRef dicbuf) ym yl (s ++ kanjiStrEnd :: rest) =
      getkanji below ⟨[], []⟩ ym yl (k ++ [kanjiStrEnd])

theorem length_codesOf_le {k : Bytes} (hk : IsCodes k) : (codesOf k).length ≤ k.length := by
  induction hk with
  | nil => exact le_rfl
  | short h₀ hs hk ih =>
      rw [codesOf_short hs, List.length_cons, List.length_cons]
      exact Nat.succ_le_succ ih
  | long h₀ hs hk ih =>
      rw [codesOf_long hs, List.length_cons, List.length_cons, List.length_cons]
      exact Nat.succ_le_succ (ih.trans (Nat.le_succ _))

theorem means_of_expands {dicbuf s k : Bytes} (hs : IsCodes s) (hne : s ≠ [])
    (hk : IsPlainCodes k)
    (h : Expands PlainCode (Body (Dict.segRef dicbuf)) n (codesOf s) (codesOf k))
    (hn : n ≤ (dicbuf.length + 1) * (dicbuf.length + 1)) : Means dicbuf s k := by
  intro below ym yl rest
  have hcodes := codesOf_ne_nil hne hs
  have hk' : codesOf k ≠ [] := h.ne_nil hcodes
  have hfuel : (codesOf k).length ≤ (⟨[], []⟩ : SegRef).fuel (k ++ [kanjiStrEnd]) := by
    have hlen := length_codesOf_le hk.isCodes
    rw [SegRef.fuel, List.length_append]
    omega
  have hfuel' : n ≤ (Dict.segRef dicbuf).fuel (s ++ kanjiStrEnd :: rest) := by
    rw [SegRef.fuel]
    exact hn.trans (Nat.le_add_left _ _)
  have h₁ := @code2kanji_expands below _ ym yl _ _ _ (h.mono hfuel') hcodes rest true
  have h₂ := @code2kanji_expands below _ ym yl _ _ _ ((hk.expands ⟨[], []⟩).mono hfuel) hk' [] true
  rw [flatten_codesOf hs] at h₁
  rw [flatten_codesOf hk.isCodes] at h₂
  rw [getkanji, getkanji, h₁, h₂]

end Sj3.Mkdic
