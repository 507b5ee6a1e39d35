import Mathlib.Algebra.Order.BigOperators.Group.List
import Mathlib.Algebra.Order.Group.Nat
import Sj3.Model.Makeseg
import Sj3.Verification.Mkdic.Expand
import Sj3.Verification.Segment.Block

/-! # Writing a segment

What the compiler writes for the records of a segment, and that every string it writes is an
abbreviation of the one in the record. -/

namespace Sj3.Mkdic

open Buffer FrontCoding Macro

variable {o o' : SegBuf} {w p : Bytes}

/-! ## Bytes -/

theorem datset_eq_some {i : UInt8} (h : datset o i = some o') :
    o' = { o with buf := o.buf ++ [i] } ∧ o'.buf.length ≤ mainSegmentLength := by
  rw [datset] at h
  by_cases hfull : o.buf.length ≥ mainSegmentLength
  · rw [if_pos hfull] at h
    cases h
  · rw [if_neg hfull, Option.some.injEq] at h
    subst h
    refine ⟨rfl, ?_⟩
    simp only [List.length_append, List.length_singleton]
    omega

theorem datsets_eq_some (h : datsets o p = some o') :
    o' = { o with buf := o.buf ++ p } ∧ (p ≠ [] → o'.buf.length ≤ mainSegmentLength) := by
  induction p generalizing o with
  | nil =>
      obtain rfl : o = o' := Option.some.inj h
      simp
  | cons i p ih =>
      rw [datsets, List.foldlM_cons] at h
      obtain ⟨o₁, h₁, h₂⟩ := Option.bind_eq_some_iff.mp h
      obtain ⟨rfl, hle⟩ := datset_eq_some h₁
      obtain ⟨rfl, hle'⟩ := ih h₂
      refine ⟨by simp, fun _ => ?_⟩
      by_cases hp : p = []
      · subst hp
        simpa using hle
      · exact hle' hp

/-! ## What writing depends on -/

/-- A part of the writer only looks at the length of what is there, and writes behind it. -/
def Appends (f : SegBuf → Option SegBuf) : Prop :=
  ∀ o o', f o = some o' → ∃ w, o'.buf = o.buf ++ w ∧
    ∀ buf, buf.length = o.buf.length → f ⟨buf, o.ofsrec⟩ = some ⟨buf ++ w, o'.ofsrec⟩

theorem appends_datset (i : UInt8) : Appends fun o => datset o i := by
  intro o o' h
  obtain ⟨rfl, hle⟩ := datset_eq_some h
  refine ⟨[i], rfl, fun buf hbuf => ?_⟩
  simp only [List.length_append, List.length_singleton] at hle
  exact if_neg (by simp only; omega)

theorem Appends.bind {f g : SegBuf → Option SegBuf} (hf : Appends f) (hg : Appends g) :
    Appends fun o => (f o).bind g := by
  intro o o' h
  obtain ⟨o₁, h₁, h₂⟩ := Option.bind_eq_some_iff.mp h
  obtain ⟨w₁, hw₁, he₁⟩ := hf o o₁ h₁
  obtain ⟨w₂, hw₂, he₂⟩ := hg o₁ o' h₂
  refine ⟨w₁ ++ w₂, by rw [hw₂, hw₁, List.append_assoc], fun buf hbuf => ?_⟩
  have hlen : (buf ++ w₁).length = o₁.buf.length := by rw [hw₁]; simp [hbuf]
  simp only [he₁ buf hbuf, Option.bind_some, he₂ (buf ++ w₁) hlen, List.append_assoc]

theorem Appends.foldlM {α : Type*} {f : SegBuf → α → Option SegBuf}
    (hf : ∀ a, Appends fun o => f o a) (l : List α) : Appends fun o => l.foldlM f o := by
  induction l with
  | nil =>
      intro o o' h
      obtain rfl : o = o' := Option.some.inj h
      exact ⟨[], by simp, fun buf _ => by simp⟩
  | cons a l ih =>
      simp only [List.foldlM_cons]
      exact (hf a).bind ih

theorem appends_datsets (p : Bytes) : Appends fun o => datsets o p :=
  .foldlM appends_datset p

theorem appends_putKrec (askknj : List Bytes) (krec : KanjiRec) :
    Appends fun o => putKrec askknj o krec := by
  intro o o' h
  obtain ⟨p, hp, h⟩ := Option.bind_eq_some_iff.mp h
  obtain ⟨ofsrec, ho, h⟩ := Option.bind_eq_some_iff.mp h
  obtain ⟨w, hw, he⟩ := appends_datsets _ _ _ h
  refine ⟨w, hw, fun buf hbuf => ?_⟩
  simp only [putKrec]
  rw [hp, hbuf, ho]
  exact he buf hbuf

theorem appends_putHrec (askknj : List Bytes) (hrec : HinsiRec) :
    Appends fun o => putHrec askknj o hrec :=
  (appends_datset _).bind ((Appends.foldlM (appends_putKrec askknj) _).bind (appends_datset _))

/-! ## Strings of the segment so far -/

/-- The strings codes may refer to while the segment is written. -/
def refAt (askknj : List Bytes) (buf : Bytes) : SegRef :=
  ⟨buf, askknj.map (· ++ [kanjiStrEnd])⟩

variable {askknj : List Bytes} {buf : Bytes} {k : Bytes} {n : ℕ}

/-- What could be referred to can be when more is written. -/
theorem Body.append {code : Bytes} {b : List Bytes} (h : Body (refAt askknj buf) code b)
    (w : Bytes) : Body (refAt askknj (buf ++ w)) code b := by
  cases h with
  | @offset c c' b rest hs hm hb ht =>
      refine .offset hs hm hb (?_ : _ = _ ++ kanjiStrEnd :: (rest ++ w))
      have hlen : offsetOf c c' ≤ buf.length := by
        by_contra hgt
        have hnil : buf.drop (offsetOf c c') = [] := List.drop_eq_nil_of_le (by omega)
        rw [refAt, hnil] at ht
        simp at ht
      rw [refAt] at ht
      rw [refAt, List.drop_append_of_le_length hlen, ht, List.append_assoc, List.cons_append]
  | ask hs hm hb ht => exact .ask hs hm hb ht

/-- The string `s` is one a segment may have, and it expands to `k`. -/
structure Abbr (askknj : List Bytes) (buf : Bytes) (n : ℕ) (s k : Bytes) : Prop where
  isKnjStr : IsKnjStr s
  plain : IsPlainCodes k
  expands : Expands PlainCode (Body (refAt askknj buf)) n (codesOf s) (codesOf k)

theorem Abbr.append {s : Bytes} (h : Abbr askknj buf n s k) (w : Bytes) :
    Abbr askknj (buf ++ w) n s k :=
  ⟨h.isKnjStr, h.plain, h.expands.weaken fun _ _ hb => hb.append w⟩

theorem Abbr.mono {m : ℕ} {s : Bytes} (h : Abbr askknj buf n s k) (hle : n ≤ m) :
    Abbr askknj buf m s k :=
  ⟨h.isKnjStr, h.plain, h.expands.mono hle⟩

/-- At the number of every string of the table is an abbreviation of it; the farther back it is,
the more steps it may take. -/
structure SegBuf.Good (askknj : List Bytes) (o : SegBuf) : Prop where
  sorted : SortedBy OffsetRec.kptr o.ofsrec
  length_le : o.buf.length ≤ mainSegmentLength
  one_le : 1 ≤ o.buf.length
  stored : ∀ p ∈ o.ofsrec, p.offset ≠ 0 ∧ p.offset < o.buf.length ∧ ∃ s rest,
    o.buf.drop p.offset = s ++ kanjiStrEnd :: rest ∧
      Abbr askknj o.buf ((p.offset + 1) * mainSegmentLength) s p.kptr

/-- Association strings have no references, and there is a code for each of them. -/
structure AskOk (askknj : List Bytes) : Prop where
  length_le : askknj.length ≤ maxKnjAskNumber
  plain : ∀ s ∈ askknj, IsPlainCodes s
  ne_nil : ∀ s ∈ askknj, s ≠ []
  sum_lt : (askknj.map fun p => p.length + 1).sum < 0x100

theorem SegBuf.Good.append (h : o.Good askknj) (w : Bytes)
    (hle : (o.buf ++ w).length ≤ mainSegmentLength) :
    SegBuf.Good askknj { o with buf := o.buf ++ w } where
  sorted := h.sorted
  length_le := hle
  one_le := by
    have := h.one_le
    simp only [List.length_append]
    omega
  stored := by
    intro p hp
    obtain ⟨h0, hlt, s, rest, hs, ha⟩ := h.stored p hp
    refine ⟨h0, by simp only [List.length_append]; omega, s, rest ++ w, ?_, ha.append w⟩
    rw [List.drop_append_of_le_length hlt.le, hs, List.append_assoc, List.cons_append]

theorem SegBuf.Good.abbrevs (h : o.Good askknj) (hask : AskOk askknj) :
    Abbrevs o.ofsrec askknj where
  sorted := h.sorted
  plain p hp := by
    obtain ⟨-, -, s, rest, -, ha⟩ := h.stored p hp
    exact ha.plain
  offset_pos p hp := (h.stored p hp).1
  ask_plain := hask.plain
  ask_ne := hask.ne_nil

/-! ## Kanji strings -/

/-- What the code `a` for the string `x` is good for in a segment. -/
structure CodeOk (askknj : List Bytes) (buf : Bytes) (n : ℕ) (a x : Bytes) : Prop where
  codesOf : codesOf a = [a]
  isCodes : IsCodes a
  ne_nil : a ≠ []
  ne_term : a.headD 0 ≠ hinsiBlkTerm
  expands : PlainCode a ∧ Mkdic.codesOf x = [a] ∨ ∃ b, Body (refAt askknj buf) a b ∧ b ≠ [] ∧
    Expands PlainCode (Body (refAt askknj buf)) n b (Mkdic.codesOf x)

theorem SegBuf.Good.codeOk (h : o.Good askknj) (hask : AskOk askknj) {a x : Bytes}
    (ha : CodeFor o.ofsrec askknj a x) :
    CodeOk askknj o.buf (o.buf.length * mainSegmentLength) a x := by
  cases ha with
  | @short c hs hl =>
      exact ⟨codesOf_short hs _, .short hl.ne_end hs .nil, by simp, hl.2.2.2,
        .inl ⟨.short hs hl, codesOf_short hs _⟩⟩
  | @long c c' hs hl =>
      exact ⟨codesOf_long hs _ _, .long hl.ne_end hs .nil, by simp, hl.2.2.2,
        .inl ⟨.long hs hl, codesOf_long hs _ _⟩⟩
  | @offset p hp hlen =>
      obtain ⟨h0, hlt, s, rest, hs, habbr⟩ := h.stored p hp
      have hle := h.length_le
      obtain ⟨c, c', he, hc, hsize, hmode, hof, hterm⟩ :=
        offsetCode_spec (show p.offset < 0x1000 by rw [mainSegmentLength] at hle; omega)
      have hcodes := habbr.isKnjStr.codes
      rw [he]
      refine ⟨codesOf_long hsize _ _, .long hc hsize .nil, by simp, hterm,
        .inr ⟨codesOf s, ?_, ?_, ?_⟩⟩
      · exact .offset hsize hmode hcodes (hof.symm ▸ hs)
      · exact codesOf_ne_nil habbr.isKnjStr.ne_nil hcodes
      · exact habbr.expands.mono (Nat.mul_le_mul_right _ (by omega))
  | @ask i x hi =>
      have hmem : x ∈ askknj := List.mem_of_getElem? hi
      have hlt : i < maxKnjAskNumber := by
        have := (List.getElem?_eq_some_iff.mp hi).1
        exact this.trans_le hask.length_le
      obtain ⟨c, he, hc, hsize, hmode, hnum, hterm⟩ := askCode_spec hlt
      have hplain := hask.plain x hmem
      have hcodes := hplain.isCodes
      rw [he]
      refine ⟨codesOf_short hsize _, .short hc hsize .nil, by simp, hterm,
        .inr ⟨codesOf x, ?_, ?_, ?_⟩⟩
      · refine .ask hsize hmode hcodes (?_ : _ = _ ++ kanjiStrEnd :: [])
        rw [hnum, refAt, List.getD_eq_getElem?_getD, List.getElem?_map, hi]
        rfl
      · exact codesOf_ne_nil (hask.ne_nil x hmem) hcodes
      · refine (hplain.expands _).mono ?_
        have hlen : x.length + 1 ≤ (askknj.map fun p => p.length + 1).sum :=
          List.le_sum_of_mem (List.mem_map_of_mem hmem)
        have hsum := hask.sum_lt
        have hcl := length_codesOf_le hcodes
        calc (codesOf x).length ≤ 1 * mainSegmentLength := by rw [mainSegmentLength]; omega
          _ ≤ o.buf.length * mainSegmentLength := Nat.mul_le_mul_right _ h.one_le

/-- The codes for a string, put in a row. -/
theorem codes_of_spells {stands : Bytes → Bytes → Prop}
    (hok : ∀ a x, stands a x → CodeOk askknj buf n a x) {s : List Bytes}
    (h : Macro.Spells stands s k) : codesOf s.flatten = s ∧ IsCodes s.flatten ∧
      s.length ≤ s.flatten.length ∧
      (s ≠ [] → s.flatten.headD 0 ≠ hinsiBlkTerm ∧ s.flatten ≠ []) := by
  induction h with
  | nil => exact ⟨rfl, .nil, le_rfl, fun hne => absurd rfl hne⟩
  | @cons a x s k ha h ih =>
      have hcode := hok a x ha
      obtain ⟨hcodes, his, hlen, -⟩ := ih
      have hpos := List.length_pos_of_ne_nil hcode.ne_nil
      rw [List.flatten_cons]
      refine ⟨?_, hcode.isCodes.append his, ?_, fun _ => ⟨?_, by simp [hcode.ne_nil]⟩⟩
      · rw [codesOf_append hcode.isCodes, hcode.codesOf, hcodes, List.singleton_append]
      · rw [List.length_cons, List.length_append]
        omega
      · obtain ⟨c, q, rfl⟩ := List.exists_cons_of_ne_nil hcode.ne_nil
        exact hcode.ne_term

/-- The string of a record is written as an abbreviation of it, and may be referred to from then
on. -/
theorem putKrec_good (hask : AskOk askknj) (hgood : o.Good askknj) {krec : KanjiRec}
    (hk : IsPlainCodes krec.kptr) (hne : krec.kptr ≠ []) (h : putKrec askknj o krec = some o') :
    ∃ s, o'.buf = o.buf ++ (s ++ [kanjiStrEnd]) ∧ o'.Good askknj ∧
      Abbr askknj o'.buf (mainSegmentLength * mainSegmentLength) s krec.kptr := by
  obtain ⟨p, hp, h⟩ := Option.bind_eq_some_iff.mp h
  obtain ⟨ofsrec, ho, h⟩ := Option.bind_eq_some_iff.mp h
  obtain ⟨rfl, hle⟩ := datsets_eq_some h
  have hle := hle (by simp)
  have habbrevs := hgood.abbrevs hask
  obtain ⟨hdlen, hspells⟩ := habbrevs.makeDivlist_divides hk le_rfl
  obtain ⟨s, hs⟩ : ∃ s, s =
    (makeDivlist o.ofsrec askknj krec.kptr.length krec.kptr).codes := ⟨_, rfl⟩
  rw [← hs] at hspells
  have hpeq : p = s.flatten := by
    rw [knjcvt, if_neg (not_not.mpr hdlen), ← hs] at hp
    exact (Option.some.inj hp).symm
  subst hpeq
  have hok : ∀ a x, CodeFor o.ofsrec askknj a x →
      CodeOk askknj o.buf (o.buf.length * mainSegmentLength) a x :=
    fun a x ha => hgood.codeOk hask ha
  obtain ⟨hcodes, his, hslen, hhead⟩ := codes_of_spells hok hspells
  have hsne : s ≠ [] := by
    rintro rfl
    exact hne hspells.eq_nil
  obtain ⟨hterm, hfne⟩ := hhead hsne
  simp only [List.length_append, List.length_singleton] at hle
  -- the string takes no more steps than its place allows
  have hexp : Expands PlainCode (Body (refAt askknj o.buf))
      ((o.buf.length + 1) * mainSegmentLength) s (codesOf krec.kptr) := by
    have hmap := hspells.map (f := codesOf) rfl fun a x k ha =>
      codesOf_append (habbrevs.isPlainCodes ha).isCodes k
    refine (hmap.expands (n := o.buf.length * mainSegmentLength) ?_).mono ?_
    · rintro a - y ⟨x, ha, rfl⟩
      exact (hok a x ha).expands
    · rw [Nat.succ_mul]
      omega
  have habbr : Abbr askknj o.buf ((o.buf.length + 1) * mainSegmentLength) s.flatten krec.kptr :=
    ⟨⟨his, hfne, hterm⟩, hk, by rw [hcodes]; exact hexp⟩
  obtain ⟨hsorted, hcases⟩ := setOfsrec_spec hgood.sorted ho
  have hgood' := hgood.append (s.flatten ++ [kanjiStrEnd]) (by simpa using hle)
  refine ⟨s.flatten, rfl, ⟨hsorted, hgood'.length_le, hgood'.one_le, ?_⟩, ?_⟩
  · intro q hq
    rcases hcases with ⟨rfl, -⟩ | ⟨-, -, l, r, hl, rfl⟩
    · exact hgood'.stored q hq
    · have hq' : q ∈ o.ofsrec ∨ q = makeoffset o.ofsrec.length krec.kptr o.buf.length := by
        rw [hl]
        rcases List.mem_append.mp hq with hq | hq
        · exact .inl (by simp [hq])
        · rcases List.mem_cons.mp hq with rfl | hq
          · exact .inr (by rw [hl])
          · exact .inl (by simp [hq])
      rcases hq' with hq | rfl
      · exact hgood'.stored q hq
      · have hone := hgood.one_le
        have hoff : (makeoffset o.ofsrec.length krec.kptr o.buf.length).offset = o.buf.length :=
          if_pos (by omega)
        rw [hoff]
        refine ⟨by omega, ?_, s.flatten, [], ?_, habbr.append _⟩
        · simp only [List.length_append, List.length_singleton]
          omega
        · exact List.drop_left
  · have hpos := List.length_pos_of_ne_nil hfne
    exact (habbr.append _).mono (Nat.mul_le_mul_right _ (by omega))

end Sj3.Mkdic
