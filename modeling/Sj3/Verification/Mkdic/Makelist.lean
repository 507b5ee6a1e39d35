import Sj3.Model.Makelist
import Sj3.Verification.Mkdic.Compiled

/-! # From records to a segment

The records that are put into a segment one after the other are linked as the segment needs them,
and whatever association strings are chosen from their codes, the server reads the records in the
segment that is written. -/

namespace Sj3.Mkdic

open FrontCoding Macro

variable {P : Bytes → Prop} {t t' ofsrec ofsrec' : List OffsetRec} {askknj : List Bytes}

/-! ## Strings that refer to the table -/

/-- The table while a segment of strings with `P` is collected: they are numbered from 1 on. -/
structure Collected (P : Bytes → Prop) (ofsrec : List OffsetRec) : Prop where
  sorted : SortedBy OffsetRec.kptr ofsrec
  plain : ∀ p ∈ ofsrec, IsPlainCodes p.kptr
  kind : ∀ p ∈ ofsrec, P p.kptr
  numbers : (ofsrec.map OffsetRec.offset).Nodup
  bounds : ∀ p ∈ ofsrec, p.offset ≠ 0 ∧ p.offset ≤ ofsrec.length
  length_le : ofsrec.length ≤ maxOffsetNumber

theorem collected_nil : Collected P [] := by
  constructor <;> simp [SortedBy]

theorem Collected.abbrevs (h : Collected P ofsrec) : Abbrevs ofsrec [] where
  sorted := h.sorted
  plain := h.plain
  offset_pos p hp := (h.bounds p hp).1
  ask_plain := by simp
  ask_ne := by simp

/-- A string that is put into the table gets the next number. -/
theorem Collected.setOfsrec (h : Collected P ofsrec) {k : Bytes} (hk : IsPlainCodes k)
    (hP : P k) (hs : setOfsrec ofsrec k 0 = some ofsrec') :
    Collected P ofsrec' ∧ ofsrec ⊆ ofsrec' := by
  obtain ⟨hsorted, hcases⟩ := setOfsrec_spec h.sorted hs
  rcases hcases with ⟨rfl, -⟩ | ⟨-, hlt, l, r, rfl, rfl⟩
  · exact ⟨h, fun p hp => hp⟩
  · have hsub : ∀ p, p ∈ l ++ makeoffset (l ++ r).length k 0 :: r →
        p ∈ l ++ r ∨ p = makeoffset (l ++ r).length k 0 := by
      intro p hp
      simp only [List.mem_append, List.mem_cons] at hp ⊢
      tauto
    have hlen : (l ++ makeoffset (l ++ r).length k 0 :: r).length = (l ++ r).length + 1 := by
      simp only [List.length_append, List.length_cons]
      omega
    refine ⟨⟨hsorted, ?_, ?_, ?_, ?_, by omega⟩, ?_⟩
    · intro p hp
      rcases hsub p hp with hp | rfl
      · exact h.plain p hp
      · exact hk
    · intro p hp
      rcases hsub p hp with hp | rfl
      · exact h.kind p hp
      · exact hP
    · have hnew : (l ++ r).length + 1 ∉ (l ++ r).map OffsetRec.offset := by
        intro hmem
        obtain ⟨p, hp, ho⟩ := List.mem_map.mp hmem
        have := (h.bounds p hp).2
        omega
      have hperm : ((l ++ makeoffset (l ++ r).length k 0 :: r).map OffsetRec.offset).Perm
          (((l ++ r).length + 1) :: (l ++ r).map OffsetRec.offset) := by
        simp only [List.map_append, List.map_cons]
        exact List.perm_middle
      exact hperm.nodup_iff.mpr (List.nodup_cons.mpr ⟨hnew, h.numbers⟩)
    · intro p hp
      rw [hlen]
      rcases hsub p hp with hp | rfl
      · have := h.bounds p hp
        exact ⟨this.1, by omega⟩
      · exact ⟨by simp [makeoffset], by simp [makeoffset]⟩
    · intro p hp
      simp only [List.mem_append, List.mem_cons] at hp ⊢
      tauto

theorem Collected.eq_of_offset (h : Collected P ofsrec) {p q : OffsetRec} (hp : p ∈ ofsrec)
    (hq : q ∈ ofsrec) (ho : p.offset = q.offset) : p = q :=
  List.inj_on_of_nodup_map h.numbers hp hq ho

/-- The codes `a` stand for `k`, with references to the table only. -/
def Refers (ofsrec : List OffsetRec) (a k : Bytes) : Prop :=
  ∃ s, a = s.flatten ∧ Macro.Spells (CodeFor ofsrec []) s k

theorem CodeFor.subset {askknj : List Bytes} {code x : Bytes} (h : CodeFor t askknj code x)
    (hsub : t ⊆ t') : CodeFor t' askknj code x := by
  cases h with
  | short hs hl => exact .short hs hl
  | long hs hl => exact .long hs hl
  | offset hp hlen => exact .offset (hsub hp) hlen
  | ask hi => exact .ask hi

theorem Refers.subset {a k : Bytes} (h : Refers t a k) (hsub : t ⊆ t') : Refers t' a k := by
  obtain ⟨s, rfl, hs⟩ := h
  refine ⟨s, rfl, ?_⟩
  induction hs with
  | nil => exact .nil
  | cons ha hs ih => exact .cons (ha.subset hsub) ih

/-! ## Strings without references -/

section Copy

variable {ofsask : UInt8 → UInt8 → Option Bytes} {c c' : UInt8} {src k r : Bytes}

theorem copyCodes_short (hs : codesize c = 1) :
    copyCodes ofsask (c :: src) = (copyCodes ofsask src).map (c :: ·) := by
  rw [codesize] at hs
  have hmode := of_not_not fun hno => absurd (hs.symm.trans (if_neg hno)) (by decide)
  rw [copyCodes.eq_def]
  simp only [if_pos hmode]

theorem copyCodes_long (hs : codesize c ≠ 1) (hm : c &&& kanjiModeMask ≠ offsetAssyuku)
    (hh : c &&& kanjiModeMask ≠ leadingHankaku) :
    copyCodes ofsask (c :: c' :: src) = (copyCodes ofsask src).map (c :: c' :: ·) := by
  have hmode := fun hmode => hs (if_pos hmode)
  rw [copyCodes.eq_def]
  simp only [if_neg hmode, if_neg hm, if_neg hh]

theorem copyCodes_hankaku (hs : codesize c ≠ 1) (hh : c &&& kanjiModeMask = leadingHankaku) :
    copyCodes ofsask (c :: src) = none := by
  have hmode := fun hmode => hs (if_pos hmode)
  rw [copyCodes.eq_def]
  simp only [if_neg hmode, if_pos hh]

theorem copyCodes_offset (hs : codesize c ≠ 1) (hm : c &&& kanjiModeMask = offsetAssyuku) :
    copyCodes ofsask (c :: c' :: src) =
      (ofsask c c').bind fun x => (copyCodes ofsask src).map (x ++ ·) := by
  have hmode := fun hmode => hs (if_pos hmode)
  have hh : c &&& kanjiModeMask ≠ leadingHankaku := by
    rw [hm]
    decide
  rw [copyCodes.eq_def]
  simp only [if_neg hmode, if_neg hh, if_pos hm]

theorem copyCodes_long_eq_some (hs : codesize c ≠ 1) (hm : c &&& kanjiModeMask ≠ offsetAssyuku)
    (h : copyCodes ofsask (c :: c' :: src) = some r) :
    ∃ r', copyCodes ofsask src = some r' ∧ c :: c' :: r' = r := by
  by_cases hh : c &&& kanjiModeMask = leadingHankaku
  · rw [copyCodes_hankaku hs hh] at h
    cases h
  · rw [copyCodes_long hs hm hh] at h
    exact Option.map_eq_some_iff.mp h

/-- A plain string is copied as it is, if it is copied at all. -/
theorem copyCodes_plain (hk : IsPlainCodes k) (h : copyCodes ofsask k = some r) : r = k := by
  induction hk generalizing r with
  | nil =>
      rw [copyCodes] at h
      exact (Option.some.inj h).symm
  | short hs hl hk ih =>
      rw [copyCodes_short hs] at h
      obtain ⟨r', hr, rfl⟩ := Option.map_eq_some_iff.mp h
      rw [ih hr]
  | long hs hl hk ih =>
      obtain ⟨r', hr, rfl⟩ := copyCodes_long_eq_some hs hl.2.1 h
      rw [ih hr]

/-- No code of the string is of half width. -/
def IsWide (k : Bytes) : Prop :=
  ∀ code ∈ codesOf k, code.headD 0 &&& kanjiModeMask ≠ leadingHankaku

theorem IsWide.of_append {x : Bytes} (hx : IsCodes x) (h : IsWide (x ++ k)) :
    IsWide x ∧ IsWide k := by
  rw [IsWide, codesOf_append hx] at h
  exact ⟨fun code hc => h code (List.mem_append_left _ hc),
    fun code hc => h code (List.mem_append_right _ hc)⟩

theorem IsWide.head (hs : codesize c ≠ 1) (h : IsWide (c :: c' :: k)) :
    c &&& kanjiModeMask ≠ leadingHankaku ∧ IsWide k := by
  rw [IsWide, codesOf_long hs] at h
  exact ⟨h [c, c'] (by simp), fun code hc => h code (List.mem_cons_of_mem _ hc)⟩

theorem IsWide.tail (hs : codesize c = 1) (h : IsWide (c :: k)) : IsWide k := by
  rw [IsWide, codesOf_short hs] at h
  exact fun code hc => h code (List.mem_cons_of_mem _ hc)

/-- A plain string without codes of half width is copied. -/
theorem copyCodes_wide (hk : IsPlainCodes k) (hw : IsWide k) : copyCodes ofsask k = some k := by
  induction hk with
  | nil => rw [copyCodes]
  | short hs hl hk ih => rw [copyCodes_short hs, ih (hw.tail hs), Option.map_some]
  | long hs hl hk ih =>
      obtain ⟨hh, hw⟩ := hw.head hs
      rw [copyCodes_long hs hl.2.1 hh, ih hw, Option.map_some]

/-- A number of the table names its string. -/
theorem Collected.realOfsrec (h : Collected P ofsrec) {p : OffsetRec} (hp : p ∈ ofsrec)
    (hn : offsetOf c c' = p.offset) : realOfsrec ofsrec c c' = some p := by
  rw [Mkdic.realOfsrec, hn]
  cases hf : ofsrec.find? fun q => decide (q.offset = p.offset) with
  | none => simpa using List.find?_eq_none.mp hf p hp
  | some q =>
      have hq : q.offset = p.offset := by simpa using List.find?_some hf
      rw [h.eq_of_offset (List.mem_of_find?_eq_some hf) hp hq]

/-- The code of a string of the table names it. -/
theorem Collected.offsetCode (h : Collected P ofsrec) {p : OffsetRec} (hp : p ∈ ofsrec) :
    ∃ c c', offsetCode p.offset = [c, c'] ∧ codesize c ≠ 1 ∧
      c &&& kanjiModeMask = offsetAssyuku ∧ Mkdic.realOfsrec ofsrec c c' = some p := by
  have hle := (h.bounds p hp).2
  have hmax := h.length_le
  have hnum : p.offset < 0x1000 := by
    rw [maxOffsetNumber] at hmax
    omega
  obtain ⟨c, c', he, -, hsize, hmode, hof, -⟩ := offsetCode_spec hnum
  exact ⟨c, c', he, hsize, hmode, h.realOfsrec hp hof⟩

/-- The copy of codes that refer to the table is what they stand for. -/
theorem Collected.makeKnjstr (h : Collected P ofsrec) {a : Bytes} (ha : Refers ofsrec a k)
    (hr : makeKnjstr ofsrec a = some r) : r = k := by
  obtain ⟨s, rfl, hs⟩ := ha
  rw [Mkdic.makeKnjstr] at hr
  induction hs generalizing r with
  | nil =>
      rw [List.flatten_nil, copyCodes] at hr
      exact (Option.some.inj hr).symm
  | cons ha hs ih =>
      rw [List.flatten_cons] at hr
      cases ha with
      | short hs hl =>
          rw [List.singleton_append, copyCodes_short hs] at hr
          obtain ⟨r', hr', rfl⟩ := Option.map_eq_some_iff.mp hr
          rw [ih hr']
          rfl
      | long hs hl =>
          obtain ⟨r', hr', rfl⟩ := copyCodes_long_eq_some hs hl.2.1 hr
          rw [ih hr']
          rfl
      | @offset p hp hlen =>
          obtain ⟨c, c', he, hsize, hmode, hreal⟩ := h.offsetCode hp
          rw [he, List.cons_append, List.singleton_append, copyCodes_offset hsize hmode] at hr
          obtain ⟨x, hx, hr⟩ := Option.bind_eq_some_iff.mp hr
          obtain ⟨r', hr', rfl⟩ := Option.map_eq_some_iff.mp hr
          rw [setOfsask, hreal, Option.bind_some] at hx
          rw [ih hr', copyCodes_plain (h.plain p hp) hx]
      | ask hi => simp at hi

/-- Without codes of half width there is such a copy. -/
theorem Collected.makeKnjstr_wide (h : Collected IsWide ofsrec) {a : Bytes}
    (ha : Refers ofsrec a k) (hw : IsWide k) : Mkdic.makeKnjstr ofsrec a = some k := by
  obtain ⟨s, rfl, hs⟩ := ha
  rw [Mkdic.makeKnjstr]
  induction hs with
  | nil => rw [List.flatten_nil, copyCodes]
  | @cons code x s k ha hs ih =>
      rw [List.flatten_cons]
      obtain ⟨hx, hk⟩ := hw.of_append (h.abbrevs.isPlainCodes ha).isCodes
      cases ha with
      | short hs hl => rw [List.singleton_append, copyCodes_short hs, ih hk]; rfl
      | long hs hl =>
          rw [List.cons_append, List.singleton_append, copyCodes_long hs hl.2.1 (hx.head hs).1,
            ih hk]
          rfl
      | @offset p hp hlen =>
          obtain ⟨c, c', he, hsize, hmode, hreal⟩ := h.offsetCode hp
          rw [he, List.cons_append, List.singleton_append, copyCodes_offset hsize hmode, setOfsask,
            hreal, Option.bind_some, copyCodes_wide (h.plain p hp) (h.kind p hp), ih hk]
          rfl
      | ask hi => simp at hi

end Copy

/-- What codes stand for is plain, and something if they are. -/
theorem Collected.plain_of_refers (h : Collected P ofsrec) {a k : Bytes} (ha : Refers ofsrec a k) :
    IsPlainCodes k ∧ (a ≠ [] → k ≠ []) := by
  obtain ⟨s, rfl, hs⟩ := ha
  induction hs with
  | nil => exact ⟨.nil, id⟩
  | cons ha hs ih =>
      refine ⟨(h.abbrevs.isPlainCodes ha).append ih.1, fun _ he => ?_⟩
      exact h.abbrevs.ne_nil ha (List.append_eq_nil_iff.mp he).1

/-! ## Codes of records -/

def KanjiRec.Coded (t : List OffsetRec) (krec krec' : KanjiRec) : Prop :=
  krec'.kptr = krec.kptr ∧ Refers t krec'.aptr krec.kptr

def HinsiRec.Coded (t : List OffsetRec) (hrec hrec' : HinsiRec) : Prop :=
  hrec'.hinsi = hrec.hinsi ∧ List.Forall₂ (KanjiRec.Coded t) hrec.krec hrec'.krec

/-- The same words, with codes that refer to the table. -/
def DouonRec.Coded (t : List OffsetRec) (drec drec' : DouonRec) : Prop :=
  drec'.yptr = drec.yptr ∧ List.Forall₂ (HinsiRec.Coded t) drec.hrec drec'.hrec

theorem HinsiRec.Coded.subset {hrec hrec' : HinsiRec} (h : HinsiRec.Coded t hrec hrec')
    (hsub : t ⊆ t') : HinsiRec.Coded t' hrec hrec' :=
  ⟨h.1, h.2.imp fun _ _ hk => ⟨hk.1, hk.2.subset hsub⟩⟩

theorem DouonRec.Coded.subset {drec drec' : DouonRec} (h : DouonRec.Coded t drec drec')
    (hsub : t ⊆ t') : DouonRec.Coded t' drec drec' :=
  ⟨h.1, h.2.imp fun _ _ hh => hh.subset hsub⟩

theorem setKrec_grows (P : Bytes → Prop) : Transducer.Grows setKrec (Collected P) (· ⊆ ·)
    (fun krec => IsPlainCodes krec.kptr ∧ P krec.kptr) KanjiRec.Coded where
  refl t := List.Subset.refl t
  trans _ _ _ h h' := List.Subset.trans h h'
  mono _ _ _ _ hsub h := ⟨h.1, h.2.subset hsub⟩
  step := by
    intro t krec t' krec' hc hk h
    obtain ⟨ofsrec, ho, he⟩ := Option.map_eq_some_iff.mp h
    cases he
    obtain ⟨hc', hsub⟩ := hc.setOfsrec hk.1 hk.2 ho
    have hrefers : Refers t (knjofscvt t krec.kptr) krec.kptr :=
      ⟨_, rfl, (hc.abbrevs.makeDivlist_divides hk.1 le_rfl).2⟩
    exact ⟨hc', hsub, rfl, hrefers.subset hsub⟩

theorem setHrec_grows (P : Bytes → Prop) : Transducer.Grows setHrec (Collected P) (· ⊆ ·)
    (fun hrec => ∀ krec ∈ hrec.krec, IsPlainCodes krec.kptr ∧ P krec.kptr) HinsiRec.Coded where
  refl t := List.Subset.refl t
  trans _ _ _ h h' := List.Subset.trans h h'
  mono _ _ _ _ hsub h := h.subset hsub
  step := by
    intro t hrec t' hrec' hc hk h
    obtain ⟨p, hp, he⟩ := Option.map_eq_some_iff.mp h
    cases he
    obtain ⟨hc', hsub, hks⟩ := (setKrec_grows P).of_run hc hk hp
    exact ⟨hc', hsub, rfl, hks⟩

theorem douonKnj_spec (hc : Collected P t) {drec drec' : DouonRec}
    (hk : ∀ hrec ∈ drec.hrec, ∀ krec ∈ hrec.krec, IsPlainCodes krec.kptr ∧ P krec.kptr)
    (h : douonKnj t drec = some (t', drec')) :
    Collected P t' ∧ t ⊆ t' ∧ DouonRec.Coded t' drec drec' := by
  obtain ⟨p, hp, he⟩ := Option.map_eq_some_iff.mp h
  cases he
  obtain ⟨hc', hsub, hhs⟩ := (setHrec_grows P).of_run hc hk hp
  exact ⟨hc', hsub, rfl, hhs⟩

/-! ## Linking records -/

theorem diffYomi_eq_some {p q : Bytes} {n : ℕ} (h : diffYomi p q = some n) :
    p < q ∧ n = q.length - lcp p q := by
  induction p generalizing q with
  | nil =>
      cases q with
      | nil => simp [diffYomi] at h
      | cons b q =>
          rw [diffYomi, Option.some.injEq] at h
          exact ⟨List.nil_lt_cons _ _, by simp [← h]⟩
  | cons a p ih =>
      cases q with
      | nil => simp [diffYomi] at h
      | cons b q =>
          rw [diffYomi] at h
          by_cases hab : a = b
          · rw [if_pos hab] at h
            subst hab
            obtain ⟨hlt, hn⟩ := ih h
            refine ⟨List.cons_lt_cons_iff.mpr (.inr ⟨rfl, hlt⟩), ?_⟩
            rw [lcp_cons_self, List.length_cons, hn]
            omega
          · rw [if_neg hab] at h
            by_cases hgt : a > b
            · rw [if_pos hgt] at h
              cases h
            · rw [if_neg hgt, Option.some.injEq] at h
              have hlt : a < b := lt_of_le_of_ne (not_lt.mp hgt) hab
              refine ⟨List.cons_lt_cons_iff.mpr (.inl hlt), ?_⟩
              rw [lcp_cons_ne hab, List.length_cons, ← h]
              omega

/-- The reading of the last record, or `prev` if there is none. -/
def lastYptr (prev : Bytes) (douon : List DouonRec) : Bytes :=
  (douon.getLast?).elim prev DouonRec.yptr

theorem lastYptr_cons (prev : Bytes) (drec : DouonRec) (douon : List DouonRec) :
    lastYptr prev (drec :: douon) = lastYptr drec.yptr douon := by
  rw [lastYptr, lastYptr, List.getLast?_cons]
  cases douon.getLast? <;> rfl

theorem linked_append {prev : Bytes} {douon : List DouonRec} {drec : DouonRec}
    (h : Linked prev douon) (hlt : lastYptr prev douon < drec.yptr)
    (hd : drec.dlen = drec.yptr.length - lcp (lastYptr prev douon) drec.yptr) :
    Linked prev (douon ++ [drec]) := by
  induction douon generalizing prev with
  | nil => exact ⟨hlt, hd, trivial⟩
  | cons d douon ih =>
      rw [lastYptr_cons] at hlt hd
      exact ⟨h.1, h.2.1, ih h.2.2 hlt hd⟩

/-- A record put behind the others is linked to the last one of them. -/
theorem segRecs_append {douon : List DouonRec} {drec : DouonRec} {ylen : ℕ}
    (hs : douon ≠ [] → SegRecs douon) (h : diffYlen douon drec = some ylen) :
    SegRecs (douon ++ [{ drec with dlen := ylen }]) := by
  cases douon with
  | nil => exact ⟨(Option.some.inj h).symm, trivial⟩
  | cons d douon =>
      obtain ⟨hd, hlink⟩ : d.dlen = 0 ∧ Linked d.yptr douon := hs (by simp)
      have hlast : diffYomi (lastYptr d.yptr douon) drec.yptr = some ylen := by
        rw [diffYlen, List.getLast?_cons] at h
        rw [lastYptr, ← h]
        cases douon.getLast? <;> rfl
      obtain ⟨hlt, hn⟩ := diffYomi_eq_some hlast
      exact ⟨hd, linked_append hlink hlt hn⟩

/-! ## Collecting a segment -/

theorem douonRec_ok {drec drec' : DouonRec} (hok : drec.Ok) (h : DouonRec.Coded t drec drec') :
    drec'.Ok where
  isYomi := h.1.symm ▸ hok.isYomi
  hrec_ne := by
    intro hnil
    have hlen := h.2.length_eq
    rw [hnil] at hlen
    exact hok.hrec_ne (List.length_eq_zero_iff.mp hlen)
  hrec := by
    intro hrec' hmem
    obtain ⟨hrec, hh, hc⟩ := exists_of_mem_right h.2 hmem
    have hhok := hok.hrec hrec hh
    refine ⟨hc.1.symm ▸ hhok.hinsi_ne, fun hnil => ?_, fun krec' hmem' => ?_⟩
    · have hlen := hc.2.length_eq
      rw [hnil] at hlen
      exact hhok.krec_ne (List.length_eq_zero_iff.mp hlen)
    · obtain ⟨krec, hk, he⟩ := exists_of_mem_right hc.2 hmem'
      exact he.1.symm ▸ hhok.krec krec hk

/-- Every string of the record is one with `P`. -/
def DouonRec.All (P : Bytes → Prop) (drec : DouonRec) : Prop :=
  ∀ hrec ∈ drec.hrec, ∀ krec ∈ hrec.krec, P krec.kptr

/-- A segment that has got the records `done`. -/
structure SegRec.Has (P : Bytes → Prop) (seg : SegRec) (done : List DouonRec) : Prop where
  collected : Collected P seg.ofsrec
  segRecs : seg.douon ≠ [] → SegRecs seg.douon
  coded : List.Forall₂ (DouonRec.Coded seg.ofsrec) done seg.douon

theorem segRec_has_nil : SegRec.Has P ⟨[], []⟩ [] :=
  ⟨collected_nil, fun h => absurd rfl h, .nil⟩

theorem SegRec.Has.makeDList {seg seg' : SegRec} {done : List DouonRec} {drec : DouonRec}
    (hs : seg.Has P done) (hok : drec.Ok) (hall : drec.All P)
    (h : makeDList seg drec = some seg') : seg'.Has P (done ++ [drec]) := by
  obtain ⟨⟨t', drec'⟩, hd, h⟩ := Option.bind_eq_some_iff.mp h
  obtain ⟨ylen, hy, he⟩ := Option.map_eq_some_iff.mp h
  cases he
  obtain ⟨hc, hsub, hcoded⟩ := douonKnj_spec hs.collected
    (fun hrec hh krec hk => ⟨((hok.hrec hrec hh).krec krec hk).1, hall hrec hh krec hk⟩) hd
  refine ⟨hc, fun _ => segRecs_append hs.segRecs hy, ?_⟩
  exact List.rel_append (hs.coded.imp fun _ _ h => h.subset hsub) (.cons hcoded .nil)

theorem SegRec.Has.run {seg seg' : SegRec} {done drecs : List DouonRec} (hs : seg.Has P done)
    (hok : ∀ drec ∈ drecs, drec.Ok) (hall : ∀ drec ∈ drecs, drec.All P)
    (h : drecs.foldlM Mkdic.makeDList seg = some seg') : seg'.Has P (done ++ drecs) := by
  induction drecs generalizing seg done with
  | nil =>
      obtain rfl : seg = seg' := Option.some.inj h
      simpa using hs
  | cons drec drecs ih =>
      rw [List.foldlM_cons] at h
      obtain ⟨seg₁, h₁, h₂⟩ := Option.bind_eq_some_iff.mp h
      have hs₁ := hs.makeDList (hok drec (by simp)) (hall drec (by simp)) h₁
      have hrun := ih hs₁ (fun d hd => hok d (by simp [hd])) (fun d hd => hall d (by simp [hd])) h₂
      simpa using hrun

theorem map_yptr {drecs drecs' : List DouonRec}
    (h : List.Forall₂ (DouonRec.Coded t) drecs drecs') :
    drecs'.map DouonRec.yptr = drecs.map DouonRec.yptr := by
  induction h with
  | nil => rfl
  | cons hc _ ih => rw [List.map_cons, List.map_cons, hc.1, ih]

/-- When the records are in the segment, the codes of every string in them still lead back to it
through the table of the whole segment. -/
theorem makeKnjstr_aptr {drecs : List DouonRec} {seg : SegRec} (hok : ∀ drec ∈ drecs, drec.Ok)
    (hwide : ∀ drec ∈ drecs, drec.All IsWide) (hseg : drecs.foldlM makeDList ⟨[], []⟩ = some seg) :
    seg.douon.map DouonRec.yptr = drecs.map DouonRec.yptr ∧
      ∀ drec ∈ seg.douon, ∀ hrec ∈ drec.hrec, ∀ krec ∈ hrec.krec,
        makeKnjstr seg.ofsrec krec.aptr = some krec.kptr := by
  have hhas : seg.Has IsWide drecs := segRec_has_nil.run hok hwide hseg
  refine ⟨?_, fun drec' hd hrec' hh krec' hk => ?_⟩
  · exact map_yptr hhas.coded
  · obtain ⟨drec, hdmem, hdc⟩ := exists_of_mem_right hhas.coded hd
    obtain ⟨hrec, hhmem, hhc⟩ := exists_of_mem_right hdc.2 hh
    obtain ⟨krec, hkmem, he, hrefers⟩ := exists_of_mem_right hhc.2 hk
    rw [he]
    exact hhas.collected.makeKnjstr_wide hrefers (hwide drec hdmem hrec hhmem krec hkmem)

/-- Two words, the second of which has the first one in it. -/
def sampleRecs : List DouonRec :=
  [⟨[0x21], 0, [⟨1, [⟨[0x30, 0x21, 0x30, 0x22], []⟩]⟩]⟩,
    ⟨[0x21, 0x23], 0, [⟨2, [⟨[0x30, 0x21, 0x30, 0x22, 0x30, 0x23], []⟩]⟩]⟩]

def sampleSeg : SegRec := (sampleRecs.foldlM makeDList ⟨[], []⟩).getD ⟨[], []⟩

theorem sampleSeg_eq : sampleRecs.foldlM makeDList ⟨[], []⟩ = some sampleSeg := by decide

theorem sampleRecs_ok : ∀ drec ∈ sampleRecs, drec.Ok := by
  have hfirst : IsPlainCodes [0x30, 0x21, 0x30, 0x22] :=
    .long (by decide) (by decide) (.long (by decide) (by decide) .nil)
  have hsecond : IsPlainCodes [0x30, 0x21, 0x30, 0x22, 0x30, 0x23] :=
    hfirst.append (.long (by decide) (by decide) .nil)
  intro drec hd
  simp only [sampleRecs, List.mem_cons, List.not_mem_nil, or_false] at hd
  rcases hd with rfl | rfl
  · exact ⟨⟨by simp, by decide, by decide⟩, by simp, by
      simpa using ⟨by decide, by simp, by simpa using hfirst⟩⟩
  · exact ⟨⟨by simp, by decide, by decide⟩, by simp, by
      simpa using ⟨by decide, by simp, by simpa using hsecond⟩⟩

theorem sampleRecs_wide : ∀ drec ∈ sampleRecs, drec.All IsWide := by
  have hdec : ∀ drec ∈ sampleRecs, ∀ hrec ∈ drec.hrec, ∀ krec ∈ hrec.krec,
      ∀ code ∈ codesOf krec.kptr, code.headD 0 &&& kanjiModeMask ≠ leadingHankaku := by decide
  exact hdec

theorem makeKnjstr_aptr_sample : sampleSeg.douon.map DouonRec.yptr = [[0x21], [0x21, 0x23]] ∧
    ∀ drec ∈ sampleSeg.douon, ∀ hrec ∈ drec.hrec, ∀ krec ∈ hrec.krec,
      makeKnjstr sampleSeg.ofsrec krec.aptr = some krec.kptr :=
  makeKnjstr_aptr sampleRecs_ok sampleRecs_wide sampleSeg_eq

/-! ## Writing the segment -/

theorem forall₂_comp {α β γ : Type*} {R : α → β → Prop} {S : β → γ → Prop} {T : α → γ → Prop}
    (hRST : ∀ a b c, R a b → S b c → T a c) {as : List α} {bs : List β} {cs : List γ}
    (h : List.Forall₂ R as bs) (h' : List.Forall₂ S bs cs) : List.Forall₂ T as cs := by
  induction h generalizing cs with
  | nil =>
      cases h'
      exact .nil
  | cons hr h ih =>
      cases h' with
      | cons hs h' => exact .cons (hRST _ _ _ hr hs) (ih h')

theorem mapM_forall₂ {α β : Type*} {f : α → Option β} {as : List α} {bs : List β}
    (h : as.mapM f = some bs) : List.Forall₂ (fun a b => f a = some b) as bs := by
  induction as generalizing bs with
  | nil =>
      rw [List.mapM_nil] at h
      cases h
      exact .nil
  | cons a as ih =>
      rw [List.mapM_cons] at h
      obtain ⟨b, hb, h⟩ := Option.bind_eq_some_iff.mp h
      obtain ⟨bs', hbs, h⟩ := Option.bind_eq_some_iff.mp h
      cases h
      exact .cons hb (ih hbs)

/-- A block that is read as the record with codes is read as the record. -/
theorem DouonRec.Coded.readAs {dicbuf : Bytes} {drec drec' : DouonRec} {b : DouonBlk}
    (hc : DouonRec.Coded t drec drec') (h : drec'.ReadAs dicbuf b) : drec.ReadAs dicbuf b := by
  refine ⟨h.1.trans hc.1, forall₂_comp ?_ hc.2 h.2⟩
  intro hrec hrec' hb hh hr
  refine ⟨hh.1 ▸ hr.1, forall₂_comp ?_ hh.2 hr.2⟩
  intro krec krec' s hk hm
  exact hk.1 ▸ hm

/-- Strings chosen from the codes of the segment, as `make_knjask` makes them. -/
theorem Collected.askOk (h : Collected P ofsrec) {chosen : List Bytes}
    (hlen : chosen.length ≤ maxKnjAskNumber)
    (href : ∀ a ∈ chosen, a ≠ [] ∧ ∃ k, Refers ofsrec a k)
    (hmap : chosen.mapM (Mkdic.makeKnjstr ofsrec) = some askknj)
    (hsum : (askknj.map fun p => p.length + 1).sum < 0x100) : AskOk askknj := by
  have hf := mapM_forall₂ hmap
  have hplain : ∀ x ∈ askknj, IsPlainCodes x ∧ x ≠ [] := by
    intro x hx
    obtain ⟨a, ha, hr⟩ := exists_of_mem_right hf hx
    obtain ⟨hne, k, hk⟩ := href a ha
    obtain ⟨hp, hk'⟩ := h.plain_of_refers hk
    obtain rfl := h.makeKnjstr hk hr
    exact ⟨hp, hk' hne⟩
  exact ⟨hf.length_eq ▸ hlen, fun x hx => (hplain x hx).1, fun x hx => (hplain x hx).2, hsum⟩

theorem putAsk_sum_lt {o : SegBuf} (h : putAsk askknj = some o) :
    (askknj.map fun p => p.length + 1).sum < 0x100 := by
  by_contra hge
  rw [putAsk, if_pos (by omega)] at h
  cases h

theorem putIndex_eq_some {mindex mindex' y : Bytes} (h : putIndex mindex y = some mindex') :
    mindex' = mindex ++ (y ++ [0]) ∧ mindex'.length ≤ mainIndexLength := by
  rw [putIndex] at h
  split at h
  · rename_i hlt
    cases h
    refine ⟨rfl, ?_⟩
    simp only [List.length_append, List.length_singleton]
    exact hlt.le
  · cases h

theorem head_yptr {dicbuf : Bytes} {drecs : List DouonRec} {blks : List DouonBlk}
    (h : List.Forall₂ (DouonRec.ReadAs dicbuf) drecs blks) :
    (drecs.head?).elim [] DouonRec.yptr = headYomi blks := by
  cases h with
  | nil => rfl
  | cons hr _ => exact hr.1.symm

/-- The segment that is written for what has been collected. -/
theorem SegRec.Has.makeseg {seg : SegRec} {drecs : List DouonRec} {chosen : List Bytes}
    {w w' : Written} (hhas : seg.Has P drecs) (hne : drecs ≠ []) (hok : ∀ drec ∈ drecs, drec.Ok)
    (hlen : chosen.length ≤ maxKnjAskNumber)
    (href : ∀ a ∈ chosen, a ≠ [] ∧ ∃ k, Refers seg.ofsrec a k)
    (h : Mkdic.makeseg w seg.ofsrec chosen seg.douon = some w') :
    ∃ s : DicSeg, w'.segs = w.segs ++ [s.bytes] ∧ s.bytes.length = mainSegmentLength ∧
      w'.mindex = w.mindex ++ (s.idx ++ [0]) ∧ w'.mindex.length ≤ mainIndexLength ∧
      List.Forall₂ (DouonRec.ReadAs s.bytes) drecs s.blks := by
  obtain ⟨askknj, hask, h⟩ := Option.bind_eq_some_iff.mp h
  obtain ⟨image, himage, h⟩ := Option.bind_eq_some_iff.mp h
  obtain ⟨mindex, hidx, h⟩ := Option.bind_eq_some_iff.mp h
  cases h
  obtain ⟨o, ho, -⟩ := Option.bind_eq_some_iff.mp himage
  have haskOk := hhas.collected.askOk hlen href hask (putAsk_sum_lt ho)
  have hdne : seg.douon ≠ [] := by
    intro hnil
    have hl := hhas.coded.length_eq
    rw [hnil] at hl
    exact hne (List.length_eq_zero_iff.mp hl)
  have hdok : ∀ drec' ∈ seg.douon, drec'.Ok := by
    intro drec' hd
    obtain ⟨drec, hm, hc⟩ := exists_of_mem_right hhas.coded hd
    exact douonRec_ok (hok drec hm) hc
  obtain ⟨s, rfl, hslen, hread⟩ :=
    segImage_readAs haskOk (hhas.segRecs hdne) hdok himage
  rw [head_yptr hread] at hidx
  obtain ⟨rfl, hle⟩ := putIndex_eq_some hidx
  exact ⟨s, rfl, hslen, rfl, hle, forall₂_comp (fun _ _ _ hc hr => hc.readAs hr) hhas.coded hread⟩

/-- The segment that is written for records put into it one after the other, with any association
strings chosen from their codes: the server finds a block for each record, in their order, and
reads in it what the record has. The index gets the first reading. -/
theorem makeseg_readAs {drecs : List DouonRec} {seg : SegRec} {chosen : List Bytes}
    {w w' : Written} (hne : drecs ≠ []) (hok : ∀ drec ∈ drecs, drec.Ok)
    (hseg : drecs.foldlM makeDList ⟨[], []⟩ = some seg)
    (hlen : chosen.length ≤ maxKnjAskNumber)
    (href : ∀ a ∈ chosen, a ≠ [] ∧ ∃ k, Refers seg.ofsrec a k)
    (h : makeseg w seg.ofsrec chosen seg.douon = some w') :
    ∃ s : DicSeg, w'.segs = w.segs ++ [s.bytes] ∧ s.bytes.length = mainSegmentLength ∧
      w'.mindex = w.mindex ++ (s.idx ++ [0]) ∧
      List.Forall₂ (DouonRec.ReadAs s.bytes) drecs s.blks := by
  have hhas : seg.Has (fun _ => True) drecs :=
    segRec_has_nil.run hok (fun _ _ _ _ _ _ => trivial) hseg
  obtain ⟨s, hs, hslen, hidx, -, hread⟩ := hhas.makeseg hne hok hlen href h
  exact ⟨s, hs, hslen, hidx, hread⟩

theorem sampleSeg_refers :
    ∀ a ∈ [([0x90, 1] : Bytes)], a ≠ [] ∧ ∃ k, Refers sampleSeg.ofsrec a k := by
  intro a ha
  rw [List.mem_singleton.mp ha]
  refine ⟨by simp, [0x30, 0x21, 0x30, 0x22], [offsetCode 1], rfl, ?_⟩
  exact .cons (k := [])
    (CodeFor.offset (p := ⟨[0x30, 0x21, 0x30, 0x22], 1⟩) (by decide) (by decide)) .nil

theorem sampleSeg_makeseg :
    ∃ w', makeseg ⟨[], []⟩ sampleSeg.ofsrec [[0x90, 1]] sampleSeg.douon = some w' :=
  Option.isSome_iff_exists.mp (by decide +kernel)

theorem makeseg_readAs_sample : ∃ (w' : Written) (s : DicSeg),
    makeseg ⟨[], []⟩ sampleSeg.ofsrec [[0x90, 1]] sampleSeg.douon = some w' ∧
      w'.segs = [s.bytes] ∧ s.idx = [0x21] ∧
      List.Forall₂ (DouonRec.ReadAs s.bytes) sampleRecs s.blks := by
  obtain ⟨w', hw⟩ := sampleSeg_makeseg
  obtain ⟨s, hs, -, hidx, hread⟩ := makeseg_readAs (by decide) sampleRecs_ok sampleSeg_eq
    (by decide) sampleSeg_refers hw
  exact ⟨w', s, hw, hs, (head_yptr hread).symm, hread⟩

end Sj3.Mkdic
