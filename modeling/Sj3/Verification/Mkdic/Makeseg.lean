import Sj3.Verification.Dict.Srchdict
import Sj3.Verification.Mkdic.Writing

/-! # The segment of some records

The bytes the compiler writes for records are a segment the server looks readings up in, with one
block for each record, and the server reads every string in it as the one in the record. -/

namespace Sj3.Mkdic

open Buffer FrontCoding Macro

variable {askknj : List Bytes} {o o' : SegBuf} {buf seg : Bytes}

/-! ## Records -/

/-- What the compiler makes sure of about the strings with a grammar code. -/
structure HinsiRec.Ok (hrec : HinsiRec) : Prop where
  hinsi_ne : UInt8.ofNat hrec.hinsi ≠ hinsiBlkTerm
  krec_ne : hrec.krec ≠ []
  krec : ∀ k ∈ hrec.krec, IsPlainCodes k.kptr ∧ k.kptr ≠ []

structure DouonRec.Ok (drec : DouonRec) : Prop where
  isYomi : IsYomi drec.yptr
  hrec_ne : drec.hrec ≠ []
  hrec : ∀ h ∈ drec.hrec, h.Ok

/-- Behind a record with the reading `prev`, records with ascending readings, each told how much
of its reading it does not share with the one in front. -/
def Linked : Bytes → List DouonRec → Prop
  | _, [] => True
  | prev, drec :: douon =>
      prev < drec.yptr ∧ drec.dlen = drec.yptr.length - lcp prev drec.yptr ∧
        Linked drec.yptr douon

/-- The records of a segment. The index has the reading of the first one. -/
def SegRecs : List DouonRec → Prop
  | [] => False
  | drec :: douon => drec.dlen = 0 ∧ Linked drec.yptr douon

/-! ## What is written for a record -/

/-- The grammar block `b` has an abbreviation of every string of the record. -/
def HCompiles (askknj : List Bytes) (buf : Bytes) (hrec : HinsiRec) (b : HinsiBlk) : Prop :=
  b.hinsi = UInt8.ofNat hrec.hinsi ∧
    List.Forall₂ (fun k s => Abbr askknj buf (mainSegmentLength * mainSegmentLength) s k.kptr)
      hrec.krec b.kanji

def DCompiles (askknj : List Bytes) (buf : Bytes) (drec : DouonRec) (t : DouonBlk) : Prop :=
  t.yomi = drec.yptr ∧ List.Forall₂ (HCompiles askknj buf) drec.hrec t.hinsi

theorem HCompiles.append {hrec : HinsiRec} {b : HinsiBlk} (h : HCompiles askknj buf hrec b)
    (w : Bytes) : HCompiles askknj (buf ++ w) hrec b :=
  ⟨h.1, h.2.imp fun _ _ ha => ha.append w⟩

theorem DCompiles.append {drec : DouonRec} {t : DouonBlk} (h : DCompiles askknj buf drec t)
    (w : Bytes) : DCompiles askknj (buf ++ w) drec t :=
  ⟨h.1, h.2.imp fun _ _ hb => hb.append w⟩

theorem exists_of_mem_right {α β : Type*} {R : α → β → Prop} {as : List α} {bs : List β}
    (h : List.Forall₂ R as bs) {b : β} (hb : b ∈ bs) : ∃ a ∈ as, R a b := by
  induction h with
  | nil => simp at hb
  | cons hr h ih =>
      rcases List.mem_cons.mp hb with rfl | hb
      · exact ⟨_, by simp, hr⟩
      · obtain ⟨a, ha, hab⟩ := ih hb
        exact ⟨a, by simp [ha], hab⟩

/-- Writing one thing after the other, each of which stays what it is when more is written. -/
theorem foldlM_writes {α β : Type*} {f : SegBuf → α → Option SegBuf} (bytes : β → Bytes)
    {R : Bytes → α → β → Prop} (hmono : ∀ buf w a b, R buf a b → R (buf ++ w) a b) {as : List α}
    (hstep : ∀ o o', ∀ a ∈ as, o.Good askknj → f o a = some o' →
      ∃ b, o'.buf = o.buf ++ bytes b ∧ o'.Good askknj ∧ R o'.buf a b)
    (hgood : o.Good askknj) (h : as.foldlM f o = some o') :
    ∃ bs, o'.buf = o.buf ++ bs.flatMap bytes ∧ o'.Good askknj ∧ List.Forall₂ (R o'.buf) as bs := by
  induction as generalizing o with
  | nil =>
      obtain rfl : o = o' := Option.some.inj h
      exact ⟨[], by simp, hgood, .nil⟩
  | cons a as ih =>
      rw [List.foldlM_cons] at h
      obtain ⟨o₁, h₁, h₂⟩ := Option.bind_eq_some_iff.mp h
      obtain ⟨b, hb, hgood₁, hr⟩ := hstep o o₁ a (by simp) hgood h₁
      obtain ⟨bs, hbs, hgood', hrs⟩ := ih (fun o o' a ha => hstep o o' a (by simp [ha])) hgood₁ h₂
      refine ⟨b :: bs, by rw [hbs, hb, List.flatMap_cons, List.append_assoc], hgood', .cons ?_ hrs⟩
      rw [hbs]
      exact hmono _ _ _ _ hr

theorem SegBuf.Good.datset (h : o.Good askknj) {i : UInt8} (hd : datset o i = some o') :
    o'.buf = o.buf ++ [i] ∧ o'.Good askknj := by
  obtain ⟨rfl, hle⟩ := datset_eq_some hd
  exact ⟨rfl, h.append [i] hle⟩

/-- The grammar block of a record. -/
theorem putHrec_good (hask : AskOk askknj) (hgood : o.Good askknj) {hrec : HinsiRec}
    (hok : hrec.Ok) (h : putHrec askknj o hrec = some o') :
    ∃ b : HinsiBlk, o'.buf = o.buf ++ b.bytes ∧ o'.Good askknj ∧
      HCompiles askknj o'.buf hrec b := by
  obtain ⟨o₁, h₁, h⟩ := Option.bind_eq_some_iff.mp h
  obtain ⟨o₂, h₂, h₃⟩ := Option.bind_eq_some_iff.mp h
  obtain ⟨hb₁, hgood₁⟩ := hgood.datset h₁
  have hwrites := foldlM_writes (· ++ [kanjiStrEnd]) (R := fun buf (k : KanjiRec) s =>
      Abbr askknj buf (mainSegmentLength * mainSegmentLength) s k.kptr)
    (fun buf w k s ha => ha.append w) (fun o o' k hk hg h =>
      putKrec_good hask hg (hok.krec k hk).1 (hok.krec k hk).2 h) hgood₁ h₂
  obtain ⟨kanji, hb₂, hgood₂, habbr⟩ := hwrites
  obtain ⟨hb₃, hgood₃⟩ := hgood₂.datset h₃
  have hne : kanji ≠ [] := by
    rintro rfl
    cases hk : hrec.krec with
    | nil => exact hok.krec_ne hk
    | cons k ks =>
        rw [hk] at habbr
        cases habbr
  have his : ∀ s ∈ kanji, IsKnjStr s := by
    intro s hs
    obtain ⟨k, -, ha⟩ := exists_of_mem_right habbr hs
    exact ha.isKnjStr
  refine ⟨⟨UInt8.ofNat hrec.hinsi, kanji, hok.hinsi_ne, hne, his⟩, ?_, hgood₃, rfl, ?_⟩
  · rw [hb₃, hb₂, hb₁]
    simp [HinsiBlk.bytes, knjBytes]
  · rw [hb₃]
    exact habbr.imp fun _ _ ha => ha.append _

/-! ## Blocks -/

private theorem header_byte0 : ∀ (hi : Fin 16) (d p : Bool),
    (UInt8.ofNat hi &&& (0x0f : UInt8)) ||| (if d then (0x40 : UInt8) else 0) |||
        (if p then (0x80 : UInt8) else 0) =
      UInt8.ofNat hi ||| (if d then nokoriYomiTop else 0) |||
        (if p then assyukuYomiTop else 0) := by
  decide +kernel

private theorem header_byte2 : ∀ d p : Fin 32,
    (UInt8.ofNat d &&& (0x0f : UInt8)) ||| ((UInt8.ofNat p <<< 4) &&& (0xf0 : UInt8)) =
      UInt8.ofNat ((d.val &&& 0x0f) ||| ((p.val &&& 0x0f) <<< 4)) := by
  decide +kernel

private theorem length_bit : ∀ n : Fin 32, (0x0f < n.val) = (n.val &&& 0x10 ≠ 0) := by
  decide

/-- The header is the one the server sets for a block of these lengths. -/
theorem segHeader_eq {size dlen slen : ℕ} (hs : size ≤ maxDouonBlk) (hd : dlen ≤ maxWdYomiLen)
    (hl : slen ≤ maxWdYomiLen) : segHeader size dlen slen = setSize size slen dlen := by
  simp only [maxDouonBlk, maxWdYomiLen] at hs hd hl
  have hhi : size >>> 8 < 16 := by
    rw [Nat.shiftRight_eq_div_pow]
    omega
  have h0 := header_byte0 ⟨size >>> 8, hhi⟩ (decide (0x0f < dlen)) (decide (0x0f < slen))
  have h2 := header_byte2 ⟨dlen, by omega⟩ ⟨slen, by omega⟩
  have hbd := length_bit ⟨dlen, by omega⟩
  have hbs := length_bit ⟨slen, by omega⟩
  simp only [decide_eq_true_eq] at h0 h2 hbd hbs
  rw [segHeader, setSize, h2, h0]
  simp only [hbd, hbs]

/-- The block of a record, behind one with the reading `prev`. -/
theorem putDrec_good (hask : AskOk askknj) (hgood : o.Good askknj) {drec : DouonRec}
    (hok : drec.Ok) {prev : Bytes} (hdlen : drec.dlen = drec.yptr.length - lcp prev drec.yptr)
    (h : putDrec askknj o drec = some o') :
    ∃ t : DouonBlk, o'.buf = o.buf ++ t.bytes prev ∧ t.size prev ≤ maxDouonBlk ∧
      o'.Good askknj ∧ DCompiles askknj o'.buf drec t := by
  obtain ⟨o₁, h₁, h⟩ := Option.bind_eq_some_iff.mp h
  obtain ⟨o₂, h₂, h₃⟩ := Option.bind_eq_some_iff.mp h
  obtain ⟨rfl, -⟩ := datsets_eq_some h₁
  have hlcp : lcp prev drec.yptr ≤ drec.yptr.length := lcp_le_right _ _
  have hslen : drec.yptr.length - drec.dlen = lcp prev drec.yptr := by omega
  have hyomi := hok.isYomi.length_le
  rw [hslen] at h₂ h₃
  obtain ⟨y, hy⟩ : ∃ y, y = drec.yptr.drop (lcp prev drec.yptr) := ⟨_, rfl⟩
  rw [← hy] at h₂
  have hylen : y.length = drec.dlen := by rw [hy, hdlen, List.length_drop]
  -- there is room for the reading, for a grammar code is written behind it
  have hroom : o.buf.length + (3 + y.length) + 1 ≤ mainSegmentLength := by
    obtain ⟨r, rs, hr⟩ := List.exists_cons_of_ne_nil hok.hrec_ne
    rw [hr, List.foldlM_cons] at h₂
    obtain ⟨o₃, h₃, -⟩ := Option.bind_eq_some_iff.mp h₂
    obtain ⟨o₄, h₄, -⟩ := Option.bind_eq_some_iff.mp h₃
    obtain ⟨rfl, hle⟩ := datset_eq_some h₄
    simp only [List.length_append, List.length_replicate, List.length_singleton,
      douonBlkSizeNumber] at hle
    omega
  obtain ⟨w, hw, hrun⟩ := Appends.foldlM (appends_putHrec askknj) drec.hrec _ _ h₂
  simp only at hw hrun
  obtain ⟨hdr, hhdr⟩ : ∃ hdr, hdr =
    segHeader (o₂.buf.length - o.buf.length) drec.dlen (lcp prev drec.yptr) := ⟨_, rfl⟩
  have hhlen : hdr.length = douonBlkSizeNumber := by
    rw [hhdr]
    rfl
  -- the header might as well have been there from the start
  have hrun' := hrun (o.buf ++ (hdr ++ y)) (by simp [hhlen])
  have hgood₁ := hgood.append (hdr ++ y) (by
    rw [List.length_append, List.length_append, hhlen, douonBlkSizeNumber]
    omega)
  have hwrites := foldlM_writes HinsiBlk.bytes (R := HCompiles askknj)
    (fun buf w r b hb => hb.append w)
    (fun o o' r hr hg h => putHrec_good hask hg (hok.hrec r hr) h) hgood₁ hrun'
  obtain ⟨bs, hbs, hgood', hcomp⟩ := hwrites
  obtain rfl : w = bs.flatMap HinsiBlk.bytes := List.append_cancel_left hbs
  have ho' : o' = ⟨o.buf ++ (hdr ++ y) ++ bs.flatMap HinsiBlk.bytes, o₂.ofsrec⟩ := by
    rw [← Option.some.inj h₃, ← hhdr, hw]
    have hover := overwrite_append o.buf (List.replicate douonBlkSizeNumber 0)
      (y ++ bs.flatMap HinsiBlk.bytes) hdr (by rw [List.length_replicate, hhlen])
    simp only [List.append_assoc] at hover ⊢
    rw [hover]
  rw [ho']
  have hne : bs ≠ [] := by
    rintro rfl
    cases hr : drec.hrec with
    | nil => exact hok.hrec_ne hr
    | cons r rs =>
        rw [hr] at hcomp
        cases hcomp
  obtain ⟨t, ht⟩ : ∃ t : DouonBlk, t = ⟨drec.yptr, bs, hok.isYomi, hne⟩ := ⟨_, rfl⟩
  have hplen : t.plen prev = lcp prev drec.yptr := by rw [ht]; rfl
  have hnlen : t.nlen prev = drec.dlen := by rw [ht, hdlen]; rfl
  have hbody : t.body = bs.flatMap HinsiBlk.bytes := by rw [ht]; rfl
  have hsize : o₂.buf.length - o.buf.length = t.size prev := by
    rw [DouonBlk.size, hnlen, hbody, hw]
    simp only [List.length_append, List.length_replicate, hylen]
    omega
  have hmax : t.size prev ≤ maxDouonBlk := by
    have hle := hgood'.length_le
    rw [← hsize, hw]
    simp only [List.length_append, List.length_replicate, hhlen, mainSegmentLength,
      maxDouonBlk] at hle ⊢
    omega
  refine ⟨t, ?_, hmax, hgood', ⟨by rw [ht], ?_⟩⟩
  · have hset : hdr = setSize (t.size prev) (t.plen prev) (t.nlen prev) := by
      rw [hhdr, hsize, hplen, hnlen]
      exact segHeader_eq hmax (by omega) (hlcp.trans hyomi)
    rw [DouonBlk.bytes, ← hset, hplen, hbody, ht]
    simp only [hy, List.append_assoc]
  · rw [ht]
    exact hcomp

/-- The blocks of records in a row. -/
theorem putDrecs_good (hask : AskOk askknj) (hgood : o.Good askknj) {douon : List DouonRec}
    (hok : ∀ drec ∈ douon, drec.Ok) {prev : Bytes} (hlink : Linked prev douon)
    (h : douon.foldlM (putDrec askknj) o = some o') :
    ∃ ts, o'.buf = o.buf ++ douonBytes prev ts ∧ Coded prev ts ∧ o'.Good askknj ∧
      List.Forall₂ (DCompiles askknj o'.buf) douon ts := by
  induction douon generalizing o prev with
  | nil =>
      obtain rfl : o = o' := Option.some.inj h
      exact ⟨[], by simp [douonBytes], trivial, hgood, .nil⟩
  | cons drec douon ih =>
      obtain ⟨hlt, hdlen, hlink⟩ := hlink
      rw [List.foldlM_cons] at h
      obtain ⟨o₁, h₁, h₂⟩ := Option.bind_eq_some_iff.mp h
      obtain ⟨t, ht, hmax, hgood₁, hc⟩ := putDrec_good hask hgood (hok drec (by simp)) hdlen h₁
      obtain ⟨ts, hts, hcoded, hgood', hcs⟩ := ih hgood₁ (fun d hd => hok d (by simp [hd])) hlink h₂
      refine ⟨t :: ts, ?_, ⟨hc.1 ▸ hlt, hmax, hc.1.symm ▸ hcoded⟩, hgood', .cons ?_ hcs⟩
      · rw [hts, ht, douonBytes, hc.1, List.append_assoc]
      · rw [hts]
        exact hc.append _

/-! ## Segments -/

/-- The association strings with their terminators. -/
theorem putAsk_good (hask : AskOk askknj) (h : putAsk askknj = some o) :
    o.buf = UInt8.ofNat (knjBytes askknj).length :: knjBytes askknj ∧ o.Good askknj ∧
      (knjBytes askknj).length < 0x100 := by
  have hsum : (askknj.map fun p => p.length + 1).sum = (knjBytes askknj).length := by
    simp [knjBytes, List.length_flatMap]
  have hlt := hask.sum_lt
  rw [hsum] at hlt
  have hfold : ∀ {as : List Bytes} {o o' : SegBuf},
      as.foldlM (fun o p => datsets o (p ++ [kanjiStrEnd])) o = some o' →
        o' = { o with buf := o.buf ++ knjBytes as } := by
    intro as
    induction as with
    | nil =>
        intro o o' h
        obtain rfl : o = o' := Option.some.inj h
        simp [knjBytes]
    | cons p as ih =>
        intro o o' h
        rw [List.foldlM_cons] at h
        obtain ⟨o₁, h₁, h₂⟩ := Option.bind_eq_some_iff.mp h
        obtain ⟨rfl, -⟩ := datsets_eq_some h₁
        rw [ih h₂]
        simp [knjBytes]
  rw [putAsk, hsum, if_neg (by omega)] at h
  obtain ⟨o₁, h₁, h₂⟩ := Option.bind_eq_some_iff.mp h
  obtain ⟨rfl, -⟩ := datset_eq_some h₁
  obtain rfl := hfold h₂
  refine ⟨rfl, ⟨by simp [SortedBy], ?_, by simp, by simp⟩, hlt⟩
  simp only [List.nil_append, List.length_append, List.length_singleton, mainSegmentLength]
  omega

theorem putTerm_eq_some (h : putTerm o = some o') :
    ∃ m, o'.buf = o.buf ++ List.replicate m dicSegTerm ∧
      (o.buf.length ≤ mainSegmentLength → o'.buf.length ≤ mainSegmentLength) := by
  rw [putTerm] at h
  by_cases hfull : o.buf.length < mainSegmentLength
  · rw [if_pos hfull] at h
    obtain ⟨rfl, hle⟩ := datset_eq_some h
    exact ⟨1, rfl, fun _ => hle⟩
  · rw [if_neg hfull] at h
    obtain rfl := Option.some.inj h
    exact ⟨0, by simp, id⟩

/-- A segment the compiler writes is one the server looks readings up in: behind the association
strings, a block for each record. -/
theorem segImage_dicSeg (hask : AskOk askknj) {douon : List DouonRec} (hrecs : SegRecs douon)
    (hok : ∀ drec ∈ douon, drec.Ok) (h : segImage askknj douon = some seg) :
    ∃ s : DicSeg, s.bytes = seg ∧ s.ask = knjBytes askknj ∧ seg.length = mainSegmentLength ∧
      List.Forall₂ (DCompiles askknj seg) douon s.blks := by
  obtain ⟨o₀, h₀, h⟩ := Option.bind_eq_some_iff.mp h
  obtain ⟨o₁, h₁, h⟩ := Option.bind_eq_some_iff.mp h
  obtain ⟨o₂, h₂, h₃⟩ := Option.bind_eq_some_iff.mp h
  obtain ⟨hb₀, hgood₀, hlt⟩ := putAsk_good hask h₀
  cases douon with
  | nil => exact absurd hrecs id
  | cons drec douon =>
      obtain ⟨hdlen, hlink⟩ : drec.dlen = 0 ∧ Linked drec.yptr douon := hrecs
      rw [List.foldlM_cons] at h₁
      obtain ⟨o₃, h₃', h₄⟩ := Option.bind_eq_some_iff.mp h₁
      have hself : drec.dlen = drec.yptr.length - lcp drec.yptr drec.yptr := by simp [hdlen]
      obtain ⟨t, ht, hmax, hgood₃, hc⟩ :=
        putDrec_good hask hgood₀ (hok drec (by simp)) hself h₃'
      obtain ⟨ts, hts, hcoded, hgood₁, hcs⟩ :=
        putDrecs_good hask hgood₃ (fun d hd => hok d (by simp [hd])) hlink h₄
      obtain ⟨m, hm, hle⟩ := putTerm_eq_some h₂
      have hle := hle hgood₁.length_le
      -- behind the blocks the segment is filled up
      have hseg : seg = o₁.buf ++
          List.replicate (m + (mainSegmentLength - o₂.buf.length)) dicSegTerm := by
        rw [← Option.some.inj h₃, hm, List.append_assoc, List.replicate_append_replicate]
      have hlen : seg.length = mainSegmentLength := by
        rw [← Option.some.inj h₃, List.length_append, List.length_replicate]
        omega
      obtain ⟨fill, hfill⟩ : ∃ fill, fill =
        List.replicate (m + (mainSegmentLength - o₂.buf.length)) dicSegTerm := ⟨_, rfl⟩
      rw [← hfill] at hseg
      have hyomi : t.yomi = drec.yptr := hc.1
      refine ⟨⟨knjBytes askknj, drec.yptr, t :: ts, fill, hlt, .inr hyomi.symm,
        ⟨hmax, hyomi.symm ▸ hcoded⟩, ?_⟩, ?_, rfl, hlen, ?_⟩
      · rw [hfill]
        cases m + (mainSegmentLength - o₂.buf.length) <;> rfl
      · have hbytes : douonBytes drec.yptr (t :: ts) =
            t.bytes drec.yptr ++ douonBytes drec.yptr ts := by rw [douonBytes, hyomi]
        rw [hseg, hts, ht, hb₀]
        simp only [DicSeg.bytes, hbytes, List.append_assoc, List.cons_append]
      · rw [hseg]
        refine .cons ?_ (hcs.imp fun _ _ hd => hd.append _)
        rw [hts, List.append_assoc]
        exact hc.append _

end Sj3.Mkdic
