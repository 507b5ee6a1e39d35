import Sj3.Verification.Dict.UsrDict

/-! # One turn of the loop

What the loop of `adddic` does in a segment, in terms of the blocks there. -/

namespace Sj3

open FrontCoding

/-! ## Looking for the place -/

section Place

variable {w : Word} {kptr : Bytes} {l r : List DouonBlk} {old : Option DouonBlk} {tail : Bytes}

/-- The bytes `kptr` are as many as the codes of the word's kanji, and no string of the word's
grammar code is met that starts with them. -/
structure Lacks (w : Word) (kptr : Bytes) (old : Option DouonBlk) (r : List DouonBlk) : Prop where
  length_eq : kptr.length = w.kanji.length
  apart : ¬ [hinsiBlkTerm, hinsiBlkTerm] <:+: kptr
  new : ∀ t ∈ old, ¬ t.Meets w.hinsi kptr (douonBytes t.yomi r)

/-- Where the reading has no block there is nothing to be met. -/
theorem Lacks.none (h : Lacks w kptr old r) (r' : List DouonBlk) : Lacks w kptr none r' :=
  ⟨h.length_eq, h.apart, by simp⟩

theorem Lacks.newsiz_eq (h : Lacks w kptr old r) (pos : AddPos) (yptr dicbuf : Bytes) :
    pos.newsiz yptr kptr dicbuf = pos.newsiz yptr w.kanji dicbuf := by
  simp only [AddPos.newsiz, h.length_eq]

theorem addPlace_eq (idx : Bytes) (hc : Coded [] (l ++ (old.toList ++ r)))
    (hlt : ∀ t ∈ l, t.yomi < w.yomi) (hgt : ∀ t ∈ r, w.yomi < t.yomi)
    (hold : ∀ t ∈ old, t.yomi = w.yomi) (hu : ∀ t ∈ old, t.IsUsr) (htail : IsTail tail)
    (hk : Lacks w kptr old r) :
    ∃ pos, addPlace idx w.yomi kptr w.hinsi (segBytes (l ++ (old.toList ++ r)) tail) =
        some pos ∧ IsPos w l old pos := by
  cases old with
  | none => exact ⟨_, addPlace_new idx kptr hc hlt hgt htail, .new⟩
  | some t =>
      apply (addPlace_old idx kptr hc hlt (hold t rfl) (hu t rfl) htail).2
      rw [DouonBlk.meets_tail_iff hk.apart htail]
      exact hk.new t rfl

theorem size_into_le (hs : ∀ t ∈ old, t.size (lastYomi [] l) ≤ maxDouonBlk) {pos : AddPos}
    (hp : IsPos w l old pos) : (w.into old).size (lastYomi [] l) ≤ 0x2000 := by
  have hk := w.length_le
  simp only [maxWdKanjiLen] at hk
  cases old with
  | none =>
      have := w.size_into_none_le (lastYomi [] l)
      omega
  | some t =>
      have hb := hp.length_body
      have ht := hs t rfl
      have hn : (w.into (some t)).nlen (lastYomi [] l) = t.nlen (lastYomi [] l) := rfl
      simp only [DouonBlk.size, maxDouonBlk, hn] at ht ⊢
      split at hb <;> omega

/-- The comparison of unsigned numbers in `adddic` says whether the segment has room. -/
theorem fit_iff {n : ℕ} (hlt : ∀ t ∈ l, t.yomi < w.yomi) (hgt : ∀ t ∈ r, w.yomi < t.yomi)
    (hold : ∀ t ∈ old, t.yomi = w.yomi) (hsize : (w.into old).size (lastYomi [] l) ≤ 0x2000)
    (hn : n = (segBytes (l ++ (old.toList ++ r)) tail).length) :
    (((w.into old).size (lastYomi [] l) : ℤ) -
        (douonBytes (lastYomi [] l) old.toList).length -
          (gain w (lastYomi [] l) old r : ℕ)) % 2 ^ 32 ≤ tail.length ↔
      blkOfs (l ++ w.into old :: r) ≤ n := by
  have h₁ := blkOfs_into (r := r) hlt hgt hold
  have h₂ := oldsiz_add_gain_le old (lastYomi_le hlt) hgt
  rw [length_segBytes] at hn
  rw [Int.emod_eq_of_lt (by omega) (by omega)]
  omega

end Place

/-! ## The turn -/

variable {d : Dict} {st : Option Stdy} {segs pre post : List Seg} {s : Seg} {free : ℕ} {w : Word}
  {kptr : Bytes} {l r : List DouonBlk} {old : Option DouonBlk}

/-- The loop ends in a block where a string that starts with the bytes is met. -/
theorem addLoop_met (env : Env) (h : Layout d segs free)
    (hsp : Spot segs w.yomi pre s post l old r) (hc : Coded [] s.blks) (hu : ∀ t ∈ old, t.IsUsr)
    (hapart : ¬ [hinsiBlkTerm, hinsiBlkTerm] <:+: kptr)
    (hmet : ∃ t ∈ old, t.Meets w.hinsi kptr (douonBytes t.yomi r)) (n : ℕ) :
    addLoop env w.yomi kptr w.hinsi (n + 1) d st pre.length = .fail adArExist d st := by
  obtain ⟨t, ht, hmet⟩ := hmet
  obtain rfl : old = some t := ht
  have hlay := hsp.segs_eq ▸ h
  have hbytes : s.bytes = segBytes (l ++ t :: r) s.tail := by rw [Seg.bytes, hsp.blks_eq]; rfl
  have hplace := (addPlace_old env.prevIdx kptr
    (by rw [← List.singleton_append]; exact hsp.blks_eq ▸ hc) hsp.lt (hsp.old_yomi t rfl) (hu t rfl)
    s.isTail).1 ((DouonBlk.meets_tail_iff hapart s.isTail r).mpr hmet)
  rw [addLoop]
  simp only [hlay.getdic, hbytes, hplace]

/-- A turn of the loop in the segment a word belongs to, which does not have it. -/
structure Turn (d : Dict) (segs : List Seg) (free : ℕ) (w : Word) (kptr : Bytes)
    (pre : List Seg) (s : Seg) (post : List Seg) (l : List DouonBlk) (old : Option DouonBlk)
    (r : List DouonBlk) : Prop where
  layout : Layout d segs free
  spot : Spot segs w.yomi pre s post l old r
  coded : Coded [] s.blks
  isUsr : ∀ t ∈ old, t.IsUsr
  lacks : Lacks w kptr old r

/-- What the turn does. -/
theorem addLoop_turn (env : Env) (h : Turn d segs free w kptr pre s post l old r)
    (st : Option Stdy) (n : ℕ) :
    ∃ pos, IsPos w l old pos ∧
      addLoop env w.yomi kptr w.hinsi (n + 1) d st pre.length =
        if blkOfs (l ++ w.into old :: r) ≤ d.seglen then
          .fit d st pre.length pos ((w.into old).size (lastYomi [] l))
            (douonBytes (lastYomi [] l) old.toList).length (gain w (lastYomi [] l) old r)
        else if old.toList ++ r = [] ∧ post ≠ [] then
          addLoop env w.yomi kptr w.hinsi n d st (pre.length + 1)
        else if d.segunit ≥ d.maxunit then .fail adOvflwUsrDic d st
        else if blkOfs (l ++ [w.into old]) ≤ d.seglen then
          if free < (headYomi r).length + 1 then .fail adOvflwIndex d st
          else if ¬ env.putdic d.segunit then .fail adOvflwUsrDic d st
          else
            .fit (sprtSeg d st pre.length (blkOfs (l ++ old.toList))).1
              (sprtSeg d st pre.length (blkOfs (l ++ old.toList))).2 pre.length pos
              ((w.into old).size (lastYomi [] l))
              (douonBytes (lastYomi [] l) old.toList).length 0
        else if old.toList ++ r = [] then
          if free < w.yomi.length + 1 then .fail adOvflwIndex d st
          else if ¬ env.putdic d.segunit then .fail adOvflwUsrDic d st
          else addLoop env w.yomi kptr w.hinsi n (appendSeg d) st (pre.length + 1)
        else if free < (headYomi (old.toList ++ r)).length + 1 then .fail adOvflwIndex d st
        else if ¬ env.putdic d.segunit then .fail adOvflwUsrDic d st
        else
          addLoop env w.yomi kptr w.hinsi n (sprtSeg d st pre.length (blkOfs l)).1
            (sprtSeg d st pre.length (blkOfs l)).2 (pre.length + 1) := by
  obtain ⟨h, hsp, hc, hu, hk⟩ := h
  have hlay := hsp.segs_eq ▸ h
  have hbytes : s.bytes = segBytes (l ++ (old.toList ++ r)) s.tail := by
    rw [Seg.bytes, hsp.blks_eq]
  have hlen : d.seglen = (segBytes (l ++ (old.toList ++ r)) s.tail).length := by
    rw [← hlay.length_bytes, hbytes]
  rw [hsp.blks_eq] at hc
  obtain ⟨pos, hplace, hp⟩ := addPlace_eq env.prevIdx hc hsp.lt hsp.gt hsp.old_yomi hu s.isTail hk
  have hs : ∀ t ∈ old, t.size (lastYomi [] l) ≤ maxDouonBlk := by
    intro t ht
    obtain rfl : old = some t := ht
    exact (coded_append.mp hc).2.2.1
  have hfree : usrFreelen d.seglen (segBytes (l ++ (old.toList ++ r)) s.tail) = s.tail.length := by
    rw [hlen]
    exact usrFreelen_segBytes hc s.isTail
  have hfit := fit_iff hsp.lt hsp.gt hsp.old_yomi (size_into_le hs hp) hlen
  have hdou : pos.douofs = blkOfs l := by cases hp <;> rfl
  have hdrop : (segBytes (l ++ (old.toList ++ r)) s.tail).drop (blkOfs l) =
      douonBytes (lastYomi [] l) (old.toList ++ r) ++ s.tail := drop_segBytes _ _ _
  have hend : ∀ (prev : Bytes) (ts : List DouonBlk), Coded prev ts →
      (segend (douonBytes prev ts ++ s.tail) = true ↔ ts = []) := by
    intro prev ts hts
    cases ts with
    | nil => simp [douonBytes, s.isTail.segend]
    | cons t ts => simp [douonBytes, segend_bytes hts.2.1]
  have hhead : ∀ (prev : Bytes) (ts : List DouonBlk), Coded prev ts → ts ≠ [] →
      getplen (douonBytes prev ts ++ s.tail) + getnlen (douonBytes prev ts ++ s.tail) =
        (headYomi ts).length := by
    intro prev ts hts hne
    cases ts with
    | nil => exact absurd rfl hne
    | cons t ts =>
        rw [douonBytes, List.append_assoc, getplen_bytes hts.2.1, getnlen_bytes hts.2.1]
        exact t.plen_add_nlen prev
  have hcount : d.countUidx = free := h.countUidx_eq (by rw [hsp.segs_eq]; simp)
  have hlast : pre.length + 1 < d.segunit ↔ post ≠ [] := by
    rw [hlay.segunit]
    cases post <;> simp
  have hcr := (coded_append.mp hc).2
  refine ⟨pos, hp, ?_⟩
  rw [addLoop]
  simp only [hlay.getdic, hbytes, hplace, hk.newsiz_eq, hp.newsiz_eq hs, hp.oldsiz_eq hs,
    hp.nxtask_eq hsp.lt hsp.gt hc s.isTail, hfree, hfit, hdou, hdrop, hend _ _ hcr, hlast, hcount]
  by_cases h₁ : blkOfs (l ++ w.into old :: r) ≤ d.seglen
  · rw [if_pos h₁, if_pos h₁]
  rw [if_neg h₁, if_neg h₁]
  by_cases h₂ : old.toList ++ r = [] ∧ post ≠ []
  · rw [if_pos h₂, if_pos h₂]
  rw [if_neg h₂, if_neg h₂]
  by_cases h₃ : d.segunit ≥ d.maxunit
  · rw [if_pos h₃, if_pos h₃]
  rw [if_neg h₃, if_neg h₃]
  have hblk : blkOfs l + (w.into old).size (lastYomi [] l) = blkOfs (l ++ [w.into old]) :=
    (blkOfs_concat _ _).symm
  rw [hblk]
  by_cases h₄ : blkOfs (l ++ [w.into old]) ≤ d.seglen
  · -- there are blocks behind the place, and they make room
    have hr : r ≠ [] := by
      rintro rfl
      exact h₁ h₄
    rw [if_pos h₄, if_pos h₄]
    have hp₁ : (if pos.hnsofs ≠ 0 then
        getntag (douonBytes (lastYomi [] l) (old.toList ++ r) ++ s.tail)
        else douonBytes (lastYomi [] l) (old.toList ++ r) ++ s.tail) =
          douonBytes (lastYomi [] (l ++ old.toList)) r ++ s.tail := by
      cases old with
      | none =>
          cases hp
          simp
      | some t =>
          have hz : pos.hnsofs ≠ 0 := by
            cases hp with
            | hinsi => exact (blkOfs_pos _).ne'
            | kanji ht hne hb hhns hknj => exact hhns
          rw [if_pos hz, Option.toList_some, lastYomi_concat, List.singleton_append, douonBytes,
            List.append_assoc, getntag_bytes (hs t rfl)]
    have hcr' : Coded (lastYomi [] (l ++ old.toList)) r := by
      rw [← List.append_assoc] at hc
      exact (coded_append.mp hc).2
    have hofs : ofsOf (segBytes (l ++ (old.toList ++ r)) s.tail)
        (douonBytes (lastYomi [] (l ++ old.toList)) r ++ s.tail) = blkOfs (l ++ old.toList) := by
      rw [← List.append_assoc]
      exact ofsOf_segBytes _ _ _
    rw [hp₁, hhead _ _ hcr' hr, hofs]
  rw [if_neg h₄, if_neg h₄]
  by_cases h₅ : old.toList ++ r = []
  · rw [if_pos h₅, if_pos h₅]
  · rw [if_neg h₅, if_neg h₅, hhead _ _ hcr h₅]

end Sj3
