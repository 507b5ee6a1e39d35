import Sj3.Verification.Add.Course

/-! # The loop of registration

The loop ends, and it stores the word, refuses it, or fails after it has split segments. -/

namespace Sj3

open FrontCoding

/-! ## Frames -/

theorem sprtSeg_frame (d : Dict) (st : Option Stdy) (seg ofs : ℕ) :
    let d' := (sprtSeg d st seg ofs).1
    d'.seglen = d.seglen ∧ d'.maxunit = d.maxunit ∧ d'.segunit = d.segunit + 1 :=
  ⟨rfl, rfl, rfl⟩

theorem appendSeg_frame (d : Dict) :
    (appendSeg d).seglen = d.seglen ∧ (appendSeg d).maxunit = d.maxunit ∧
      (appendSeg d).segunit = d.segunit + 1 :=
  ⟨rfl, rfl, rfl⟩

/-! ## Termination -/

/-- Every turn moves on to a further segment or adds one. -/
theorem addLoop_ne_stuck (env : Env) (yptr kptr : Bytes) (hinsi : UInt8) {n : ℕ} {d : Dict}
    {st : Option Stdy} {seg : ℕ} (hseg : seg < d.segunit)
    (hn : 2 * (d.maxunit - d.segunit) + (d.segunit - seg) ≤ n) (d' : Dict) (st' : Option Stdy) :
    addLoop env yptr kptr hinsi n d st seg ≠ .stuck d' st' := by
  induction n generalizing d st seg with
  | zero => omega
  | succ n ih =>
      rw [addLoop]
      generalize addPlace env.prevIdx yptr kptr hinsi (d.getdic seg) = place
      cases place with
      | none => simp
      | some pos =>
          simp only
          split_ifs with h₁ h₂ h₃ h₄ h₅ h₆ h₇ h₈ h₉ h₁₀ h₁₁ <;> try simp
          · exact ih (by omega) (by omega)
          · exact ih (by simp only [appendSeg_frame]; omega) (by simp only [appendSeg_frame]; omega)
          · exact ih (by simp only [sprtSeg_frame]; omega) (by simp only [sprtSeg_frame]; omega)


/-! ## The end of the loop -/

/-- What the loop returns for want of room. -/
def OverflowCode (ret : ℕ) : Prop := ret = adOvflwUsrDic ∨ ret = adOvflwIndex

theorem OverflowCode.ne_done {ret : ℕ} (h : OverflowCode ret) : ret ≠ adDone := by
  rcases h with rfl | rfl <;> decide

/-- What the end of the loop makes of the request. -/
def AddEnd.finish (w : Word) (kptr : Bytes) : AddEnd → Result
  | .fail ret d st => ⟨some ret, d, st⟩
  | .stuck d st => ⟨none, d, st⟩
  | .fit d st segnum pos newsiz oldsiz nxtask =>
      let r := insertWord d st segnum w.yomi kptr w.hinsi pos newsiz oldsiz nxtask
      ⟨some adDone, r.1, r.2⟩

/-- The sizes of the blocks that change fit their headers, and the index has room for the
word's reading if it becomes an index string. -/
structure Way.Regular (w : Word) (old : Option DouonBlk) (way : Way) : Prop where
  moved : ∀ u ∈ way.moved, u.size [] ≤ maxDouonBlk
  size : (w.into old).size way.prev ≤ maxDouonBlk
  chg : ∀ o ∈ way.idx, ChgOk way.free o.length w.yomi.length

/-- The dictionary is well-formed and holds the blocks `l`. -/
def Holds (d : Dict) (l : List DouonBlk) : Prop :=
  ∃ segs free, UsrDict d segs free ∧ blocks segs = l

/-- What the loop makes of a request for a word that belongs behind the blocks `front` and
in front of the blocks `back`. The bytes it stores for the kanji are `kptr`. -/
inductive Outcome (env : Env) (d : Dict) (free : ℕ) (st : Option Stdy) (w : Word) (kptr : Bytes)
    (s : Seg) (post : List Seg) (l : List DouonBlk) (old : Option DouonBlk) (r : List DouonBlk)
    (front back : List DouonBlk) : Result → Prop
  | refused {ret : ℕ} (hret : OverflowCode ret)
      (hs : ¬ Strands env (d.cap free) w l old r) (htight : (d.cap free).Tight env) :
      Outcome env d free st w kptr s post l old r front back ⟨some ret, d, st⟩
  | stranded {ret : ℕ} {d' : Dict} {st' : Option Stdy} (hret : OverflowCode ret)
      (hs : Strands env (d.cap free) w l old r) (hunit : d.segunit < d'.segunit)
      (hkeep : ¬ TopSplits env (d.cap free) w l old r →
        Holds d' (front ++ (old.toList ++ back)) ∧
          ∃ y : Bytes, y.length ≤ maxWdYomiLen ∧ ((d.cap free).split y).Tight env) :
      Outcome env d free st w kptr s post l old r front back ⟨some ret, d', st'⟩
  | stored {d' : Dict} {st' : Option Stdy} {way : Way}
      (hs : ¬ Strands env (d.cap free) w l old r)
      (hc : Course env w (d.cap free) s.idx post l old r way)
      (hkeep : way.Regular w old → kptr = w.kanji →
        Holds d' (front ++ w.into old :: back)) :
      Outcome env d free st w kptr s post l old r front back ⟨some adDone, d', st'⟩

/-! ## Storing the word -/

section Store

variable {env : Env} {d : Dict} {segs pre post : List Seg} {free : ℕ} {w : Word} {s : Seg}
  {kptr : Bytes} {l r : List DouonBlk} {old : Option DouonBlk} {st : Option Stdy}

theorem UsrDict.addState (h : UsrDict d segs free) (hsp : Spot segs w.yomi pre s post l old r) :
    AddState d segs free w pre s post l old r := by
  have hwf := h.toWellFormed
  rw [hsp.segs_eq] at hwf
  refine ⟨h.toLayout, hsp, ?_, .inr (hwf.idx s (by simp)), h.sorted, h.fit, h.isUsr⟩
  intro t ht
  refine ⟨hwf.idx t ?_, ?_⟩
  · rcases List.mem_append.mp ht with ht | ht
    · simp [ht]
    · simp [ht]
  · rcases hwf.blks_ne with hone | hall
    · simp only [List.length_append, List.length_cons] at hone
      have hlen := List.length_pos_of_mem ht
      rw [List.length_append] at hlen
      omega
    · refine hall t ?_
      rcases List.mem_append.mp ht with ht | ht
      · simp [ht]
      · simp [ht]

theorem filter_append_eq {p : DouonBlk → Prop} [DecidablePred p] {l r : List DouonBlk}
    (hl : ∀ t ∈ l, p t) (hr : ∀ t ∈ r, ¬ p t) : (l ++ r).filter p = l := by
  rw [List.filter_append, List.filter_eq_self.mpr (by simpa using hl),
    List.filter_eq_nil_iff.mpr (by simpa using hr), List.append_nil]

theorem Spot.not_lt {x : Bytes} (h : Spot segs x pre s post l old r) :
    ∀ t ∈ old.toList ++ (r ++ blocks post), ¬ t.yomi < x := by
  intro t ht
  rcases List.mem_append.mp ht with ht | ht
  · rw [h.old_yomi t (by simpa using ht)]
    exact lt_irrefl x
  · exact (h.after t ht).not_gt

/-- The blocks in front of a word are the same however the segments are cut. -/
theorem Spot.front_eq {segs' pre' post' : List Seg} {s' : Seg} {l' r' : List DouonBlk} {x : Bytes}
    (h : Spot segs x pre s post l old r) (h' : Spot segs' x pre' s' post' l' old r')
    (hb : blocks segs' = blocks segs) :
    blocks pre' ++ l' = blocks pre ++ l ∧ r' ++ blocks post' = r ++ blocks post := by
  have he := h'.blocks_eq.symm.trans (hb.trans h.blocks_eq)
  have hl := congrArg (List.filter fun t => decide (t.yomi < x)) he
  rw [filter_append_eq h'.before h'.not_lt, filter_append_eq h.before h.not_lt] at hl
  rw [hl] at he
  exact ⟨hl, List.append_cancel_left (List.append_cancel_left he)⟩

/-- Where there is room the word is stored. -/
theorem Target.holds {pos : AddPos} (h : Target d segs free w pre s post l old r)
    (hp : IsPos w l old pos) (hsorted : ((blocks segs).map DouonBlk.yomi).Pairwise (· < ·))
    (hfit : ∀ t ∈ segs, SizesFit [] t.blks) (hu : ∀ t ∈ blocks segs, t.IsUsr)
    (hlen : minSegLen ≤ d.seglen) (moved : List DouonBlk)
    (hreg : Way.Regular w old
      ⟨moved, lastYomi [] l, free, if l = [] ∧ old = none then some s.idx else none⟩)
    (st : Option Stdy) :
    Holds (Sj3.insertWord d st pre.length w.yomi w.kanji w.hinsi pos
        ((w.into old).size (lastYomi [] l)) (douonBytes (lastYomi [] l) old.toList).length
        (gain w (lastYomi [] l) old r)).1
      ((blocks pre ++ l) ++ w.into old :: (r ++ blocks post)) := by
  obtain ⟨segs', free', hd, hb⟩ := h.insertWord hp hsorted hfit hu hreg.size
    (fun hl ho => hreg.chg s.idx (by simp [hl, ho])) hlen st
  exact ⟨segs', free', hd, hb⟩


/-! ## The branches of a turn -/

theorem AddState.turn (h : AddState d segs free w pre s post l old r)
    (hk : Lacks w kptr old r) : Turn d segs free w kptr pre s post l old r :=
  ⟨h.layout, h.spot, h.coded, h.isUsr_old, hk⟩

namespace Turn

/-- There is room. -/
theorem loop_here (env : Env) (h : Turn d segs free w kptr pre s post l old r)
    (hf : Fits (d.cap free) w l old r) (st : Option Stdy) (n : ℕ) :
    ∃ pos, IsPos w l old pos ∧
      addLoop env w.yomi kptr w.hinsi (n + 1) d st pre.length =
        .fit d st pre.length pos ((w.into old).size (lastYomi [] l))
          (douonBytes (lastYomi [] l) old.toList).length (gain w (lastYomi [] l) old r) := by
  obtain ⟨pos, hp, he⟩ := addLoop_turn env h st n
  exact ⟨pos, hp, he.trans (if_pos hf)⟩

/-- The next segment is tried. -/
theorem loop_next (env : Env) (h : Turn d segs free w kptr pre s post l none [])
    (hf : ¬ Fits (d.cap free) w l none []) (hpost : post ≠ []) (st : Option Stdy) (n : ℕ) :
    addLoop env w.yomi kptr w.hinsi (n + 1) d st pre.length =
      addLoop env w.yomi kptr w.hinsi n d st (pre.length + 1) := by
  obtain ⟨pos, -, he⟩ := addLoop_turn env h st n
  exact he.trans ((if_neg hf).trans (if_pos ⟨rfl, hpost⟩))

/-- The blocks behind the word make room. -/
theorem loop_behind (env : Env) {u : DouonBlk} {r' : List DouonBlk}
    (h : Turn d segs free w kptr pre s post l old (u :: r'))
    (hf : ¬ Fits (d.cap free) w l old (u :: r')) (hcl : Clears (d.cap free) w l old)
    (hg : (d.cap free).Grants env u.yomi) (st : Option Stdy) (n : ℕ) :
    ∃ pos, IsPos w l old pos ∧
      addLoop env w.yomi kptr w.hinsi (n + 1) d st pre.length =
        .fit (Sj3.sprtSeg d st pre.length (blkOfs (l ++ old.toList))).1
          (Sj3.sprtSeg d st pre.length (blkOfs (l ++ old.toList))).2 pre.length pos
          ((w.into old).size (lastYomi [] l))
          (douonBytes (lastYomi [] l) old.toList).length 0 := by
  obtain ⟨pos, hp, he⟩ := addLoop_turn env h st n
  obtain ⟨hunit, hfree, hput⟩ := Dict.grants_iff.mp hg
  have hf : ¬ blkOfs _ ≤ d.seglen := hf
  have hcl : blkOfs _ ≤ d.seglen := hcl
  refine ⟨pos, hp, he.trans ?_⟩
  rw [if_neg hf, if_neg (by simp), if_neg (not_le.mpr hunit), if_pos hcl,
    if_neg (show ¬ free < (headYomi (u :: r')).length + 1 from not_lt.mpr hfree),
    if_neg (not_not.mpr hput)]

/-- A segment is appended. -/
theorem loop_append (env : Env) (h : Turn d segs free w kptr pre s [] l none [])
    (hf : ¬ Fits (d.cap free) w l none []) (hg : (d.cap free).Grants env w.yomi)
    (st : Option Stdy) (n : ℕ) :
    addLoop env w.yomi kptr w.hinsi (n + 1) d st pre.length =
      addLoop env w.yomi kptr w.hinsi n (appendSeg d) st (pre.length + 1) := by
  obtain ⟨pos, -, he⟩ := addLoop_turn env h st n
  obtain ⟨hunit, hfree, hput⟩ := Dict.grants_iff.mp hg
  have hf : ¬ blkOfs _ ≤ d.seglen := hf
  rw [he, if_neg hf, if_neg (by simp), if_neg (not_le.mpr hunit), if_neg hf,
    if_pos (show (none : Option DouonBlk).toList ++ [] = [] from rfl),
    if_neg (not_lt.mpr hfree), if_neg (not_not.mpr hput)]

/-- The blocks from the word's own on are made a segment of their own. -/
theorem loop_front (env : Env) {u : DouonBlk} {r' : List DouonBlk}
    (h : Turn d segs free w kptr pre s post l old r)
    (hf : ¬ Fits (d.cap free) w l old r) (hcl : ¬ Clears (d.cap free) w l old)
    (hr : old.toList ++ r = u :: r') (hg : (d.cap free).Grants env u.yomi)
    (st : Option Stdy) (n : ℕ) :
    addLoop env w.yomi kptr w.hinsi (n + 1) d st pre.length =
      addLoop env w.yomi kptr w.hinsi n (Sj3.sprtSeg d st pre.length (blkOfs l)).1
        (Sj3.sprtSeg d st pre.length (blkOfs l)).2 (pre.length + 1) := by
  obtain ⟨pos, -, he⟩ := addLoop_turn env h st n
  obtain ⟨hunit, hfree, hput⟩ := Dict.grants_iff.mp hg
  have hf : ¬ blkOfs _ ≤ d.seglen := hf
  have hcl : ¬ blkOfs _ ≤ d.seglen := hcl
  rw [he, if_neg hf, if_neg (by simp [hr]), if_neg (not_le.mpr hunit), if_neg hcl,
    if_neg (by simp [hr]), hr,
    if_neg (show ¬ free < (headYomi (u :: r')).length + 1 from not_lt.mpr hfree),
    if_neg (not_not.mpr hput)]

/-- The reading that would become an index string is not granted a segment. -/
theorem loop_refuse (env : Env) (h : Turn d segs free w kptr pre s post l old r)
    (hf : ¬ Fits (d.cap free) w l old r)
    (hpost : ¬ (old.toList ++ r = [] ∧ post ≠ []))
    (hcl : Clears (d.cap free) w l old → ¬ (d.cap free).Grants env (headYomi r))
    (happ : ¬ Clears (d.cap free) w l old → old.toList ++ r = [] →
      ¬ (d.cap free).Grants env w.yomi)
    (hfr : ¬ Clears (d.cap free) w l old → old.toList ++ r ≠ [] →
      ¬ (d.cap free).Grants env (headYomi (old.toList ++ r))) (st : Option Stdy) (n : ℕ) :
    ∃ ret, OverflowCode ret ∧
      addLoop env w.yomi kptr w.hinsi (n + 1) d st pre.length = .fail ret d st := by
  obtain ⟨pos, -, he⟩ := addLoop_turn env h st n
  have hfull : OverflowCode adOvflwUsrDic := .inl rfl
  have hidx : OverflowCode adOvflwIndex := .inr rfl
  have hf : ¬ blkOfs _ ≤ d.seglen := hf
  rw [he, if_neg hf, if_neg hpost]
  by_cases hunit : d.segunit ≥ d.maxunit
  · exact ⟨_, hfull, if_pos hunit⟩
  have hgrant : ∀ y : Bytes, ¬ free < y.length + 1 → env.putdic d.segunit = true →
      (d.cap free).Grants env y := fun y h₁ h₂ => ⟨not_le.mp hunit, not_lt.mp h₁, h₂⟩
  rw [if_neg hunit]
  by_cases hclear : Clears (d.cap free) w l old
  · rw [if_pos (show blkOfs _ ≤ d.seglen from hclear)]
    by_cases hfree : free < (headYomi r).length + 1
    · exact ⟨_, hidx, if_pos hfree⟩
    · refine ⟨_, hfull, (if_neg hfree).trans (if_pos fun hput => ?_)⟩
      exact hcl hclear (hgrant _ hfree hput)
  rw [if_neg (show ¬ blkOfs _ ≤ d.seglen from hclear)]
  by_cases hnil : old.toList ++ r = []
  · rw [if_pos hnil]
    by_cases hfree : free < w.yomi.length + 1
    · exact ⟨_, hidx, if_pos hfree⟩
    · refine ⟨_, hfull, (if_neg hfree).trans (if_pos fun hput => ?_)⟩
      exact happ hclear hnil (hgrant _ hfree hput)
  · rw [if_neg hnil]
    by_cases hfree : free < (headYomi (old.toList ++ r)).length + 1
    · exact ⟨_, hidx, if_pos hfree⟩
    · refine ⟨_, hfull, (if_neg hfree).trans (if_pos fun hput => ?_)⟩
      exact hfr hclear hnil (hgrant _ hfree hput)

end Turn

end Store

end Sj3
