import Sj3.Verification.Add.Turn

/-! # The course of the loop

Which branches the loop of `adddic` takes, told from the blocks, the index and what the
dictionary has room for, and the state in which it stores the word. -/

namespace Sj3

open FrontCoding

/-! ## What there is room for -/

/-- The room of a dictionary: the length of its segments, how many of them it has and may
have, and the unused bytes of its index area. -/
structure Cap where
  seglen : ℕ
  segunit : ℕ
  maxunit : ℕ
  free : ℕ

namespace Cap

/-- A further segment can be had, with the index string `y`. -/
def Grants (c : Cap) (env : Env) (y : Bytes) : Prop :=
  c.segunit < c.maxunit ∧ y.length + 1 ≤ c.free ∧ env.putdic c.segunit = true

/-- What is left when there is one. -/
def split (c : Cap) (y : Bytes) : Cap :=
  { c with segunit := c.segunit + 1, free := c.free - (y.length + 1) }

/-- Some reading does not get a further segment. -/
def Tight (c : Cap) (env : Env) : Prop :=
  ∃ y : Bytes, y.length ≤ maxWdYomiLen ∧ ¬ c.Grants env y

end Cap

def Dict.cap (d : Dict) (free : ℕ) : Cap := ⟨d.seglen, d.segunit, d.maxunit, free⟩

theorem Dict.grants_iff {d : Dict} {free : ℕ} {env : Env} {y : Bytes} :
    (d.cap free).Grants env y ↔
      d.segunit < d.maxunit ∧ y.length + 1 ≤ free ∧ env.putdic d.segunit = true := Iff.rfl

section Conditions

variable (env : Env) (c : Cap) (w : Word) (l : List DouonBlk) (old : Option DouonBlk)
  (r : List DouonBlk)

/-- The segment has room for the word. -/
def Fits : Prop := blkOfs (l ++ w.into old :: r) ≤ c.seglen

/-- It has without the blocks behind the word. -/
def Clears : Prop := blkOfs (l ++ [w.into old]) ≤ c.seglen

/-- The blocks from the word's own on are made a segment of their own before the loop goes
on with them. -/
def SplitsHere : Prop :=
  ¬ Fits c w l old r ∧ ¬ Clears c w l old ∧ old.toList ++ r ≠ [] ∧
    c.Grants env (headYomi (old.toList ++ r))

/-- Such a split is made, and then there is no room for the word either. -/
def Strands : Prop :=
  old ≠ none ∧ SplitsHere env c w l old r ∧ ¬ Fits c w [] old r ∧
    ¬ (Clears c w [] old ∧ (c.split w.yomi).Grants env (headYomi r))

/-- Such a split is made in front of the first block of a segment. -/
def TopSplits : Prop :=
  SplitsHere env c w l old r ∧ (l = [] ∨ SplitsHere env (c.split w.yomi) w [] old r)

/-- A block moves to the front of a segment whose size does not fit its header there. -/
def Overflows : Prop :=
  SplitsHere env c w l old r ∧
    ∃ u ∈ (old.toList ++ r).head?, maxDouonBlk < u.size []

end Conditions

/-- How the loop comes to store a word: the blocks it moves to the front of a segment, the
reading in front of the word's block, the unused bytes of the index then, and the index
string the word's reading takes the place of, if it does. -/
structure Way where
  moved : List DouonBlk
  prev : Bytes
  free : ℕ
  idx : Option Bytes

/-- The ways the loop takes in a segment with the index string `idx`, in front of the
segments `post`. -/
inductive Course (env : Env) (w : Word) : Cap → Bytes → List Seg → List DouonBlk →
    Option DouonBlk → List DouonBlk → Way → Prop
  | here {c : Cap} {idx : Bytes} {post : List Seg} {l r : List DouonBlk} {old : Option DouonBlk}
      (hf : Fits c w l old r) :
      Course env w c idx post l old r
        ⟨[], lastYomi [] l, c.free, if l = [] ∧ old = none then some idx else none⟩
  | next {c : Cap} {idx : Bytes} {s : Seg} {post : List Seg} {l : List DouonBlk} {way : Way}
      (hf : ¬ Fits c w l none []) (hc : Course env w c s.idx post [] none s.blks way) :
      Course env w c idx (s :: post) l none [] way
  | append {c : Cap} {idx : Bytes} {l : List DouonBlk} (hf : ¬ Fits c w l none [])
      (hg : c.Grants env w.yomi) :
      Course env w c idx [] l none [] ⟨[], [], c.free - 1, some []⟩
  | behind {c : Cap} {idx : Bytes} {post : List Seg} {l r : List DouonBlk}
      {old : Option DouonBlk} {u : DouonBlk} (hf : ¬ Fits c w l old (u :: r))
      (hcl : Clears c w l old) (hg : c.Grants env u.yomi) :
      Course env w c idx post l old (u :: r)
        ⟨[u], lastYomi [] l, (c.split u.yomi).free,
          if l = [] ∧ old = none then some idx else none⟩
  | front {c : Cap} {idx : Bytes} {post : List Seg} {l r r' : List DouonBlk}
      {old : Option DouonBlk} {u : DouonBlk} {way : Way} (hl : l ≠ [])
      (hf : ¬ Fits c w l old r) (hcl : ¬ Clears c w l old) (he : old.toList ++ r = u :: r')
      (hg : c.Grants env u.yomi)
      (hc : Course env w (c.split u.yomi) u.yomi post [] old r way) :
      Course env w c idx post l old r { way with moved := u :: way.moved }

/-! ## The state in which the word is stored -/

/-- A dictionary whose segment `s` has room for the word. Only this segment may be empty or
have another index string than its first reading, if the word becomes its first. -/
structure Target (d : Dict) (segs : List Seg) (free : ℕ) (w : Word) (pre : List Seg) (s : Seg)
    (post : List Seg) (l : List DouonBlk) (old : Option DouonBlk) (r : List DouonBlk) :
    Prop where
  layout : Layout d segs free
  spot : Spot segs w.yomi pre s post l old r
  others : ∀ t ∈ pre ++ post, t.idx = headYomi t.blks ∧ t.blks ≠ []
  idx : (l = [] ∧ old = none) ∨ s.idx = headYomi s.blks
  room : blkOfs (l ++ w.into old :: r) ≤ d.seglen

/-- The same before it is known whether there is room. -/
structure AddState (d : Dict) (segs : List Seg) (free : ℕ) (w : Word) (pre : List Seg) (s : Seg)
    (post : List Seg) (l : List DouonBlk) (old : Option DouonBlk) (r : List DouonBlk) :
    Prop where
  layout : Layout d segs free
  spot : Spot segs w.yomi pre s post l old r
  others : ∀ t ∈ pre ++ post, t.idx = headYomi t.blks ∧ t.blks ≠ []
  idx : (l = [] ∧ old = none) ∨ s.idx = headYomi s.blks
  sorted : ((blocks segs).map DouonBlk.yomi).Pairwise (· < ·)
  fit : ∀ t ∈ segs, SizesFit [] t.blks
  isUsr : ∀ t ∈ blocks segs, t.IsUsr

theorem sizesFit_append {prev : Bytes} {l r : List DouonBlk} :
    SizesFit prev (l ++ r) ↔ SizesFit prev l ∧ SizesFit (lastYomi prev l) r := by
  induction l generalizing prev with
  | nil => simp [SizesFit, lastYomi]
  | cons t l ih => simp [SizesFit, lastYomi, ih, and_assoc]

/-- Behind a greater reading a block is not larger. -/
theorem size_le_of_le {prev x : Bytes} {u : DouonBlk} (hpx : prev ≤ x) (hxu : x ≤ u.yomi) :
    u.size x ≤ u.size prev := by
  have h₁ := plen_mono hpx hxu
  have h₂ := size_add_plen u prev x
  omega

theorem sizesFit_into {w : Word} {prev : Bytes} {l r : List DouonBlk} {old : Option DouonBlk}
    (hf : SizesFit prev (l ++ (old.toList ++ r))) (hlt : lastYomi prev l ≤ w.yomi)
    (hgt : ∀ t ∈ r, w.yomi < t.yomi) (hold : ∀ t ∈ old, t.yomi = w.yomi)
    (hsize : (w.into old).size (lastYomi prev l) ≤ maxDouonBlk) :
    SizesFit prev (l ++ w.into old :: r) := by
  rw [sizesFit_append] at hf ⊢
  refine ⟨hf.1, hsize, ?_⟩
  rw [Word.into_yomi hold]
  cases old with
  | none =>
      cases r with
      | nil => trivial
      | cons u r => exact ⟨(size_le_of_le hlt (hgt u (by simp)).le).trans hf.2.1, hf.2.2⟩
  | some t =>
      have ht : t.yomi = w.yomi := hold t rfl
      rw [← ht]
      exact hf.2.2

/-- Storing a word keeps the geometry of the dictionary. -/
theorem insertWord_frame (d : Dict) (st : Option Stdy) (segnum : ℕ) (yptr kptr : Bytes)
    (hinsi : UInt8) (pos : AddPos) (newsiz oldsiz nxtask : ℕ) :
    let d' := (insertWord d st segnum yptr kptr hinsi pos newsiz oldsiz nxtask).1
    d'.seglen = d.seglen ∧ d'.maxunit = d.maxunit ∧ d'.segunit = d.segunit := by
  simp only [insertWord]
  split <;> exact ⟨rfl, rfl, rfl⟩

namespace AddState

variable {d : Dict} {segs pre post : List Seg} {free : ℕ} {w : Word} {s : Seg}
  {l r : List DouonBlk} {old : Option DouonBlk}

theorem layout_eq (h : AddState d segs free w pre s post l old r) :
    Layout d (pre ++ s :: post) free := h.spot.segs_eq ▸ h.layout

theorem mem (h : AddState d segs free w pre s post l old r) : s ∈ segs := by
  simp [h.spot.segs_eq]

theorem coded (h : AddState d segs free w pre s post l old r) : Coded [] s.blks := by
  refine coded_of_sorted ?_ (h.fit s h.mem) fun t _ => t.nil_lt
  have hs := h.sorted
  rw [h.spot.segs_eq, List.pairwise_map, blocks_append, blocks_cons, List.pairwise_append] at hs
  exact List.pairwise_map.mpr (List.pairwise_append.mp hs.2.1).1

theorem isUsr_old (h : AddState d segs free w pre s post l old r) : ∀ t ∈ old, t.IsUsr :=
  fun t ht => h.isUsr t (h.spot.old_mem t ht)

theorem target (h : AddState d segs free w pre s post l old r)
    (hroom : blkOfs (l ++ w.into old :: r) ≤ d.seglen) :
    Target d segs free w pre s post l old r :=
  ⟨h.layout, h.spot, h.others, h.idx, hroom⟩

/-- The index string of a segment whose first block stays is right. -/
theorem idx_eq (h : AddState d segs free w pre s post l old r) (hne : l ≠ [] ∨ old ≠ none) :
    s.idx = headYomi s.blks := by
  refine h.idx.resolve_left fun hnew => ?_
  rcases hne with hne | hne
  · exact hne hnew.1
  · exact hne hnew.2

/-- The block `u` and those behind it are made a segment of their own. -/
theorem sprtSeg (h : AddState d segs free w pre s post l old r) {a b : List DouonBlk}
    {u : DouonBlk} (hs : s.blks = a ++ u :: b) (hfree : u.yomi.length + 1 ≤ free)
    (st : Option Stdy) :
    ∃ left right : Seg, left.idx = s.idx ∧ left.blks = a ∧ right.idx = u.yomi ∧
      right.blks = u :: b ∧
      Layout (Sj3.sprtSeg d st pre.length (blkOfs a)).1 (pre ++ left :: right :: post)
        (free - (u.yomi.length + 1)) ∧
      blocks (pre ++ left :: right :: post) = blocks segs ∧
      (u.size [] ≤ maxDouonBlk →
        ∀ t ∈ pre ++ left :: right :: post, SizesFit [] t.blks) := by
  obtain ⟨left, right, hli, hlb, hri, hrb, hlay⟩ := h.layout_eq.sprtSeg hs h.coded hfree st
  refine ⟨left, right, hli, hlb, hri, hrb, hlay, ?_, ?_⟩
  · simp [h.spot.segs_eq, hs, hlb, hrb]
  · intro hu t ht
    have hf := h.fit s h.mem
    rw [hs, sizesFit_append] at hf
    rcases List.mem_append.mp ht with ht | ht
    · exact h.fit t (by simp [h.spot.segs_eq, ht])
    · rcases List.mem_cons.mp ht with rfl | ht
      · rw [hlb]
        exact hf.1
      · rcases List.mem_cons.mp ht with rfl | ht
        · rw [hrb]
          exact ⟨hu, hf.2.2⟩
        · exact h.fit t (by simp [h.spot.segs_eq, ht])

/-- Without the blocks behind the word there is room for it. -/
theorem behind (h : AddState d segs free w pre s post l old r) {u : DouonBlk}
    {r' : List DouonBlk} (hr : r = u :: r') (hcl : blkOfs (l ++ [w.into old]) ≤ d.seglen)
    (hfree : u.yomi.length + 1 ≤ free) (st : Option Stdy) :
    ∃ (segs' : List Seg) (left right : Seg),
      Target (Sj3.sprtSeg d st pre.length (blkOfs (l ++ old.toList))).1 segs'
        (free - (u.yomi.length + 1)) w pre left (right :: post) l old [] ∧
      left.idx = s.idx ∧ blocks segs' = blocks segs ∧
      (u.size [] ≤ maxDouonBlk → ∀ t ∈ segs', SizesFit [] t.blks) := by
  have hs : s.blks = (l ++ old.toList) ++ u :: r' := by rw [h.spot.blks_eq, hr, List.append_assoc]
  obtain ⟨left, right, hli, hlb, hri, hrb, hlay, hblk, hfit⟩ := h.sprtSeg hs hfree st
  refine ⟨_, left, right, ⟨hlay, ⟨rfl, by simp [hlb], h.spot.before, ?_, h.spot.old_yomi⟩,
    ?_, ?_, hcl⟩,
    hli, hblk, hfit⟩
  · intro t ht
    refine h.spot.after t ?_
    simpa [hrb, hr] using ht
  · intro t ht
    rcases List.mem_append.mp ht with ht | ht
    · exact h.others t (by simp [ht])
    · rcases List.mem_cons.mp ht with rfl | ht
      · rw [hri, hrb]
        exact ⟨rfl, by simp⟩
      · exact h.others t (by simp [ht])
  · rcases h.idx with hnew | hidx
    · exact .inl hnew
    · by_cases hnew : l = [] ∧ old = none
      · exact .inl hnew
      · right
        rw [hli, hidx, hs, hlb]
        cases l with
        | cons v l => rfl
        | nil =>
            cases old with
            | none => exact absurd ⟨rfl, rfl⟩ hnew
            | some v => rfl

/-- The loop goes on in the second half of the segment. -/
theorem front (h : AddState d segs free w pre s post l old r) {u : DouonBlk}
    {r' : List DouonBlk} (hr : old.toList ++ r = u :: r') (hl : l ≠ [])
    (hfree : u.yomi.length + 1 ≤ free) (hu : u.size [] ≤ maxDouonBlk) (st : Option Stdy) :
    ∃ (segs' : List Seg) (left right : Seg),
      AddState (Sj3.sprtSeg d st pre.length (blkOfs l)).1 segs' (free - (u.yomi.length + 1)) w
        (pre ++ [left]) right post [] old r ∧
      right.idx = u.yomi ∧ blocks segs' = blocks segs := by
  have hs : s.blks = l ++ u :: r' := by rw [h.spot.blks_eq, hr]
  obtain ⟨left, right, hli, hlb, hri, hrb, hlay, hblk, hfit⟩ := h.sprtSeg hs hfree st
  refine ⟨_, left, right, ⟨hlay, ⟨by simp, by simp [hrb, hr], ?_, h.spot.after, h.spot.old_yomi⟩,
    ?_, .inr (by rw [hri, hrb]; rfl), hblk ▸ h.sorted, hfit hu, hblk ▸ h.isUsr⟩, hri, hblk⟩
  · intro t ht
    refine h.spot.before t ?_
    simpa [hlb] using ht
  · intro t ht
    rcases List.mem_append.mp ht with ht | ht
    · rcases List.mem_append.mp ht with ht | ht
      · exact h.others t (by simp [ht])
      · obtain rfl := List.mem_singleton.mp ht
        rw [hli, hlb, h.idx_eq (.inl hl), hs]
        refine ⟨?_, hl⟩
        cases l with
        | nil => exact absurd rfl hl
        | cons v l => rfl
    · exact h.others t (by simp [ht])

/-- The loop goes on in the next segment. -/
theorem next {s' : Seg} (h : AddState d segs free w pre s (s' :: post) l none []) (hl : l ≠ []) :
    AddState d segs free w (pre ++ [s]) s' post [] none s'.blks := by
  have hs := h.spot.blks_eq
  refine ⟨h.layout, ⟨by simp [h.spot.segs_eq], rfl, ?_, ?_, by simp⟩, ?_, .inl ⟨rfl, rfl⟩,
    h.sorted, h.fit, h.isUsr⟩
  · intro t ht
    refine h.spot.before t ?_
    simpa [hs] using ht
  · intro t ht
    exact h.spot.after t (by simpa using ht)
  · intro t ht
    rcases List.mem_append.mp ht with ht | ht
    · rcases List.mem_append.mp ht with ht | ht
      · exact h.others t (by simp [ht])
      · obtain rfl := List.mem_singleton.mp ht
        exact ⟨h.idx_eq (.inl hl), by rw [hs]; simpa using hl⟩
    · exact h.others t (by simp [ht])

/-- The loop goes on in a new segment. -/
theorem append (h : AddState d segs free w pre s [] l none []) (hl : l ≠ []) (hfree : 1 ≤ free) :
    AddState (appendSeg d) (segs ++ [emptySeg d.seglen]) (free - 1) w (pre ++ [s])
      (emptySeg d.seglen) [] [] none [] := by
  have hs := h.spot.blks_eq
  have hlen : 1 ≤ d.seglen := (blkOfs_pos _).trans_le h.layout_eq.blkOfs_le
  have hblk : blocks (segs ++ [emptySeg d.seglen]) = blocks segs := by simp [emptySeg]
  refine ⟨h.layout.appendSeg hfree hlen,
    ⟨by simp [h.spot.segs_eq], rfl, ?_, by simp, by simp⟩, ?_, .inl ⟨rfl, rfl⟩, ?_, ?_, ?_⟩
  · intro t ht
    refine h.spot.before t ?_
    simpa [hs] using ht
  · intro t ht
    rw [List.append_nil] at ht
    rcases List.mem_append.mp ht with ht | ht
    · exact h.others t (by simp [ht])
    · obtain rfl := List.mem_singleton.mp ht
      exact ⟨h.idx_eq (.inl hl), by rw [hs]; simpa using hl⟩
  · rw [hblk]
    exact h.sorted
  · intro t ht
    rcases List.mem_append.mp ht with ht | ht
    · exact h.fit t ht
    · rw [List.mem_singleton.mp ht]
      trivial
  · rw [hblk]
    exact h.isUsr

end AddState

/-- Once the word is stored the dictionary is well-formed. -/
theorem Target.insertWord {d : Dict} {segs pre post : List Seg} {free : ℕ} {w : Word} {s : Seg}
    {l r : List DouonBlk} {old : Option DouonBlk} {pos : AddPos}
    (h : Target d segs free w pre s post l old r) (hp : IsPos w l old pos)
    (hsorted : ((blocks segs).map DouonBlk.yomi).Pairwise (· < ·))
    (hfit : ∀ t ∈ segs, SizesFit [] t.blks) (hu : ∀ t ∈ blocks segs, t.IsUsr)
    (hsize : (w.into old).size (lastYomi [] l) ≤ maxDouonBlk)
    (hchg : l = [] → old = none → ChgOk free s.idx.length w.yomi.length)
    (hlen : minSegLen ≤ d.seglen) (st : Option Stdy) :
    ∃ segs' free', UsrDict (Sj3.insertWord d st pre.length w.yomi w.kanji w.hinsi pos
        ((w.into old).size (lastYomi [] l)) (douonBytes (lastYomi [] l) old.toList).length
        (gain w (lastYomi [] l) old r)).1 segs' free' ∧
      blocks segs' = (blocks pre ++ l) ++ w.into old :: (r ++ blocks post) := by
  have hsp := h.spot
  have hs : s ∈ segs := by simp [hsp.segs_eq]
  have hy := Word.into_yomi hsp.old_yomi
  have hsort := hsorted
  rw [hsp.blocks_eq, List.pairwise_map, List.pairwise_append] at hsort
  obtain ⟨hbefore, hafter, hcross⟩ := hsort
  have hafter := (List.pairwise_append.mp hafter).2.1
  have hc : Coded [] s.blks := by
    refine coded_of_sorted ?_ (hfit s hs) fun t _ => t.nil_lt
    have := hsorted
    rw [hsp.segs_eq, List.pairwise_map, blocks_append, blocks_cons, List.pairwise_append] at this
    exact List.pairwise_map.mpr (List.pairwise_append.mp this.2.1).1
  obtain ⟨s', free', hblks, hidx, hlay⟩ := (hsp.segs_eq ▸ h.layout).insertWord hsp.blks_eq hp hc
    hsp.lt hsp.gt hsp.old_yomi h.room hchg st
  have hfirst : s'.idx = headYomi s'.blks := by
    rw [hidx, hblks]
    by_cases hnew : l = [] ∧ old = none
    · rw [if_pos hnew, hnew.1]
      exact hy.symm
    · rw [if_neg hnew, h.idx.resolve_left hnew, hsp.blks_eq]
      cases l with
      | cons u l => rfl
      | nil =>
          cases old with
          | none => exact absurd ⟨rfl, rfl⟩ hnew
          | some t => rfl
  have hblocks : blocks (pre ++ s' :: post) =
      (blocks pre ++ l) ++ w.into old :: (r ++ blocks post) := by
    simp [hblks]
  refine ⟨pre ++ s' :: post, free', ⟨hlay, ⟨by simp, ?_, .inr ?_, ?_, ?_, ?_⟩,
    by rwa [(insertWord_frame _ _ _ _ _ _ _ _ _ _).1]⟩, hblocks⟩
  · intro t ht
    rcases List.mem_append.mp ht with ht | ht
    · exact (h.others t (by simp [ht])).1
    · rcases List.mem_cons.mp ht with rfl | ht
      · exact hfirst
      · exact (h.others t (by simp [ht])).1
  · intro t ht
    rcases List.mem_append.mp ht with ht | ht
    · exact (h.others t (by simp [ht])).2
    · rcases List.mem_cons.mp ht with rfl | ht
      · rw [hblks]
        simp
      · exact (h.others t (by simp [ht])).2
  · rw [hblocks, List.pairwise_map, List.pairwise_append, List.pairwise_cons, hy]
    refine ⟨hbefore, ⟨hsp.after, hafter⟩, ?_⟩
    intro t ht u hu
    rcases List.mem_cons.mp hu with rfl | hu
    · rw [hy]
      exact hsp.before t ht
    · exact (hsp.before t ht).trans (hsp.after u hu)
  · intro t ht
    rcases List.mem_append.mp ht with ht | ht
    · exact hfit t (by simp [hsp.segs_eq, ht])
    · rcases List.mem_cons.mp ht with rfl | ht
      · rw [hblks]
        exact sizesFit_into (hsp.blks_eq ▸ hfit s hs) (lastYomi_le hsp.lt) hsp.gt hsp.old_yomi
          hsize
      · exact hfit t (by simp [hsp.segs_eq, ht])
  · intro t ht
    rw [hblocks] at ht
    rw [hsp.blocks_eq] at hu
    rcases List.mem_append.mp ht with ht | ht
    · exact hu t (List.mem_append_left _ ht)
    · rcases List.mem_cons.mp ht with rfl | ht
      · exact Word.isUsr_into fun t ht => hu t (by simp [Option.mem_def.mp ht])
      · exact hu t (List.mem_append_right _ (List.mem_append_right _ ht))

end Sj3
