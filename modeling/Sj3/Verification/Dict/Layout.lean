import Sj3.Verification.Dict.IndexArea
import Sj3.Verification.Dict.Srchdict
import Sj3.Verification.Segment.Split
import Sj3.Verification.Segment.Store

/-! # User dictionaries

What the index area and the segments of a user dictionary stand for, and what the edits of
`addelcmn.c` and `adddic.c` make of it. -/

namespace Sj3

open Buffer FrontCoding StringArea

/-! ## Segments with their index strings -/

/-- A segment of a user dictionary: its index string, its blocks and what is behind them. -/
structure Seg where
  idx : Bytes
  blks : List DouonBlk
  tail : Bytes
  isTail : IsTail tail

def Seg.bytes (s : Seg) : Bytes := segBytes s.blks s.tail

/-- The blocks of all segments. -/
def blocks (segs : List Seg) : List DouonBlk := segs.flatMap Seg.blks

@[simp] theorem blocks_nil : blocks [] = [] := rfl

@[simp] theorem blocks_cons (s : Seg) (segs : List Seg) :
    blocks (s :: segs) = s.blks ++ blocks segs := rfl

@[simp] theorem blocks_append (l r : List Seg) : blocks (l ++ r) = blocks l ++ blocks r :=
  List.flatMap_append

theorem isTail_replicate (n : ℕ) : IsTail (List.replicate n dicSegTerm) := by
  cases n <;> rfl

theorem IsTail.append {t u : Bytes} (ht : IsTail t) (hu : IsTail u) : IsTail (t ++ u) := by
  cases t with
  | nil => exact hu
  | cons c t => exact ht

theorem IsTail.take {t : Bytes} (ht : IsTail t) (n : ℕ) : IsTail (t.take n) := by
  cases t with
  | nil => rw [List.take_nil]; exact ht
  | cons c t =>
      cases n with
      | zero => rfl
      | succ n => exact ht

/-- A segment without blocks. -/
def emptySeg (seglen : ℕ) : Seg :=
  ⟨[], [], List.replicate (seglen - 1) dicSegTerm, isTail_replicate _⟩

/-- The segments and index strings of the dictionary, the index area having `free` unused
bytes. -/
structure Layout (d : Dict) (segs : List Seg) (free : ℕ) : Prop where
  bytes : d.segs = segs.map Seg.bytes
  segunit : d.segunit = segs.length
  seglen : ∀ s ∈ segs, s.bytes.length = d.seglen
  index : IdxArea d (segs.map Seg.idx) free

theorem IdxArea.congr {d d' : Dict} {idxs : List Bytes} {free : ℕ} (h : IdxArea d idxs free)
    (hbuf : d'.idxbuf = d.idxbuf) (hlen : d'.idxlen = d.idxlen) (hofs : d'.idxofs = d.idxofs) :
    IdxArea d' idxs free where
  zero_notMem := h.zero_notMem
  idxbuf := hbuf.trans h.idxbuf
  length_idxbuf := by rw [hbuf, hlen, h.length_idxbuf]
  idxlen_lt := by rw [hlen]; exact h.idxlen_lt
  idxofs := by rw [hofs]; exact h.idxofs

/-- There is room for the string of length `len` in the place of one of length `olen`, and
what it leaves unused was unused before or is the last terminator. -/
def ChgOk (free olen len : ℕ) : Prop := len ≤ olen + free ∧ olen ≤ len + (free + 1)

namespace Layout

variable {d : Dict} {pre post : List Seg} {s : Seg} {free : ℕ}

theorem getdic (h : Layout d (pre ++ s :: post) free) : d.getdic pre.length = s.bytes := by
  rw [Dict.getdic, h.bytes, List.map_append, List.map_cons,
    List.getD_append_right _ _ _ _ (by simp)]
  simp

theorem length_bytes (h : Layout d (pre ++ s :: post) free) : s.bytes.length = d.seglen :=
  h.seglen s (by simp)

/-- Writing a segment back. -/
theorem putdic (h : Layout d (pre ++ s :: post) free) (s' : Seg) (hidx : s'.idx = s.idx)
    (hlen : s'.bytes.length = d.seglen) :
    Layout (d.putdic pre.length s'.bytes) (pre ++ s' :: post) free where
  bytes := by
    simp only [Dict.putdic, h.bytes, List.map_append, List.map_cons]
    rw [List.set_append_right _ _ (by simp)]
    simp
  segunit := by
    rw [Dict.putdic, h.segunit]
    simp
  seglen := by
    intro t ht
    rcases List.mem_append.mp ht with ht | ht
    · exact h.seglen t (by simp [ht])
    · rcases List.mem_cons.mp ht with rfl | ht
      · exact hlen
      · exact h.seglen t (by simp [ht])
  index := by
    have hmap : (pre ++ s' :: post).map Seg.idx = (pre ++ s :: post).map Seg.idx := by
      simp [hidx]
    rw [hmap]
    exact h.index.congr rfl rfl rfl

/-- The string of a segment gets another one, if there is room for it. -/
theorem chgUidx (h : Layout d (pre ++ s :: post) free) {x : Bytes} (h0 : 0 ∉ x)
    (hok : ChgOk free s.idx.length x.length) :
    Layout (d.chgUidx pre.length x x.length) (pre ++ { s with idx := x } :: post)
      (free + s.idx.length - x.length) where
  bytes := by
    simp only [Dict.chgUidx, Dict.mkidxtbl, h.bytes, List.map_append, List.map_cons]
    rfl
  segunit := by
    simp only [Dict.chgUidx, Dict.mkidxtbl, h.segunit, List.length_append, List.length_cons]
  seglen := by
    intro t ht
    rcases List.mem_append.mp ht with ht | ht
    · exact h.seglen t (by simp [ht])
    · rcases List.mem_cons.mp ht with rfl | ht
      · exact h.seglen s (by simp)
      · exact h.seglen t (by simp [ht])
  index := by
    have hidx := h.index
    have hunit : d.segunit = (pre.map Seg.idx ++ s.idx :: post.map Seg.idx).length := by
      rw [h.segunit]
      simp
    rw [List.map_append, List.map_cons] at hidx ⊢
    have htake : x.take x.length = x := List.take_length
    obtain ⟨hgrow, hshrink⟩ := hok
    rcases Nat.lt_or_ge s.idx.length x.length with hlt | hge
    · have hchg := hidx.chgUidx_grow hunit le_rfl (by rwa [htake]) hlt (by omega)
      rw [htake, List.length_map] at hchg
      rwa [show free + s.idx.length - x.length = free - (x.length - s.idx.length) by omega]
    · have hchg := hidx.chgUidx_shrink hunit le_rfl (by rwa [htake]) hge (by omega)
      rw [htake, List.length_map] at hchg
      rwa [show free + s.idx.length - x.length = free + (s.idx.length - x.length) by omega]

theorem countUidx (h : Layout d (pre ++ [s]) free) : d.countUidx = free := by
  have hidx := h.index
  rw [List.map_append, List.map_singleton] at hidx
  exact hidx.countUidx (by rw [h.segunit]; simp)

theorem countUidx_eq {segs : List Seg} (h : Layout d segs free) (hne : segs ≠ []) :
    d.countUidx = free := by
  rcases List.eq_nil_or_concat' segs with rfl | ⟨l, t, rfl⟩
  · exact absurd rfl hne
  · exact h.countUidx

/-- A new segment is empty, and so is its index string. -/
theorem appendSeg {segs : List Seg} (h : Layout d segs free) (hfree : 1 ≤ free)
    (hlen : 1 ≤ d.seglen) :
    Layout (appendSeg d) (segs ++ [emptySeg d.seglen]) (free - 1) where
  bytes := by
    simp [Sj3.appendSeg, Dict.mkidxtbl, h.bytes, emptySeg, Seg.bytes, segBytes, douonBytes]
  segunit := by
    simp [Sj3.appendSeg, Dict.mkidxtbl, h.segunit]
  seglen := by
    intro t ht
    rcases List.mem_append.mp ht with ht | ht
    · exact h.seglen t ht
    · rw [List.mem_singleton.mp ht]
      simp only [emptySeg, Seg.bytes, length_segBytes, blkOfs, douonBytes, List.length_nil,
        List.length_replicate, Sj3.appendSeg, Dict.mkidxtbl]
      omega
  index := by
    have hidx := h.index
    refine @IdxArea.mkidxtbl _ (free - 1) _ ?_ ?_ ?_ hidx.length_idxbuf hidx.idxlen_lt
    · intro x hx
      rw [List.map_append] at hx
      rcases List.mem_append.mp hx with hx | hx
      · exact hidx.zero_notMem x hx
      · rw [List.mem_singleton.mp hx]
        simp [emptySeg]
    · simp [h.segunit]
    · obtain ⟨n, rfl⟩ : ∃ n, free = n + 1 := ⟨free - 1, by omega⟩
      simp [hidx.idxbuf, area, strings_append, List.replicate_succ, emptySeg]

theorem blkOfs_le (h : Layout d (pre ++ s :: post) free) : blkOfs s.blks ≤ d.seglen := by
  rw [← h.length_bytes, Seg.bytes, length_segBytes]
  omega

/-! ## Splitting a segment -/

theorem segBytes_fill (l r : List DouonBlk) (tail : Bytes) {n : ℕ}
    (hn : n = (segBytes (l ++ r) tail).length) :
    overwrite (segBytes (l ++ r) tail) (blkOfs l) (List.replicate (n - blkOfs l) dicSegTerm) =
      segBytes l (List.replicate (n - blkOfs l) dicSegTerm) := by
  have hlen : (douonBytes (lastYomi [] l) r ++ tail).length = n - blkOfs l := by
    rw [hn, length_segBytes, blkOfs_append, List.length_append]
    omega
  have hover := overwrite_end (segBytes l []) (douonBytes (lastYomi [] l) r ++ tail)
    (List.replicate (n - blkOfs l) dicSegTerm) (by rw [hlen, List.length_replicate])
  rw [length_segFront, ← segBytes_append] at hover
  rw [hover]
  simp [segBytes]

theorem moveSegs_bytes (h : Layout d (pre ++ s :: post) free) :
    (moveSegs d pre.length).segs =
      pre.map Seg.bytes ++ s.bytes :: s.bytes :: post.map Seg.bytes := by
  have hlen : (pre.map Seg.bytes).length = pre.length := by simp
  rw [moveSegs, h.bytes, List.map_append, List.map_cons, ← hlen, List.drop_left,
    List.take_length_add_append]
  simp

/-- The blocks from `u` on become a segment of their own. -/
theorem sprtSeg (h : Layout d (pre ++ s :: post) free) {l r : List DouonBlk} {u : DouonBlk}
    (hs : s.blks = l ++ u :: r) (hc : Coded [] s.blks) (hfree : u.yomi.length + 1 ≤ free)
    (st : Option Stdy) :
    ∃ left right : Seg, left.idx = s.idx ∧ left.blks = l ∧ right.idx = u.yomi ∧
      right.blks = u :: r ∧
        Layout (Sj3.sprtSeg d st pre.length (blkOfs l)).1 (pre ++ left :: right :: post)
          (free - (u.yomi.length + 1)) := by
  rw [hs] at hc
  have hsu := (coded_append.mp hc).2.2.1
  have hlt := plen_lt_blkOfs l u
  have hadd := u.plen_add_nlen (lastYomi [] l)
  have hsz := size_nil (lastYomi [] l) u
  have hbytes : s.bytes = segBytes (l ++ u :: r) s.tail := by rw [Seg.bytes, hs]
  have hlen : d.seglen = (segBytes (l ++ u :: r) s.tail).length := by
    rw [← h.length_bytes, hbytes]
  have hlen' := hlen
  rw [length_segBytes, blkOfs_append, length_douonBytes_cons] at hlen'
  simp only [DouonBlk.size, douonBlkSizeNumber] at hlen' hsz
  obtain ⟨p, hp⟩ : ∃ p, p = 1 + douonBlkSizeNumber + u.yomi.length := ⟨_, rfl⟩
  obtain ⟨q, hq⟩ : ∃ q, q = blkOfs l + douonBlkSizeNumber + u.nlen (lastYomi [] l) := ⟨_, rfl⟩
  let left : Seg :=
    ⟨s.idx, l, List.replicate (d.seglen - blkOfs l) dicSegTerm, isTail_replicate _⟩
  let right : Seg :=
    ⟨u.yomi, u :: r, s.tail ++ List.replicate (q - p) dicSegTerm,
      s.isTail.append (isTail_replicate _)⟩
  refine ⟨left, right, rfl, rfl, rfl, rfl, ?_⟩
  obtain ⟨b, hb⟩ := sprtYomi_segBytes hc s.tail
  have hright := sprtRight_eq r s.tail hsu b hlen hp hq
  have hleft := segBytes_fill l (u :: r) s.tail hlen
  have hpos : (segBytes (l ++ u :: r) s.tail).drop (blkOfs l) =
      u.bytes (lastYomi [] l) ++ (douonBytes u.yomi r ++ s.tail) := by
    simp [drop_segBytes, douonBytes]
  -- the dictionary once the index has the new string
  obtain ⟨d₁, hd₁⟩ : ∃ d₁, d₁ = (moveSegs d pre.length).apndUidx pre.length (u.yomi ++ b)
      u.yomi.length := ⟨_, rfl⟩
  have hsegs : d₁.segs = pre.map Seg.bytes ++ s.bytes :: s.bytes :: post.map Seg.bytes := by
    rw [hd₁, ← h.moveSegs_bytes]
    rfl
  have hidx : IdxArea d₁ (pre.map Seg.idx ++ s.idx :: u.yomi :: post.map Seg.idx)
      (free - (u.yomi.length + 1)) := by
    have hi : IdxArea (moveSegs d pre.length) (pre.map Seg.idx ++ s.idx :: post.map Seg.idx)
        free := by
      have := h.index
      rw [List.map_append, List.map_cons] at this
      exact this.congr rfl rfl rfl
    have happ := hi.apndUidx (by simp [moveSegs, h.segunit])
      (show u.yomi.length ≤ (u.yomi ++ b).length by simp) (by simpa using u.isYomi.ne_zero) hfree
    simpa [hd₁] using happ
  have hget : (moveSegs d pre.length).getdic (pre.length + 1) = segBytes (l ++ u :: r) s.tail := by
    rw [Dict.getdic, h.moveSegs_bytes, ← hbytes]
    simp [List.getD_eq_getElem?_getD]
  have hget₁ : (d₁.putdic (pre.length + 1) right.bytes).getdic pre.length =
      segBytes (l ++ u :: r) s.tail := by
    rw [Dict.getdic, Dict.putdic, hsegs, ← hbytes]
    simp [List.getD_eq_getElem?_getD]
  have hd₁len : d₁.seglen = d.seglen := by rw [hd₁]; rfl
  have hfst : (Sj3.sprtSeg d st pre.length (blkOfs l)).1 =
      (d₁.putdic (pre.length + 1) right.bytes).putdic pre.length left.bytes := by
    rw [hpos] at hb
    rw [Sj3.sprtSeg]
    simp only [hget, hb, hpos, getplen_bytes hsu, getnlen_bytes hsu, hadd, ← hd₁, hd₁len,
      hright]
    rw [show segBytes (u :: r) (s.tail ++ List.replicate (q - p) dicSegTerm) = right.bytes from
      rfl, hget₁]
    simp only [Dict.putdic, hd₁len, hleft]
    rfl
  rw [hfst]
  refine ⟨?_, ?_, ?_, ?_⟩
  · simp [Dict.putdic, hsegs]
  · have : d₁.segunit = d.segunit + 1 := by rw [hd₁]; rfl
    simp only [Dict.putdic, this, h.segunit, List.length_append, List.length_cons]
    omega
  · have hlenL : left.bytes.length = d.seglen := by
      simp only [left, Seg.bytes, length_segBytes, List.length_replicate]
      omega
    have hlenR : right.bytes.length = d.seglen := by
      simp only [right, Seg.bytes, length_segBytes, List.length_append, List.length_replicate,
        blkOfs_cons, DouonBlk.size, douonBlkSizeNumber] at hp hq ⊢
      omega
    intro t ht
    rw [show ((d₁.putdic (pre.length + 1) right.bytes).putdic pre.length left.bytes).seglen =
      d.seglen from hd₁len]
    rcases List.mem_append.mp ht with ht | ht
    · exact h.seglen t (by simp [ht])
    · rcases List.mem_cons.mp ht with rfl | ht
      · exact hlenL
      · rcases List.mem_cons.mp ht with rfl | ht
        · exact hlenR
        · exact h.seglen t (by simp [ht])
  · rw [List.map_append, List.map_cons, List.map_cons]
    exact hidx.congr rfl rfl rfl

/-! ## Storing a word -/

theorem blkOfs_eq_one_iff (l : List DouonBlk) : blkOfs l = 1 ↔ l = [] := by
  cases l with
  | nil => simp [blkOfs, douonBytes]
  | cons t l =>
      simp only [blkOfs, length_douonBytes_cons, DouonBlk.size, douonBlkSizeNumber, reduceCtorEq,
        iff_false]
      omega

/-- The word goes into segment `s`; as its first block it changes the index string. -/
theorem insertWord (h : Layout d (pre ++ s :: post) free) {w : Word} {l r : List DouonBlk}
    {old : Option DouonBlk} {pos : AddPos} (hs : s.blks = l ++ (old.toList ++ r))
    (hp : IsPos w l old pos) (hc : Coded [] s.blks) (hlt : ∀ t ∈ l, t.yomi < w.yomi)
    (hgt : ∀ t ∈ r, w.yomi < t.yomi) (hold : ∀ t ∈ old, t.yomi = w.yomi)
    (hroom : blkOfs (l ++ w.into old :: r) ≤ d.seglen)
    (hchg : l = [] → old = none → ChgOk free s.idx.length w.yomi.length) (st : Option Stdy) :
    ∃ (s' : Seg) (free' : ℕ), s'.blks = l ++ w.into old :: r ∧
      s'.idx = (if l = [] ∧ old = none then w.yomi else s.idx) ∧
      Layout (Sj3.insertWord d st pre.length w.yomi w.kanji w.hinsi pos
          ((w.into old).size (lastYomi [] l)) (douonBytes (lastYomi [] l) old.toList).length
          (gain w (lastYomi [] l) old r)).1 (pre ++ s' :: post) free' := by
  have hbytes : s.bytes = segBytes (l ++ (old.toList ++ r)) s.tail := by rw [Seg.bytes, hs]
  have hlen : d.seglen = (segBytes (l ++ (old.toList ++ r)) s.tail).length := by
    rw [← h.length_bytes, hbytes]
  have hstore := storeWord_eq s.tail hp hlt hgt (hs ▸ hc) hlen hroom
  rw [← hbytes] at hstore
  obtain ⟨tail, htail⟩ : ∃ tail, tail =
    s.tail.take (d.seglen - blkOfs (l ++ w.into old :: r)) := ⟨_, rfl⟩
  rw [← htail] at hstore
  have hlen' : (segBytes (l ++ w.into old :: r) tail).length = d.seglen := by
    have h₁ := blkOfs_into (r := r) hlt hgt hold
    have h₂ := oldsiz_add_gain_le old (lastYomi_le hlt) hgt
    rw [length_segBytes, htail, List.length_take]
    rw [length_segBytes] at hlen
    omega
  have hcond : (pos.hnsofs = 0 ∧ pos.douofs = ofsOf s.bytes (segtop s.bytes)) ↔
      (l = [] ∧ old = none) := by
    rw [Seg.bytes, ofsOf_segtop, ← blkOfs_eq_one_iff]
    cases hp with
    | new => simp
    | hinsi hne => simp [(blkOfs_pos _).ne']
    | kanji ht hne hb hhns hknj => simp [hhns]
  have hist : IsTail tail := htail ▸ s.isTail.take _
  rw [Sj3.insertWord]
  simp only [h.getdic, hcond]
  by_cases hfirst : l = [] ∧ old = none
  · have hput := (h.chgUidx w.isYomi.ne_zero (hchg hfirst.1 hfirst.2)).putdic
      ⟨w.yomi, l ++ w.into old :: r, tail, hist⟩ rfl hlen'
    refine ⟨⟨w.yomi, l ++ w.into old :: r, tail, hist⟩,
      free + s.idx.length - w.yomi.length, rfl, (if_pos hfirst).symm, ?_⟩
    simp only [if_pos hfirst]
    rw [show (d.chgUidx pre.length w.yomi w.yomi.length).seglen = d.seglen from rfl, hstore]
    exact hput
  · have hput := h.putdic ⟨s.idx, l ++ w.into old :: r, tail, hist⟩ rfl hlen'
    refine ⟨⟨s.idx, l ++ w.into old :: r, tail, hist⟩, free, rfl, (if_neg hfirst).symm, ?_⟩
    simp only [if_neg hfirst, hstore]
    exact hput

end Layout

end Sj3
