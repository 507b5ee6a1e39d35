import Sj3.Verification.Dict.Srchidx
import Sj3.Verification.Segment.Search

/-! # Looking up readings

`srchdict`, called again and again, reports the blocks whose readings start the input. -/

namespace Sj3

open FrontCoding

/-! ## Dictionaries of either form -/

/-- The first block of a segment stores as much of its reading as `first` lacks, every
other one what the block in front of it lacks. -/
def CodedFrom (first : Bytes) : List DouonBlk → Prop
  | [] => True
  | t :: ts => t.size first ≤ maxDouonBlk ∧ Coded t.yomi ts

theorem Coded.codedFrom {prev : Bytes} {ts : List DouonBlk} (h : Coded prev ts) :
    CodedFrom prev ts := by
  cases ts with
  | nil => trivial
  | cons t ts => exact h.2

/-- The reading of the first block. -/
def headYomi : List DouonBlk → Bytes
  | [] => []
  | t :: _ => t.yomi

/-- A segment as the look-up sees it. In a user dictionary the first block has its whole
reading in the segment (`first = []`), in a main dictionary it may have it in the index. -/
structure DicSeg where
  ask : Bytes
  first : Bytes
  blks : List DouonBlk
  tail : Bytes
  ask_lt : ask.length < 0x100
  first_eq : first = [] ∨ first = headYomi blks
  coded : CodedFrom first blks
  isTail : IsTail tail

namespace DicSeg

def idx (s : DicSeg) : Bytes := headYomi s.blks

def bytes (s : DicSeg) : Bytes :=
  UInt8.ofNat s.ask.length :: (s.ask ++ (douonBytes s.first s.blks ++ s.tail))

theorem segtop_bytes (s : DicSeg) : segtop s.bytes = douonBytes s.first s.blks ++ s.tail := by
  have h : (UInt8.ofNat s.ask.length).toNat = s.ask.length := by
    rw [UInt8.toNat_ofNat']
    exact Nat.mod_eq_of_lt s.ask_lt
  rw [segtop, bytes, List.headD_cons, h, List.drop_succ_cons, List.drop_left]

end DicSeg

/-- The open dictionary consists of these segments, and its readings ascend. -/
structure Opened (d : Dict) (segs : List DicSeg) : Prop where
  indexed : Indexed d (segs.map DicSeg.idx)
  getdic : ∀ i (h : i < segs.length), d.getdic i = segs[i].bytes
  seglen : ∀ s ∈ segs, s.bytes.length ≤ d.seglen
  sorted : ((segs.flatMap DicSeg.blks).map DouonBlk.yomi).Pairwise (· < ·)

/-! ## The walk over one segment -/

section Walk

variable {x first prev tail : Bytes} {ts : List DouonBlk} {saml : ℕ}

/-- How a walk over the blocks `ts` ends. -/
inductive SegWalk (x first prev tail : Bytes) : List DouonBlk → Dict.Walk → Prop
  | rest {ts : List DouonBlk} {saml : ℕ} (hts : ∀ t ∈ ts, ¬ t.yomi <+: x)
      (hp : Passed x (lastYomi prev ts) saml) :
      SegWalk x first prev tail ts (.rest tail saml)
  | past {l t r tagp} {saml : ℕ} (hl : ∀ u ∈ l, ¬ u.yomi <+: x) (ht : x < t.yomi) :
      SegWalk x first prev tail (l ++ t :: r) (.none tagp saml)
  | dpnd {l t r} (hl : ∀ u ∈ l, ¬ u.yomi <+: x) (ht : t.yomi <+: x)
      (hd : isdpnd (x.getD t.yomi.length 0) = true) :
      SegWalk x first prev tail (l ++ t :: r)
        (.rest (douonBytes (lastYomi first l) (t :: r) ++ tail) t.yomi.length)
  | found {l t r} (hl : ∀ u ∈ l, ¬ u.yomi <+: x) (ht : t.yomi <+: x)
      (hd : isdpnd (x.getD t.yomi.length 0) = false) :
      SegWalk x first prev tail (l ++ t :: r)
        (.found (douonBytes (lastYomi first l) (t :: r) ++ tail) t.yomi.length)

theorem SegWalk.cons {t : DouonBlk} {w : Dict.Walk} (ht : ¬ t.yomi <+: x)
    (h : SegWalk x t.yomi t.yomi tail ts w) : SegWalk x first prev tail (t :: ts) w := by
  have hcons : ∀ l, (∀ u ∈ l, ¬ DouonBlk.yomi u <+: x) → ∀ u ∈ t :: l, ¬ u.yomi <+: x := by
    intro l hl u hu
    rcases List.mem_cons.mp hu with rfl | hu
    · exact ht
    · exact hl u hu
  cases h with
  | rest hts hp => exact .rest (hcons _ hts) hp
  | past hl hu => exact .past (l := t :: _) (hcons _ hl) hu
  | dpnd hl hu hd => exact .dpnd (l := t :: _) (hcons _ hl) hu hd
  | found hl hu hd => exact .found (l := t :: _) (hcons _ hl) hu hd

theorem srchdictSeg_spec (idx : Bytes) (hc : CodedFrom first ts) (htail : IsTail tail)
    (hp : Passed x prev saml)
    (hcmp : ∀ t r, ts = t :: r → yomicmp idx x (t.bytes first ++ (douonBytes t.yomi r ++ tail))
      saml = compareYomi x t.yomi saml 0)
    (hsaml : saml ≤ min x.length maxWdYomiLen) {n : ℕ} (hn : ts.length < n) :
    SegWalk x first prev tail ts
      (Dict.srchdictSeg idx x (min x.length maxWdYomiLen) n (douonBytes first ts ++ tail)
        saml) := by
  induction ts generalizing first prev saml n with
  | nil =>
      obtain ⟨n, rfl⟩ := Nat.exists_eq_add_of_lt hn
      rw [Dict.srchdictSeg, douonBytes, List.nil_append, if_pos htail.segend]
      exact .rest (by simp) hp
  | cons t ts ih =>
      obtain ⟨n, rfl⟩ : ∃ m, n = m + 1 := ⟨n - 1, by simp at hn; omega⟩
      obtain ⟨hs, hc⟩ := hc
      have hylen := t.isYomi.length_le
      rw [Dict.srchdictSeg, douonBytes, List.append_assoc, segend_bytes hs, getntag_bytes hs,
        if_neg (by simp), hcmp t ts rfl, compareYomi, Nat.zero_add, Nat.zero_add]
      by_cases hpre : t.yomi <+: x
      · have hle := hpre.length_le
        simp only [if_pos hpre]
        rw [if_neg (by omega), if_neg (by decide), if_pos trivial]
        by_cases hd : isdpnd (x.getD t.yomi.length 0) = true
        · rw [if_pos hd]
          have h : SegWalk x first prev tail ([] ++ t :: ts) _ := .dpnd (by simp) hpre hd
          simpa [douonBytes, lastYomi] using h
        · rw [if_neg hd]
          have h : SegWalk x first prev tail ([] ++ t :: ts) _ :=
            .found (by simp) hpre (by simpa using hd)
          simpa [douonBytes, lastYomi] using h
      · by_cases hlt : x < t.yomi
        · simp only [if_neg hpre, if_pos hlt]
          rw [if_neg (by omega), if_pos trivial]
          exact .past (l := []) (by simp) hlt
        · have hle := lcp_le_left x t.yomi
          have hle' := lcp_le_right x t.yomi
          have hp' : Passed x t.yomi (lcp x t.yomi) := Passed.of_le (not_lt.mp hlt)
          simp only [if_neg hpre, if_neg hlt]
          rw [if_neg (by omega), if_neg (by decide), if_neg (by decide)]
          refine SegWalk.cons hpre (ih hc.codedFrom hp' ?_ (by omega) (by simpa using hn))
          intro u r hu
          subst hu
          exact yomicmp_bytes hc.2.1 hp' le_rfl (DouonBlk.nlen_pos hc.1).ne' _ _

/-- The codes that agree up to the end of the index string agree with the reading. -/
theorem le_lcp_of_readN_eq {y rest : Bytes} {n : ℕ} (h0 : 0 ∉ x) (hr : rest.headD 0 = 0)
    (hn : n ≤ x.length) (h : readN n x = readN n (y ++ rest)) : n ≤ lcp x y := by
  induction n generalizing x y with
  | zero => exact Nat.zero_le _
  | succ n ih =>
      cases x with
      | nil => simp at hn
      | cons a x =>
          simp only [List.mem_cons, not_or] at h0
          rw [readN, readN, List.cons.injEq] at h
          cases y with
          | nil => exact absurd (h.1.trans hr) (Ne.symm h0.1)
          | cons b y =>
              obtain ⟨rfl, h⟩ : a = b ∧ readN n x = readN n (y ++ rest) := h
              rw [lcp_cons_self]
              have := ih h0.2 (by simpa using hn) h
              omega

/-- The first block of a segment that stores none of its reading is compared through the
index, of which the codes known to agree are checked again. -/
theorem yomicmp_index {t : DouonBlk} (hs : t.size t.yomi ≤ maxDouonBlk)
    (hp : Passed x prev saml) (hlt : prev < t.yomi) (h0 : 0 ∉ x) (idxRest rest : Bytes)
    (hr : idxRest.headD 0 = 0) :
    yomicmp (t.yomi ++ idxRest) x (t.bytes t.yomi ++ rest) saml =
      compareYomi x t.yomi saml 0 := by
  have hn : t.nlen t.yomi = 0 := by simp [DouonBlk.nlen, DouonBlk.plen]
  have hsaml : saml ≤ x.length := by
    rw [hp.eq]
    exact lcp_le_left x prev
  rw [yomicmp, getnlen_bytes hs, hn, if_pos rfl]
  by_cases hle : saml ≤ lcp x t.yomi
  · obtain ⟨u, hu, hx, hy⟩ := exists_append_of_le_lcp hle
    have hyl : saml ≤ t.yomi.length := hle.trans (lcp_le_right _ _)
    have hread : readN saml x = readN saml (t.yomi ++ idxRest) := by
      rw [readN_eq_take hsaml, readN_eq_take (by rw [List.length_append]; omega),
        List.take_append_of_le_length hyl]
      exact take_eq_of_le_lcp hle
    have hy0 : 0 ∉ t.yomi.drop saml := fun h => t.isYomi.ne_zero (List.mem_of_mem_drop h)
    have hloop := yomicmpLoop_eq saml (t.yomi.drop saml) (x.drop saml) idxRest saml hy0
    have hcmp := compareYomi_append u (x.drop saml) (t.yomi.drop saml) saml 0
    rw [← hx, ← hy, hu, Nat.zero_add] at hcmp
    rw [if_neg (by simp [hread]), List.drop_append_of_le_length hyl,
      sstrlen_append hy0 _ hr, hloop, hcmp]
  · have hne : readN saml x ≠ readN saml (t.yomi ++ idxRest) := fun h =>
      hle (le_lcp_of_readN_eq h0 hr hsaml h)
    have hxt : x < t.yomi := lt_of_lt_lcp hlt (by rw [← hp.eq]; omega)
    rw [if_pos hne, compareYomi, if_neg fun hpre => absurd hxt (not_lt.mpr (prefix_le hpre)),
      if_pos hxt]

end Walk

/-! ## Places of blocks -/

/-- A block of a dictionary, with the segment it is in and the pointer to it. -/
structure Place where
  seg : ℕ
  tagp : Bytes
  blk : DouonBlk

/-- The places of the blocks `ts` of segment `seg`. -/
def placesOf (seg : ℕ) (tail : Bytes) : Bytes → List DouonBlk → List Place
  | _, [] => []
  | first, t :: ts =>
      ⟨seg, douonBytes first (t :: ts) ++ tail, t⟩ :: placesOf seg tail t.yomi ts

/-- The places of all blocks, the first segment having number `seg`. -/
def places : ℕ → List DicSeg → List Place
  | _, [] => []
  | seg, s :: segs => placesOf seg s.tail s.first s.blks ++ places (seg + 1) segs

/-- The block is to be reported: its reading starts the input, and what follows may start
a word. -/
def isHit (x : Bytes) (p : Place) : Bool :=
  p.blk.yomi.isPrefixOf x && !isdpnd (x.getD p.blk.yomi.length 0)

theorem isHit_iff {x : Bytes} {p : Place} :
    isHit x p = true ↔
      p.blk.yomi <+: x ∧ isdpnd (x.getD p.blk.yomi.length 0) = false := by
  simp [isHit]

@[simp] theorem length_placesOf (seg : ℕ) (tail first : Bytes) (ts : List DouonBlk) :
    (placesOf seg tail first ts).length = ts.length := by
  induction ts generalizing first with
  | nil => rfl
  | cons t ts ih => simp [placesOf, ih]

theorem placesOf_append (seg : ℕ) (tail first : Bytes) (l r : List DouonBlk) :
    placesOf seg tail first (l ++ r) =
      placesOf seg (douonBytes (lastYomi first l) r ++ tail) first l ++
        placesOf seg tail (lastYomi first l) r := by
  induction l generalizing first with
  | nil => rfl
  | cons t l ih => simp [placesOf, lastYomi, douonBytes, douonBytes_append, ih]

theorem places_append (seg : ℕ) (l r : List DicSeg) :
    places seg (l ++ r) = places seg l ++ places (seg + l.length) r := by
  induction l generalizing seg with
  | nil => rfl
  | cons s l ih =>
      simp only [List.cons_append, places, ih, List.append_assoc, List.length_cons]
      rw [Nat.add_right_comm]
      rfl

theorem blk_mem_of_placesOf {seg : ℕ} {tail first : Bytes} {ts : List DouonBlk} {p : Place}
    (h : p ∈ placesOf seg tail first ts) : p.blk ∈ ts := by
  induction ts generalizing first with
  | nil => simp [placesOf] at h
  | cons t ts ih =>
      rcases List.mem_cons.mp h with rfl | h
      · simp
      · simp [ih h]

theorem blk_mem_of_places {seg : ℕ} {segs : List DicSeg} {p : Place} (h : p ∈ places seg segs) :
    p.blk ∈ segs.flatMap DicSeg.blks := by
  induction segs generalizing seg with
  | nil => simp [places] at h
  | cons s segs ih =>
      rcases List.mem_append.mp h with h | h
      · simp [blk_mem_of_placesOf h]
      · rw [List.flatMap_cons]
        exact List.mem_append_right _ (ih h)

theorem length_places_le {d : Dict} {segs : List DicSeg}
    (h : ∀ s ∈ segs, s.bytes.length ≤ d.seglen) (seg : ℕ) :
    (places seg segs).length ≤ segs.length * d.seglen := by
  induction segs generalizing seg with
  | nil => simp [places]
  | cons s segs ih =>
      have h₁ := ih (fun s hs => h s (by simp [hs])) (seg + 1)
      have h₂ := h s (by simp)
      have h₃ := length_douonBytes_le s.first s.blks
      simp only [DicSeg.bytes, List.length_cons, List.length_append] at h₂
      simp only [places, List.length_append, length_placesOf, List.length_cons, Nat.add_mul]
      omega

/-! ## Order between segments -/

namespace Opened

variable {d : Dict} {segs pre post : List DicSeg} {s : DicSeg}

theorem coded_blks (h : Opened d segs) (hs : segs = pre ++ s :: post) :
    (∀ u ∈ pre.flatMap DicSeg.blks, ∀ t ∈ s.blks ++ post.flatMap DicSeg.blks,
      u.yomi < t.yomi) ∧
    ∀ u ∈ s.blks, ∀ t ∈ post.flatMap DicSeg.blks, u.yomi < t.yomi := by
  have hsorted := h.sorted
  rw [hs, List.pairwise_map, List.flatMap_append, List.flatMap_cons,
    List.pairwise_append] at hsorted
  exact ⟨hsorted.2.2, (List.pairwise_append.mp hsorted.2.1).2.2⟩

theorem sorted_blks (h : Opened d segs) (hs : segs = pre ++ s :: post) :
    s.blks.Pairwise fun t u => t.yomi < u.yomi := by
  have hsorted := h.sorted
  rw [hs, List.pairwise_map, List.flatMap_append, List.flatMap_cons,
    List.pairwise_append] at hsorted
  exact (List.pairwise_append.mp hsorted.2.1).1

theorem idx_le (h : Opened d segs) (hs : segs = pre ++ s :: post) :
    ∀ t ∈ s.blks, s.idx ≤ t.yomi := by
  intro t ht
  have hsort := h.sorted_blks hs
  cases hb : s.blks with
  | nil => simp [hb] at ht
  | cons u us =>
      rw [DicSeg.idx, hb]
      rw [hb] at hsort ht
      rcases List.mem_cons.mp ht with rfl | ht
      · exact le_rfl
      · exact ((List.pairwise_cons.mp hsort).1 _ ht).le

theorem lt_idx (h : Opened d segs) (hs : segs = pre ++ s :: post) (hne : s.blks ≠ []) :
    ∀ u ∈ pre.flatMap DicSeg.blks, u.yomi < s.idx := by
  intro u hu
  obtain ⟨t, ts, hb⟩ := List.exists_cons_of_ne_nil hne
  have := (h.coded_blks hs).1 u hu t (by simp [hb])
  rwa [DicSeg.idx, hb]

theorem getElem_idxs (hs : segs = pre ++ s :: post)
    (hi : pre.length < (segs.map DicSeg.idx).length) :
    (segs.map DicSeg.idx)[pre.length] = s.idx := by
  subst hs
  simp

theorem getdic_eq (h : Opened d segs) (hs : segs = pre ++ s :: post) :
    d.getdic pre.length = s.bytes := by
  rw [h.getdic pre.length (by rw [hs]; simp)]
  simp [hs]

end Opened

end Sj3
