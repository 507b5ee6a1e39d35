import Sj3.Verification.Dict.Entries
import Sj3.Verification.Dict.Lookup

/-! # Finding the words of a user dictionary

A user dictionary is one `srchdict` can look readings up in, and the block it reports for a
reading has the words of that reading. -/

namespace Sj3

/-! ## Places -/

theorem exists_placeOf {t : DouonBlk} {ts : List DouonBlk} (h : t ∈ ts) (seg : ℕ)
    (tail first : Bytes) : ∃ p ∈ placesOf seg tail first ts, p.blk = t := by
  induction ts generalizing first with
  | nil => simp at h
  | cons u ts ih =>
      rcases List.mem_cons.mp h with rfl | h
      · exact ⟨_, List.mem_cons_self, rfl⟩
      · obtain ⟨p, hp, hb⟩ := ih h u.yomi
        exact ⟨p, List.mem_cons_of_mem _ hp, hb⟩

/-- Every block has a place. -/
theorem exists_place {t : DouonBlk} {segs : List DicSeg} (h : t ∈ segs.flatMap DicSeg.blks)
    (seg : ℕ) : ∃ p ∈ places seg segs, p.blk = t := by
  induction segs generalizing seg with
  | nil => simp at h
  | cons s segs ih =>
      rw [List.flatMap_cons] at h
      rcases List.mem_append.mp h with h | h
      · obtain ⟨p, hp, hb⟩ := exists_placeOf h seg s.tail s.first
        exact ⟨p, List.mem_append_left _ hp, hb⟩
      · obtain ⟨p, hp, hb⟩ := ih h (seg + 1)
        exact ⟨p, List.mem_append_right _ hp, hb⟩

theorem tagp_of_placesOf {seg : ℕ} {tail first : Bytes} {ts : List DouonBlk} {p : Place}
    (hc : CodedFrom first ts) (h : p ∈ placesOf seg tail first ts) :
    ∃ prev rest, p.tagp = p.blk.bytes prev ++ rest ∧ p.blk.size prev ≤ maxDouonBlk := by
  induction ts generalizing first with
  | nil => simp [placesOf] at h
  | cons t ts ih =>
      rcases List.mem_cons.mp h with rfl | h
      · exact ⟨first, douonBytes t.yomi ts ++ tail, by simp [douonBytes], hc.1⟩
      · exact ih hc.2.codedFrom h

/-- At a place lies the block. -/
theorem tagp_of_places {seg : ℕ} {segs : List DicSeg} {p : Place} (h : p ∈ places seg segs) :
    ∃ prev rest, p.tagp = p.blk.bytes prev ++ rest ∧ p.blk.size prev ≤ maxDouonBlk := by
  induction segs generalizing seg with
  | nil => simp [places] at h
  | cons s segs ih =>
      rcases List.mem_append.mp h with h | h
      · exact tagp_of_placesOf s.coded h
      · exact ih h

/-! ## User dictionaries -/

theorem length_noAsk : ([] : Bytes).length < 0x100 := by decide

/-- A segment of a user dictionary as the look-up sees it. -/
def Seg.dicSeg (s : Seg) (h : Coded [] s.blks) : DicSeg where
  ask := []
  first := []
  blks := s.blks
  tail := s.tail
  ask_lt := length_noAsk
  first_eq := .inl rfl
  coded := h.codedFrom
  isTail := s.isTail

variable {d : Dict} {segs : List Seg} {free : ℕ}

theorem WellFormed.coded_of_mem {s : Seg} (h : WellFormed segs) (hs : s ∈ segs) :
    Coded [] s.blks := by
  obtain ⟨pre, post, rfl⟩ := List.append_of_mem hs
  exact h.coded

/-- The look-up sees the blocks of the segments. -/
theorem UsrDict.opened (h : UsrDict d segs free) :
    ∃ ds, Opened d ds ∧ ds.flatMap DicSeg.blks = blocks segs := by
  have hc : ∀ s ∈ segs, Coded [] s.blks := fun s hs => h.coded_of_mem hs
  have hidx : (segs.pmap Seg.dicSeg hc).map DicSeg.idx = segs.map Seg.idx := by
    rw [List.map_pmap, ← List.pmap_eq_map (H := fun _ _ => trivial) (p := fun _ => True)]
    refine List.pmap_congr_left _ fun s hs _ _ => ?_
    exact (h.idx s hs).symm
  have hblks : (segs.pmap Seg.dicSeg hc).flatMap DicSeg.blks = blocks segs := by
    rw [blocks, List.flatMap_def, List.flatMap_def, List.map_pmap,
      ← List.pmap_eq_map (H := fun _ _ => trivial) (p := fun _ => True)]
    exact congrArg List.flatten (List.pmap_congr_left _ fun s hs _ _ => rfl)
  refine ⟨segs.pmap Seg.dicSeg hc, ⟨by rw [hidx]; exact h.indexed, ?_, ?_, ?_⟩, hblks⟩
  · intro i hi
    rw [List.length_pmap] at hi
    rw [Dict.getdic, h.bytes, List.getElem_pmap]
    simp [List.getD_eq_getElem?_getD, hi, Seg.bytes, Seg.dicSeg, DicSeg.bytes, segBytes]
  · intro s hs
    obtain ⟨t, ht, rfl⟩ := List.mem_pmap.mp hs
    exact (h.seglen t ht).le
  · rw [hblks]
    exact h.sorted

/-- Looking up a stored reading reports its block. -/
theorem UsrDict.reports_block (h : UsrDict d segs free) {t : DouonBlk} (ht : t ∈ blocks segs)
    (tagp : Bytes) :
    ∃ ps, Reports d t.yomi ⟨1, 0, -1, tagp⟩ ps ∧
      ∃ p ∈ ps, blkEntries t.yomi p.2 = some t.entries := by
  obtain ⟨ds, hopen, hblks⟩ := h.opened
  rw [← hblks] at ht
  obtain ⟨p, hp, rfl⟩ := exists_place ht 0
  obtain ⟨prev, rest, htagp, hs⟩ := tagp_of_places hp
  refine ⟨_, reports_start hopen p.blk.isYomi.ne_zero tagp, _, mem_hits_of_eq hp rfl, ?_⟩
  rw [htagp]
  exact blkEntries_bytes hs rest

end Sj3
