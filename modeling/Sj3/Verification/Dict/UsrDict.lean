import Sj3.Model.Makedict
import Sj3.Verification.Dict.Layout

/-! # Well-formed user dictionaries

A user dictionary keeps its words in ascending order of their readings, and the index has
the first reading of every segment. -/

namespace Sj3

open FrontCoding

/-- The segments hold ascending readings, none of them is empty unless it is the only one,
and the index strings are the first readings. -/
structure WellFormed (segs : List Seg) : Prop where
  ne_nil : segs ≠ []
  idx : ∀ s ∈ segs, s.idx = headYomi s.blks
  blks_ne : segs.length = 1 ∨ ∀ s ∈ segs, s.blks ≠ []
  sorted : ((blocks segs).map DouonBlk.yomi).Pairwise (· < ·)
  fit : ∀ s ∈ segs, SizesFit [] s.blks
  isUsr : ∀ t ∈ blocks segs, t.IsUsr

/-- An open user dictionary that holds `segs`. -/
structure UsrDict (d : Dict) (segs : List Seg) (free : ℕ) : Prop
    extends Layout d segs free, WellFormed segs where
  seglen_ge : minSegLen ≤ d.seglen

/-! ## Order -/

theorem coded_of_sorted {prev : Bytes} {ts : List DouonBlk}
    (hs : (ts.map DouonBlk.yomi).Pairwise (· < ·)) (hf : SizesFit prev ts)
    (hp : ∀ t ∈ ts, prev < t.yomi) : Coded prev ts := by
  induction ts generalizing prev with
  | nil => trivial
  | cons t ts ih =>
      rw [List.map_cons, List.pairwise_cons] at hs
      exact ⟨hp t (by simp), hf.1, ih hs.2 hf.2 fun u hu => hs.1 _ (List.mem_map_of_mem hu)⟩

theorem DouonBlk.nil_lt (t : DouonBlk) : [] < t.yomi := by
  obtain ⟨c, y, hy⟩ := List.exists_cons_of_ne_nil t.isYomi.ne_nil
  rw [hy]
  exact List.nil_lt_cons c y

namespace WellFormed

variable {segs pre post : List Seg} {s : Seg}

theorem sorted_split (h : WellFormed (pre ++ s :: post)) :
    (s.blks.map DouonBlk.yomi).Pairwise (· < ·) ∧
      (∀ u ∈ blocks pre, ∀ t ∈ s.blks ++ blocks post, u.yomi < t.yomi) ∧
      ∀ u ∈ s.blks, ∀ t ∈ blocks post, u.yomi < t.yomi := by
  have hs := h.sorted
  rw [List.pairwise_map, blocks_append, blocks_cons, List.pairwise_append] at hs
  obtain ⟨h₁, h₂, h₃⟩ := List.pairwise_append.mp hs.2.1
  exact ⟨List.pairwise_map.mpr h₁, hs.2.2, h₃⟩

theorem coded (h : WellFormed (pre ++ s :: post)) : Coded [] s.blks :=
  coded_of_sorted h.sorted_split.1 (h.fit s (by simp)) fun t _ => t.nil_lt

theorem idx_le (h : WellFormed (pre ++ s :: post)) : ∀ t ∈ s.blks, s.idx ≤ t.yomi := by
  intro t ht
  have hsort := h.sorted_split.1
  rw [h.idx s (by simp)]
  cases hb : s.blks with
  | nil => simp [hb] at ht
  | cons u us =>
      rw [hb] at ht hsort
      rcases List.mem_cons.mp ht with rfl | ht
      · exact le_rfl
      · rw [List.map_cons, List.pairwise_cons] at hsort
        exact (hsort.1 _ (List.mem_map_of_mem ht)).le

/-- A segment with others beside it is not empty. -/
theorem blks_ne_of (h : WellFormed (pre ++ s :: post)) (hne : pre ≠ [] ∨ post ≠ []) :
    s.blks ≠ [] := by
  rcases h.blks_ne with hone | hall
  · simp only [List.length_append, List.length_cons] at hone
    rcases hne with hne | hne
    · exact absurd (List.length_eq_zero_iff.mp (by omega)) hne
    · exact absurd (List.length_eq_zero_iff.mp (by omega)) hne
  · exact hall s (by simp)

theorem sorted_idx (h : WellFormed segs) : (segs.map Seg.idx).Pairwise (· < ·) := by
  rcases h.blks_ne with hone | hall
  · obtain ⟨s, rfl⟩ := List.length_eq_one_iff.mp hone
    simp
  · have hs := h.sorted
    have hidx := h.idx
    clear h
    induction segs with
    | nil => exact .nil
    | cons s segs ih =>
        rw [List.pairwise_map, blocks_cons, List.pairwise_append] at hs
        rw [List.map_cons, List.pairwise_cons]
        refine ⟨?_, ih (fun t ht => hall t (by simp [ht])) (List.pairwise_map.mpr hs.2.1)
          fun t ht => hidx t (by simp [ht])⟩
        intro x hx
        obtain ⟨t, ht, rfl⟩ := List.mem_map.mp hx
        obtain ⟨u, us, hu⟩ := List.exists_cons_of_ne_nil (hall s (by simp))
        obtain ⟨v, vs, hv⟩ := List.exists_cons_of_ne_nil (hall t (by simp [ht]))
        rw [hidx s (by simp), hidx t (by simp [ht]), hu, hv]
        refine hs.2.2 u (by simp [hu]) v (List.mem_flatMap.mpr ⟨t, ht, ?_⟩)
        simp [hv]

end WellFormed

/-! ## Where a reading belongs -/

/-- The reading `x` belongs into segment `s` behind the blocks `l`; `old` is its block, if
there is one. -/
structure Spot (segs : List Seg) (x : Bytes) (pre : List Seg) (s : Seg) (post : List Seg)
    (l : List DouonBlk) (old : Option DouonBlk) (r : List DouonBlk) : Prop where
  segs_eq : segs = pre ++ s :: post
  blks_eq : s.blks = l ++ (old.toList ++ r)
  before : ∀ t ∈ blocks pre ++ l, t.yomi < x
  after : ∀ t ∈ r ++ blocks post, x < t.yomi
  old_yomi : ∀ t ∈ old, t.yomi = x

namespace Spot

variable {segs pre post : List Seg} {s : Seg} {x : Bytes} {l r : List DouonBlk}
  {old : Option DouonBlk}

theorem lt (h : Spot segs x pre s post l old r) : ∀ t ∈ l, t.yomi < x :=
  fun t ht => h.before t (by simp [ht])

theorem gt (h : Spot segs x pre s post l old r) : ∀ t ∈ r, x < t.yomi :=
  fun t ht => h.after t (by simp [ht])

theorem old_mem (h : Spot segs x pre s post l old r) : ∀ t ∈ old, t ∈ blocks segs := by
  intro t ht
  rw [h.segs_eq, blocks_append, blocks_cons, h.blks_eq]
  simp [Option.mem_def.mp ht]

theorem blocks_eq (h : Spot segs x pre s post l old r) :
    blocks segs = (blocks pre ++ l) ++ (old.toList ++ (r ++ blocks post)) := by
  rw [h.segs_eq, blocks_append, blocks_cons, h.blks_eq]
  simp

end Spot

namespace UsrDict

variable {d : Dict} {segs : List Seg} {free : ℕ} {x : Bytes}

theorem indexed (h : UsrDict d segs free) : Indexed d (segs.map Seg.idx) where
  segunit := by rw [h.segunit, List.length_map]
  ne_nil := by simp [h.ne_nil]
  zero_notMem := h.index.zero_notMem
  getIdxptr := by
    intro i hi
    obtain ⟨l, y, r, he, hl⟩ : ∃ l y r, segs.map Seg.idx = l ++ y :: r ∧ l.length = i :=
      ⟨_, _, _, (List.take_append_drop i _).symm.trans
        (by rw [List.drop_eq_getElem_cons hi]), by simp at hi ⊢; omega⟩
    have hidx := h.index
    rw [he] at hidx
    refine ⟨0 :: StringArea.area 0 r free, ?_, rfl⟩
    subst hl
    rw [hidx.getIdxptr]
    simp [he]
  sorted := h.sorted_idx

/-- The index leads to the segment a reading belongs to. -/
theorem exists_spot (h : UsrDict d segs free) (x : Bytes) :
    ∃ pre s post l old r, Spot segs x pre s post l old r ∧
      d.srchidx x dicSegBase x.length = pre.length := by
  have hhit := h.indexed.srchidx_spec (le_refl x.length) dicSegBase
    (.inl (by simp [dicSegBase])) (by simp [dicSegBase])
  rw [List.take_length] at hhit
  obtain ⟨i, hi⟩ : ∃ i, d.srchidx x dicSegBase x.length = i := ⟨_, rfl⟩
  rw [hi] at hhit
  have hlt : i < segs.length := by simpa using hhit.lt
  obtain ⟨pre, s, post, he, hpre⟩ : ∃ pre s post, segs = pre ++ s :: post ∧ pre.length = i :=
    ⟨_, _, _, (List.take_append_drop i _).symm.trans (by rw [List.drop_eq_getElem_cons hlt]),
      by simp; omega⟩
  have hwf := h.toWellFormed
  rw [he] at hwf
  obtain ⟨-, hbefore, hafter⟩ := hwf.sorted_split
  have hpre' : ∀ t ∈ blocks pre, t.yomi < x := by
    intro t ht
    have hne : pre ≠ [] := by
      rintro rfl
      simp at ht
    have hi0 : i ≠ 0 := by
      rw [← hpre]
      exact fun hz => hne (List.length_eq_zero_iff.mp hz)
    obtain ⟨u, us, hu⟩ := List.exists_cons_of_ne_nil (hwf.blks_ne_of (.inl hne))
    have hidx : s.idx ≤ x := by
      have := hhit.le.resolve_left hi0 (by simpa using hlt)
      simpa [he, ← hpre] using this
    rw [hwf.idx s (by simp), hu] at hidx
    exact lt_of_lt_of_le (hbefore t ht u (by simp [hu])) hidx
  have hpost' : ∀ t ∈ blocks post, x < t.yomi := by
    intro t ht
    obtain ⟨s', hs', hts'⟩ := List.mem_flatMap.mp ht
    obtain ⟨p₁, p₂, rfl⟩ := List.append_of_mem hs'
    have hgt := hhit.gt (pre.length + (p₁.length + 1)) (by rw [he]; simp) (by omega)
    have hlen : pre.length + (p₁.length + 1) < (segs.map Seg.idx).length := by
      rw [he]
      simp
    have hget : (segs.map Seg.idx)[pre.length + (p₁.length + 1)] =
        s'.idx := by
      simp [he]
    rw [hget] at hgt
    have hwf' : WellFormed ((pre ++ s :: p₁) ++ s' :: p₂) := by simpa using hwf
    exact lt_of_lt_of_le hgt (hwf'.idx_le t hts')
  obtain ⟨l, r, hlr, hl, hr⟩ := hwf.coded.split x
  have hmem : ∀ t ∈ blocks pre ++ l, t.yomi < x := by
    intro t ht
    rcases List.mem_append.mp ht with ht | ht
    · exact hpre' t ht
    · exact hl t ht
  rcases hr with ⟨t, r, rfl, ht⟩ | hr
  · refine ⟨pre, s, post, l, some t, r, ⟨he, hlr, hmem, ?_, by simpa using ht⟩, hi.trans hpre.symm⟩
    intro u hu
    rcases List.mem_append.mp hu with hu | hu
    · have hc := hwf.coded
      rw [hlr] at hc
      exact ht ▸ ((coded_append.mp hc).2.2.2.lt_of_mem u hu)
    · exact hpost' u hu
  · refine ⟨pre, s, post, l, none, r, ⟨he, hlr, hmem, ?_, by simp⟩, hi.trans hpre.symm⟩
    intro u hu
    rcases List.mem_append.mp hu with hu | hu
    · exact hr u hu
    · exact hpost' u hu

end UsrDict

/-! ## New dictionaries -/

/-- What `makedict` writes is a well-formed dictionary without words, if its lengths come
through. -/
theorem makedict_usrDict {dicid idxlen seglen segnum : ℕ} {d : Dict}
    (h : makedict dicid idxlen seglen segnum = some d) (hi : idxlen < 0x10000)
    (hs : seglen < 0x10000) : UsrDict d [emptySeg seglen] (idxlen - 1) := by
  rw [makedict] at h
  split at h
  · cases h
  · rename_i hgeo
    obtain rfl := (Option.some.inj h).symm
    simp only [minIdxLen, minSegLen] at hgeo
    have hi' : idxlen % 0x10000 = idxlen := Nat.mod_eq_of_lt hi
    have hs' : seglen % 0x10000 = seglen := Nat.mod_eq_of_lt hs
    refine ⟨⟨?_, rfl, ?_, ⟨?_, ?_, ?_, ?_, ⟨[], rfl⟩⟩⟩, ⟨?_, ?_, .inl rfl, ?_, ?_, ?_⟩, ?_⟩
    · simp [emptySeg, Seg.bytes, segBytes, douonBytes]
    · intro s hs
      rw [List.mem_singleton.mp hs]
      simp only [emptySeg, Seg.bytes, length_segBytes, blkOfs, douonBytes, List.length_nil,
        List.length_replicate, hs']
      omega
    · simp [emptySeg]
    · obtain ⟨n, rfl⟩ : ∃ n, idxlen = n + 1 := ⟨idxlen - 1, by omega⟩
      simp [StringArea.area, emptySeg, List.replicate_succ]
    · simp [hi']
    · simp only [hi']
      exact hi
    · simp
    · simp [emptySeg, headYomi]
    · simp [emptySeg]
    · intro s hs
      rw [List.mem_singleton.mp hs]
      trivial
    · simp [emptySeg]
    · simp only [minSegLen, hs']
      omega

end Sj3
