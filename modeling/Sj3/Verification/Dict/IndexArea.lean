import Mathlib.Data.List.GetD
import Sj3.General.StringArea
import Sj3.Model.Dict
import Sj3.Verification.Text

/-! # The index area

The index strings as they lie in a file, and what the edits make of them. -/

namespace Sj3

open Buffer StringArea

/-- The index area holds the strings `idxs`, with `free` unused bytes behind them, and the
table of offsets says where they start. -/
structure IdxArea (d : Dict) (idxs : List Bytes) (free : ℕ) : Prop where
  zero_notMem : ∀ x ∈ idxs, 0 ∉ x
  idxbuf : d.idxbuf = area 0 idxs free
  length_idxbuf : d.idxbuf.length = d.idxlen
  idxlen_lt : d.idxlen < 0x10000
  idxofs : ∃ rest, d.idxofs = offsets 0 idxs ++ rest

theorem mkidxtblLoop_area {idxs : List Bytes} (h0 : ∀ x ∈ idxs, 0 ∉ x) (ofs free : ℕ) :
    Dict.mkidxtblLoop idxs.length ofs (area 0 idxs free) = offsets ofs idxs := by
  induction idxs generalizing ofs with
  | nil => rfl
  | cons x idxs ih =>
      have hsplit : area 0 (x :: idxs) free = x ++ 0 :: area 0 idxs free := by simp [area]
      have hx : 0 ∉ x := h0 x (by simp)
      have hlen : sstrlen (area 0 (x :: idxs) free) = x.length := by
        rw [hsplit]
        exact sstrlen_append hx _ rfl
      have hdrop : (area 0 (x :: idxs) free).drop (x.length + 1) = area 0 idxs free := by
        rw [hsplit, List.drop_length_add_append]
        rfl
      rw [List.length_cons, Dict.mkidxtblLoop, if_neg (by rw [hsplit]; simp), hlen, hdrop,
        ih (fun y hy => h0 y (by simp [hy])), offsets]

namespace IdxArea

variable {d : Dict} {l r : List Bytes} {x : Bytes} {free : ℕ}

/-- Reading the strings anew sets the table. -/
theorem mkidxtbl {idxs : List Bytes} (h0 : ∀ x ∈ idxs, 0 ∉ x)
    (hunit : d.segunit = idxs.length) (hbuf : d.idxbuf = area 0 idxs free)
    (hlen : d.idxbuf.length = d.idxlen) (hlt : d.idxlen < 0x10000) :
    IdxArea d.mkidxtbl idxs free where
  zero_notMem := h0
  idxbuf := hbuf
  length_idxbuf := hlen
  idxlen_lt := hlt
  idxofs := by
    refine ⟨d.idxofs.drop (offsets 0 idxs).length, ?_⟩
    simp only [Dict.mkidxtbl, hunit, hbuf, mkidxtblLoop_area h0]

theorem idxofs_getD (h : IdxArea d (l ++ x :: r) free) :
    d.idxofs.getD l.length 0 = (strings 0 l).length := by
  obtain ⟨rest, hrest⟩ := h.idxofs
  rw [hrest, List.getD_append _ _ _ _ (by simp), offsets_getD, Nat.zero_add]

theorem getIdxptr (h : IdxArea d (l ++ x :: r) free) :
    d.getIdxptr l.length = x ++ 0 :: area 0 r free := by
  rw [Dict.getIdxptr, h.idxofs_getD, h.idxbuf, area_split, List.drop_left]

theorem sstrlen_getIdxptr (h : IdxArea d (l ++ x :: r) free) :
    sstrlen (d.getIdxptr l.length) = x.length := by
  rw [h.getIdxptr]
  exact sstrlen_append (h.zero_notMem x (by simp)) _ rfl

theorem idxlen_eq (h : IdxArea d (l ++ x :: r) free) :
    d.idxlen = (strings 0 l).length + (x.length + (0 :: area 0 r free).length) := by
  rw [← h.length_idxbuf, h.idxbuf, area_split, List.length_append, List.length_append]

theorem notMem_replace (h : IdxArea d (l ++ x :: r) free) {w : Bytes} (hw : 0 ∉ w) :
    ∀ y ∈ l ++ w :: r, 0 ∉ y := by
  intro y hy
  rcases List.mem_append.mp hy with hy | hy
  · exact h.zero_notMem y (by simp [hy])
  · rcases List.mem_cons.mp hy with rfl | hy
    · exact hw
    · exact h.zero_notMem y (by simp [hy])

/-- `count_uidx` counts the unused bytes. -/
theorem countUidx (h : IdxArea d (l ++ [x]) free) (hunit : d.segunit = (l ++ [x]).length) :
    d.countUidx = free := by
  have hlast : d.segunit - 1 = l.length := by simp [hunit]
  have hlen := h.idxlen_eq
  have hlt := h.idxlen_lt
  simp only [area, strings_nil, List.nil_append, List.length_cons, List.length_replicate] at hlen
  rw [Dict.countUidx, hlast, h.idxofs_getD, h.sstrlen_getIdxptr]
  omega

/-! ## Edits -/

/-- A longer string in the place of `x` needs the room for what it is longer. -/
theorem chgUidx_grow (h : IdxArea d (l ++ x :: r) free)
    (hunit : d.segunit = (l ++ x :: r).length) {yomi : Bytes} {len : ℕ} (hle : len ≤ yomi.length)
    (h0 : 0 ∉ yomi.take len) (hgrow : x.length < len) (hfree : len - x.length ≤ free) :
    IdxArea (d.chgUidx l.length yomi len) (l ++ yomi.take len :: r)
      (free - (len - x.length)) := by
  have hw : (yomi.take len).length = len := List.length_take_of_le hle
  have hylen : (0 :: area 0 r free).length = (strings 0 r).length + free + 1 := by simp
  have hbuf : overwrite (copyDesc d.idxbuf (d.idxlen - (len - x.length)) d.idxlen
      (d.idxlen - (len - x.length) - (strings 0 l).length)) (strings 0 l).length
        (yomi.take len) = area 0 (l ++ yomi.take len :: r) (free - (len - x.length)) := by
    have hmove := overwrite_copyDesc_grow (strings 0 l) x (0 :: area 0 r free) (yomi.take len)
      (by omega) (by omega)
    have htake : (0 :: area 0 r free).take ((0 :: area 0 r free).length - (len - x.length)) =
        0 :: area 0 r (free - (len - x.length)) := by
      rw [← take_area 0 r hfree, List.length_cons,
        Nat.sub_add_comm (by rw [length_area]; omega), List.take_succ_cons]
    rw [hw, ← h.idxlen_eq] at hmove
    rw [h.idxbuf, area_split, hmove, htake, area_split]
  have hlen : (area 0 (l ++ yomi.take len :: r) (free - (len - x.length))).length =
      d.idxlen := by
    rw [h.idxlen_eq, area_split]
    simp only [List.length_append, List.length_cons, length_area, hw]
    omega
  rw [Dict.chgUidx]
  simp only [h.idxofs_getD, h.sstrlen_getIdxptr, if_pos hgrow, readN_eq_take hle, hbuf]
  rw [List.take_of_length_le hlen.le]
  refine mkidxtbl (h.notMem_replace h0) ?_ rfl hlen h.idxlen_lt
  simpa using hunit

/-- A shorter string in the place of `x` leaves the last bytes of the area twice, which
does no harm as long as they are unused or the last terminator. -/
theorem chgUidx_shrink (h : IdxArea d (l ++ x :: r) free)
    (hunit : d.segunit = (l ++ x :: r).length) {yomi : Bytes} {len : ℕ} (hle : len ≤ yomi.length)
    (h0 : 0 ∉ yomi.take len) (hshrink : len ≤ x.length) (hfree : x.length - len ≤ free + 1) :
    IdxArea (d.chgUidx l.length yomi len) (l ++ yomi.take len :: r)
      (free + (x.length - len)) := by
  have hw : (yomi.take len).length = len := List.length_take_of_le hle
  have hbuf : overwrite (copyAsc d.idxbuf ((strings 0 l).length + (x.length - len))
      (strings 0 l).length (d.idxlen - ((strings 0 l).length + (x.length - len))))
        (strings 0 l).length (yomi.take len) =
      area 0 (l ++ yomi.take len :: r) (free + (x.length - len)) := by
    have hmove := overwrite_copyAsc_shrink (strings 0 l) x (0 :: area 0 r free) (yomi.take len)
      (by omega)
    have hdrop := drop_area (0 : UInt8) x r hfree
    have hlast : (x ++ 0 :: area 0 r free).length - (x.length - len) =
        len + (0 :: area 0 r free).length := by
      rw [List.length_append]
      omega
    rw [hw, ← h.idxlen_eq] at hmove
    rw [hlast] at hdrop
    rw [h.idxbuf, area_split, hmove, hdrop, area_split]
    simp [area, List.replicate_append_replicate]
  have hlen : (area 0 (l ++ yomi.take len :: r) (free + (x.length - len))).length =
      d.idxlen := by
    rw [h.idxlen_eq, area_split]
    simp only [List.length_append, List.length_cons, length_area, hw]
    omega
  rw [Dict.chgUidx]
  simp only [h.idxofs_getD, h.sstrlen_getIdxptr, if_neg (not_lt.mpr hshrink), readN_eq_take hle,
    hbuf]
  rw [List.take_of_length_le hlen.le]
  refine mkidxtbl (h.notMem_replace h0) ?_ rfl hlen h.idxlen_lt
  simpa using hunit

/-- A new string behind `x`. The dictionary already counts the segment it is for. -/
theorem apndUidx (h : IdxArea d (l ++ x :: r) free)
    (hunit : d.segunit = (l ++ x :: r).length + 1) {yomi : Bytes} {len : ℕ}
    (hle : len ≤ yomi.length) (h0 : 0 ∉ yomi.take len) (hfree : len + 1 ≤ free) :
    IdxArea (d.apndUidx l.length yomi len) (l ++ x :: yomi.take len :: r)
      (free - (len + 1)) := by
  have hw : (yomi.take len ++ [0]).length = len + 1 := by
    rw [List.length_append, List.length_take_of_le hle]
    rfl
  have hpos : (strings 0 l).length + (x.length + 1) = (strings 0 l ++ (x ++ [0])).length := by
    simp
  have hq : d.idxlen = (strings 0 l ++ (x ++ [0])).length + (area 0 r free).length := by
    rw [h.idxlen_eq]
    simp only [List.length_append, List.length_cons, List.length_nil]
    omega
  have hbuf : overwrite (copyDesc d.idxbuf (d.idxlen - (len + 1)) d.idxlen
      (d.idxlen - (len + 1) - ((strings 0 l).length + (x.length + 1))))
        ((strings 0 l).length + (x.length + 1)) (yomi.take len ++ [0]) =
      area 0 (l ++ x :: yomi.take len :: r) (free - (len + 1)) := by
    have hsplit : area 0 (l ++ x :: r) free =
        (strings 0 l ++ (x ++ [0])) ++ area 0 r free := by
      rw [area_split]
      simp
    have hopen := overwrite_copyDesc_open (strings 0 l ++ (x ++ [0])) (area 0 r free)
      (yomi.take len ++ [0]) (by rw [hw, length_area]; omega)
    have hroom : d.idxlen - (len + 1) - (strings 0 l ++ (x ++ [0])).length =
        (area 0 r free).length - (len + 1) := by omega
    rw [hw, ← hq] at hopen
    rw [hpos, h.idxbuf, hsplit, hroom, hopen, take_area 0 r hfree, area_split]
    simp [area]
  have hlen : (area 0 (l ++ x :: yomi.take len :: r) (free - (len + 1))).length =
      d.idxlen := by
    rw [hq]
    simp only [length_area, strings_append, strings_cons, List.length_append, List.length_cons,
      List.length_nil, List.length_take_of_le hle]
    omega
  rw [Dict.apndUidx]
  simp only [h.idxofs_getD, h.sstrlen_getIdxptr, readN_eq_take hle, hbuf]
  rw [List.take_of_length_le hlen.le]
  refine mkidxtbl ?_ ?_ rfl hlen h.idxlen_lt
  · intro y hy
    rcases List.mem_append.mp hy with hy | hy
    · exact h.zero_notMem y (by simp [hy])
    · rcases List.mem_cons.mp hy with rfl | hy
      · exact h.zero_notMem y (by simp)
      · rcases List.mem_cons.mp hy with rfl | hy
        · exact h0
        · exact h.zero_notMem y (by simp [hy])
  · simp at hunit ⊢
    omega

/-- Without the string of a segment that is no longer counted. -/
theorem delUidx (h : IdxArea d (l ++ x :: r) free) (hunit : d.segunit = (l ++ r).length) :
    IdxArea (d.delUidx l.length) (l ++ r) (free + (x.length + 1)) := by
  have hq : d.idxlen = (strings 0 l).length + ((x ++ [0]).length + (area 0 r free).length) := by
    rw [h.idxlen_eq]
    simp only [List.length_append, List.length_cons, List.length_nil]
    omega
  have hx : (x ++ [(0 : UInt8)]).length = x.length + 1 := by simp
  have hbuf : overwrite (copyAsc d.idxbuf ((strings 0 l).length + (x.length + 1))
      (strings 0 l).length (d.idxlen - ((strings 0 l).length + (x.length + 1))))
        (d.idxlen - (x.length + 1)) (List.replicate (x.length + 1) 0) =
      area 0 (l ++ r) (free + (x.length + 1)) := by
    have hsplit : area 0 (l ++ x :: r) free =
        strings 0 l ++ ((x ++ [0]) ++ area 0 r free) := by
      rw [area_split]
      simp
    have hclose := overwrite_copyAsc_close (strings 0 l) (x ++ [0]) (area 0 r free)
      (List.replicate (x.length + 1) 0) (by simp)
    rw [hx] at hclose
    rw [h.idxbuf, hsplit, show d.idxlen - ((strings 0 l).length + (x.length + 1)) =
      (area 0 r free).length by omega, show d.idxlen - (x.length + 1) =
      (strings 0 l).length + (area 0 r free).length by omega, hclose]
    rw [area, area, strings_append, List.append_assoc, List.append_assoc,
      List.replicate_append_replicate]
  have hlen : (area 0 (l ++ r) (free + (x.length + 1))).length = d.idxlen := by
    rw [hq]
    simp only [length_area, strings_append, List.length_append, List.length_cons,
      List.length_nil]
    omega
  rw [Dict.delUidx]
  simp only [h.idxofs_getD, h.sstrlen_getIdxptr, hbuf]
  rw [List.take_of_length_le hlen.le]
  refine mkidxtbl ?_ hunit rfl hlen h.idxlen_lt
  intro y hy
  rcases List.mem_append.mp hy with hy | hy <;> exact h.zero_notMem y (by simp [hy])

end IdxArea

end Sj3
