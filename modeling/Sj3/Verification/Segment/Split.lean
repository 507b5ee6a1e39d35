import Sj3.Model.Adddic
import Sj3.Verification.Segment.Word
import Sj3.Verification.Text

/-! # Splitting a segment

What `sprt_seg` makes of the second half of a segment. -/

namespace Sj3

open Buffer FrontCoding

variable {l r : List DouonBlk} {u : DouonBlk} {tail : Bytes}

/-! ## The reading of a block -/

/-- The block at hand completes its reading from the one in front of it. Behind the
reading comes one byte too many, which the next block overwrites. -/
theorem sprtYomi_step {pos prev : Bytes} {t : DouonBlk} (rest junk : Bytes) (n : ℕ)
    (hlt : prev < t.yomi) (hs : t.size prev ≤ maxDouonBlk)
    (hlen : pos.length ≤ (t.bytes prev ++ rest).length) :
    ∃ b, sprtYomi pos (n + 1) (t.bytes prev ++ rest) (prev ++ junk) =
      sprtYomi pos n rest (t.yomi ++ b) := by
  have hn := (DouonBlk.nlen_pos hlt).ne'
  have hy : (prev ++ junk).take (t.plen prev) = t.yomi.take (t.plen prev) := by
    have hle : t.plen prev ≤ prev.length := lcp_le_left _ _
    rw [List.take_append_of_le_length hle]
    exact take_lcp prev t.yomi
  have hdrop : (t.bytes prev ++ rest).drop douonBlkSizeNumber =
      t.yomi.drop (t.plen prev) ++ (t.body ++ rest) := by
    simp [DouonBlk.bytes, setSize, douonBlkSizeNumber]
  have hread : readN (t.nlen prev + 1) (t.yomi.drop (t.plen prev) ++ (t.body ++ rest)) =
      t.yomi.drop (t.plen prev) ++ readN 1 (t.body ++ rest) := by
    rw [← readN_add, List.length_drop]
    rfl
  refine ⟨readN 1 (t.body ++ rest), ?_⟩
  rw [sprtYomi, if_pos ⟨hlen, by rw [segend_bytes hs]; simp⟩, getnlen_bytes hs,
    getplen_bytes hs, getntag_bytes hs, hdrop, hy]
  simp only [if_pos hn, hread]
  rw [← List.append_assoc, List.take_append_drop]

/-- The loop of `sprt_seg` ends with the reading of the block to move. -/
theorem sprtYomi_eq {pos prev : Bytes} (hc : Coded prev (l ++ u :: r))
    (hpos : pos = douonBytes (lastYomi prev l) (u :: r) ++ tail) (junk : Bytes) {n : ℕ}
    (hn : l.length + 1 < n) :
    ∃ b, sprtYomi pos n (douonBytes prev (l ++ u :: r) ++ tail) (prev ++ junk) =
      u.yomi ++ b := by
  induction l generalizing prev junk n with
  | nil =>
      obtain ⟨n, rfl⟩ : ∃ m, n = m + 2 := ⟨n - 2, by simp at hn; omega⟩
      obtain ⟨hlt, hs, -⟩ := hc
      have hlen : pos.length = (u.bytes prev ++ (douonBytes u.yomi r ++ tail)).length := by
        rw [hpos]
        simp [douonBytes, lastYomi]
      obtain ⟨b, hb⟩ := sprtYomi_step (douonBytes u.yomi r ++ tail) junk (n + 1) hlt hs hlen.le
      refine ⟨b, ?_⟩
      rw [List.nil_append, douonBytes, List.append_assoc, hb, sprtYomi, if_neg]
      rintro ⟨hle, -⟩
      rw [hlen] at hle
      simp only [List.length_append, DouonBlk.length_bytes, DouonBlk.size,
        douonBlkSizeNumber] at hle
      omega
  | cons t l ih =>
      obtain ⟨n, rfl⟩ : ∃ m, n = m + 1 := ⟨n - 1, by simp at hn; omega⟩
      obtain ⟨hlt, hs, hcr⟩ := hc
      have hlen : pos.length ≤
          (t.bytes prev ++ (douonBytes t.yomi (l ++ u :: r) ++ tail)).length := by
        simp only [hpos, douonBytes_append, lastYomi, List.length_append]
        omega
      obtain ⟨b, hb⟩ := sprtYomi_step (douonBytes t.yomi (l ++ u :: r) ++ tail) junk n hlt hs hlen
      rw [List.cons_append, douonBytes, List.append_assoc, hb]
      exact ih hcr hpos b (by simpa using hn)

/-- The reading `sprt_seg` gathers for the block it moves. -/
theorem sprtYomi_segBytes (hc : Coded [] (l ++ u :: r)) (tail : Bytes) :
    ∃ b, sprtYomi ((segBytes (l ++ u :: r) tail).drop (blkOfs l))
        ((segBytes (l ++ u :: r) tail).length + 1) (segtop (segBytes (l ++ u :: r) tail)) [] =
      u.yomi ++ b := by
  have hlen := length_douonBytes_le [] (l ++ u :: r)
  rw [drop_segBytes, segtop_segBytes]
  refine sprtYomi_eq hc rfl [] ?_
  simp only [List.length_append, List.length_cons] at hlen
  simp only [length_segBytes, blkOfs]
  omega

/-! ## The second half -/

/-- The blocks from `u` on as a segment of their own: header and reading of the first of
them, and what was behind these. -/
theorem sprtRight_eq (r : List DouonBlk) (tail : Bytes)
    (hs : u.size (lastYomi [] l) ≤ maxDouonBlk) (b : Bytes) {n p q : ℕ}
    (hn : n = (segBytes (l ++ u :: r) tail).length)
    (hp : p = 1 + douonBlkSizeNumber + u.yomi.length)
    (hq : q = blkOfs l + douonBlkSizeNumber + u.nlen (lastYomi [] l)) :
    sprtRight n (blkOfs l) (segBytes (l ++ u :: r) tail) (u.yomi ++ b) =
      segBytes (u :: r) (tail ++ List.replicate (q - p) dicSegTerm) := by
  have hpos : (segBytes (l ++ u :: r) tail).drop (blkOfs l) =
      u.bytes (lastYomi [] l) ++ (douonBytes u.yomi r ++ tail) := by
    simp [drop_segBytes, douonBytes]
  rw [sprtRight]
  simp only [hpos, ofsOf_segtop, getsize_bytes hs, getplen_bytes hs, getnlen_bytes hs,
    u.plen_add_nlen, readN_append, ← size_nil, ← hp, ← hq]
  obtain ⟨buf₁, hbuf₁⟩ : ∃ b, b = overwrite (segBytes (l ++ u :: r) tail) 1
    (setSize (u.size []) 0 u.yomi.length) := ⟨_, rfl⟩
  obtain ⟨buf₂, hbuf₂⟩ : ∃ b, b = overwrite buf₁ (1 + douonBlkSizeNumber) u.yomi := ⟨_, rfl⟩
  have hlt := plen_lt_blkOfs l u
  have hadd := u.plen_add_nlen (lastYomi [] l)
  have hlen : (segBytes (l ++ u :: r) tail).length = blkOfs l +
      (douonBlkSizeNumber + u.nlen (lastYomi [] l) + u.body.length +
        (douonBytes u.yomi r).length) + tail.length := by
    rw [length_segBytes, blkOfs_append, length_douonBytes_cons]
    rfl
  simp only [douonBlkSizeNumber] at *
  have hlen₁ : buf₁.length = n := by
    rw [hbuf₁, hn]
    exact length_overwrite _ _ _ (by rw [length_setSize, hlen, douonBlkSizeNumber]; omega)
  have hlen₂ : buf₂.length = n := by
    rw [← hlen₁, hbuf₂]
    exact length_overwrite _ _ _ (by omega)
  have htake : buf₂.take p =
      0 :: (setSize (u.size []) 0 u.yomi.length ++ u.yomi) := by
    have h₁ := take_overwrite (show 1 + 3 ≤ buf₁.length by omega) u.yomi
    have h₂ := take_overwrite (show 1 ≤ (segBytes (l ++ u :: r) tail).length by omega)
      (setSize (u.size []) 0 u.yomi.length)
    rw [← hbuf₂, ← hp] at h₁
    rw [← hbuf₁, length_setSize, douonBlkSizeNumber] at h₂
    rw [h₁, h₂]
    rfl
  have hdrop : buf₂.drop q = u.body ++ (douonBytes u.yomi r ++ tail) := by
    have hyl : (setSize (u.size (lastYomi [] l)) (u.plen (lastYomi [] l))
        (u.nlen (lastYomi [] l)) ++ u.yomi.drop (u.plen (lastYomi [] l))).length =
          3 + u.nlen (lastYomi [] l) := by
      rw [List.length_append, List.length_drop]
      rfl
    have hbytes : douonBytes (lastYomi [] l) (u :: r) ++ tail =
        (setSize (u.size (lastYomi [] l)) (u.plen (lastYomi [] l)) (u.nlen (lastYomi [] l)) ++
          u.yomi.drop (u.plen (lastYomi [] l))) ++ (u.body ++ (douonBytes u.yomi r ++ tail)) := by
      simp [douonBytes, DouonBlk.bytes]
    rw [hbuf₂, drop_overwrite (by omega) _ (by omega), hbuf₁,
      drop_overwrite (by omega) _ (by rw [length_setSize, douonBlkSizeNumber]; omega), hq,
      Nat.add_assoc, ← List.drop_drop, drop_segBytes, hbytes, ← hyl, List.drop_left]
  have hfill := overwrite_copyAsc_fill buf₂ (List.replicate (q - p) dicSegTerm) (p := p) (q := q)
    (by omega) (by omega) (by simp)
  have hcount : n - (p + (n - q)) = q - p := by omega
  have hu : u.nlen [] = u.yomi.length ∧ u.plen [] = 0 := by simp [DouonBlk.nlen, DouonBlk.plen]
  rw [← hbuf₁, ← hbuf₂, hcount, ← hlen₂, hfill, htake, hdrop]
  simp [segBytes, douonBytes, DouonBlk.bytes, hu]

end Sj3
