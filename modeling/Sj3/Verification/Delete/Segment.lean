import Sj3.Verification.Delete.Cut
import Sj3.Verification.Dict.Layout

/-! # The bytes of a segment without a word

What the three ways of `deldic` to take bytes out of a segment make of it. -/

namespace Sj3

open Buffer FrontCoding

variable {d : Dict} {seg : ℕ} {l r : List DouonBlk} {t t' u : DouonBlk}
  {tail : Bytes}

/-! ## Inside of a homophone block -/

/-- The bytes `gap` of the body of a block are closed up, and its size field is corrected. As
many bytes as that stay behind at the end of the segment. -/
theorem delBytes_eq {front gap back : Bytes} (hget : d.getdic seg = segBytes (l ++ t :: r) tail)
    (hlen : d.seglen = (segBytes (l ++ t :: r) tail).length)
    (hs : t.size (lastYomi [] l) ≤ maxDouonBlk) (hy : t'.yomi = t.yomi)
    (hbody : t.body = front ++ (gap ++ back)) (hbody' : t'.body = front ++ back)
    (st : Option Stdy) (ofs : ℕ) :
    ∃ stale : Bytes, stale.length = gap.length ∧
      delBytes d st seg (douonBytes (lastYomi [] l) (t :: r) ++ tail)
          (gap ++ (back ++ (douonBytes t.yomi r ++ tail)))
          (back ++ (douonBytes t.yomi r ++ tail)) ofs =
        ⟨some adDone, d.putdic seg (segBytes (l ++ t' :: r) (tail ++ stale)),
          st.map (Stdy.delStdy d.dicid seg ofs gap.length)⟩ := by
  obtain ⟨prev, hprev⟩ : ∃ p, p = lastYomi [] l := ⟨_, rfl⟩
  obtain ⟨Y, hY⟩ : ∃ Y, Y = back ++ (douonBytes t.yomi r ++ tail) := ⟨_, rfl⟩
  obtain ⟨hdr, hhdr⟩ : ∃ h, h = setSize (t.size prev) (t.plen prev) (t.nlen prev) := ⟨_, rfl⟩
  obtain ⟨m, hm⟩ : ∃ m, m = t.yomi.drop (t.plen prev) ++ front := ⟨_, rfl⟩
  obtain ⟨X, hX⟩ : ∃ X, X = segBytes l [] ++ (hdr ++ m) := ⟨_, rfl⟩
  have hbuf : segBytes (l ++ t :: r) tail = X ++ (gap ++ Y) := by
    rw [segBytes_append, hX, hY, hm, hhdr, hprev]
    simp [douonBytes, DouonBlk.bytes, hbody]
  have hp : ofsOf (X ++ (gap ++ Y)) (douonBytes (lastYomi [] l) (t :: r) ++ tail) = blkOfs l := by
    rw [← hbuf]
    exact ofsOf_segBytes l (t :: r) tail
  have hstp : ofsOf (X ++ (gap ++ Y)) (gap ++ Y) = X.length := ofsOf_append X _
  have hedp : ofsOf (X ++ (gap ++ Y)) Y = X.length + gap.length := by
    rw [← List.append_assoc, ofsOf_append, List.length_append]
  have hend : X.length + gap.length + Y.length = d.seglen := by
    rw [hlen, hbuf]
    simp only [List.length_append]
    omega
  have hY' : d.seglen - (X.length + gap.length) = Y.length := by omega
  have hfill : ∀ buf : Bytes, overwrite buf d.seglen [] = buf := by
    intro buf
    simp [overwrite]
  obtain ⟨stale, hstale⟩ : ∃ s, s = (gap ++ Y).drop Y.length := ⟨_, rfl⟩
  have hmove : X ++ (Y ++ stale) = segBytes l [] ++ (hdr ++ (m ++ (Y ++ stale))) := by
    rw [hX]
    simp only [List.append_assoc]
  have hdrop : (X ++ (Y ++ stale)).drop (blkOfs l) = hdr ++ (m ++ (Y ++ stale)) := by
    rw [hmove, ← length_segFront, List.drop_left]
  obtain ⟨hsz, hpl, hnl, -⟩ := setSize_spec (hprev ▸ hs) (t.plen_le_max prev) (t.nlen_le_max prev)
    (m ++ (Y ++ stale))
  rw [← hhdr] at hsz hpl hnl
  have hsize : t.size prev - gap.length = t'.size prev := by
    simp only [DouonBlk.size, DouonBlk.nlen, DouonBlk.plen, hy, hbody, hbody', List.length_append]
    omega
  refine ⟨stale, by rw [hstale, List.length_drop, List.length_append]; omega, ?_⟩
  have hnew := overwrite_append (segBytes l []) hdr (m ++ (Y ++ stale))
    (setSize (t'.size prev) (t'.plen prev) (t'.nlen prev)) (by rw [hhdr]; rfl)
  rw [length_segFront] at hnew
  rw [delBytes, ← hY]
  simp only [hget, hbuf, hp, hstp, hedp, hY', hend, Nat.add_sub_cancel_left, Nat.sub_self,
    List.replicate_zero, hfill, copyAsc_close, ← hstale, hdrop, hsz, hpl, hnl, hsize]
  have hplen : t.plen prev = t'.plen prev := by simp only [DouonBlk.plen, hy]
  have hnlen : t.nlen prev = t'.nlen prev := by simp only [DouonBlk.nlen, DouonBlk.plen, hy]
  rw [hplen, hnlen, hmove, hnew, segBytes_append, ← hprev, hm, hY]
  simp only [douonBytes, DouonBlk.bytes, hbody', hy, hplen, List.append_assoc]

/-! ## A whole homophone block -/

/-- The last block of a segment is cut off, if there is an unused byte to put the end mark on
it. -/
theorem delDouon_last (hget : d.getdic seg = segBytes (l ++ [t]) tail)
    (hlen : d.seglen = (segBytes (l ++ [t]) tail).length)
    (hs : t.size (lastYomi [] l) ≤ maxDouonBlk) (htail : IsTail tail) (st : Option Stdy) (ofs : ℕ) :
    ∃ stale : Bytes, stale.length = t.size (lastYomi [] l) ∧
      delDouon d st seg (t.bytes (lastYomi [] l) ++ tail) ofs =
        ⟨some adDone, d.putdic seg (segBytes l (List.replicate tail.length dicSegTerm ++ stale)),
          st.map (Stdy.delStdy d.dicid seg ofs (t.size (lastYomi [] l)))⟩ := by
  obtain ⟨blk, hblk⟩ : ∃ b, b = t.bytes (lastYomi [] l) := ⟨_, rfl⟩
  have hbl : blk.length = t.size (lastYomi [] l) := by rw [hblk, DouonBlk.length_bytes]
  have hbuf : segBytes (l ++ [t]) tail = segBytes l [] ++ (blk ++ tail) := by
    rw [segBytes_append, hblk]
    simp [douonBytes]
  have hnxt : getntag (blk ++ tail) = tail := hblk ▸ getntag_bytes hs tail
  have hat : ofsOf (segBytes l [] ++ (blk ++ tail)) (blk ++ tail) = blkOfs l := by
    rw [ofsOf_append, length_segFront]
  have hend : ofsOf (segBytes l [] ++ (blk ++ tail)) tail = blkOfs l + blk.length := by
    rw [← List.append_assoc, ofsOf_append, List.length_append, length_segFront]
  have hcount : d.seglen - (blkOfs l + blk.length) = tail.length := by
    rw [hlen, hbuf]
    simp only [List.length_append, length_segFront]
    omega
  obtain ⟨stale, hstale⟩ : ∃ s, s = (blk ++ tail).drop tail.length := ⟨_, rfl⟩
  have hover : overwrite (segBytes l [] ++ (blk ++ tail)) (blkOfs l)
      (List.replicate tail.length dicSegTerm) =
        segBytes l (List.replicate tail.length dicSegTerm ++ stale) := by
    have hsplit : blk ++ tail = (blk ++ tail).take tail.length ++ stale := by
      rw [hstale, List.take_append_drop]
    have h := overwrite_append (segBytes l []) ((blk ++ tail).take tail.length) stale
      (List.replicate tail.length dicSegTerm) (by simp)
    rw [← hsplit, length_segFront] at h
    rw [h]
    simp [segBytes]
  refine ⟨stale, by rw [hstale, List.length_drop, List.length_append]; omega, ?_⟩
  rw [← hblk, ← hbl, delDouon]
  simp only [hget, hbuf, hnxt, htail.segend, if_true, hat, hend, hcount, hover]
  congr 3
  omega

/-- The block behind the one that goes is stored with what it shared with that one. -/
theorem bytes_next (hpt : lastYomi [] l < t.yomi) (htu : t.yomi < u.yomi) {k : ℕ}
    (hk : u.plen (lastYomi [] l) + k = u.plen t.yomi) :
    setSize (u.size t.yomi + k) (u.plen t.yomi - k) (u.nlen t.yomi + k) ++
        ((t.yomi.drop (t.plen (lastYomi [] l))).take k ++
          (u.yomi.drop (u.plen t.yomi) ++ u.body)) = u.bytes (lastYomi [] l) := by
  have hsz := size_add_plen u (lastYomi [] l) t.yomi
  have hn := u.plen_add_nlen (lastYomi [] l)
  have hn' := u.plen_add_nlen t.yomi
  have hmin : u.plen (lastYomi [] l) = min (t.plen (lastYomi [] l)) (u.plen t.yomi) :=
    lcp_eq_min hpt.le htu.le
  have hread : (t.yomi.drop (t.plen (lastYomi [] l))).take k ++ u.yomi.drop (u.plen t.yomi) =
      u.yomi.drop (u.plen (lastYomi [] l)) := by
    rcases Nat.eq_zero_or_pos k with rfl | hpos
    · rw [List.take_zero, List.nil_append, ← hk, Nat.add_zero]
    · have hp : t.plen (lastYomi [] l) = u.plen (lastYomi [] l) := by omega
      have hsame : (t.yomi.drop (u.plen (lastYomi [] l))).take k =
          (u.yomi.drop (u.plen (lastYomi [] l))).take k := by
        rw [List.take_drop, List.take_drop, hk]
        congr 1
        exact take_lcp t.yomi u.yomi
      rw [hp, hsame, ← hk, ← List.drop_drop, List.take_append_drop]
  rw [← List.append_assoc (List.take _ _), hread, DouonBlk.bytes]
  congr 2 <;> omega

/-- Only the codes the index string gets are looked at. -/
theorem Dict.chgUidx_congr (d : Dict) (seg : ℕ) (y rest : Bytes) :
    d.chgUidx seg (y ++ rest) y.length = d.chgUidx seg y y.length := by
  have hy := readN_append y []
  rw [List.append_nil] at hy
  simp only [Dict.chgUidx, readN_append, hy]

/-- A block with another one behind it gives its place to that one. As the first block of its
segment it changes the index string, for which there may be no room. -/
theorem delDouon_next (hget : d.getdic seg = segBytes (l ++ t :: u :: r) tail)
    (hlen : d.seglen = (segBytes (l ++ t :: u :: r) tail).length)
    (hc : Coded [] (l ++ t :: u :: r)) (st : Option Stdy) (ofs : ℕ) :
    ∃ n, blkOfs (l ++ u :: r) + n = blkOfs (l ++ t :: u :: r) ∧
      delDouon d st seg (douonBytes (lastYomi [] l) (t :: u :: r) ++ tail) ofs =
        if l = [] ∧ u.yomi.length > d.countUidx + sstrlen (d.getIdxptr seg) then
          ⟨some adOvflwIndex, d, st⟩
        else
          ⟨some adDone, (if l = [] then d.chgUidx seg u.yomi u.yomi.length else d).putdic seg
            (segBytes (l ++ u :: r) (tail ++ List.replicate n dicSegTerm)),
            st.map (Stdy.delStdy d.dicid seg ofs n)⟩ := by
  obtain ⟨hcl, hpt, hst, htu, hsu, hcr⟩ := coded_append.mp hc
  obtain ⟨prev, hprev⟩ : ∃ p, p = lastYomi [] l := ⟨_, rfl⟩
  have hmin : u.plen prev = min (t.plen prev) (u.plen t.yomi) :=
    lcp_eq_min (hprev ▸ hpt.le) htu.le
  obtain ⟨k, hk⟩ : ∃ k, k = u.plen t.yomi - u.plen prev := ⟨_, rfl⟩
  have hk' : u.plen prev + k = u.plen t.yomi := by omega
  have hpn := t.plen_add_nlen prev
  have hpu := u.plen_le t.yomi
  have hlt : u.plen t.yomi ≤ t.yomi.length := lcp_le_left _ _
  have hsz := size_add_plen u prev t.yomi
  have hnu := u.plen_add_nlen t.yomi
  obtain ⟨R, hR⟩ : ∃ R, R = u.body ++ (douonBytes u.yomi r ++ tail) := ⟨_, rfl⟩
  -- the two headers with their readings, and what is behind them
  obtain ⟨ht, hht⟩ : ∃ h, h = setSize (t.size prev) (t.plen prev) (t.nlen prev) := ⟨_, rfl⟩
  obtain ⟨hu, hhu⟩ : ∃ h, h = setSize (u.size t.yomi) (u.plen t.yomi) (u.nlen t.yomi) := ⟨_, rfl⟩
  obtain ⟨yt, hyt⟩ : ∃ y, y = t.yomi.drop (t.plen prev) := ⟨_, rfl⟩
  obtain ⟨yu, hyu⟩ : ∃ y, y = u.yomi.drop (u.plen t.yomi) := ⟨_, rfl⟩
  have hytl : yt.length = t.nlen prev := by rw [hyt, List.length_drop]; rfl
  have hnxt : u.bytes t.yomi ++ (douonBytes u.yomi r ++ tail) = hu ++ (yu ++ R) := by
    rw [hhu, hyu, hR]
    simp [DouonBlk.bytes]
  have hptr : douonBytes (lastYomi [] l) (t :: u :: r) ++ tail =
      t.bytes prev ++ (u.bytes t.yomi ++ (douonBytes u.yomi r ++ tail)) := by
    rw [hprev]
    simp [douonBytes]
  have hptr' : t.bytes prev = ht ++ (yt ++ t.body) := by rw [hht, hyt]; rfl
  have hbuf : segBytes (l ++ t :: u :: r) tail =
      segBytes l [] ++ (t.bytes prev ++ (hu ++ (yu ++ R))) := by
    rw [segBytes_append, hptr, hnxt]
  have htag : getntag (t.bytes prev ++ (hu ++ (yu ++ R))) = hu ++ (yu ++ R) :=
    getntag_bytes (hprev ▸ hst) _
  have hat : ofsOf (segBytes l [] ++ (t.bytes prev ++ (hu ++ (yu ++ R))))
      (t.bytes prev ++ (hu ++ (yu ++ R))) = blkOfs l := by
    rw [ofsOf_append, length_segFront]
  have hofs : ofsOf (segBytes l [] ++ (t.bytes prev ++ (hu ++ (yu ++ R)))) (hu ++ (yu ++ R)) =
      blkOfs l + t.size prev := by
    rw [← List.append_assoc, ofsOf_append, List.length_append, length_segFront,
      DouonBlk.length_bytes]
  have htop : ofsOf (segBytes l [] ++ (t.bytes prev ++ (hu ++ (yu ++ R))))
      (segtop (segBytes l [] ++ (t.bytes prev ++ (hu ++ (yu ++ R))))) = 1 := by
    rw [← hbuf]
    exact ofsOf_segtop _ _
  have hsize : t.size prev = douonBlkSizeNumber + t.nlen prev + t.body.length := rfl
  have hlen' : d.seglen = blkOfs l + (t.size prev + (douonBlkSizeNumber + (yu ++ R).length)) := by
    rw [hlen, hbuf, hhu]
    simp only [List.length_append, length_segFront, DouonBlk.length_bytes, length_setSize]
  obtain ⟨fill, hfill⟩ : ∃ f, f = List.replicate (t.size prev - k) dicSegTerm := ⟨_, rfl⟩
  refine ⟨t.size prev - k, ?_, ?_⟩
  · simp only [blkOfs_append, length_douonBytes_cons, ← hprev]
    omega
  have hgt : getplen (t.bytes prev ++ (hu ++ (yu ++ R))) = t.plen prev :=
    getplen_bytes (hprev ▸ hst) _
  have hlenk : (if t.plen prev < u.plen t.yomi then u.plen t.yomi - t.plen prev else 0) = k := by
    split <;> omega
  have hend : segend (hu ++ (yu ++ R)) = false := hnxt ▸ segend_bytes hsu _
  have hgs : getsize (hu ++ (yu ++ R)) = u.size t.yomi := hnxt ▸ getsize_bytes hsu _
  have hgn : getnlen (hu ++ (yu ++ R)) = u.nlen t.yomi := hnxt ▸ getnlen_bytes hsu _
  have hgp : getplen (hu ++ (yu ++ R)) = u.plen t.yomi := hnxt ▸ getplen_bytes hsu _
  obtain ⟨h', hh'⟩ : ∃ h', h' = setSize (u.size t.yomi + k) (u.plen t.yomi - k)
    (u.nlen t.yomi + k) := ⟨_, rfl⟩
  have hfl : fill.length = t.size prev - k := by rw [hfill, List.length_replicate]
  have hmove := overwrite_copyAsc_header_fill (segBytes l []) ht h' yt (t.body ++ hu) (yu ++ R) fill
    (k := k) (n := d.seglen) (by rw [hht, hh']; rfl) (by omega)
    (by rw [hfl, List.length_append, hhu, length_setSize]; omega) (by
      rw [hlen', hht, hhu]
      simp only [List.length_append, length_segFront, length_setSize, hytl]
      omega)
  have h3 : (segBytes l []).length + h'.length = blkOfs l + douonBlkSizeNumber := by
    rw [length_segFront, hh', length_setSize]
  have hq : blkOfs l + douonBlkSizeNumber + yt.length + (t.body ++ hu).length =
      blkOfs l + t.size prev + douonBlkSizeNumber := by
    rw [List.length_append, hhu, length_setSize]
    omega
  rw [h3, hq, length_segFront, hfl, hfill] at hmove
  have hbuf' : segBytes l [] ++ (ht ++ (yt ++ (t.body ++ hu ++ (yu ++ R)))) =
      segBytes l [] ++ (t.bytes prev ++ (hu ++ (yu ++ R))) := by
    rw [hptr']
    simp only [List.append_assoc]
  have hblk : h' ++ (yt.take k ++ (yu ++ u.body)) = u.bytes prev := by
    rw [hh', hyt, hyu, hprev]
    exact bytes_next hpt htu (hprev ▸ hk')
  have hnew : segBytes l [] ++ (h' ++ (yt.take k ++ (yu ++ R ++ fill))) =
      segBytes (l ++ u :: r) (tail ++ fill) := by
    rw [segBytes_append, ← hprev, douonBytes, ← hblk, hR]
    simp only [List.append_assoc]
  rw [hbuf', ← hfill, hnew] at hmove
  have hcount : blkOfs l + t.size prev + douonBlkSizeNumber - (blkOfs l + douonBlkSizeNumber + k) =
      t.size prev - k := by omega
  have hcond : (blkOfs l = 1 ∧ u.nlen t.yomi + u.plen t.yomi > d.countUidx +
      sstrlen (d.getIdxptr seg)) ↔
        (l = [] ∧ u.yomi.length > d.countUidx + sstrlen (d.getIdxptr seg)) := by
    rw [Layout.blkOfs_eq_one_iff, Nat.add_comm, hnu]
  rw [hptr, hnxt, delDouon]
  simp only [hget, hbuf, htag, hend, hat, htop, hofs, hgs, hgn, hgp, hgt, hlenk, hcond,
    ← hh', hcount,
    ← hfill, hmove, Bool.false_eq_true, if_false]
  by_cases hov : l = [] ∧ u.yomi.length > d.countUidx + sstrlen (d.getIdxptr seg)
  · rw [if_pos hov, if_pos hov]
  rw [if_neg hov, if_neg hov]
  by_cases hl : l = []
  · subst hl
    have hread : (segBytes ([] ++ u :: r) (tail ++ fill)).drop (blkOfs [] + douonBlkSizeNumber) =
        u.yomi ++ (u.body ++ (douonBytes u.yomi r ++ (tail ++ fill))) := by
      simp [segBytes, douonBytes, DouonBlk.bytes, blkOfs, setSize, douonBlkSizeNumber,
        DouonBlk.plen]
    have hyl : u.nlen t.yomi + k = u.yomi.length := by
      have : u.plen prev = 0 := by rw [hprev]; exact lcp_nil_left _
      omega
    rw [hread, hyl, d.chgUidx_congr, if_pos ((Layout.blkOfs_eq_one_iff _).mpr rfl), if_pos rfl]
    rfl
  · rw [if_neg fun he => hl ((Layout.blkOfs_eq_one_iff l).mp he), if_neg hl]

end Sj3
