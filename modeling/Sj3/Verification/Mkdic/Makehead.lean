import Sj3.Verification.Dict.Geometry
import Sj3.Verification.Dict.IndexArea
import Sj3.Verification.Dict.Lookup
import Sj3.Verification.Mkdic.Makelist

/-! # The compiled file

The server opens the file of the compiler as a dictionary of the segments in it. -/

namespace Sj3.Mkdic

open Buffer StringArea

/-- The header of a file of `n` segments; `text` is what is behind the numbers. -/
def fileHeader (n : ℕ) (text : Bytes) : Bytes :=
  put4byte dictVersion ++ (List.replicate 28 0 ++ (put4byte 256 ++ (put4byte mainIndexLength ++
    (List.replicate 8 0 ++ (put4byte 2304 ++ (put4byte mainSegmentLength ++ (put4byte n ++
      (put4byte 0 ++ (List.replicate 64 0 ++ text)))))))))

theorem overwrite_left {α : Type*} (F T w : List α) (pos : ℕ) (h : pos + w.length ≤ F.length) :
    overwrite (F ++ T) pos w = overwrite F pos w ++ T := by
  rw [overwrite, overwrite, List.take_append_of_le_length (by omega),
    List.drop_append_of_le_length h]
  simp

@[simp] theorem length_put4byte (n : ℕ) : (put4byte n).length = 4 := rfl

/-- A number in the first half of the header leaves its length. -/
theorem length_overwrite_number {F : Bytes} {pos n : ℕ} (hF : F.length = headerLength)
    (hpos : pos + 4 ≤ headerLength) : (overwrite F pos (put4byte n)).length = headerLength := by
  rw [length_overwrite _ _ _ (by rwa [hF, length_put4byte]), hF]

theorem overwrite_number_left {F : Bytes} {pos n : ℕ} (T : Bytes) (hF : F.length = headerLength)
    (hpos : pos + 4 ≤ headerLength) :
    overwrite (F ++ T) pos (put4byte n) = overwrite F pos (put4byte n) ++ T :=
  overwrite_left _ _ _ _ (by rwa [hF, length_put4byte])

set_option maxRecDepth 4000 in
/-- The numbers of the header. -/
theorem header_numbers (n : ℕ) :
    overwrite (overwrite (overwrite (overwrite (overwrite (overwrite
      (put4byte dictVersion ++ List.replicate 124 0)
      dictIdxPos (put4byte 256)) dictIdxLen (put4byte mainIndexLength))
      dictSegPos (put4byte 2304)) dictSegLen (put4byte mainSegmentLength))
      dictSegMax (put4byte 0)) dictSegNum (put4byte n) = fileHeader n [] := rfl

theorem makehead_eq {comment : Bytes} (w : Written) (hc : comment.length ≤ commentLength) :
    ∃ text, text.length = commentLength ∧ makehead comment w =
      fileHeader w.segs.length text ++
        ((w.mindex ++ List.replicate (mainIndexLength - w.mindex.length) 0) ++ w.segs.flatten) := by
  obtain ⟨text, htext⟩ : ∃ text, text =
    comment ++ (List.replicate commentLength (0 : UInt8)).drop comment.length := ⟨_, rfl⟩
  have hover : overwrite (overwrite (List.replicate (headerLength + commentLength) 0) versionPos
      (put4byte dictVersion)) headerLength comment =
      (put4byte dictVersion ++ List.replicate 124 0) ++ text := by
    have hsplit : overwrite (List.replicate (headerLength + commentLength) 0) versionPos
        (put4byte dictVersion) =
        (put4byte dictVersion ++ List.replicate 124 0) ++ List.replicate commentLength 0 := rfl
    have hpos : headerLength = (put4byte dictVersion ++ List.replicate 124 0).length := rfl
    rw [hsplit, hpos, overwrite, List.take_left, List.drop_append, htext]
    simp
  have hfront : fileHeader w.segs.length text = fileHeader w.segs.length [] ++ text := by
    simp [fileHeader]
  refine ⟨text, ?_, ?_⟩
  · rw [htext, List.length_append, List.length_drop, List.length_replicate]
    omega
  · have hidx : headerLength + commentLength = 256 := rfl
    have hseg : 256 + mainIndexLength = 2304 := rfl
    simp only [makehead, hover]
    rw [hidx, hseg]
    obtain ⟨v, hv⟩ : ∃ v, v = put4byte dictVersion ++ List.replicate 124 0 := ⟨_, rfl⟩
    have h₀ : v.length = headerLength := by rw [hv]; rfl
    have h₁ := @length_overwrite_number v dictIdxPos 256 h₀ (by decide)
    have h₂ := @length_overwrite_number _ dictIdxLen mainIndexLength h₁ (by decide)
    have h₃ := @length_overwrite_number _ dictSegPos 2304 h₂ (by decide)
    have h₄ := @length_overwrite_number _ dictSegLen mainSegmentLength h₃ (by decide)
    have h₅ := @length_overwrite_number _ dictSegMax 0 h₄ (by decide)
    rw [hfront, ← header_numbers, ← hv, overwrite_number_left text h₀ (by decide),
      overwrite_number_left text h₁ (by decide), overwrite_number_left text h₂ (by decide),
      overwrite_number_left text h₃ (by decide), overwrite_number_left text h₄ (by decide),
      overwrite_number_left text h₅ (by decide)]

/-- Segments of one length can be told apart again. -/
theorem take_drop_flatten {α : Type*} {n : ℕ} {xs : List (List α)} (h : ∀ x ∈ xs, x.length = n) :
    (List.range xs.length).map (fun i => (xs.flatten.drop (n * i)).take n) = xs := by
  induction xs with
  | nil => rfl
  | cons x xs ih =>
      have hx : x.length = n := h x (by simp)
      rw [List.length_cons, List.range_succ_eq_map, List.map_cons, List.map_map, List.flatten_cons]
      congr 1
      · rw [Nat.mul_zero, List.drop_zero, ← hx, List.take_left]
      · refine Eq.trans ?_ (ih fun y hy => h y (by simp [hy]))
        apply List.map_congr_left
        intro i _
        have hi : n * (i + 1) = x.length + n * i := by rw [hx, Nat.mul_succ, Nat.add_comm]
        simp only [Function.comp_apply, Nat.succ_eq_add_one, hi]
        rw [← List.drop_drop, List.drop_left]

/-- The server opens a compiled file, with the segments and the index of the compiler. -/
theorem opendictFile_makehead (ino : ℕ) (writable : Bool) (passwd comment : Bytes) (w : Written)
    (hc : comment.length ≤ commentLength) (hidx : w.mindex.length ≤ mainIndexLength)
    (hsegs : ∀ seg ∈ w.segs, seg.length = mainSegmentLength) (hn : w.segs.length < 2 ^ 15) :
    ∃ d, opendictFile ino writable passwd (makehead comment w) = .ok d ∧
      d.toDict.segs = w.segs ∧ d.toDict.seglen = mainSegmentLength ∧
      d.toDict.idxbuf = w.mindex ++ List.replicate (mainIndexLength - w.mindex.length) 0 ∧
      d.toDict.segunit = w.segs.length ∧ d.toDict.idxlen = mainIndexLength ∧
      d.toDict.idxofs = (Dict.mkidxtblLoop w.segs.length 0 d.toDict.idxbuf).map
        fun i => (UInt16.ofNat i).toNat := by
  obtain ⟨text, htext, hfile⟩ := makehead_eq w hc
  obtain ⟨file, hf⟩ : ∃ file, file = makehead comment w := ⟨_, rfl⟩
  obtain ⟨mindex, hm⟩ : ∃ mindex, mindex =
    w.mindex ++ List.replicate (mainIndexLength - w.mindex.length) 0 := ⟨_, rfl⟩
  have hmlen : mindex.length = mainIndexLength := by
    rw [hm, List.length_append, List.length_replicate]
    omega
  rw [← hf, ← hm] at hfile
  have hcheck : checkDictfile (file.take headerLength) = true := by
    rw [hfile]
    exact decide_eq_true (get4byte_put4byte (by decide) _)
  have hpasswd : checkPasswd (file.take headerLength) passwd = true := by
    have hhead : ((file.take headerLength).drop passwdPos).headD 0 = 0 := by rw [hfile]; rfl
    exact decide_eq_true fun h => h.1 hhead
  have hidxpos : get4byte (file.drop dictIdxPos) = 256 := by
    rw [hfile]
    exact get4byte_put4byte (by decide) _
  have hidxlen : get4byte (file.drop dictIdxLen) = mainIndexLength := by
    rw [hfile]
    exact get4byte_put4byte (by decide) _
  have hsegpos : get4byte (file.drop dictSegPos) = 2304 := by
    rw [hfile]
    exact get4byte_put4byte (by decide) _
  have hseglen : get4byte (file.drop dictSegLen) = mainSegmentLength := by
    rw [hfile]
    exact get4byte_put4byte (by decide) _
  have hsegnum : get4byte (file.drop dictSegNum) = w.segs.length := by
    rw [hfile]
    exact get4byte_put4byte (by omega) _
  have hunit : (Int16.ofNat w.segs.length).toInt.toNat = w.segs.length := by
    rw [Int16.toInt_ofNat_of_lt hn]
    rfl
  have hhlen : (fileHeader w.segs.length text).length = 256 := by
    simp only [fileHeader, put4byte, List.length_append, List.length_replicate, List.length_cons,
      List.length_nil, htext, commentLength]
  have hdrop : file.drop 256 = mindex ++ w.segs.flatten := by
    rw [hfile, ← hhlen, List.drop_left]
  have hdrop' : file.drop 2304 = w.segs.flatten := by
    have h2304 : (2304 : ℕ) = 256 + mindex.length := by rw [hmlen]; rfl
    rw [h2304, ← List.drop_drop, hdrop, List.drop_left]
  rw [← hf, opendictFile]
  simp only [hcheck, hpasswd, not_true, if_false, hidxpos, hidxlen, hsegpos, hseglen, hsegnum]
  refine ⟨_, rfl, ?_, rfl, ?_, hunit, rfl, ?_⟩
  · refine Eq.trans ?_ (take_drop_flatten hsegs)
    simp only [DictRecord.toDict, DictRecord.mkidxtbl, DictRecord.segpos]
    rw [hunit]
    apply List.map_congr_left
    intro i _
    rw [← List.drop_drop, hdrop']
    rfl
  · refine Eq.trans ?_ ((List.take_of_length_le hmlen.le).trans hm)
    simp only [DictRecord.toDict, DictRecord.mkidxtbl, DictRecord.getidx]
    rw [hdrop, List.take_append_of_le_length (by rw [hmlen]; decide)]
    rfl
  · simp only [DictRecord.toDict, DictRecord.mkidxtbl, DictRecord.getidx]
    rw [hunit, List.map_map]
    rfl

/-! ## Index -/

theorem length_le_strings (ss : List Bytes) : ss.length ≤ (strings 0 ss).length := by
  induction ss with
  | nil => simp
  | cons s ss ih =>
      simp only [strings_cons, List.length_append, List.length_cons]
      omega

theorem offsets_lt {n ofs : ℕ} {ss : List Bytes} (h : ofs + (strings 0 ss).length ≤ n) :
    ∀ i ∈ offsets ofs ss, i < n := by
  induction ss generalizing ofs with
  | nil => simp [offsets]
  | cons s ss ih =>
      simp only [strings_cons, List.length_append, List.length_cons] at h
      intro i hi
      rcases List.mem_cons.mp hi with rfl | hi
      · omega
      · exact ih (by omega) i hi

/-- The index of an area leads to its strings. -/
theorem exists_getIdxptr {d : Dict} {idxs : List Bytes} {free : ℕ} (h : IdxArea d idxs free)
    (i : ℕ) (hi : i < idxs.length) :
    ∃ rest, d.getIdxptr i = idxs[i] ++ rest ∧ rest.headD 0 = 0 := by
  obtain ⟨l, y, r, rfl, rfl⟩ : ∃ l y r, idxs = l ++ y :: r ∧ l.length = i :=
    ⟨_, _, _, (List.take_append_drop i _).symm.trans (by rw [List.drop_eq_getElem_cons hi]), by
      simp
      omega⟩
  refine ⟨0 :: area 0 r free, ?_, rfl⟩
  rw [h.getIdxptr]
  simp

/-- The first readings of the segments are some of the readings. -/
theorem idx_sublist {segs : List DicSeg} (h : ∀ s ∈ segs, s.blks ≠ []) :
    (segs.map DicSeg.idx).Sublist ((segs.flatMap DicSeg.blks).map DouonBlk.yomi) := by
  induction segs with
  | nil => simp
  | cons s segs ih =>
      obtain ⟨t, ts, ht⟩ := List.exists_cons_of_ne_nil (h s (by simp))
      have hidx : s.idx = t.yomi := by rw [DicSeg.idx, ht]; rfl
      rw [List.map_cons, List.flatMap_cons, List.map_append, ht, List.map_cons, hidx,
        List.cons_append]
      apply List.Sublist.cons_cons
      exact (ih fun s hs => h s (by simp [hs])).trans (List.sublist_append_right _ _)

/-! ## Whole files -/

/-- The segments of the records `done`, written one after the other; the association strings of
each were chosen from its codes. -/
inductive Wrote : List (List DouonRec) → Written → Prop
  | start : Wrote [] ⟨[], []⟩
  | seg {done : List (List DouonRec)} {w w' : Written} {drecs : List DouonRec} {seg : SegRec}
      {chosen : List Bytes} (hw : Wrote done w) (hne : drecs ≠ []) (hok : ∀ drec ∈ drecs, drec.Ok)
      (hseg : drecs.foldlM makeDList ⟨[], []⟩ = some seg)
      (hlen : chosen.length ≤ maxKnjAskNumber)
      (href : ∀ a ∈ chosen, a ≠ [] ∧ ∃ k, Refers seg.ofsrec a k)
      (h : makeseg w seg.ofsrec chosen seg.douon = some w') : Wrote (done ++ [drecs]) w'

/-- The segments that have been written. -/
structure Wrote.Segs (done : List (List DouonRec)) (w : Written) (segs : List DicSeg) : Prop where
  segs_eq : w.segs = segs.map DicSeg.bytes
  length : ∀ s ∈ segs, s.bytes.length = mainSegmentLength
  mindex : w.mindex = strings 0 (segs.map DicSeg.idx)
  mindex_le : w.mindex.length ≤ mainIndexLength
  ne_nil : ∀ s ∈ segs, s.blks ≠ []
  readAs : List.Forall₂ (fun drecs s => List.Forall₂ (DouonRec.ReadAs s.bytes) drecs s.blks)
    done segs

theorem Wrote.exists_segs {done : List (List DouonRec)} {w : Written} (h : Wrote done w) :
    ∃ segs, Wrote.Segs done w segs := by
  induction h with
  | start => exact ⟨[], rfl, by simp, rfl, by simp, by simp, .nil⟩
  | @seg done w w' drecs seg chosen hw hne hok hseg hlen href h ih =>
      obtain ⟨segs, hs⟩ := ih
      have hhas : seg.Has (fun _ => True) drecs :=
        segRec_has_nil.run hok (fun _ _ _ _ _ _ => trivial) hseg
      obtain ⟨s, hsegs, hslen, hidx, hle, hread⟩ := hhas.makeseg hne hok hlen href h
      have hsne : s.blks ≠ [] := by
        intro hnil
        have hl := hread.length_eq
        rw [hnil] at hl
        exact hne (List.length_eq_zero_iff.mp hl)
      refine ⟨segs ++ [s], ?_, ?_, ?_, hle, ?_, List.rel_append hs.readAs (.cons hread .nil)⟩
      · rw [hsegs, hs.segs_eq, List.map_append, List.map_singleton]
      · intro s' hs'
        rcases List.mem_append.mp hs' with hs' | hs'
        · exact hs.length s' hs'
        · rw [List.mem_singleton.mp hs']
          exact hslen
      · rw [hidx, hs.mindex, List.map_append, strings_append]
        simp
      · intro s' hs'
        rcases List.mem_append.mp hs' with hs' | hs'
        · exact hs.ne_nil s' hs'
        · rw [List.mem_singleton.mp hs']
          exact hsne

/-- Every segment takes a byte of the index at least. -/
theorem Wrote.Segs.count_lt {done : List (List DouonRec)} {w : Written} {segs : List DicSeg}
    (hs : Wrote.Segs done w segs) : segs.length < 2 ^ 15 := by
  have hcount := length_le_strings (segs.map DicSeg.idx)
  have hle := hs.mindex_le
  rw [hs.mindex] at hle
  rw [List.length_map] at hcount
  rw [mainIndexLength] at hle
  omega

/-- The readings of the blocks are those of the records. -/
theorem map_yomi {done : List (List DouonRec)} {segs : List DicSeg}
    (h : List.Forall₂ (fun drecs s => List.Forall₂ (DouonRec.ReadAs s.bytes) drecs s.blks)
      done segs) :
    (segs.flatMap DicSeg.blks).map DouonBlk.yomi = done.flatten.map DouonRec.yptr := by
  have hone : ∀ {dicbuf : Bytes} {drecs : List DouonRec} {blks : List DouonBlk},
      List.Forall₂ (DouonRec.ReadAs dicbuf) drecs blks →
        blks.map DouonBlk.yomi = drecs.map DouonRec.yptr := by
    intro dicbuf drecs blks hr
    induction hr with
    | nil => rfl
    | cons hr _ ih => rw [List.map_cons, List.map_cons, hr.1, ih]
  induction h with
  | nil => rfl
  | cons hr _ ih =>
      rw [List.flatMap_cons, List.flatten_cons, List.map_append, List.map_append, hone hr, ih]

/-- A compiled file, of records whose readings ascend over all segments, is opened as a dictionary
of segments with a block for each record, in which the server reads what the record has; looking
up an input in it reports the blocks whose readings start the input. -/
theorem compiled_opens {done : List (List DouonRec)} {w : Written} (ino : ℕ) (writable : Bool)
    (passwd comment : Bytes) (hw : Wrote done w) (hne : done ≠ [])
    (hsorted : (done.flatten.map DouonRec.yptr).Pairwise (· < ·))
    (hc : comment.length ≤ commentLength) :
    ∃ d segs, opendictFile ino writable passwd (makehead comment w) = .ok d ∧
      List.Forall₂ (fun drecs s => List.Forall₂ (DouonRec.ReadAs s.bytes) drecs s.blks) done segs ∧
      Opened d.toDict segs ∧ ∀ x tagp, 0 ∉ x →
        Reports d.toDict x ⟨1, 0, -1, tagp⟩ (hits x (places 0 segs)) := by
  obtain ⟨segs, hs⟩ := hw.exists_segs
  have hcount : segs.length = w.segs.length := by rw [hs.segs_eq, List.length_map]
  have hyomi := map_yomi hs.readAs
  have hsub := idx_sublist hs.ne_nil
  have hn : w.segs.length < 2 ^ 15 := by
    rw [← hcount]
    exact hs.count_lt
  have hlen : ∀ seg ∈ w.segs, seg.length = mainSegmentLength := by
    intro seg hseg
    rw [hs.segs_eq] at hseg
    obtain ⟨s, hmem, rfl⟩ := List.mem_map.mp hseg
    exact hs.length s hmem
  obtain ⟨d, hopen, hdsegs, hseglen, hidxbuf, hunit, hidxlen, hidxofs⟩ :=
    opendictFile_makehead ino writable passwd comment w hc hs.mindex_le hlen hn
  have hzero : ∀ x ∈ segs.map DicSeg.idx, 0 ∉ x := by
    intro x hx
    obtain ⟨t, ht, rfl⟩ := List.mem_map.mp (hsub.subset hx)
    exact t.isYomi.ne_zero
  obtain ⟨free, hfree⟩ : ∃ free, free = mainIndexLength - w.mindex.length := ⟨_, rfl⟩
  have harea : d.toDict.idxbuf = area 0 (segs.map DicSeg.idx) free := by
    rw [hidxbuf, hs.mindex, hfree, hs.mindex, area]
  have hoffsets : d.toDict.idxofs = offsets 0 (segs.map DicSeg.idx) := by
    rw [hidxofs, harea, ← hcount, ← List.length_map DicSeg.idx, mkidxtblLoop_area hzero]
    have hlt : ∀ i ∈ offsets 0 (segs.map DicSeg.idx), i < 2048 := by
      apply offsets_lt
      rw [Nat.zero_add, ← hs.mindex]
      exact hs.mindex_le
    refine Eq.trans (List.map_congr_left fun i hi => ?_) (List.map_id _)
    have := hlt i hi
    rw [UInt16.toNat_ofNat']
    exact Nat.mod_eq_of_lt (by omega)
  have hindex : IdxArea d.toDict (segs.map DicSeg.idx) free := by
    refine ⟨hzero, harea, ?_, by rw [hidxlen]; decide, [], by rw [hoffsets, List.append_nil]⟩
    have hle := hs.mindex_le
    rw [hidxbuf, hidxlen, List.length_append, List.length_replicate]
    omega
  have hsne : segs ≠ [] := by
    rintro rfl
    exact hne (List.length_eq_zero_iff.mp hs.readAs.length_eq)
  have hopened : Opened d.toDict segs := by
    refine ⟨⟨?_, by simpa using hsne, hzero, exists_getIdxptr hindex, ?_⟩, ?_, ?_, ?_⟩
    · rw [hunit, List.length_map, hcount]
    · exact (hyomi ▸ hsorted : ((segs.flatMap DicSeg.blks).map DouonBlk.yomi).Pairwise _).sublist
        hsub
    · intro i hi
      rw [Dict.getdic, hdsegs, hs.segs_eq]
      simp [hi]
    · intro s hmem
      rw [hseglen, hs.length s hmem]
    · exact hyomi ▸ hsorted
  exact ⟨d, segs, hopen, hs.readAs, hopened, fun x tagp hx => reports_start hopened hx tagp⟩

theorem compiled_opens_sample : ∃ w d s,
    makeseg ⟨[], []⟩ sampleSeg.ofsrec [[0x90, 1]] sampleSeg.douon = some w ∧
      opendictFile 1 false [] (makehead [0x20, 0x3a] w) = .ok d ∧ Opened d.toDict [s] ∧
      List.Forall₂ (DouonRec.ReadAs s.bytes) sampleRecs s.blks := by
  obtain ⟨w, hw⟩ := sampleSeg_makeseg
  have hwrote : Wrote [sampleRecs] w :=
    .seg .start (by decide) sampleRecs_ok sampleSeg_eq (by decide) sampleSeg_refers hw
  obtain ⟨d, segs, hopen, hread, hopened, -⟩ := compiled_opens 1 false [] [0x20, 0x3a] hwrote
    (by simp) (by decide) (by decide)
  cases hread with
  | cons hr hnil =>
      cases hnil
      exact ⟨w, d, _, hw, hopen, hopened, hr⟩

end Sj3.Mkdic
