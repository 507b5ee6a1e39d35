import Sj3.Verification.Add.Loop
import Sj3.Verification.Delete.Word

/-! # A dictionary without a word

Deletion leaves a well-formed dictionary, with the blocks it had but for the word that goes. -/

namespace Sj3

open Buffer FrontCoding StringArea

variable {d : Dict} {segs pre post : List Seg} {free : ℕ} {s s' : Seg} {w : Word}
  {l r : List DouonBlk} {t t' : DouonBlk} {k : Bytes}

/-! ## Well-formed segments -/

/-- A segment whose readings are some of those it had. -/
theorem WellFormed.replace (h : WellFormed (pre ++ s :: post)) (hidx : s'.idx = headYomi s'.blks)
    (hne : s'.blks ≠ [])
    (hsub : (s'.blks.map DouonBlk.yomi).Sublist (s.blks.map DouonBlk.yomi))
    (hfit : SizesFit [] s'.blks) (husr : ∀ t ∈ s'.blks, t.IsUsr) :
    WellFormed (pre ++ s' :: post) where
  ne_nil := by simp
  idx := by
    intro x hx
    rcases List.mem_append.mp hx with hx | hx
    · exact h.idx x (by simp [hx])
    · rcases List.mem_cons.mp hx with rfl | hx
      · exact hidx
      · exact h.idx x (by simp [hx])
  blks_ne := by
    rcases h.blks_ne with hone | hall
    · left
      simpa using hone
    · right
      intro x hx
      rcases List.mem_append.mp hx with hx | hx
      · exact hall x (by simp [hx])
      · rcases List.mem_cons.mp hx with rfl | hx
        · exact hne
        · exact hall x (by simp [hx])
  sorted := by
    have hs := h.sorted
    simp only [blocks_append, blocks_cons, List.map_append] at hs ⊢
    exact hs.sublist ((List.Sublist.refl _).append (hsub.append (List.Sublist.refl _)))
  fit := by
    intro x hx
    rcases List.mem_append.mp hx with hx | hx
    · exact h.fit x (by simp [hx])
    · rcases List.mem_cons.mp hx with rfl | hx
      · exact hfit
      · exact h.fit x (by simp [hx])
  isUsr := by
    intro u hu
    rw [blocks_append, blocks_cons] at hu
    rcases List.mem_append.mp hu with hu | hu
    · exact h.isUsr u (by simp [hu])
    · rcases List.mem_append.mp hu with hu | hu
      · exact husr u hu
      · exact h.isUsr u (by simp [hu])

/-- One of several segments is taken out. -/
theorem WellFormed.remove (h : WellFormed (pre ++ s :: post)) (hne : pre ++ post ≠ []) :
    WellFormed (pre ++ post) := by
  have hmem : ∀ x ∈ pre ++ post, x ∈ pre ++ s :: post := by
    intro x hx
    rcases List.mem_append.mp hx with hx | hx <;> simp [hx]
  have hall : ∀ x ∈ pre ++ s :: post, x.blks ≠ [] := by
    rcases h.blks_ne with hone | hall
    · simp only [List.length_append, List.length_cons] at hone
      exact absurd (List.length_eq_zero_iff.mp (by rw [List.length_append]; omega)) hne
    · exact hall
  have hsub : (blocks (pre ++ post)).Sublist (blocks (pre ++ s :: post)) := by
    rw [blocks_append, blocks_append, blocks_cons]
    exact (List.Sublist.refl _).append (List.sublist_append_right _ _)
  exact ⟨hne, fun x hx => h.idx x (hmem x hx), .inr fun x hx => hall x (hmem x hx),
    h.sorted.sublist (hsub.map _), fun x hx => h.fit x (hmem x hx),
    fun u hu => h.isUsr u (hsub.mem hu)⟩

theorem WellFormed.isUsr_of_mem (h : WellFormed (pre ++ s :: post)) : ∀ u ∈ s.blks, u.IsUsr :=
  fun u hu => h.isUsr u (by simp [hu])

/-- With a smaller block in the place of one of the same reading the sizes still fit. -/
theorem sizesFit_replace {prev : Bytes} (hf : SizesFit prev (l ++ t :: r)) (hy : t'.yomi = t.yomi)
    (hb : t'.body.length ≤ t.body.length) : SizesFit prev (l ++ t' :: r) := by
  rw [sizesFit_append] at hf ⊢
  refine ⟨hf.1, ?_, hy ▸ hf.2.2⟩
  have hs := hf.2.1
  simp only [DouonBlk.size, DouonBlk.nlen, DouonBlk.plen, hy] at hs ⊢
  omega

theorem headYomi_append_cons (hy : t'.yomi = t.yomi) :
    headYomi (l ++ t' :: r) = headYomi (l ++ t :: r) := by
  cases l with
  | nil => exact hy
  | cons u l => rfl

/-! ## The ways deletion ends -/

/-- How deletion of the string `k` ends: without room in the index for the reading of the next
block, or with the word gone from its block, from its segment, or together with its segment. -/
inductive Removal (env : Env) (d : Dict) (st : Option Stdy) (pre : List Seg) (s : Seg)
    (post : List Seg) (free : ℕ) (l : List DouonBlk) (t : DouonBlk) (r : List DouonBlk) (w : Word)
    (k : Bytes) (ofs : ℕ) : Result → Prop
  | overflow {u : DouonBlk} {r' : List DouonBlk} (hl : l = []) (hr : r = u :: r')
      (hcut : Cut t w k none) (hlen : free + s.idx.length < u.yomi.length) :
      Removal env d st pre s post free l t r w k ofs ⟨some adOvflwIndex, d, st⟩
  | inside {d' : Dict} {s' : Seg} {free' n : ℕ} {rest : Option DouonBlk} (hcut : Cut t w k rest)
      (hblks : s'.blks = l ++ (rest.toList ++ r)) (hn : blkOfs s'.blks + n = blkOfs s.blks)
      (hd : UsrDict d' (pre ++ s' :: post) free') :
      Removal env d st pre s post free l t r w k ofs
        ⟨some adDone, d', st.map (Stdy.delStdy d.dicid pre.length ofs n)⟩
  | segment {d' : Dict} {free' : ℕ} (hcut : Cut t w k none) (hblks : s.blks = [t])
      (hd : UsrDict d' (pre ++ post) free') :
      Removal env d st pre s post free l t r w k ofs
        ⟨some adDone, d', st.map (Stdy.delSegStdy d.dicid pre.length env.garbage)⟩
  | last {d' : Dict} {free' : ℕ} (hcut : Cut t w k none) (hblks : s.blks = [t])
      (hone : pre = [] ∧ post = []) (hd : UsrDict d' [emptySeg d.seglen] free') :
      Removal env d st pre s post free l t r w k ofs
        ⟨some adDone, d', st.map (Stdy.delSegStdy d.dicid pre.length env.garbage)⟩

/-! ## Taking a segment out -/

/-- A segment with others beside it is taken out, together with its index string. -/
theorem Layout.delSegment (h : Layout d (pre ++ s :: post) free) (env : Env) (st : Option Stdy)
    (hunit : d.segunit > 1) :
    ∃ d', Sj3.delSegment env d st pre.length =
        ⟨some adDone, d', st.map (Stdy.delSegStdy d.dicid pre.length env.garbage)⟩ ∧
      d'.seglen = d.seglen ∧ Layout d' (pre ++ post) (free + (s.idx.length + 1)) := by
  obtain ⟨d₁, hd₁⟩ : ∃ d₁ : Dict, d₁ =
    { d with segs := d.segs.eraseIdx pre.length, segunit := d.segunit - 1 } := ⟨_, rfl⟩
  have hlen : d₁.segunit = (pre ++ post).length := by
    rw [hd₁]
    simp only [h.segunit, List.length_append, List.length_cons]
    omega
  have hidx : IdxArea d₁ (pre.map Seg.idx ++ s.idx :: post.map Seg.idx) free := by
    have hi := h.index
    rw [List.map_append, List.map_cons] at hi
    exact hi.congr (by rw [hd₁]) (by rw [hd₁]) (by rw [hd₁])
  have hdel := hidx.delUidx (by rw [hlen]; simp)
  rw [List.length_map, ← List.map_append] at hdel
  refine ⟨d₁.delUidx pre.length, ?_, by rw [hd₁]; rfl, ?_, ?_, ?_, hdel⟩
  · rw [Sj3.delSegment]
    simp only [if_pos hunit, ← hd₁]
    rw [hd₁]
  · have hsegs : (d₁.delUidx pre.length).segs = d.segs.eraseIdx pre.length := by rw [hd₁]; rfl
    have hpre : (pre.map Seg.bytes).length = pre.length := List.length_map _
    rw [hsegs, h.bytes, List.map_append, List.map_cons, ← hpre,
      List.eraseIdx_append_of_length_le le_rfl, Nat.sub_self, List.eraseIdx_cons_zero,
      List.map_append]
  · exact hlen
  · intro x hx
    have hseglen : (d₁.delUidx pre.length).seglen = d.seglen := by rw [hd₁]; rfl
    rw [hseglen]
    refine h.seglen x ?_
    rcases List.mem_append.mp hx with hx | hx <;> simp [hx]

/-- The only segment is emptied, and so is its index string. -/
theorem Layout.delSegment_last (h : Layout d [s] free) (env : Env) (st : Option Stdy)
    (hlen : 1 ≤ d.seglen) :
    ∃ d', Sj3.delSegment env d st 0 =
        ⟨some adDone, d', st.map (Stdy.delSegStdy d.dicid 0 env.garbage)⟩ ∧
      d'.seglen = d.seglen ∧ Layout d' [emptySeg d.seglen] (free + s.idx.length) := by
  have hunit : d.segunit = 1 := h.segunit
  have hsegs : d.segs = [s.bytes] := h.bytes
  obtain ⟨d₁, hd₁⟩ : ∃ d₁, d₁ =
    d.putdic dicSegBase (0 :: List.replicate (d.seglen - 1) dicSegTerm) := ⟨_, rfl⟩
  -- without a segment in use the index area is the one without the string
  have hidx : IdxArea { d₁ with segunit := 0 } ([] ++ s.idx :: []) free :=
    h.index.congr (by rw [hd₁]; rfl) (by rw [hd₁]; rfl) (by rw [hd₁]; rfl)
  have hdel := hidx.delUidx rfl
  have hbuf : (d₁.delUidx 0).idxbuf = area 0 [[]] (free + s.idx.length) := by
    have h₁ : (d₁.delUidx 0).idxbuf = (Dict.delUidx { d₁ with segunit := 0 } 0).idxbuf := rfl
    have h₂ := hdel.idxbuf
    rw [List.length_nil] at h₂
    rw [h₁, h₂, ← Nat.add_assoc]
    rfl
  have hlenbuf : (d₁.delUidx 0).idxbuf.length = (d₁.delUidx 0).idxlen := by
    have h₁ := hdel.length_idxbuf
    exact h₁
  refine ⟨d₁.delUidx 0, ?_, by rw [hd₁]; rfl, ?_, ?_, ?_, ?_⟩
  · rw [Sj3.delSegment]
    simp only [hunit, gt_iff_lt, lt_irrefl, if_false, ← hd₁]
    rw [hd₁]
    rfl
  · rw [hd₁]
    simp [Dict.delUidx, Dict.mkidxtbl, Dict.putdic, hsegs, dicSegBase, emptySeg, Seg.bytes,
      segBytes, douonBytes]
  · rw [hd₁]
    exact hunit
  · intro x hx
    rw [List.mem_singleton.mp hx, hd₁]
    simp only [emptySeg, Seg.bytes, length_segBytes, blkOfs, douonBytes, List.length_nil,
      List.length_replicate, Dict.delUidx, Dict.mkidxtbl, Dict.putdic]
    omega
  · have harea := @IdxArea.mkidxtbl { d₁ with idxbuf := (d₁.delUidx 0).idxbuf }
      (free + s.idx.length) [[]] (by simp) (by rw [hd₁]; exact hunit) hbuf hlenbuf hidx.idxlen_lt
    exact harea

/-! ## Deleting a word -/

theorem IsTail.append_of_ne {a b : Bytes} (h : IsTail a) (hne : a ≠ []) : IsTail (a ++ b) := by
  cases a with
  | nil => exact absurd rfl hne
  | cons c a => exact h

/-- The segment is written back with other blocks, and its index string stays right. -/
theorem UsrDict.putdic (h : UsrDict d (pre ++ s :: post) free) (blks : List DouonBlk) (tail : Bytes)
    (htail : IsTail tail) (hne : blks ≠ []) (hhead : headYomi blks = headYomi s.blks)
    (hsub : (blks.map DouonBlk.yomi).Sublist (s.blks.map DouonBlk.yomi))
    (hfit : SizesFit [] blks) (husr : ∀ u ∈ blks, u.IsUsr)
    (hlen : (segBytes blks tail).length = d.seglen) :
    UsrDict (d.putdic pre.length (segBytes blks tail)) (pre ++ ⟨s.idx, blks, tail, htail⟩ :: post)
      free := by
  refine ⟨h.toLayout.putdic ⟨s.idx, blks, tail, htail⟩ rfl hlen, ?_, h.seglen_ge⟩
  exact h.toWellFormed.replace ((h.idx s (by simp)).trans hhead.symm) hne hsub hfit husr

section Removal

variable (h : UsrDict d (pre ++ s :: post) free) (hblks : s.blks = l ++ t :: r)

include h hblks

theorem UsrDict.bytes_eq : d.getdic pre.length = segBytes (l ++ t :: r) s.tail ∧
    d.seglen = (segBytes (l ++ t :: r) s.tail).length ∧ Coded [] (l ++ t :: r) := by
  have hb : s.bytes = segBytes (l ++ t :: r) s.tail := by rw [Seg.bytes, hblks]
  refine ⟨hb ▸ h.getdic, ?_, hblks ▸ h.coded⟩
  rw [← hb]
  exact h.length_bytes.symm

/-- The block `t` becomes `t'`, which has the bytes `gap` less. -/
theorem UsrDict.delBytes_removal (env : Env) (st : Option Stdy) (ofs : ℕ) (htail : s.tail ≠ [])
    (front : Bytes) {gap back : Bytes} (hcut : Cut t w k (some t'))
    (hbody : t.body = front ++ (gap ++ back))
    (hbody' : t'.body = front ++ back) :
    Removal env d st pre s post free l t r w k ofs
      (delBytes d st pre.length (douonBytes (lastYomi [] l) (t :: r) ++ s.tail)
        (gap ++ (back ++ (douonBytes t.yomi r ++ s.tail)))
        (back ++ (douonBytes t.yomi r ++ s.tail)) ofs) := by
  obtain ⟨hget, hlen, hc⟩ := h.bytes_eq hblks
  have hy : t'.yomi = t.yomi := hcut.yomi t' rfl
  obtain ⟨stale, hstale, he⟩ := delBytes_eq hget hlen (coded_append.mp hc).2.2.1 hy hbody hbody'
    st ofs
  have hn : blkOfs (l ++ t' :: r) + gap.length = blkOfs (l ++ t :: r) := by
    simp only [blkOfs_append, length_douonBytes_cons, DouonBlk.size, DouonBlk.nlen, DouonBlk.plen,
      hy, hbody, hbody', List.length_append]
    omega
  have hmap : (l ++ t' :: r).map DouonBlk.yomi = s.blks.map DouonBlk.yomi := by
    rw [hblks]
    simp [hy]
  have hd := h.putdic (l ++ t' :: r) (s.tail ++ stale) (s.isTail.append_of_ne htail) (by simp)
    (hblks ▸ headYomi_append_cons hy) (hmap ▸ List.Sublist.refl _)
    (sizesFit_replace (hblks ▸ h.fit s (by simp)) hy (hcut.length_le t' rfl))
    (by
      intro u hu
      rcases List.mem_append.mp hu with hu | hu
      · exact h.isUsr_of_mem u (by simp [hblks, hu])
      · rcases List.mem_cons.mp hu with rfl | hu
        · exact hcut.isUsr u rfl
        · exact h.isUsr_of_mem u (by simp [hblks, hu]))
    (by
      rw [hlen, length_segBytes, length_segBytes, List.length_append, hstale]
      omega)
  rw [he]
  exact .inside hcut rfl (by rw [hblks]; exact hn) hd

/-- The block `t` goes, and the segment has others. -/
theorem UsrDict.delDouon_removal (env : Env) (st : Option Stdy) (ofs : ℕ) (htail : s.tail ≠ [])
    (hseg : d.seglen ≤ maxDouonBlk) (hidx : t.yomi.length ≤ free + 2) (hcut : Cut t w k none)
    (hne : l ++ r ≠ []) :
    Removal env d st pre s post free l t r w k ofs
      (delDouon d st pre.length (douonBytes (lastYomi [] l) (t :: r) ++ s.tail) ofs) := by
  obtain ⟨hget, hlen, hc⟩ := h.bytes_eq hblks
  have hst := (coded_append.mp hc).2.2.1
  have husr : ∀ u ∈ l ++ r, u.IsUsr := by
    intro u hu
    refine h.isUsr_of_mem u ?_
    rw [hblks]
    rcases List.mem_append.mp hu with hu | hu <;> simp [hu]
  have hsub : ((l ++ r).map DouonBlk.yomi).Sublist (s.blks.map DouonBlk.yomi) := by
    rw [hblks]
    exact ((List.Sublist.refl _).append (List.sublist_cons_self _ _)).map _
  cases r with
  | nil =>
      rw [List.append_nil] at hne hsub husr
      obtain ⟨stale, hstale, he⟩ := delDouon_last hget hlen hst s.isTail st ofs
      have hn : blkOfs l + t.size (lastYomi [] l) = blkOfs (l ++ [t]) := (blkOfs_concat l t).symm
      obtain ⟨u, l', rfl⟩ := List.exists_cons_of_ne_nil hne
      have hfit := h.fit s (by simp)
      rw [hblks, sizesFit_append] at hfit
      have hfill : List.replicate s.tail.length dicSegTerm ≠ [] := by
        intro hz
        exact htail (List.length_eq_zero_iff.mp (by simpa using hz))
      have hd := h.putdic (u :: l') (List.replicate s.tail.length dicSegTerm ++ stale)
        ((isTail_replicate _).append_of_ne hfill) hne (by rw [hblks]; rfl) hsub hfit.1 husr
        (by
          rw [hlen, length_segBytes, length_segBytes, List.length_append, List.length_replicate,
            hstale]
          omega)
      rw [douonBytes, douonBytes, List.append_nil, he]
      exact .inside hcut (by simp) (by rw [hblks]; exact hn) hd
  | cons u r =>
      obtain ⟨n, hn, he⟩ := delDouon_next hget hlen hc st ofs
      have hcount : d.countUidx = free := h.countUidx_eq (by simp)
      have hstr : sstrlen (d.getIdxptr pre.length) = s.idx.length := by
        have hi := h.index
        rw [List.map_append, List.map_cons] at hi
        have := hi.sstrlen_getIdxptr
        rwa [List.length_map] at this
      rw [he, hcount, hstr]
      by_cases hov : l = [] ∧ u.yomi.length > free + s.idx.length
      · rw [if_pos hov]
        exact .overflow hov.1 rfl hcut hov.2
      rw [if_neg hov]
      have hlen' : (segBytes (l ++ u :: r) (s.tail ++ List.replicate n dicSegTerm)).length =
          d.seglen := by
        rw [hlen, length_segBytes, length_segBytes, List.length_append, List.length_replicate]
        omega
      have htail' : IsTail (s.tail ++ List.replicate n dicSegTerm) :=
        s.isTail.append (isTail_replicate n)
      have hfit : SizesFit [] (l ++ u :: r) := by
        have hf := h.fit s (by simp)
        rw [hblks, sizesFit_append] at hf
        rw [sizesFit_append]
        refine ⟨hf.1, ?_, hf.2.2.2⟩
        rw [length_segBytes, blkOfs_append, length_douonBytes_cons] at hlen'
        omega
      by_cases hl : l = []
      · subst hl
        have hs : s.idx = t.yomi := by
          rw [h.idx s (by simp), hblks]
          rfl
        have hpos := List.length_pos_of_ne_nil u.isYomi.ne_nil
        have hroom : ¬ u.yomi.length > free + s.idx.length := fun hgt => hov ⟨rfl, hgt⟩
        have hchg : ChgOk free s.idx.length u.yomi.length := by
          rw [hs] at hroom ⊢
          exact ⟨by omega, by omega⟩
        have hlay := (h.toLayout.chgUidx u.isYomi.ne_zero hchg).putdic
          ⟨u.yomi, [] ++ u :: r, s.tail ++ List.replicate n dicSegTerm, htail'⟩ rfl hlen'
        rw [if_pos rfl]
        refine .inside hcut rfl (by rw [hblks]; exact hn) ⟨hlay, ?_, h.seglen_ge⟩
        exact h.toWellFormed.replace rfl (by simp) hsub hfit husr
      · rw [if_neg hl]
        have hhead : headYomi (l ++ u :: r) = headYomi s.blks := by
          obtain ⟨v, l', rfl⟩ := List.exists_cons_of_ne_nil hl
          rw [hblks]
          rfl
        exact .inside hcut rfl (by rw [hblks]; exact hn)
          (h.putdic _ _ htail' hne hhead hsub hfit husr hlen')

/-- The word goes from its block. -/
theorem UsrDict.delWord_removal (env : Env) (st : Option Stdy) (hlt : ∀ u ∈ l, u.yomi < w.yomi)
    (ht : t.yomi = w.yomi) (htail : s.tail ≠ []) (hseg : d.seglen ≤ maxDouonBlk)
    (hidx : t.yomi.length ≤ free + 2) {hl hr : List HinsiBlk} {b : HinsiBlk} {kl kr : List Bytes}
    (hhit : Hit t w hl b hr kl k kr) :
    Removal env d st pre s post free l t r w k (knjOfs l t hl kl)
      (delWord env d st pre.length w.yomi w.kanji w.hinsi) := by
  obtain ⟨hget, hlen, hc⟩ := h.bytes_eq hblks
  have hu : t.IsUsr := h.isUsr_of_mem t (by simp [hblks])
  rw [delWord_hit hget hc hlt ht hu s.isTail env st hhit]
  by_cases hk : kl ++ kr = []
  swap
  · rw [if_neg hk]
    refine h.delBytes_removal hblks env st _ htail (hinsiBytes hl ++ b.hinsi :: knjBytes kl)
      (hhit.cut_kanji hu hk) ?_ ?_
    · rw [DouonBlk.body_eq, hhit.hinsi_eq, hinsiBytes_append, hinsiBytes_cons, HinsiBlk.bytes,
        hhit.kanji_eq, knjBytes_append, knjBytes_cons]
      simp only [List.append_assoc, List.cons_append, List.nil_append]
    · rw [DouonBlk.body_eq, DouonBlk.keep, hinsiBytes_append, hinsiBytes_cons, HinsiBlk.bytes,
        HinsiBlk.keep, knjBytes_append]
      simp only [List.append_assoc, List.cons_append, List.nil_append]
  rw [if_pos hk]
  obtain ⟨rfl, rfl⟩ := List.append_eq_nil_iff.mp hk
  by_cases hh : hl ++ hr = []
  swap
  · rw [if_neg hh]
    refine h.delBytes_removal hblks env st _ htail (hinsiBytes hl) (hhit.cut_hinsi hu hh) ?_ ?_
    · rw [DouonBlk.body_eq, hhit.hinsi_eq, hinsiBytes_append, hinsiBytes_cons]
    · rw [DouonBlk.body_eq, DouonBlk.keep, hinsiBytes_append]
  rw [if_pos hh]
  obtain ⟨rfl, rfl⟩ := List.append_eq_nil_iff.mp hh
  have hcut : Cut t w k none := hhit.cut_douon
  by_cases hlr : l ++ r = []
  swap
  · rw [if_neg hlr]
    exact h.delDouon_removal hblks env st _ htail hseg hidx hcut hlr
  rw [if_pos hlr]
  obtain ⟨rfl, rfl⟩ := List.append_eq_nil_iff.mp hlr
  by_cases hunit : d.segunit > 1
  · obtain ⟨d', he, hlen', hlay⟩ := h.toLayout.delSegment env st hunit
    have hne : pre ++ post ≠ [] := by
      intro hz
      have hone := h.segunit
      obtain ⟨rfl, rfl⟩ := List.append_eq_nil_iff.mp hz
      rw [hone] at hunit
      exact absurd hunit (by simp)
    rw [he]
    exact .segment hcut hblks ⟨hlay, h.toWellFormed.remove hne, hlen' ▸ h.seglen_ge⟩
  · have hone := h.segunit
    simp only [List.length_append, List.length_cons] at hone
    obtain rfl : pre = [] := List.length_eq_zero_iff.mp (by omega)
    obtain rfl : post = [] := List.length_eq_zero_iff.mp (by omega)
    have hpos : 1 ≤ d.seglen := by
      have := h.seglen_ge
      simp only [minSegLen] at this
      omega
    obtain ⟨d', he, hlen', hlay⟩ := Layout.delSegment_last h.toLayout env st hpos
    rw [List.length_nil, he]
    refine .last hcut hblks ⟨rfl, rfl⟩
      ⟨hlay, ⟨by simp, ?_, .inl rfl, ?_, ?_, ?_⟩, hlen' ▸ h.seglen_ge⟩
    · simp [emptySeg, headYomi]
    · simp [emptySeg]
    · intro x hx
      rw [List.mem_singleton.mp hx]
      trivial
    · simp [emptySeg]

end Removal

end Sj3
