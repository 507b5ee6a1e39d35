import Mathlib.Data.List.GetD
import Sj3.Verification.Dict.Srchdict

/-! # Repeated look-up

One call of `srchdict` moves the search to the next block to report. From the initial
state, and from the one `checksub` starts in, the calls report every such block ahead. -/

namespace Sj3

open FrontCoding

variable {d : Dict} {segs : List DicSeg} {x : Bytes}

/-! ## States between two calls -/

/-- The search is at `st.tagp` of some segment: the readings up to `prev` are passed, and
the places `rem` are ahead. -/
inductive Ready (segs : List DicSeg) (x : Bytes) (st : Dict.Srch) : List Place → Prop
  | mk {pre s post prev ts} (hsegs : segs = pre ++ s :: post)
      (hseg : st.prevseg = pre.length) (hinl : st.dicinl = st.dicsaml + 1)
      (htag : getntag st.tagp = douonBytes prev ts ++ s.tail) (hcoded : Coded prev ts)
      (hsub : ts <:+ s.blks) (hp : Passed x prev st.dicsaml) (hidx : s.idx ≤ prev)
      (hlt : ∀ t ∈ ts ++ post.flatMap DicSeg.blks, prev < t.yomi) :
      Ready segs x st (placesOf pre.length s.tail prev ts ++ places (pre.length + 1) post)

/-- What a call has to do when the places `rem` are ahead: report the first hit. -/
inductive Next (segs : List DicSeg) (x : Bytes) :
    List Place → Option Bytes × Dict.Srch → Prop
  | none {rem : List Place} {st : Dict.Srch} (hrem : ∀ p ∈ rem, isHit x p = false) :
      Next segs x rem (none, st)
  | some {l r : List Place} {p : Place} {st : Dict.Srch} (hl : ∀ q ∈ l, isHit x q = false)
      (hp : isHit x p = true)
      (hseg : st.prevseg = p.seg) (hready : Ready segs x st r) :
      Next segs x (l ++ p :: r) (some p.tagp, st)

theorem Next.skip {rem : List Place} {r : Option Bytes × Dict.Srch} (l : List Place)
    (hl : ∀ q ∈ l, isHit x q = false) (h : Next segs x rem r) : Next segs x (l ++ rem) r := by
  cases h with
  | none hrem =>
      refine .none fun p hp => ?_
      rcases List.mem_append.mp hp with hp | hp
      · exact hl p hp
      · exact hrem p hp
  | some hl' hp hseg hready =>
      rw [← List.append_assoc]
      refine .some (fun q hq => ?_) hp hseg hready
      rcases List.mem_append.mp hq with hq | hq
      · exact hl q hq
      · exact hl' q hq

theorem not_isHit_of_not_prefix {p : Place} (h : ¬ p.blk.yomi <+: x) : isHit x p = false := by
  rw [← Bool.not_eq_true, isHit_iff]
  exact fun h' => h h'.1

/-! ## One walk -/

/-- The walk of `srchdict` over segment `segno` from `tagp` on, and what follows it. -/
def walkSeg (d : Dict) (x : Bytes) (n inl : ℕ) (saml segno : ℕ) (tagp : Bytes) :
    Option Bytes × Dict.Srch :=
  match Dict.srchdictSeg (d.getIdxptr segno) x (min x.length maxWdYomiLen)
      ((d.getdic segno).length + 1) tagp saml with
  | .none tagp saml => (none, ⟨inl, saml, segno, tagp⟩)
  | .found tagp saml => (some tagp, ⟨saml + 1, saml, segno, tagp⟩)
  | .rest tagp saml =>
      d.srchdictLoop x (min x.length maxWdYomiLen) n ⟨saml + 1, saml, segno, tagp⟩

theorem srchdictLoop_succ (n : ℕ) (st : Dict.Srch) :
    d.srchdictLoop x (min x.length maxWdYomiLen) (n + 1) st =
      if st.dicinl ≤ min x.length maxWdYomiLen then
        let segno := d.srchidx x st.prevseg st.dicinl
        if st.prevseg ≠ segno then
          walkSeg d x n st.dicinl st.dicsaml segno (segtop (d.getdic segno))
        else if segend (getntag st.tagp) then
          if segno + 1 ≥ d.segunit then
            (none, { st with prevseg := segno + 1, tagp := getntag st.tagp })
          else walkSeg d x n st.dicinl st.dicsaml (segno + 1) (segtop (d.getdic (segno + 1)))
        else walkSeg d x n st.dicinl st.dicsaml segno (getntag st.tagp)
      else (none, st) := rfl

section Walk

variable {pre post : List DicSeg} {s : DicSeg} {prev first : Bytes} {ts : List DouonBlk}
  {saml n inl : ℕ}

/-- A walk over the blocks `ts` of a segment does its part of the call, given that the
calls behind it do theirs. -/
theorem walkSeg_next (h : Opened d segs) (hsegs : segs = pre ++ s :: post)
    (hc : CodedFrom first ts) (hsub : ts <:+ s.blks) (hp : Passed x prev saml)
    (hidx : ts = [] → s.idx ≤ prev) (hlt : ∀ t ∈ ts ++ post.flatMap DicSeg.blks, prev < t.yomi)
    (hcmp : ∀ t r, ts = t :: r → yomicmp (d.getIdxptr pre.length) x
      (t.bytes first ++ (douonBytes t.yomi r ++ s.tail)) saml = compareYomi x t.yomi saml 0)
    (hsaml : saml ≤ min x.length maxWdYomiLen)
    (ih : ∀ st rem, Ready segs x st rem → rem.length ≤ (places (pre.length + 1) post).length +
      (ts.length - 1) → st.prevseg = pre.length →
      Next segs x rem (d.srchdictLoop x (min x.length maxWdYomiLen) n st)) :
    Next segs x (placesOf pre.length s.tail first ts ++ places (pre.length + 1) post)
      (walkSeg d x n inl saml pre.length (douonBytes first ts ++ s.tail)) := by
  have hlen : ts.length < (d.getdic pre.length).length + 1 := by
    have h₁ := length_douonBytes_le s.first s.blks
    have h₂ := hsub.length_le
    rw [h.getdic_eq hsegs]
    simp only [DicSeg.bytes, List.length_cons, List.length_append]
    omega
  have hwalk := srchdictSeg_spec (d.getIdxptr pre.length) hc s.isTail hp hcmp hsaml hlen
  have hsort := (h.sorted_blks hsegs).sublist hsub.sublist
  have horder := (h.coded_blks hsegs).2
  have hidxle := h.idx_le hsegs
  -- what a block whose reading starts the input leaves ahead
  have hready : ∀ l t r, ts = l ++ t :: r → t.yomi <+: x →
      Ready segs x ⟨t.yomi.length + 1, t.yomi.length, pre.length,
        douonBytes (lastYomi first l) (t :: r) ++ s.tail⟩
        (placesOf pre.length s.tail t.yomi r ++ places (pre.length + 1) post) := by
    intro l t r hts hpre
    have hct : t.size (lastYomi first l) ≤ maxDouonBlk ∧ Coded t.yomi r := by
      subst hts
      cases l with
      | nil => exact hc
      | cons u l => exact (coded_append.mp hc.2).2.2
    have hrs : r <:+ s.blks :=
      (hts ▸ (List.suffix_append (l ++ [t]) r |>.trans (by simp)) : r <:+ ts).trans hsub
    refine .mk hsegs rfl rfl ?_ hct.2 hrs ?_
      (hidxle t (hsub.subset (by simp [hts]))) ?_
    · rw [douonBytes, List.append_assoc, getntag_bytes hct.1]
    · rw [← lcp_eq_length_iff.mpr hpre]
      exact Passed.of_le (prefix_le hpre)
    · intro u hu
      rcases List.mem_append.mp hu with hu | hu
      · rw [hts] at hsort
        exact (List.pairwise_cons.mp (List.pairwise_append.mp hsort).2.1).1 u hu
      · exact horder t (hsub.subset (by simp [hts])) u hu
  have hskip : ∀ (l r : List DouonBlk), (∀ u ∈ l, ¬ u.yomi <+: x) →
      ∀ q ∈ placesOf pre.length (douonBytes (lastYomi first l) r ++ s.tail) first l,
        isHit x q = false :=
    fun l r hl q hq => not_isHit_of_not_prefix (hl _ (blk_mem_of_placesOf hq))
  unfold walkSeg
  generalize Dict.srchdictSeg (d.getIdxptr pre.length) x (min x.length maxWdYomiLen)
    ((d.getdic pre.length).length + 1) (douonBytes first ts ++ s.tail) saml = w at hwalk ⊢
  cases hwalk with
  | @rest _ saml' hts hp' =>
      -- the segment is at its end, only the ones behind it are left
      refine Next.skip _ (fun q hq => not_isHit_of_not_prefix (hts _ (blk_mem_of_placesOf hq))) ?_
      have hle : s.idx ≤ lastYomi prev ts := by
        rcases lastYomi_mem_or prev ts with ⟨hnil, he⟩ | ⟨t, ht, he⟩
        · rw [he]
          exact hidx hnil
        · rw [he]
          exact hidxle t (hsub.subset ht)
      have hready' : Ready segs x ⟨saml' + 1, saml', pre.length, s.tail⟩
          (placesOf pre.length s.tail (lastYomi prev ts) [] ++ places (pre.length + 1) post) := by
        refine .mk hsegs rfl rfl (getntag_tail s.isTail) trivial List.nil_suffix hp' hle ?_
        intro u hu
        rcases lastYomi_mem_or prev ts with ⟨hnil, he⟩ | ⟨t, ht, he⟩
        · rw [he]
          exact hlt u (by simpa [hnil] using hu)
        · rw [he]
          exact horder t (hsub.subset ht) u (by simpa using hu)
      exact ih _ _ hready' (by simp) rfl
  | @past l t r tagp saml' hl ht =>
      refine .none fun p hp => not_isHit_of_not_prefix fun hpre => ?_
      have hple := prefix_le hpre
      rcases List.mem_append.mp hp with hp | hp
      · have hmem := blk_mem_of_placesOf hp
        rcases List.mem_append.mp hmem with hmem | hmem
        · exact hl _ hmem hpre
        · rcases List.mem_cons.mp hmem with he | hmem
          · rw [he] at hple
            exact absurd ht (not_lt.mpr hple)
          · have := (List.pairwise_cons.mp (List.pairwise_append.mp hsort).2.1).1 _ hmem
            exact absurd (ht.trans this) (not_lt.mpr hple)
      · have := horder t (hsub.subset (by simp)) _ (blk_mem_of_places hp)
        exact absurd (ht.trans this) (not_lt.mpr hple)
  | @dpnd l t r hl ht hd =>
      have hno : isHit x ⟨pre.length, douonBytes (lastYomi first l) (t :: r) ++ s.tail, t⟩ =
          false := by
        simp only [isHit, hd]
        simp
      have hahead := ih _ _ (hready l t r rfl ht) (by
        simp only [List.length_append, length_placesOf, List.length_cons]
        omega) rfl
      rw [placesOf_append, List.append_assoc]
      refine Next.skip _ (hskip l (t :: r) hl) ?_
      exact Next.skip [_] (by simpa using hno) hahead
  | @found l t r hl ht hd =>
      rw [placesOf_append, List.append_assoc, placesOf, List.cons_append]
      exact .some (p := ⟨pre.length, douonBytes (lastYomi first l) (t :: r) ++ s.tail, t⟩)
        (hskip l (t :: r) hl) (isHit_iff.mpr ⟨ht, hd⟩) rfl (hready l t r rfl ht)

/-- A walk over a whole segment, of which the codes `saml` are known to agree with the
blocks in front of it. -/
theorem walkSeg_top (h : Opened d segs) (h0 : 0 ∉ x) (hsegs : segs = pre ++ s :: post)
    (hp : Passed x prev saml)
    (hlt : ∀ t ∈ s.blks ++ post.flatMap DicSeg.blks, prev < t.yomi)
    (hsaml : saml ≤ min x.length maxWdYomiLen)
    (ih : ∀ st rem, Ready segs x st rem → rem.length ≤ (places (pre.length + 1) post).length +
      (s.blks.length - 1) → st.prevseg = pre.length →
      Next segs x rem (d.srchdictLoop x (min x.length maxWdYomiLen) n st)) :
    Next segs x (places pre.length (s :: post))
      (walkSeg d x n inl saml pre.length (segtop (d.getdic pre.length))) := by
  rw [h.getdic_eq hsegs, DicSeg.segtop_bytes]
  refine walkSeg_next h hsegs s.coded List.suffix_rfl hp ?_ hlt ?_ hsaml ih
  · intro hnil
    rw [DicSeg.idx, hnil]
    exact nil_le _
  · intro t r hts
    have hs : t.size s.first ≤ maxDouonBlk := by
      have := s.coded
      rw [hts] at this
      exact this.1
    have hpt : prev < t.yomi := hlt t (by simp [hts])
    rcases s.first_eq with hf | hf
    · rw [hf] at hs ⊢
      have hplen : t.plen [] = 0 := by simp [DouonBlk.plen]
      refine yomicmp_bytes hs hp (by rw [hplen]; exact Nat.zero_le _) ?_ _ _
      have := List.length_pos_of_ne_nil t.isYomi.ne_nil
      simp only [DouonBlk.nlen, hplen]
      omega
    · have hidx : s.idx = t.yomi := by simp [DicSeg.idx, headYomi, hts]
      have hf' : s.first = t.yomi := by rw [hf, hts]; rfl
      have hi : pre.length < (segs.map DicSeg.idx).length := by simp [hsegs]
      obtain ⟨rest, he, hr⟩ := h.indexed.getIdxptr pre.length hi
      rw [Opened.getElem_idxs hsegs, hidx] at he
      rw [hf'] at hs ⊢
      rw [he]
      exact yomicmp_index hs hp hpt h0 rest _ hr

end Walk

/-! ## One call -/

/-- No reading that starts the input lies between the last one passed and the key of the
next search. -/
theorem not_prefix_of_lt_key {prev y z : Bytes} {saml : ℕ} (hp : Passed x prev saml)
    (hy : prev < y) (hyz : y < z) (hz : z ≤ x.take (saml + 1)) : ¬ y <+: x := by
  intro hpre
  have hlen := hp.lt_of_prefix hpre hy
  have hkey : x.take (saml + 1) <+: y :=
    List.prefix_of_prefix_length_le (List.take_prefix _ _) hpre (by simp; omega)
  exact absurd (hyz.trans_le hz) (not_lt.mpr (prefix_le hkey))

theorem exists_split {α : Type*} {l : List α} {i : ℕ} (h : i < l.length) :
    ∃ pre a post, l = pre ++ a :: post ∧ pre.length = i :=
  ⟨l.take i, l[i], l.drop (i + 1), by simp, by simp; omega⟩

theorem srchdictLoop_next (h : Opened d segs) (h0 : 0 ∉ x) {st : Dict.Srch} {rem : List Place}
    (hr : Ready segs x st rem) (n : ℕ) (hn : rem.length + segs.length ≤ n + st.prevseg.toNat) :
    Next segs x rem (d.srchdictLoop x (min x.length maxWdYomiLen) n st) := by
  induction n generalizing st rem with
  | zero =>
      obtain ⟨hsegs, hseg, -, -, -, -, -, -, -⟩ := hr
      simp only [hseg, hsegs, List.length_append, List.length_cons, Int.toNat_natCast] at hn
      omega
  | succ n ih =>
      obtain ⟨hsegs, hseg, hinl, htag, hcoded, hsub, hp, hidx, hlt⟩ := hr
      rename_i pre s post prev ts
      have hlen : segs.length = pre.length + 1 + post.length := by
        rw [hsegs, List.length_append, List.length_cons]
        omega
      simp only [hseg, Int.toNat_natCast, List.length_append, length_placesOf] at hn
      rw [srchdictLoop_succ]
      by_cases hmax : st.dicinl ≤ min x.length maxWdYomiLen
      · have hsaml : st.dicsaml ≤ min x.length maxWdYomiLen := by omega
        have hkey : prev ≤ x.take st.dicinl := by
          rw [hinl, hp.eq]
          exact le_take_lcp_succ hp.le
        have hi : pre.length < (segs.map DicSeg.idx).length := by simp; omega
        have hhit : Indexed.Hit _ (x.take st.dicinl) (d.srchidx x st.prevseg st.dicinl) :=
          h.indexed.srchidx_spec (by omega) st.prevseg (.inr ⟨pre.length, hi, hseg, by
            rw [Opened.getElem_idxs hsegs]
            exact hidx.trans hkey⟩) (by omega)
        generalize d.srchidx x st.prevseg st.dicinl = j at hhit
        rw [if_pos hmax]
        simp only [hseg]
        have hge : pre.length ≤ j := by
          by_contra hlt'
          have := hhit.gt pre.length hi (by omega)
          rw [Opened.getElem_idxs hsegs] at this
          exact absurd (hidx.trans hkey) (not_le.mpr this)
        rcases Nat.eq_or_lt_of_le hge with rfl | hj
        · rw [if_neg (by simp)]
          -- the search goes on in the same segment, or in the one behind it
          cases ts with
          | cons t ts =>
              rw [if_neg (by rw [htag, douonBytes, List.append_assoc,
                segend_bytes hcoded.2.1]; simp), htag]
              refine walkSeg_next h hsegs hcoded.codedFrom hsub hp (by simp) hlt ?_ hsaml ?_
              · intro u r hu
                obtain ⟨rfl, rfl⟩ := List.cons.inj hu
                exact yomicmp_bytes hcoded.2.1 hp le_rfl (DouonBlk.nlen_pos hcoded.1).ne' _ _
              · intro st' rem' hr' hrem' hseg'
                refine ih hr' ?_
                simp only [hseg', Int.toNat_natCast]
                simp only [List.length_cons] at hn hrem'
                omega
          | nil =>
              rw [htag, douonBytes, List.nil_append, if_pos s.isTail.segend]
              simp only [h.indexed.segunit, List.length_map]
              cases post with
              | nil =>
                  rw [if_pos (by simp [hlen])]
                  exact .none (by simp [placesOf, places])
              | cons s' post =>
                  have hsegs' : segs = (pre ++ [s]) ++ s' :: post := by simp [hsegs]
                  have hl : (pre ++ [s]).length = pre.length + 1 := by simp
                  rw [if_neg (by simp only [List.length_cons] at hlen; omega), ← hl]
                  refine walkSeg_top h h0 hsegs' hp (by simpa using hlt) hsaml ?_
                  intro st' rem' hr' hrem' hseg'
                  refine ih hr' ?_
                  rw [hseg', Int.toNat_natCast]
                  simp only [places, List.length_append, length_placesOf, hl,
                    List.length_nil] at hn hrem' ⊢
                  omega
        · rw [if_pos (by omega)]
          -- nothing in the segments that are left out starts the input
          have hjlen : j < segs.length := by simpa using hhit.lt
          obtain ⟨mid, s', post', hpost, hmid⟩ :=
            exists_split (l := post) (i := j - (pre.length + 1)) (by omega)
          have hsegs' : segs = (pre ++ s :: mid) ++ s' :: post' := by simp [hsegs, hpost]
          have hl : (pre ++ s :: mid).length = j := by
            simp only [List.length_append, List.length_cons]
            omega
          have hidx' : s'.idx ≤ x.take (st.dicsaml + 1) := by
            rw [← hinl]
            rcases hhit.le with h' | h'
            · omega
            · have hle := h' hhit.lt
              simp only [← hl] at hle
              rwa [Opened.getElem_idxs hsegs'] at hle
          have hne : s'.blks ≠ [] := by
            intro hnil
            have hgt := h.indexed.getElem_lt_getElem hi hhit.lt hj
            simp only [← hl] at hgt
            rw [Opened.getElem_idxs hsegs', DicSeg.idx, hnil] at hgt
            exact List.not_lt_nil _ hgt
          have hskip : ∀ q ∈ placesOf pre.length s.tail prev ts ++ places (pre.length + 1) mid,
              isHit x q = false := by
            intro q hq
            have hq' : q.blk ∈ ts ++ mid.flatMap DicSeg.blks := by
              rcases List.mem_append.mp hq with hq | hq
              · exact List.mem_append_left _ (blk_mem_of_placesOf hq)
              · exact List.mem_append_right _ (blk_mem_of_places hq)
            have hpq : prev < q.blk.yomi := by
              refine hlt _ ?_
              rw [hpost, List.flatMap_append, ← List.append_assoc]
              exact List.mem_append_left _ hq'
            have hqs : q.blk.yomi < s'.idx := by
              refine h.lt_idx hsegs' hne _ ?_
              rw [List.flatMap_append, List.flatMap_cons]
              refine List.mem_append_right _ ?_
              rcases List.mem_append.mp hq' with hq' | hq'
              · exact List.mem_append_left _ (hsub.subset hq')
              · exact List.mem_append_right _ hq'
            exact not_isHit_of_not_prefix (not_prefix_of_lt_key hp hpq hqs hidx')
          have hrem : placesOf pre.length s.tail prev ts ++ places (pre.length + 1) post =
              (placesOf pre.length s.tail prev ts ++ places (pre.length + 1) mid) ++
                places j (s' :: post') := by
            rw [hpost, places_append, List.append_assoc, hmid,
              Nat.add_sub_cancel' (by omega)]
          rw [hrem]
          refine Next.skip _ hskip ?_
          rw [← hl]
          refine walkSeg_top h h0 hsegs' hp ?_ hsaml ?_
          · intro t ht
            refine hlt t ?_
            rw [hpost, List.flatMap_append, List.flatMap_cons]
            exact List.mem_append_right _ (List.mem_append_right _ ht)
          · intro st' rem' hr' hrem' hseg'
            refine ih hr' ?_
            rw [hl] at hrem' hseg'
            rw [hpost, places_append, hmid, Nat.add_sub_cancel' (by omega)] at hn
            rw [hseg', Int.toNat_natCast]
            simp only [places, List.length_append, length_placesOf] at hn
            omega
      · rw [if_neg hmax]
        refine .none fun q hq => not_isHit_of_not_prefix fun hpre => ?_
        have hq' : q.blk ∈ ts ++ post.flatMap DicSeg.blks := by
          rcases List.mem_append.mp hq with hq | hq
          · exact List.mem_append_left _ (blk_mem_of_placesOf hq)
          · exact List.mem_append_right _ (blk_mem_of_places hq)
        have h₁ := hp.lt_of_prefix hpre (hlt _ hq')
        have h₂ := hpre.length_le
        have h₃ := q.blk.isYomi.length_le
        omega

/-- The first call enters the segment for the key, and leaves the ones in front of it out. -/
theorem srchdictLoop_start (h : Opened d segs) (h0 : 0 ∉ x) {inl : ℕ}
    (hinl : inl ≤ min x.length maxWdYomiLen) (tagp : Bytes) (n : ℕ)
    (hn : (places 0 segs).length + segs.length ≤ n) :
    ∃ pre s post, segs = pre ++ s :: post ∧
      (∀ u ∈ pre.flatMap DicSeg.blks, ∃ z, u.yomi < z ∧ z ≤ x.take inl) ∧
      Next segs x (places pre.length (s :: post))
        (d.srchdictLoop x (min x.length maxWdYomiLen) (n + 1) ⟨inl, 0, -1, tagp⟩) := by
  have hhit : Indexed.Hit _ (x.take inl) (d.srchidx x (-1) inl) :=
    h.indexed.srchidx_spec (by omega) (-1) (.inl (by omega)) le_rfl
  rw [srchdictLoop_succ, if_pos hinl]
  generalize d.srchidx x (-1) inl = j at hhit
  obtain ⟨pre, s, post, hsegs, rfl⟩ :=
    exists_split (l := segs) (i := j) (by simpa using hhit.lt)
  refine ⟨pre, s, post, hsegs, ?_, ?_⟩
  · intro u hu
    have hpos : pre.length ≠ 0 := by
      intro hz
      simp [List.length_eq_zero_iff.mp hz] at hu
    have hle := (hhit.le.resolve_left hpos) hhit.lt
    rw [Opened.getElem_idxs hsegs] at hle
    refine ⟨s.idx, h.lt_idx hsegs ?_ u hu, hle⟩
    intro hnil
    have hgt := h.indexed.getElem_lt_getElem (i := 0) (j := pre.length)
      (Nat.lt_of_le_of_lt (Nat.zero_le _) hhit.lt) hhit.lt (by omega)
    rw [Opened.getElem_idxs hsegs, DicSeg.idx, hnil] at hgt
    exact List.not_lt_nil _ hgt
  · rw [if_pos (by simp)]
    refine walkSeg_top h h0 hsegs (Passed.start x) ?_ (Nat.zero_le _) ?_
    · intro t _
      obtain ⟨c, y, hy⟩ := List.exists_cons_of_ne_nil t.isYomi.ne_nil
      rw [hy]
      exact List.nil_lt_cons c y
    · intro st rem hr hrem hseg
      refine srchdictLoop_next h h0 hr n ?_
      rw [hsegs, places_append, Nat.zero_add] at hn
      simp only [places, List.length_append, length_placesOf, List.length_cons] at hn hrem
      rw [hseg, Int.toNat_natCast, hsegs]
      simp only [List.length_append, List.length_cons]
      omega

/-! ## All calls -/

/-- From the state `st` on, the calls of `srchdict` report the listed blocks (by segment
and pointer) and then no more. -/
inductive Reports (d : Dict) (x : Bytes) : Dict.Srch → List (ℤ × Bytes) → Prop
  | stop {st st' : Dict.Srch} (h : d.srchdict x x.length st = (none, st')) : Reports d x st []
  | next {st st' : Dict.Srch} {tagp : Bytes} {ps : List (ℤ × Bytes)}
      (h : d.srchdict x x.length st = (some tagp, st')) (hs : Reports d x st' ps) :
      Reports d x st ((st'.prevseg, tagp) :: ps)

/-- The hits among some places, as they are reported. -/
def hits (x : Bytes) (rem : List Place) : List (ℤ × Bytes) :=
  (rem.filter (isHit x)).map fun p => (p.seg, p.tagp)

theorem hits_append (l r : List Place) : hits x (l ++ r) = hits x l ++ hits x r := by
  simp [hits]

theorem hits_eq_nil {l : List Place} (h : ∀ p ∈ l, isHit x p = false) : hits x l = [] := by
  rw [hits, List.filter_eq_nil_iff.mpr fun p hp => by simp [h p hp]]
  rfl

theorem srchdict_eq (st : Dict.Srch) :
    d.srchdict x x.length st =
      d.srchdictLoop x (min x.length maxWdYomiLen) ((d.segunit + 1) * (d.seglen + 1)) st := rfl

/-- There are enough turns for every block and every segment. -/
theorem Opened.fuel (h : Opened d segs) :
    (places 0 segs).length + segs.length + 1 ≤ (d.segunit + 1) * (d.seglen + 1) := by
  have hlen := length_places_le h.seglen 0
  rw [h.indexed.segunit, List.length_map]
  rw [Nat.add_mul, Nat.mul_add, Nat.mul_one, Nat.one_mul]
  omega

/-- Once the search is under way the hits ahead are reported. -/
theorem reports_of_next (h : Opened d segs) (h0 : 0 ∉ x) {rem : List Place} {st : Dict.Srch}
    (hall : rem.length ≤ (places 0 segs).length)
    (hnext : Next segs x rem (d.srchdict x x.length st)) : Reports d x st (hits x rem) := by
  induction hm : rem.length using Nat.strong_induction_on generalizing rem st with
  | h m ih =>
      generalize hr : d.srchdict x x.length st = r at hnext
      cases hnext with
      | none hrem =>
          rw [hits_eq_nil hrem]
          exact .stop hr
      | @some l r p st' hl hp hseg hready =>
          have hlen : r.length < m := by
            simp only [List.length_append, List.length_cons] at hm
            omega
          have hfuel := h.fuel
          have hrest := ih r.length hlen (by omega) (by
            rw [srchdict_eq]
            exact srchdictLoop_next h h0 hready _ (by omega)) rfl
          have hcons : hits x (p :: r) = (st'.prevseg, p.tagp) :: hits x r := by
            simp [hits, hp, hseg]
          rw [hits_append, hits_eq_nil hl, List.nil_append, hcons]
          exact .next hr hrest

theorem places_sorted (h : Opened d segs) :
    (places 0 segs).Pairwise fun p q => p.blk.yomi < q.blk.yomi := by
  have hblk : ∀ (seg : ℕ) (tail first : Bytes) (ts : List DouonBlk),
      (placesOf seg tail first ts).map Place.blk = ts := by
    intro seg tail first ts
    induction ts generalizing first with
    | nil => rfl
    | cons t ts ih => simp [placesOf, ih]
  have hmap : ∀ (seg : ℕ) (segs : List DicSeg),
      (places seg segs).map Place.blk = segs.flatMap DicSeg.blks := by
    intro seg segs
    induction segs generalizing seg with
    | nil => rfl
    | cons s segs ih => simp [places, hblk, ih]
  have hs := h.sorted
  rw [← hmap 0 segs, List.map_map, List.pairwise_map] at hs
  exact hs

/-- Hits come in the order of their lengths. -/
theorem hits_lengths (h : Opened d segs) :
    ((places 0 segs).filter (isHit x)).Pairwise fun p q =>
      p.blk.yomi.length < q.blk.yomi.length := by
  have hs := (places_sorted h).filter (isHit x)
  refine hs.imp_of_mem ?_
  intro p q hp hq hlt
  have hpx := (isHit_iff.mp (List.mem_filter.mp hp).2).1
  have hqx := (isHit_iff.mp (List.mem_filter.mp hq).2).1
  by_contra hge
  have hqp : q.blk.yomi <+: p.blk.yomi := List.prefix_of_prefix_length_le hqx hpx (by omega)
  exact absurd hlt (not_lt.mpr (prefix_le hqp))

/-- From the initial state all hits are reported. -/
theorem reports_start (h : Opened d segs) (h0 : 0 ∉ x) (tagp : Bytes) :
    Reports d x ⟨1, 0, -1, tagp⟩ (hits x (places 0 segs)) := by
  have hfuel := h.fuel
  obtain ⟨n, hn⟩ : ∃ n, (d.segunit + 1) * (d.seglen + 1) = n + 1 :=
    ⟨(d.segunit + 1) * (d.seglen + 1) - 1, by omega⟩
  refine reports_of_next h h0 le_rfl ?_
  rw [srchdict_eq, hn]
  by_cases hinl : 1 ≤ min x.length maxWdYomiLen
  · obtain ⟨pre, s, post, hsegs, hpre, hnext⟩ := srchdictLoop_start h h0 hinl tagp n (by omega)
    have hplaces : places 0 segs = places 0 pre ++ places pre.length (s :: post) := by
      rw [hsegs, places_append, Nat.zero_add]
    rw [hplaces]
    refine Next.skip _ (fun q hq => ?_) hnext
    obtain ⟨z, hz, hzx⟩ := hpre _ (blk_mem_of_places hq)
    have hnil : [] < q.blk.yomi := by
      obtain ⟨c, y, hy⟩ := List.exists_cons_of_ne_nil q.blk.isYomi.ne_nil
      rw [hy]
      exact List.nil_lt_cons c y
    exact not_isHit_of_not_prefix (not_prefix_of_lt_key (Passed.start x) hnil hz hzx)
  · rw [srchdictLoop_succ, if_neg hinl]
    refine .none fun q hq => not_isHit_of_not_prefix fun hpre => ?_
    have h₁ := hpre.length_le
    have h₂ : 0 < q.blk.yomi.length := List.length_pos_of_ne_nil q.blk.isYomi.ne_nil
    have h₃ : 1 ≤ maxWdYomiLen := by decide
    omega

/-- Started with the length of the whole input, as `checksub` does it, the search skips some
places, but none with the whole input for its reading. -/
theorem reports_length (h : Opened d segs) (h0 : 0 ∉ x) (tagp : Bytes) :
    ∃ l r, places 0 segs = l ++ r ∧ (∀ p ∈ l, p.blk.yomi ≠ x) ∧
      Reports d x ⟨x.length, 0, -1, tagp⟩ (hits x r) := by
  have hfuel := h.fuel
  obtain ⟨n, hn⟩ : ∃ n, (d.segunit + 1) * (d.seglen + 1) = n + 1 :=
    ⟨(d.segunit + 1) * (d.seglen + 1) - 1, by omega⟩
  by_cases hinl : x.length ≤ min x.length maxWdYomiLen
  · obtain ⟨pre, s, post, hsegs, hpre, hnext⟩ := srchdictLoop_start h h0 hinl tagp n (by omega)
    have hplaces : places 0 segs = places 0 pre ++ places pre.length (s :: post) := by
      rw [hsegs, places_append, Nat.zero_add]
    refine ⟨_, _, hplaces, ?_, ?_⟩
    · intro p hp hpx
      obtain ⟨z, hz, hzx⟩ := hpre _ (blk_mem_of_places hp)
      rw [List.take_length, ← hpx] at hzx
      exact absurd hz (not_lt.mpr hzx)
    · refine reports_of_next h h0 ?_ (by rwa [srchdict_eq, hn])
      rw [hplaces, List.length_append]
      omega
  · have hstop : d.srchdict x x.length ⟨x.length, 0, -1, tagp⟩ =
        (none, ⟨x.length, 0, -1, tagp⟩) := by
      rw [srchdict_eq, hn, srchdictLoop_succ, if_neg hinl]
    refine ⟨_, [], (List.append_nil _).symm, fun p hp hpx => ?_, .stop hstop⟩
    have := p.blk.isYomi.length_le
    rw [hpx] at this
    omega

/-- The block of the whole input is a hit. -/
theorem mem_hits_of_eq {rem : List Place} {p : Place} (hp : p ∈ rem) (hpx : p.blk.yomi = x) :
    ((p.seg : ℤ), p.tagp) ∈ hits x rem := by
  refine List.mem_map.mpr ⟨p, List.mem_filter.mpr ⟨hp, isHit_iff.mpr ⟨?_, ?_⟩⟩, rfl⟩
  · rw [hpx]
  · rw [hpx, List.getD_eq_default _ _ le_rfl]
    decide

/-- Looking up an input reports the blocks whose readings start it, shortest first, and
ends; started with the length of the whole input, as `checksub` does it, it still reports
the block of the whole input. -/
theorem srchdict_reports (d : Dict) (segs : List DicSeg) (x : Bytes) (h : Opened d segs)
    (h0 : 0 ∉ x) (tagp : Bytes) :
    Reports d x ⟨1, 0, -1, tagp⟩ (hits x (places 0 segs)) ∧
      ((places 0 segs).filter (isHit x)).Pairwise
        (fun p q => p.blk.yomi.length < q.blk.yomi.length) ∧
      ∃ ps, Reports d x ⟨x.length, 0, -1, tagp⟩ ps ∧
        ∀ p ∈ places 0 segs, p.blk.yomi = x → ((p.seg : ℤ), p.tagp) ∈ ps := by
  refine ⟨reports_start h h0 tagp, hits_lengths h, ?_⟩
  obtain ⟨l, r, hplaces, hl, hreports⟩ := reports_length h h0 tagp
  refine ⟨_, hreports, fun p hp hpx => mem_hits_of_eq ?_ hpx⟩
  rw [hplaces] at hp
  rcases List.mem_append.mp hp with hp | hp
  · exact absurd hpx (hl p hp)
  · exact hp

/-- Two readings in one segment, the second of which starts with the first. -/
def sampleSeg : DicSeg where
  ask := []
  first := []
  blks :=
    [⟨[0x4f], [⟨1, [[0x30, 0x21]], by decide, by simp, by
        simpa using ⟨.long (by decide) (by decide) .nil, by simp, by decide⟩⟩],
        ⟨by simp, by decide, by decide⟩, by simp⟩,
      ⟨[0x4f, 0x51], [⟨1, [[0x80]], by decide, by simp, by
        simpa using ⟨.short (by decide) (by decide) .nil, by simp, by decide⟩⟩],
        ⟨by simp, by decide, by decide⟩, by simp⟩]
  tail := []
  ask_lt := by decide
  first_eq := .inl rfl
  coded := by
    refine ⟨by decide, ?_, by decide, trivial⟩
    exact List.cons_lt_cons_iff.mpr (.inr ⟨rfl, List.nil_lt_cons _ _⟩)
  isTail := rfl

def sampleDict : Dict :=
  ⟨1, 2, sampleSeg.bytes.length, 1, 1, [0x4f, 0], [sampleSeg.bytes], [0]⟩

theorem sampleDict_opened : Opened sampleDict [sampleSeg] where
  indexed :=
    { segunit := rfl
      ne_nil := by simp
      zero_notMem := by decide
      getIdxptr := by
        intro i hi
        obtain rfl : i = 0 := by simpa using hi
        exact ⟨[0], rfl, rfl⟩
      sorted := by simp }
  getdic := by
    intro i hi
    obtain rfl : i = 0 := by simpa using hi
    rfl
  seglen := by simp [sampleDict]
  sorted := by
    simp only [List.flatMap_cons, List.flatMap_nil, List.append_nil, sampleSeg, List.map_cons,
      List.map_nil, List.pairwise_cons, List.mem_cons, List.not_mem_nil, or_false, forall_eq,
      IsEmpty.forall_iff, implies_true, List.Pairwise.nil, and_true]
    exact List.cons_lt_cons_iff.mpr (.inr ⟨rfl, List.nil_lt_cons _ _⟩)

theorem srchdict_reports_sample :
    Reports sampleDict [0x4f, 0x51, 0x53] ⟨1, 0, -1, []⟩
      [(0, sampleSeg.bytes.drop 1), (0, sampleSeg.bytes.drop 10)] := by
  have hhits : hits [0x4f, 0x51, 0x53] (places 0 [sampleSeg]) =
      [(0, sampleSeg.bytes.drop 1), (0, sampleSeg.bytes.drop 10)] := by
    decide +kernel
  rw [← hhits]
  exact (srchdict_reports sampleDict [sampleSeg] [0x4f, 0x51, 0x53] sampleDict_opened
    (by decide) []).1

end Sj3
