import Mathlib.Data.List.TakeWhile
import Sj3.Verification.Study.Room

/-! # The index of the clause-study area -/

namespace Sj3

open PrefixFree

def ClRec.first (r : ClRec) : ℕ := (r.yomi.headD 0).toNat

theorem clFirst_append {p : ClRec → Bool} {l : List ClRec} (h : ∀ r ∈ l, p r = false)
    (rs : List ClRec) (ofs : ℕ) :
    clFirst p (l ++ rs) ofs = clFirst p rs (ofs + (clBytes l).length) := by
  induction l generalizing ofs with
  | nil => rfl
  | cons r l ih =>
      rw [List.cons_append, clFirst, h r List.mem_cons_self, if_neg Bool.false_ne_true,
        ih (fun t ht => h t (List.mem_cons_of_mem _ ht)), clBytes_cons, List.length_append,
        Nat.add_assoc]

theorem clFirst_none {p : ClRec → Bool} {l : List ClRec} (h : ∀ r ∈ l, p r = false) (ofs : ℕ) :
    clFirst p l ofs = none := by
  have := clFirst_append h [] ofs
  rwa [List.append_nil] at this

theorem headD_clYomiPos {r : ClRec} (hr : r.Fits) (rest : Bytes) :
    ((Stdy.clYomiPos (r.bytes ++ rest)).headD 0).toNat = r.first := by
  obtain ⟨a, t, ht⟩ := List.exists_cons_of_ne_nil hr.pos
  rw [clYomiPos_bytes, ClRec.first, ht]
  rfl

theorem clSkip_clArea (st : ℕ) {recs : List ClRec} {free n : ℕ} (h : ∀ r ∈ recs, r.Fits)
    (hn : recs.length ≤ n) :
    Stdy.clSkip st n (clArea recs free) = clArea (recs.dropWhile (·.first < st)) free := by
  induction recs generalizing n with
  | nil =>
      cases n with
      | zero => rfl
      | succ n => exact if_pos (iseocl_zeros free)
  | cons r recs ih =>
      have hr := h r List.mem_cons_self
      obtain ⟨n, rfl⟩ := Nat.exists_eq_add_of_lt (Nat.lt_of_lt_of_le (Nat.succ_pos _) hn)
      rw [Nat.zero_add] at hn ⊢
      rw [Stdy.clSkip, clArea_cons, if_neg (by simp [iseocl_bytes hr]), headD_clYomiPos hr,
        clNextTag_bytes hr]
      by_cases hlt : r.first < st
      · rw [if_neg (not_le.mpr hlt), List.dropWhile_cons_of_pos (by simpa using hlt),
          ih (fun t ht => h t (List.mem_cons_of_mem _ ht)) (by simpa using hn)]
      · rw [if_pos (not_lt.mp hlt), List.dropWhile_cons_of_neg (by simpa using hlt), clArea_cons]

theorem first_le_first {r : ClRec} {recs : List ClRec}
    (h : (r :: recs).Pairwise fun r t => Before r.yomi t.yomi) :
    ∀ t ∈ recs, r.first ≤ t.first := by
  intro t ht
  have hb := (List.pairwise_cons.mp h).1 t ht
  unfold ClRec.first
  generalize r.yomi = x at *
  generalize t.yomi = y at *
  cases hb with
  | here h => exact UInt8.le_iff_toNat_le.mp h.le
  | there _ => exact le_rfl

/-- One entry of the index. -/
theorem clIndex_entry {l rs : List ClRec} {st : ℕ} (free step : ℕ) (h : ClOrdered (l ++ rs))
    (hlen : (l ++ rs).length < 0x10000) (hl : ∀ r ∈ l, r.first < st)
    (hr : ∀ r ∈ rs.head?, st ≤ r.first) :
    let ptr := clArea rs free
    (if Stdy.clYomiLen ptr ≠ 0 ∧ ((Stdy.clYomiPos ptr).headD 0).toNat < st + step then
        (clArea (l ++ rs) free).length - ptr.length
      else 0xffff) = (clFirst (clBucket st step) (l ++ rs) 0).getD 0xffff := by
  intro ptr
  have hfront : ∀ r ∈ l, clBucket st step r = false := by
    intro r hmem
    have := hl r hmem
    simp only [clBucket, ClRec.first] at *
    simp only [decide_eq_false_iff_not]
    omega
  rw [clFirst_append hfront]
  cases rs with
  | nil =>
      have hzero : Stdy.clYomiLen ptr = 0 := by
        show Stdy.clYomiLen (clArea [] free) = 0
        cases free <;> rfl
      rw [if_neg (fun hc => hc.1 hzero)]
      rfl
  | cons r rs =>
      have hfits : r.Fits := h.fits hlen r (by simp)
      have hge : st ≤ r.first := hr r (by simp)
      have hlenr : Stdy.clYomiLen ptr ≠ 0 := by
        show Stdy.clYomiLen (clArea (r :: rs) free) ≠ 0
        rw [clArea_cons, clYomiLen_bytes hfits]
        exact (List.length_pos_of_ne_nil hfits.pos).ne'
      have hhead : ((Stdy.clYomiPos ptr).headD 0).toNat = r.first := by
        show ((Stdy.clYomiPos (clArea (r :: rs) free)).headD 0).toNat = r.first
        rw [clArea_cons, headD_clYomiPos hfits]
      have hofs : (clArea (l ++ r :: rs) free).length - ptr.length = (clBytes l).length := by
        rw [clArea_append, List.length_append, Nat.add_sub_cancel]
      rw [hhead, hofs, Nat.zero_add]
      by_cases hin : r.first < st + step
      · have hbucket : clBucket st step r = true := decide_eq_true ⟨hge, hin⟩
        rw [if_pos ⟨hlenr, hin⟩, clFirst, if_pos hbucket]
        rfl
      · have hnone : ∀ t ∈ r :: rs, clBucket st step t = false := by
          intro t ht
          have hle : r.first ≤ t.first := by
            rcases List.mem_cons.mp ht with rfl | ht
            · exact le_rfl
            · exact first_le_first (List.pairwise_append.mp h.before).2.1 t ht
          exact decide_eq_false fun hc => hin (hle.trans_lt hc.2)
        rw [if_neg (fun hc => hin hc.2), clFirst_none hnone]
        rfl

theorem mkclidxLoop_spec (free step st : ℕ) {l rs : List ClRec} {n : ℕ} (h : ClOrdered (l ++ rs))
    (hlen : (l ++ rs).length < 0x10000) (hl : ∀ r ∈ l, r.first < st) {i : ℕ} (hi : i < n)
    (hst : st + i * step < 0x100) :
    (Stdy.mkclidxLoop step (clArea (l ++ rs) free).length n st (clArea rs free))[i]? =
      some ((clFirst (clBucket (st + i * step) step) (l ++ rs) 0).getD 0xffff) := by
  induction n generalizing l rs st i with
  | zero => omega
  | succ n ih =>
      have hlt : st < 0x100 := by omega
      have hfuel : rs.length ≤ (clArea (l ++ rs) free).length := by
        have := length_le_length_clBytes (l ++ rs)
        simp only [length_clArea, List.length_append] at this ⊢
        omega
      have hsplit : l ++ rs = (l ++ rs.takeWhile (·.first < st)) ++
        rs.dropWhile (·.first < st) := by
        rw [List.append_assoc, List.takeWhile_append_dropWhile]
      have hfits := h.fits hlen
      rw [Stdy.mkclidxLoop, if_pos hlt,
        clSkip_clArea st (fun t ht => hfits t (List.mem_append_right _ ht)) hfuel]
      have hl' : ∀ r ∈ l ++ rs.takeWhile (·.first < st), r.first < st := by
        intro r hr
        rcases List.mem_append.mp hr with hr | hr
        · exact hl r hr
        · simpa using List.mem_takeWhile_imp hr
      rw [hsplit] at h hlen ⊢
      cases i with
      | zero =>
          have hhead : ∀ r ∈ (rs.dropWhile (·.first < st)).head?, st ≤ r.first := by
            intro r hr
            have := List.head?_dropWhile_not (fun r : ClRec => decide (r.first < st)) rs
            rw [hr] at this
            simpa using this
          have hentry := clIndex_entry free step h hlen hl' hhead
          simp only [Nat.zero_mul, Nat.add_zero, List.getElem?_cons_zero]
          exact congrArg some hentry
      | succ i =>
          have hstep : st + (i + 1) * step = st + step + i * step := by
            rw [Nat.add_mul, Nat.one_mul]
            omega
          rw [hstep] at hst ⊢
          simp only [List.getElem?_cons_succ]
          exact ih (st + step) h hlen (fun r hr => (hl' r hr).trans_le (Nat.le_add_right _ _))
            (by omega) hst

theorem length_mkclidxLoop_le (step total n st : ℕ) (ptr : Bytes) :
    (Stdy.mkclidxLoop step total n st ptr).length ≤ n := by
  induction n generalizing st ptr with
  | zero => simp [Stdy.mkclidxLoop]
  | succ n ih =>
      rw [Stdy.mkclidxLoop]
      split
      · simpa using ih (st + step) _
      · simp

/-- The index is right after `mkclidx`. -/
theorem mkclidx_studied {s : Stdy} {recs : List ClRec} {free : ℕ} (h : ClOrdered recs)
    (hfree : 0 < free) (harea : s.clstdydic = clArea recs free)
    (hlen : s.clstdydic.length ≤ maxClLen) (hstep : 0 < s.clstdystep)
    (hidx : s.clstdyidx.length = 0x100) : ClStudied s.mkclidx recs where
  toClOrdered := h
  area_eq := ⟨free, hfree, harea⟩
  length_le := hlen
  step_pos := hstep
  length_idx := by
    have := length_mkclidxLoop_le s.clstdystep s.clstdydic.length 0x100 0 s.clstdydic
    simp only [Stdy.mkclidx, List.length_append, List.length_drop, hidx]
    omega
  indexed := by
    intro b hb
    have hcount : ([] ++ recs).length < 0x10000 := by
      have := length_le_length_clBytes recs
      rw [harea, length_clArea, maxClLen] at hlen
      rw [List.nil_append]
      omega
    have hstep' : b * s.clstdystep < 0x100 := hb
    have hb' : b < 0x100 := (Nat.le_mul_of_pos_right b hstep).trans_lt hstep'
    have hget := mkclidxLoop_spec free s.clstdystep 0 (l := []) (n := 0x100) h hcount
      (fun r hr => absurd hr List.not_mem_nil) hb' (by simpa using hstep')
    rw [List.nil_append, ← harea, Nat.zero_add] at hget
    have hlt := (List.getElem?_eq_some_iff.mp hget).1
    exact (List.getElem?_append_left hlt).trans hget

namespace ClStudied

variable {s : Stdy} {recs : List ClRec}

theorem count_lt (h : ClStudied s recs) : recs.length < 0x10000 := by
  obtain ⟨free, -, harea⟩ := h.area_eq
  have hle := length_le_length_clBytes recs
  have hlen := h.length_le
  rw [harea, length_clArea, maxClLen] at hlen
  omega

/-- New records in the area, and the index made for them. -/
theorem refresh (h : ClStudied s recs) {recs' : List ClRec} {free' : ℕ} (ho : ClOrdered recs')
    (hfree : 0 < free') (hlen : (clArea recs' free').length = s.clstdydic.length) :
    ClStudied { s with clstdydic := clArea recs' free' }.mkclidx recs' := by
  apply mkclidx_studied ho hfree rfl
  · show (clArea recs' free').length ≤ maxClLen
    exact hlen ▸ h.length_le
  · exact h.step_pos
  · exact h.length_idx

end ClStudied

/-- A well-formed area of the same size. -/
def ClKept (s t : Stdy) : Prop :=
  ∃ recs, ClStudied t recs ∧ t.clstdydic.length = s.clstdydic.length

theorem ClStudied.kept_refresh {s : Stdy} {recs : List ClRec} (h : ClStudied s recs)
    {recs' : List ClRec} {free' : ℕ} (ho : ClOrdered recs') (hfree : 0 < free')
    (hlen : (clArea recs' free').length = s.clstdydic.length) :
    ClKept s { s with clstdydic := clArea recs' free' }.mkclidx :=
  ⟨recs', h.refresh ho hfree hlen, hlen⟩

end Sj3
