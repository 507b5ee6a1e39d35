import Sj3.Verification.Reading.Accepted
import Sj3.Verification.Text
import Sj3.Verification.Study.Index
import Sj3.Verification.Study.Insert

/-! # One call of `clstudy` -/

namespace Sj3

open PrefixFree Recency

/-! ## The readings -/

theorem length_sj2cdLoop_le (len : ℕ) (euc : Bytes) : (sj2cdLoop len euc).1.length ≤ len := by
  induction len generalizing euc with
  | zero => simp [sj2cdLoop]
  | succ len ih =>
      rw [sj2cdLoop]
      split
      · simp
      · simpa using ih _

theorem zero_notMem_sj2cdStr (euc : Bytes) (len : ℕ) : 0 ∉ (sj2cdStr euc len).1 := by
  unfold sj2cdStr
  split
  · simp
  · exact sj2cdLoop_ne_zero _ _

theorem sj2cdStr_ne_nil {euc : Bytes} (len : ℕ) (hne : euc.headD 0 ≠ 0)
    (hall : (sj2cdStr euc len).2 = true) : (sj2cdStr euc len).1 ≠ [] := by
  unfold sj2cdStr at hall ⊢
  split at hall
  · exact absurd hall Bool.false_ne_true
  · rename_i hlen
    rw [if_neg hlen]
    generalize len - 1 = n at hall ⊢
    cases n with
    | zero => exact absurd (of_decide_eq_true hall) hne
    | succ n =>
        rw [sj2cdLoop, if_neg hne]
        exact List.cons_ne_nil _ _

/-- A request to store a clause pair that passes the checks, with the codes of its two
readings. -/
structure ClRequest (yomi1 yomi2 y1 y2 : Bytes) : Prop where
  yomi1_ne : yomi1.headD 0 ≠ 0
  yomi2_ne : yomi2.headD 0 ≠ 0
  codes1 : sj2cdStr yomi1 clStdyTmpLen = (y1, true)
  codes2 : sj2cdStr yomi2 (clStdyTmpLen - y1.length) = (y2, true)

namespace ClRequest

variable {yomi1 yomi2 y1 y2 : Bytes} (h : ClRequest yomi1 yomi2 y1 y2)
include h

theorem zero_notMem : 0 ∉ y1 ++ y2 := by
  have h1 := zero_notMem_sj2cdStr yomi1 clStdyTmpLen
  have h2 := zero_notMem_sj2cdStr yomi2 (clStdyTmpLen - y1.length)
  rw [h.codes1] at h1
  rw [h.codes2] at h2
  exact fun hm => (List.mem_append.mp hm).elim h1 h2

theorem ne_nil : y1 ≠ [] := by
  have := sj2cdStr_ne_nil clStdyTmpLen h.yomi1_ne (by rw [h.codes1])
  rwa [h.codes1] at this

theorem length_lt : (y1 ++ y2).length < clStdyTmpLen := by
  have hroom : clStdyTmpLen - y1.length ≠ 0 := by
    intro h0
    have := h.codes2
    rw [h0] at this
    simp [sj2cdStr] at this
  have h2 := h.codes2
  rw [sj2cdStr, if_neg hroom] at h2
  have hle : y2.length ≤ clStdyTmpLen - y1.length - 1 := by
    simpa [h2] using length_sj2cdLoop_le (clStdyTmpLen - y1.length - 1) yomi2
  rw [List.length_append]
  omega

end ClRequest

/-- The reading the record gets: with `len` codes of the second reading, if it has them. -/
theorem clYtmp_eq {stack : ℕ → UInt8} {codes : Bytes} {len2 : ℕ} (h : len2 ≤ codes.length) :
    Stdy.clYtmp stack codes len2 = codes.take len2 := by
  have hnone : (List.range len2).drop (codes.length + 1) = [] :=
    List.drop_eq_nil_of_le (by rw [List.length_range]; omega)
  rw [Stdy.clYtmp, hnone, List.map_nil, List.append_nil, List.take_append_of_le_length h]

/-- With more than it has, the terminator and what lies behind it is in the record. -/
theorem clYtmp_overlong (stack : ℕ → UInt8) {codes : Bytes} {len2 : ℕ} (h : codes.length < len2) :
    ∃ rest, Stdy.clYtmp stack codes len2 = codes ++ 0 :: rest := by
  refine ⟨((List.range len2).drop (codes.length + 1)).map stack, ?_⟩
  rw [Stdy.clYtmp, List.take_of_length_le (by rw [List.length_append]; exact h),
    List.append_assoc]
  rfl

@[simp] theorem length_clYtmp (stack : ℕ → UInt8) (codes : Bytes) (len2 : ℕ) :
    (Stdy.clYtmp stack codes len2).length = len2 := by
  simp only [Stdy.clYtmp, List.length_append, List.length_take, List.length_map, List.length_drop,
    List.length_range, List.length_cons, List.length_nil]
  omega

theorem ClRequest.clstudy_eq {yomi1 yomi2 y1 y2 : Bytes} (h : ClRequest yomi1 yomi2 y1 y2)
    (stack : ℕ → UInt8) (s : Stdy) (out : ClStdyOut) :
    let ytmp := Stdy.clYtmp stack (y1 ++ y2) (y1.length + out.len.toNat)
    clstudy stack (some s) yomi1 yomi2 (some out) =
      if y1.length + out.len.toNat + Stdy.clHdLen + 1 ≥ s.clstdydic.length then (some s, .noArea)
      else
        (some { s with clstdydic :=
            (Stdy.clInsert s.clstdydic ytmp y1.length out.hinshi).1 }.mkclidx,
          (Stdy.clInsert s.clstdydic ytmp y1.length out.hinshi).2) := by
  intro ytmp
  have h1 : 0 ∉ y1 := fun hm => h.zero_notMem (List.mem_append_left _ hm)
  simp only [clstudy, if_neg h.yomi1_ne, if_neg h.yomi2_ne, h.codes1, sstrlen_eq_length h1,
    h.codes2, List.take_length]
  rfl

/-! ## What a call leaves -/

/-- The new record in its place, of a length the readings have. -/
theorem ClRequest.ordered {yomi1 yomi2 y1 y2 : Bytes} (hr : ClRequest yomi1 yomi2 y1 y2)
    {out : ClStdyOut} (hout : out.len.toNat ≤ y2.length) {front back : List ClRec}
    (hord : ClOrdered (front ++ back))
    (hf : ∀ t ∈ front, Before t.yomi ((y1 ++ y2).take (y1.length + out.len.toNat)))
    (hb : ∀ t ∈ back, Before ((y1 ++ y2).take (y1.length + out.len.toNat)) t.yomi) :
    ClOrdered (front.map (ClRec.setNum (· + 1)) ++
      ⟨(y1 ++ y2).take (y1.length + out.len.toNat), out.hinshi, UInt8.ofNat y1.length, 1⟩ ::
        back.map (ClRec.setNum (· + 1))) := by
  have hmax := hr.length_lt
  have hpos := List.length_pos_of_ne_nil hr.ne_nil
  rw [List.length_append, clStdyTmpLen] at hmax
  have hlen : ((y1 ++ y2).take (y1.length + out.len.toNat)).length =
      y1.length + out.len.toNat := by
    apply List.length_take_of_le
    rw [List.length_append]
    omega
  have hu : (UInt8.ofNat y1.length).toNat = y1.length :=
    UInt8.toNat_ofNat_of_lt' (by rw [UInt8.size]; omega)
  apply hord.insert _ _ _ _ rfl hf hb
  · show (y1 ++ y2).take _ ≠ []
    exact List.ne_nil_of_length_pos (by omega)
  · show ((y1 ++ y2).take _).length < 0x100
    omega
  · exact fun hm => hr.zero_notMem (List.mem_of_mem_take hm)
  · show (UInt8.ofNat y1.length).toNat ≤ ((y1 ++ y2).take _).length
    omega

/-- Storing a clause pair whose length is one the readings have. -/
theorem ClStudied.insert {s : Stdy} {recs : List ClRec} (h : ClStudied s recs)
    {yomi1 yomi2 y1 y2 : Bytes} (hr : ClRequest yomi1 yomi2 y1 y2) (stack : ℕ → UInt8)
    {out : ClStdyOut} (hout : out.len.toNat ≤ y2.length) :
    ClKept s { s with clstdydic := (Stdy.clInsert s.clstdydic
      (Stdy.clYtmp stack (y1 ++ y2) (y1.length + out.len.toNat)) y1.length
        out.hinshi).1 }.mkclidx := by
  obtain ⟨free, hfree, harea⟩ := h.area_eq
  have hle : y1.length + out.len.toNat ≤ (y1 ++ y2).length := by
    rw [List.length_append]
    omega
  have hy : 0 ∉ (y1 ++ y2).take (y1.length + out.len.toNat) :=
    fun hm => hr.zero_notMem (List.mem_of_mem_take hm)
  have hlt : (clArea recs free).length < 0x10000 := by
    have := h.length_le
    rw [harea, maxClLen] at this
    omega
  rw [clYtmp_eq hle, harea]
  obtain ⟨rem, j, free', hroom, hfree', hcase⟩ :=
    clInsert_clArea hy List.headD_nil y1.length out.hinshi h.toClOrdered hlt hfree
  rw [List.append_nil] at hcase
  rcases hcase with ⟨-, -, hlen, heq⟩ | ⟨-, front, back, hsplit, hf, hb, hlen, heq⟩
  · rw [heq]
    exact h.kept_refresh (hroom.ordered.dropOldest j) hfree' (hlen.trans (by rw [harea]))
  · have hord := hroom.ordered.dropOldest j
    rw [hsplit] at hord
    rw [heq]
    exact h.kept_refresh (hr.ordered hout hord hf hb) hfree' (hlen.trans (by rw [harea]))

end Sj3
