import Sj3.Verification.Dict.Srchidx

/-! # The bisection returns

The loop of `srchidx` as rules, without a bound on its turns. From every bound that the callers
pass it comes to an end. -/

namespace Sj3

namespace Dict

/-- What the loop compares with the index string of a segment. -/
def idxCmp (d : Dict) (cnvstart : Bytes) (len : ℕ) (seg : ℕ) : Cmp :=
  istrcmp cnvstart (d.getIdxptr seg) len (sstrlen (d.getIdxptr seg))

/-- The loop from `low` and `high` on, after a comparison `cmp` at `mid`, returns a segment. -/
inductive Bisects (d : Dict) (cnvstart : Bytes) (len : ℕ) : ℤ → ℤ → ℤ → Cmp → ℤ → Prop where
  | stop {low high mid : ℤ} {cmp : Cmp} (h : high < low) :
      Bisects d cnvstart len low high mid cmp
        (if cmp = .over ∧ mid ≠ dicSegBase then mid - 1 else mid)
  | over {low high mid r : ℤ} {cmp : Cmp} (h : low ≤ high)
      (hcmp : d.idxCmp cnvstart len ((low + high) / 2).toNat = .over)
      (hrest : Bisects d cnvstart len low ((low + high) / 2 - 1) ((low + high) / 2) .over r) :
      Bisects d cnvstart len low high mid cmp r
  | under {low high mid r : ℤ} {cmp : Cmp} (h : low ≤ high)
      (hover : d.idxCmp cnvstart len ((low + high) / 2).toNat ≠ .over)
      (hmatch : d.idxCmp cnvstart len ((low + high) / 2).toNat ≠ .match)
      (hrest : Bisects d cnvstart len ((low + high) / 2 + 1) high ((low + high) / 2)
        (d.idxCmp cnvstart len ((low + high) / 2).toNat) r) :
      Bisects d cnvstart len low high mid cmp r
  | found {low high mid : ℤ} {cmp : Cmp} (h : low ≤ high)
      (hcmp : d.idxCmp cnvstart len ((low + high) / 2).toNat = .match) :
      Bisects d cnvstart len low high mid cmp ((low + high) / 2)

/-- `srchidx` returns a segment. -/
def SrchidxReturns (d : Dict) (cnvstart : Bytes) (low : ℤ) (len : ℕ) (seg : ℕ) : Prop :=
  if (d.segunit : ℤ) - 1 < 1 then seg = 0
  else
    ∃ r : ℤ, r.toNat = seg ∧
      d.Bisects cnvstart len (if low = -1 then 0 else low) (d.segunit - 1) 0 .match r

variable {d : Dict} {cnvstart : Bytes} {len : ℕ}

/-- Every turn that goes on leaves fewer segments between the bounds. -/
theorem bisects_srchidxLoop {n : ℕ} {low high mid : ℤ} {cmp : Cmp} (hn : high + 2 ≤ low + n)
    (hgap : low ≤ high + 1) :
    d.Bisects cnvstart len low high mid cmp (d.srchidxLoop cnvstart len n low high mid cmp) := by
  induction n generalizing low high mid cmp with
  | zero => omega
  | succ n ih =>
      rw [srchidxLoop]
      by_cases hle : low ≤ high
      · rw [if_pos hle]
        simp only
        by_cases hover : d.idxCmp cnvstart len ((low + high) / 2).toNat = .over
        · rw [idxCmp] at hover
          rw [if_pos hover, hover]
          exact .over hle hover (ih (by omega) (by omega))
        · by_cases hmatch : d.idxCmp cnvstart len ((low + high) / 2).toNat = .match
          · rw [idxCmp] at hover hmatch
            rw [if_neg hover, if_neg (not_not_intro hmatch)]
            exact .found hle hmatch
          · rw [idxCmp] at hover hmatch
            rw [if_neg hover, if_pos hmatch]
            exact .under hle hover hmatch (ih (by omega) (by omega))
      · rw [if_neg hle]
        exact .stop (Int.not_le.mp hle)

theorem srchidxReturns {low : ℤ} (hlow : low = -1 ∨ (0 ≤ low ∧ low < d.segunit)) :
    d.SrchidxReturns cnvstart low len (d.srchidx cnvstart low len) := by
  rw [SrchidxReturns, srchidx]
  by_cases hone : (d.segunit : ℤ) - 1 < 1
  · rw [if_pos hone, if_pos hone]
  · rw [if_neg hone, if_neg hone]
    refine ⟨_, rfl, bisects_srchidxLoop ?_ ?_⟩
    · split <;> omega
    · split <;> omega

/-! ## The last segment in front of a key -/

/-- The index string of a segment is not greater than the key. -/
def NotGreater (d : Dict) (cnvstart : Bytes) (len : ℕ) (seg : ℕ) : Prop :=
  d.idxCmp cnvstart len seg ≠ .over

instance (d : Dict) (cnvstart : Bytes) (len seg : ℕ) :
    Decidable (d.NotGreater cnvstart len seg) := inferInstanceAs (Decidable (_ ≠ _))

/-- There is a segment, and the index strings are strictly ascending. -/
structure Ascending (d : Dict) : Prop where
  segunit_pos : 0 < d.segunit
  «over» : ∀ i j, i < j → j < d.segunit →
    d.idxCmp (d.getIdxptr i) (sstrlen (d.getIdxptr i)) j = .over

/-- The last segment whose index string is not greater than the key, or the first one. -/
structure LastNotGreater (d : Dict) (cnvstart : Bytes) (len : ℕ) (seg : ℕ) : Prop where
  lt : seg < d.segunit
  after : ∀ i, seg < i → i < d.segunit → ¬d.NotGreater cnvstart len i
  self : d.NotGreater cnvstart len seg ∨
    (seg = 0 ∧ ∀ i < d.segunit, ¬d.NotGreater cnvstart len i)

/-- The index strings in a list. -/
def idxStrings (d : Dict) : List Bytes := (List.range d.segunit).map fun i => cstr (d.getIdxptr i)

theorem getElem_idxStrings {i : ℕ} (hi : i < d.idxStrings.length) :
    d.idxStrings[i] = cstr (d.getIdxptr i) := by
  simp [idxStrings]

theorem length_idxStrings : d.idxStrings.length = d.segunit := by
  rw [idxStrings, List.length_map, List.length_range]

/-- The comparison is that of the strings. -/
theorem idxCmp_eq (u rest : Bytes) (seg : ℕ) :
    d.idxCmp (u ++ rest) u.length seg =
      if u = cstr (d.getIdxptr seg) then .match
      else if u < cstr (d.getIdxptr seg) then .over else .under := by
  obtain ⟨q, hq, -⟩ := exists_cstr_append (d.getIdxptr seg)
  have := istrcmp_append u (cstr (d.getIdxptr seg)) rest q
  rwa [hq, ← sstrlen_eq_cstr] at this

theorem notGreater_iff (u rest : Bytes) (seg : ℕ) :
    d.NotGreater (u ++ rest) u.length seg ↔ cstr (d.getIdxptr seg) ≤ u := by
  rw [NotGreater, idxCmp_eq]
  by_cases heq : u = cstr (d.getIdxptr seg)
  · rw [if_pos heq]
    simp [heq]
  · rw [if_neg heq]
    by_cases hlt : u < cstr (d.getIdxptr seg)
    · rw [if_pos hlt]
      simpa using hlt
    · rw [if_neg hlt]
      simpa using hlt

theorem Ascending.indexed (h : d.Ascending) : Indexed d d.idxStrings where
  segunit := length_idxStrings.symm
  ne_nil := by
    intro hnil
    have := h.segunit_pos
    rw [← length_idxStrings, hnil] at this
    exact Nat.lt_irrefl 0 this
  zero_notMem := by
    intro x hx
    obtain ⟨i, -, rfl⟩ := List.mem_map.mp hx
    exact zero_notMem_cstr _
  getIdxptr := by
    intro i hi
    obtain ⟨q, hq, hzero⟩ := exists_cstr_append (d.getIdxptr i)
    exact ⟨q, by rw [getElem_idxStrings hi, hq], hzero⟩
  sorted := by
    rw [List.pairwise_iff_getElem]
    intro i j hi hj hij
    rw [getElem_idxStrings hi, getElem_idxStrings hj]
    obtain ⟨q, hq, -⟩ := exists_cstr_append (d.getIdxptr i)
    have hover := h.«over» i j hij (length_idxStrings ▸ hj)
    rw [← hq, sstrlen_eq_cstr, hq] at hover
    have hcmp := idxCmp_eq (d := d) (cstr (d.getIdxptr i)) q j
    rw [hq, hover] at hcmp
    by_cases heq : cstr (d.getIdxptr i) = cstr (d.getIdxptr j)
    · rw [if_pos heq] at hcmp
      exact absurd hcmp (by decide)
    · rw [if_neg heq] at hcmp
      by_contra hlt
      rw [if_neg hlt] at hcmp
      exact absurd hcmp (by decide)

/-- With ascending index strings a search from any segment that is not behind the key returns the
last one that is not greater than it. -/
theorem srchidx_last {d : Dict} (h : d.Ascending) (key rest : Bytes) {low : ℤ}
    (hlow : low = -1 ∨ low = dicSegBase ∨
      ∃ j : ℕ, low = j ∧ j < d.segunit ∧ d.NotGreater (key ++ rest) key.length j) :
    d.SrchidxReturns (key ++ rest) low key.length (d.srchidx (key ++ rest) low key.length) ∧
      d.LastNotGreater (key ++ rest) key.length (d.srchidx (key ++ rest) low key.length) := by
  have hpos := h.segunit_pos
  have hstart : low ≤ 0 ∨ ∃ (j : ℕ) (hj : j < d.idxStrings.length), low = j ∧
      d.idxStrings[j] ≤ (key ++ rest).take key.length := by
    rcases hlow with rfl | rfl | ⟨j, rfl, hj, hle⟩
    · exact .inl (by decide)
    · exact .inl (by decide)
    · rw [notGreater_iff] at hle
      refine .inr ⟨j, by rwa [length_idxStrings], rfl, ?_⟩
      rwa [getElem_idxStrings, List.take_left]
  have hbound : low = -1 ∨ (0 ≤ low ∧ low < d.segunit) := by
    rcases hlow with rfl | rfl | ⟨j, rfl, hj, -⟩
    · exact .inl rfl
    · exact .inr ⟨le_rfl, by exact_mod_cast hpos⟩
    · exact .inr ⟨by omega, by omega⟩
  have hlen : key.length ≤ (key ++ rest).length := by simp
  have hit := h.indexed.srchidx_spec hlen low hstart (by omega)
  rw [List.take_left] at hit
  refine ⟨srchidxReturns hbound, length_idxStrings ▸ hit.lt, ?_, ?_⟩
  · intro i hi hlt
    have hi' : i < d.idxStrings.length := by rwa [length_idxStrings]
    have := hit.gt i hi' hi
    rw [getElem_idxStrings] at this
    rw [notGreater_iff]
    exact not_le.mpr this
  · by_cases hself : d.NotGreater (key ++ rest) key.length (d.srchidx (key ++ rest) low key.length)
    · exact .inl hself
    · rcases hit.le with hzero | hle
      · refine .inr ⟨hzero, ?_⟩
        intro i hi
        rcases Nat.eq_zero_or_pos i with rfl | hposi
        · rwa [hzero] at hself
        · have hi' : i < d.idxStrings.length := by rwa [length_idxStrings]
          have := hit.gt i hi' (hzero ▸ hposi)
          rw [getElem_idxStrings] at this
          rw [notGreater_iff]
          exact not_le.mpr this
      · have := hle hit.lt
        rw [getElem_idxStrings, ← notGreater_iff key rest] at this
        exact absurd this hself

/-- A dictionary of two segments. -/
def twoSegs : Dict := ⟨1, 8, 0, 2, 0, [5, 0, 9, 0, 0, 0, 0, 0], [], [0, 2]⟩

theorem ascending_twoSegs : twoSegs.Ascending where
  segunit_pos := by decide
  «over» := by
    intro i j hij hj
    have hj' : j < 2 := hj
    obtain ⟨rfl, rfl⟩ : i = 0 ∧ j = 1 := by omega
    decide

theorem srchidx_last_twoSegs :
    twoSegs.SrchidxReturns ([9, 1] ++ [7]) (-1) 2 (twoSegs.srchidx ([9, 1] ++ [7]) (-1) 2) ∧
      twoSegs.LastNotGreater ([9, 1] ++ [7]) 2 (twoSegs.srchidx ([9, 1] ++ [7]) (-1) 2) :=
  srchidx_last ascending_twoSegs [9, 1] [7] (.inl rfl)

end Dict

end Sj3
