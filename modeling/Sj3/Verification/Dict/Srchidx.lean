import Sj3.General.FrontCoding
import Sj3.General.Byte
import Sj3.Model.Dict
import Sj3.Verification.Text

/-! # Looking up a segment

`srchidx` finds the last segment whose index string does not come behind the key. -/

namespace Sj3

open FrontCoding

/-! ## Comparing with an index string -/

theorem istrcmp_append (u v r s : Bytes) :
    istrcmp (u ++ r) (v ++ s) u.length v.length =
      if u = v then .match else if u < v then .over else .under := by
  induction u generalizing v with
  | nil =>
      cases v with
      | nil => rfl
      | cons b v => simp [istrcmp]
  | cons a u ih =>
      cases v with
      | nil => simp [istrcmp]
      | cons b v =>
          simp only [List.cons_append, List.length_cons, istrcmp, List.headD_cons,
            List.tail_cons, ih, List.cons.injEq, List.cons_lt_cons_iff]
          rcases lt_trichotomy a b with h | rfl | h
          · simp [h, h.ne]
          · simp
          · simp [h, h.ne', not_lt.mpr h.le]

/-- The index of a dictionary: ascending strings, one a segment. -/
structure Indexed (d : Dict) (idxs : List Bytes) : Prop where
  segunit : d.segunit = idxs.length
  ne_nil : idxs ≠ []
  zero_notMem : ∀ x ∈ idxs, 0 ∉ x
  getIdxptr : ∀ i (h : i < idxs.length),
    ∃ rest, d.getIdxptr i = idxs[i] ++ rest ∧ rest.headD 0 = 0
  sorted : idxs.Pairwise (· < ·)

namespace Indexed

variable {d : Dict} {idxs : List Bytes} {x : Bytes} {len : ℕ}

theorem istrcmp_getIdxptr (h : Indexed d idxs) (hlen : len ≤ x.length) (i : ℕ)
    (hi : i < idxs.length) :
    istrcmp x (d.getIdxptr i) len (sstrlen (d.getIdxptr i)) =
      if x.take len = idxs[i] then .match else if x.take len < idxs[i] then .over
      else .under := by
  obtain ⟨rest, he, hr⟩ := h.getIdxptr i hi
  have h0 := h.zero_notMem _ (List.getElem_mem hi)
  have hcmp := istrcmp_append (x.take len) idxs[i] (x.drop len) rest
  rw [List.take_append_drop, List.length_take, min_eq_left hlen] at hcmp
  rw [he, sstrlen_append h0 _ hr, hcmp]

/-- What the bisection looks for. -/
structure Hit (idxs : List Bytes) (key : Bytes) (j : ℕ) : Prop where
  lt : j < idxs.length
  le : j = 0 ∨ ∀ h : j < idxs.length, idxs[j] ≤ key
  gt : ∀ i (h : i < idxs.length), j < i → key < idxs[i]

theorem getElem_lt_getElem (h : Indexed d idxs) {i j : ℕ} (hi : i < idxs.length)
    (hj : j < idxs.length) (hij : i < j) : idxs[i] < idxs[j] :=
  List.pairwise_iff_getElem.mp h.sorted i j hi hj hij

/-- The strings below `low` come in front of the key, those above `high` behind it, and
the last comparison was made next to one of these bounds. -/
theorem srchidxLoop_spec (h : Indexed d idxs) (hlen : len ≤ x.length) (n : ℕ)
    (low high mid : ℤ) (cmp : Cmp) (hlow : 0 ≤ low) (hhigh : high < idxs.length)
    (hgap : low ≤ high + 1) (hn : high + 2 ≤ low + n)
    (hbelow : ∀ i (hi : i < idxs.length), (i : ℤ) < low → idxs[i] ≤ x.take len)
    (habove : ∀ i (hi : i < idxs.length), high < i → x.take len < idxs[i])
    (hlast : low ≤ high ∨ (cmp = .over ∧ mid = high + 1) ∨
    (cmp = .under ∧ 0 ≤ mid ∧ mid + 1 = low)) :
    Hit idxs (x.take len) (d.srchidxLoop x len n low high mid cmp).toNat := by
  induction n generalizing low high mid cmp with
  | zero => omega
  | succ n ih =>
      rw [Dict.srchidxLoop]
      by_cases hle : low ≤ high
      · rw [if_pos hle]
        obtain ⟨m, hm⟩ : ∃ m : ℕ, (low + high) / 2 = m := ⟨((low + high) / 2).toNat, by omega⟩
        have hml : m < idxs.length := by omega
        simp only [hm, Int.toNat_natCast, h.istrcmp_getIdxptr hlen m hml]
        rcases lt_trichotomy (x.take len) idxs[m] with hlt | heq | hgt
        · rw [if_neg hlt.ne, if_pos hlt, if_pos rfl]
          refine ih _ _ _ _ hlow (by omega) (by omega) (by omega) hbelow ?_
            (.inr (.inl ⟨rfl, by omega⟩))
          intro i hi hmi
          rcases Nat.lt_or_ge m i with hmi' | hmi'
          · exact hlt.trans (h.getElem_lt_getElem hml hi hmi')
          · obtain rfl : i = m := by omega
            exact hlt
        · rw [if_pos heq, if_neg (by decide), if_neg (by simp)]
          refine ⟨hml, .inr fun _ => heq.ge, fun i hi hmi => ?_⟩
          rw [heq]
          exact h.getElem_lt_getElem hml hi hmi
        · rw [if_neg hgt.ne', if_neg (not_lt.mpr hgt.le), if_neg (by decide),
            if_pos (by decide)]
          refine ih _ _ _ _ (by omega) hhigh (by omega) (by omega) ?_ habove
            (.inr (.inr ⟨rfl, by omega, rfl⟩))
          intro i hi him
          rcases Nat.lt_or_ge i m with him' | him'
          · exact ((h.getElem_lt_getElem hi hml him').trans hgt).le
          · obtain rfl : i = m := by omega
            exact hgt.le
      · rw [if_neg hle]
        rcases hlast.resolve_left hle with ⟨rfl, hmid⟩ | ⟨rfl, hpos, hmid⟩
        · by_cases hz : mid = 0
          · rw [if_neg (by simp [hz, dicSegBase])]
            have hpos := List.length_pos_of_ne_nil h.ne_nil
            exact ⟨by omega, .inl (by omega), fun i hi hj => habove i hi (by omega)⟩
          · rw [if_pos ⟨rfl, by simpa [dicSegBase] using hz⟩]
            exact ⟨by omega, .inr fun hj => hbelow _ hj (by omega),
              fun i hi hj => habove i hi (by omega)⟩
        · rw [if_neg (by simp)]
          exact ⟨by omega, .inr fun hj => hbelow _ hj (by omega),
            fun i hi hj => habove i hi (by omega)⟩

/-- A search may start from any segment that does not come behind the key. -/
theorem srchidx_spec (h : Indexed d idxs) (hlen : len ≤ x.length) (low : ℤ)
    (hlow : low ≤ 0 ∨ ∃ (j : ℕ) (hj : j < idxs.length), low = j ∧ idxs[j] ≤ x.take len)
    (hlow' : -1 ≤ low) :
    Hit idxs (x.take len) (d.srchidx x low len) := by
  have hpos := List.length_pos_of_ne_nil h.ne_nil
  rw [Dict.srchidx, h.segunit]
  by_cases hone : (idxs.length : ℤ) - 1 < 1
  · rw [if_pos hone]
    exact ⟨hpos, .inl rfl, fun i hi hj => by omega⟩
  · rw [if_neg hone]
    have hstart : 0 ≤ (if low = -1 then 0 else low) ∧
        (if low = -1 then 0 else low) < idxs.length ∧
        ∀ i (hi : i < idxs.length), (i : ℤ) < (if low = -1 then 0 else low) →
          idxs[i] ≤ x.take len := by
      rcases hlow with hlow | ⟨j, hj, rfl, hle⟩
      · split
        · exact ⟨le_rfl, by omega, fun i hi him => by omega⟩
        · exact ⟨by omega, by omega, fun i hi him => by omega⟩
      · rw [if_neg (by omega)]
        refine ⟨by omega, by omega, fun i hi him => ?_⟩
        exact (h.getElem_lt_getElem hi hj (by omega)).le.trans hle
    obtain ⟨h₁, h₂, h₃⟩ := hstart
    exact h.srchidxLoop_spec hlen _ _ _ _ _ h₁ (by omega) (by omega) (by omega) h₃
      (fun i hi hmi => by omega) (.inl (by omega))

end Indexed

end Sj3
