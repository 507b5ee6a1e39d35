import Mathlib.Data.List.Pairwise
import Mathlib.Order.Lattice
import Mathlib.Tactic.Common

/-! # Bisection

Searching a table with ascending keys by halving, told only how the key at a position compares
with the one that is looked for. -/

namespace Bisect

/-- The positions from `low` up to `high`, which is left out, may still have the key. A key that
is not there belongs to the position that is returned. -/
def search (cmp : ℕ → ℤ) : ℕ → ℕ → ℕ → Bool × ℕ
  | 0, low, _ => (false, low)
  | n + 1, low, high =>
      if low < high then
        let mid := (low + high - 1) / 2
        if 0 < cmp mid then search cmp n low mid
        else if cmp mid < 0 then search cmp n (mid + 1) high
        else (true, mid)
      else (false, low)

variable {τ κ : Type*} [LinearOrder κ] {key : τ → κ} {x : κ} {tbl : List τ} {cmp : ℕ → ℤ}

/-- The numbers tell how the keys of the table compare with `x`. -/
structure Compares (key : τ → κ) (x : κ) (tbl : List τ) (cmp : ℕ → ℤ) : Prop where
  pos_iff : ∀ (i : ℕ) (h : i < tbl.length), 0 < cmp i ↔ x < key tbl[i]
  neg_iff : ∀ (i : ℕ) (h : i < tbl.length), cmp i < 0 ↔ key tbl[i] < x

/-- Where `x` is in the table, or where it belongs. -/
inductive Spot (key : τ → κ) (x : κ) (tbl : List τ) : Bool × ℕ → Prop
  | found {l r : List τ} {t : τ} (htbl : tbl = l ++ t :: r) (ht : key t = x) :
      Spot key x tbl (true, l.length)
  | absent {l r : List τ} (htbl : tbl = l ++ r) (hl : ∀ t ∈ l, key t < x)
      (hr : ∀ t ∈ r, x < key t) : Spot key x tbl (false, l.length)

/-- The keys in front of `low` are too small, those from `high` on too big. -/
structure Between (key : τ → κ) (x : κ) (tbl : List τ) (low high : ℕ) : Prop where
  le : low ≤ high
  le_length : high ≤ tbl.length
  below : ∀ t ∈ tbl.take low, key t < x
  above : ∀ t ∈ tbl.drop high, x < key t

theorem Between.start (key : τ → κ) (x : κ) (tbl : List τ) : Between key x tbl 0 tbl.length :=
  ⟨Nat.zero_le _, le_rfl, by simp, by simp⟩

variable {low high mid : ℕ}

theorem Between.lower (h : Between key x tbl low high) (hs : (tbl.map key).Pairwise (· < ·))
    (hmid : mid < tbl.length) (hle : low ≤ mid) (hlt : x < key tbl[mid]) :
    Between key x tbl low mid := by
  refine ⟨hle, hmid.le, h.below, ?_⟩
  intro t ht
  rw [List.drop_eq_getElem_cons hmid] at ht
  rcases List.mem_cons.mp ht with rfl | ht
  · exact hlt
  · rw [List.pairwise_map] at hs
    have hsub : (tbl[mid] :: tbl.drop (mid + 1)).Sublist tbl := by
      rw [← List.drop_eq_getElem_cons hmid]
      exact List.drop_sublist _ _
    have hrel := (List.pairwise_cons.mp (hs.sublist hsub)).1 t ht
    exact hlt.trans hrel

theorem Between.upper (h : Between key x tbl low high) (hs : (tbl.map key).Pairwise (· < ·))
    (hmid : mid < high) (hmid' : mid < tbl.length) (hlt : key tbl[mid] < x) :
    Between key x tbl (mid + 1) high := by
  refine ⟨hmid, h.le_length, ?_, h.above⟩
  intro t ht
  rw [List.take_succ_eq_append_getElem hmid'] at ht
  rcases List.mem_append.mp ht with ht | ht
  · rw [List.pairwise_map] at hs
    have hsub : (tbl.take mid ++ [tbl[mid]]).Sublist tbl := by
      rw [← List.take_succ_eq_append_getElem hmid']
      exact List.take_sublist _ _
    have hrel := (List.pairwise_append.mp (hs.sublist hsub)).2.2 t ht tbl[mid] (by simp)
    exact hrel.trans hlt
  · rw [List.mem_singleton.mp ht]
    exact hlt

/-- With enough steps the search ends at the place of `x`. -/
theorem search_between (hs : (tbl.map key).Pairwise (· < ·)) (hc : Compares key x tbl cmp) {n : ℕ}
    (hn : high - low ≤ n) (h : Between key x tbl low high) :
    Spot key x tbl (search cmp n low high) := by
  have hend : ∀ {m k : ℕ}, m = k → Between key x tbl m k → Spot key x tbl (false, m) := by
    rintro m _ rfl hb
    have hspot : Spot key x tbl (false, (tbl.take m).length) :=
      .absent (List.take_append_drop m tbl).symm hb.below hb.above
    rwa [List.length_take, min_eq_left hb.le_length] at hspot
  induction n generalizing low high with
  | zero => exact hend (by have := h.le; omega) h
  | succ n ih =>
      rw [search]
      by_cases hlt : low < high
      · rw [if_pos hlt]
        obtain ⟨mid, hmid⟩ : ∃ mid, mid = (low + high - 1) / 2 := ⟨_, rfl⟩
        have hlow : low ≤ mid := by omega
        have hhigh : mid < high := by omega
        have hlen : mid < tbl.length := hhigh.trans_le h.le_length
        simp only [← hmid]
        by_cases hpos : 0 < cmp mid
        · rw [if_pos hpos]
          exact ih (by omega) (h.lower hs hlen hlow ((hc.pos_iff mid hlen).mp hpos))
        · rw [if_neg hpos]
          by_cases hneg : cmp mid < 0
          · rw [if_pos hneg]
            exact ih (by omega) (h.upper hs hhigh hlen ((hc.neg_iff mid hlen).mp hneg))
          · rw [if_neg hneg]
            have hkey : key tbl[mid] = x := by
              apply le_antisymm
              · exact not_lt.mp fun hx => hpos ((hc.pos_iff mid hlen).mpr hx)
              · exact not_lt.mp fun hx => hneg ((hc.neg_iff mid hlen).mpr hx)
            have htbl : tbl = tbl.take mid ++ tbl[mid] :: tbl.drop (mid + 1) := by
              rw [← List.drop_eq_getElem_cons hlen, List.take_append_drop]
            have hspot : Spot key x tbl (true, (tbl.take mid).length) := .found htbl hkey
            rwa [List.length_take, min_eq_left hlen.le] at hspot
      · rw [if_neg hlt]
        exact hend (by have := h.le; omega) h

theorem search_spec (hs : (tbl.map key).Pairwise (· < ·)) (hc : Compares key x tbl cmp) :
    Spot key x tbl (search cmp tbl.length 0 tbl.length) :=
  search_between hs hc (Nat.sub_le _ _) (Between.start key x tbl)

theorem insertIdx_append (l r : List τ) (t : τ) : (l ++ r).insertIdx l.length t = l ++ t :: r := by
  induction l with
  | nil => simp
  | cons u l ih => simp [ih]

/-- Put where it belongs, a new key keeps the table in order. -/
theorem pairwise_insert {l r : List τ} {t : τ} (hs : ((l ++ r).map key).Pairwise (· < ·))
    (hl : ∀ u ∈ l, key u < key t) (hr : ∀ u ∈ r, key t < key u) :
    ((l ++ t :: r).map key).Pairwise (· < ·) := by
  rw [List.pairwise_map] at hs ⊢
  obtain ⟨hpl, hpr, hlr⟩ := List.pairwise_append.mp hs
  refine List.pairwise_append.mpr ⟨hpl, List.pairwise_cons.mpr ⟨hr, hpr⟩, ?_⟩
  intro u hu v hv
  rcases List.mem_cons.mp hv with rfl | hv
  · exact hl u hu
  · exact hlr u hu v hv

end Bisect
