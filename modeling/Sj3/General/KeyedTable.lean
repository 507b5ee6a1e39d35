import Mathlib.Algebra.BigOperators.Group.Finset.Piecewise
import Mathlib.Tactic.Common

/-! # Tables with several entries for a key

A table that entries are only appended to. `row k` is what it holds for one key, in the order
in which it came. -/

namespace KeyedTable

variable {κ β : Type*} [DecidableEq κ]

def row (k : κ) (tbl : List (κ × β)) : List β :=
  tbl.filterMap fun e => if e.1 = k then some e.2 else none

@[simp] theorem row_nil (k : κ) : row k ([] : List (κ × β)) = [] := rfl

theorem row_push_self (k : κ) (b : β) (tbl : List (κ × β)) :
    row k (tbl ++ [(k, b)]) = row k tbl ++ [b] := by
  simp [row]

theorem row_push_of_ne {k k' : κ} (h : k' ≠ k) (b : β) (tbl : List (κ × β)) :
    row k (tbl ++ [(k', b)]) = row k tbl := by
  simp [row, h]

/-- The entries for `k`, as a search through the table meets them. -/
theorem map_filter_eq_row (k : κ) (tbl : List (κ × β)) :
    (tbl.filter fun e => e.1 = k).map Prod.snd = row k tbl := by
  induction tbl with
  | nil => rfl
  | cons e tbl ih =>
      unfold row at ih ⊢
      by_cases hk : e.1 = k
      · simp [hk, ih]
      · simp [hk, ih]

/-- Each entry is counted in the row of its key. -/
theorem length_eq_sum_row {tbl : List (κ × β)} {S : Finset κ} (h : ∀ e ∈ tbl, e.1 ∈ S) :
    tbl.length = ∑ k ∈ S, (row k tbl).length := by
  induction tbl with
  | nil => simp
  | cons e tbl ih =>
      have hrow : ∀ k,
          (row k (e :: tbl)).length = (if e.1 = k then 1 else 0) + (row k tbl).length := by
        intro k
        by_cases hk : e.1 = k
        · simp [row, hk, Nat.add_comm]
        · simp [row, hk]
      rw [Finset.sum_congr rfl fun k _ => hrow k, Finset.sum_add_distrib, Finset.sum_ite_eq,
        if_pos (h e List.mem_cons_self), List.length_cons,
        ih fun e he => h e (List.mem_cons_of_mem _ he), Nat.add_comm]

/-- For the keys in `P` the table holds all of `f k` if `k` has been entered, and nothing
otherwise. -/
def FilledOn (P : κ → Prop) (f : κ → List β) (entered : κ → Prop) [DecidablePred entered]
    (tbl : List (κ × β)) : Prop :=
  ∀ k, P k → row k tbl = if entered k then f k else []

theorem FilledOn.length {f : κ → List β} {S : Finset κ} {tbl : List (κ × β)}
    (h : FilledOn (fun _ => True) f (· ∈ S) tbl) : tbl.length = ∑ k ∈ S, (f k).length := by
  have hkeys : ∀ e ∈ tbl, e.1 ∈ S := by
    intro e he
    by_contra hnot
    have hmem : e.2 ∈ row e.1 tbl := List.mem_filterMap.mpr ⟨e, he, if_pos rfl⟩
    rw [h e.1 trivial, if_neg hnot] at hmem
    cases hmem
  rw [length_eq_sum_row hkeys]
  exact Finset.sum_congr rfl fun k hk => by rw [h k trivial, if_pos hk]

end KeyedTable
