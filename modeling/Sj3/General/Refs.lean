import Mathlib.Algebra.BigOperators.Group.Finset.Basic
import Mathlib.Algebra.Order.BigOperators.Group.Finset

/-! # Reference counts

Objects count the references to them and exist as long as there are some. The references are
those in the lists of some owners and others that are in somebody's hand. -/

namespace Refs

variable {ι α : Type*}

/-! ## References in lists -/

section Lists

variable [DecidableEq α]

def inLists (owners : Finset ι) (list : ι → List α) (a : α) : ℕ :=
  ∑ i ∈ owners, (list i).count a

theorem inLists_pos_iff {owners : Finset ι} {list : ι → List α} {a : α} :
    0 < inLists owners list a ↔ ∃ i ∈ owners, a ∈ list i := by
  rw [inLists, Finset.sum_pos_iff]
  simp only [List.count_pos_iff]

theorem inLists_congr {owners : Finset ι} {list list' : ι → List α}
    (h : ∀ i ∈ owners, list i = list' i) (a : α) :
    inLists owners list a = inLists owners list' a :=
  Finset.sum_congr rfl fun i hi => by rw [h i hi]

variable [DecidableEq ι]

/-- A new list of one owner takes the place of the old one. -/
theorem inLists_update {owners : Finset ι} (list : ι → List α) {i : ι} (hi : i ∈ owners)
    (l : List α) (a : α) :
    inLists owners (Function.update list i l) a + (list i).count a =
      inLists owners list a + l.count a := by
  have hold := Finset.sum_erase_add owners (fun j => (list j).count a) hi
  have hnew := Finset.sum_erase_add owners (fun j => (Function.update list i l j).count a) hi
  have hrest : ∑ j ∈ owners.erase i, (Function.update list i l j).count a =
      ∑ j ∈ owners.erase i, (list j).count a := by
    refine Finset.sum_congr rfl fun j hj => ?_
    rw [Function.update_of_ne (Finset.ne_of_mem_erase hj)]
  rw [hrest, Function.update_self] at hnew
  rw [inLists, inLists]
  omega

theorem inLists_insert_nil {owners : Finset ι} {list : ι → List α} {i : ι} (hi : i ∉ owners)
    (hnil : list i = []) (a : α) : inLists (insert i owners) list a = inLists owners list a := by
  rw [inLists, Finset.sum_insert hi, hnil, List.count_nil, Nat.zero_add, inLists]

theorem inLists_erase_nil {owners : Finset ι} (list : ι → List α) {i : ι}
    (hnil : list i = []) (a : α) : inLists (owners.erase i) list a = inLists owners list a := by
  rw [inLists, Finset.sum_erase]
  · rfl
  · rw [hnil, List.count_nil]

end Lists

/-! ## Counts -/

/-- The objects that exist are those referred to, and each counts its references. -/
def Counted (count : α → Option ℤ) (refs : α → ℕ) : Prop :=
  ∀ a, count a = if refs a = 0 then none else some (refs a : ℤ)

/-- One reference more. -/
def plus [DecidableEq α] (a : α) (refs : α → ℕ) (b : α) : ℕ := refs b + if b = a then 1 else 0

theorem plus_self [DecidableEq α] (a : α) (refs : α → ℕ) : plus a refs a = refs a + 1 := by
  rw [plus, if_pos rfl]

theorem plus_add_count [DecidableEq α] (a : α) (refs : α → ℕ) (l : List α) (b : α) :
    plus a (fun b => refs b + l.count b) b = refs b + (a :: l).count b := by
  rw [plus, List.count_cons, Nat.add_assoc]
  simp only [beq_iff_eq, eq_comm (a := a)]

theorem plus_of_ne [DecidableEq α] {a b : α} (h : b ≠ a) (refs : α → ℕ) :
    plus a refs b = refs b := by
  rw [plus, if_neg h, Nat.add_zero]

section Counts

variable {count : α → Option ℤ} {refs : α → ℕ} {a : α}

theorem Counted.isSome_iff (h : Counted count refs) : (count a).isSome ↔ 0 < refs a := by
  rw [h a]
  split
  · rename_i hzero
    simp [hzero]
  · rename_i hpos
    simp only [Option.isSome_some, true_iff]
    omega

theorem Counted.eq_of_some (h : Counted count refs) {n : ℤ} (hn : count a = some n) :
    n = refs a := by
  rw [h a] at hn
  split at hn
  · exact absurd hn (by simp)
  · exact (Option.some_inj.mp hn).symm

theorem Counted.congr (h : Counted count refs) {count' : α → Option ℤ} {refs' : α → ℕ}
    (hcount : ∀ b, count' b = count b) (hrefs : ∀ b, refs' b = refs b) :
    Counted count' refs' := by
  intro b
  rw [hcount, hrefs]
  exact h b

variable [DecidableEq α]

/-- Another reference to an object. -/
theorem Counted.retain (h : Counted count refs) {n : ℤ} (hn : count a = some n) :
    Counted (Function.update count a (some (n + 1))) (plus a refs) := by
  intro b
  by_cases hb : b = a
  · rw [hb, Function.update_self, plus_self, if_neg (by omega), h.eq_of_some hn, Int.natCast_succ]
  · rw [Function.update_of_ne hb, plus_of_ne hb]
    exact h b

/-- The first reference to a new object. -/
theorem Counted.alloc (h : Counted count refs) (hnew : count a = none) :
    Counted (Function.update count a (some 1)) (plus a refs) := by
  have hzero : refs a = 0 := by
    by_contra hpos
    have hsome := h.isSome_iff.mpr (Nat.pos_of_ne_zero hpos)
    rw [hnew] at hsome
    exact absurd hsome (by simp)
  intro b
  by_cases hb : b = a
  · rw [hb, Function.update_self, plus_self, if_neg (by omega), hzero]
    rfl
  · rw [Function.update_of_ne hb, plus_of_ne hb]
    exact h b

/-- A reference less; the last one takes the object with it. -/
theorem Counted.release (h : Counted count (plus a refs)) :
    ∃ n, count a = some n ∧
      Counted (Function.update count a (if n - 1 > 0 then some (n - 1) else none)) refs := by
  have ha := h a
  rw [plus_self, if_neg (by omega)] at ha
  refine ⟨_, ha, fun b => ?_⟩
  by_cases hb : b = a
  · rw [hb, Function.update_self, Int.natCast_succ]
    split
    · rw [if_neg (by omega)]
      congr 1
      omega
    · rw [if_pos (by omega)]
  · rw [Function.update_of_ne hb]
    have hold := h b
    rw [plus_of_ne hb] at hold
    exact hold

end Counts

end Refs
