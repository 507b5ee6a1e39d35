import Mathlib.Data.List.Basic
import Mathlib.Tactic.Common

/-! # Strings that loops step through by pieces

The first element of a piece says how long it is. A loop that relies on that steps over the
terminator where the last piece is too short. -/

namespace Strides

variable {α : Type*} (width : α → ℕ)

/-- A piece as long as it says. -/
def Whole (p : List α) : Prop := ∃ c ∈ p.head?, p.length = width c

/-- One of the first `n` pieces would be longer than what is left. -/
def overlong : ℕ → List α → Bool
  | 0, _ => false
  | _, [] => false
  | n + 1, c :: s =>
      decide (s.length + 1 < width c) || overlong n ((c :: s).drop (width c))

@[simp] theorem overlong_nil {n : ℕ} : overlong width n ([] : List α) = false := by
  cases n <;> rfl

/-- No loop steps over the end of whole pieces. -/
theorem overlong_flatten {n : ℕ} {ps : List (List α)} (h : ∀ p ∈ ps, Whole width p) :
    overlong width n ps.flatten = false := by
  induction n generalizing ps with
  | zero => rfl
  | succ n ih =>
      cases ps with
      | nil => rfl
      | cons p ps =>
          obtain ⟨c, hc, hlen⟩ := h p List.mem_cons_self
          obtain ⟨p, rfl⟩ := List.head?_eq_some_iff.mp hc
          have hdrop : (c :: (p ++ ps.flatten)).drop (width c) = ps.flatten := by
            rw [← List.cons_append, ← hlen, List.drop_left]
          rw [List.flatten_cons, List.cons_append, overlong, hdrop,
            ih fun p hp => h p (List.mem_cons_of_mem _ hp), Bool.or_false,
            decide_eq_false_iff_not, List.length_append]
          rw [List.length_cons] at hlen
          omega

variable [DecidableEq α] (t : α)

/-- How far a loop has come after `n` pieces, or at the terminator. -/
def passed : ℕ → List α → ℕ
  | 0, _ => 0
  | _, [] => 0
  | n + 1, c :: s => if c = t then 0 else width c + passed n ((c :: s).drop (width c))

variable {width t} {s q : List α} {n : ℕ}

@[simp] theorem passed_nil : passed width t n [] = 0 := by
  cases n <;> rfl

@[simp] theorem passed_terminator : passed width t n (t :: q) = 0 := by
  cases n with
  | zero => rfl
  | succ n => rw [passed, if_pos rfl]

/-- The loop stays in front of the terminator as long as no piece is too short. -/
theorem passed_le_iff (hs : t ∉ s) :
    passed width t n (s ++ t :: q) ≤ s.length ↔ overlong width n s = false := by
  induction n generalizing s with
  | zero => simp [passed, overlong]
  | succ n ih =>
      cases s with
      | nil => simp
      | cons c s =>
          have hc : c ≠ t := fun hc => hs (hc ▸ List.mem_cons_self)
          rw [List.cons_append, passed, if_neg hc, overlong]
          by_cases hlt : s.length + 1 < width c
          · simp only [hlt, decide_true, Bool.true_or, List.length_cons]
            constructor
            · intro h
              omega
            · intro h
              cases h
          have hdrop : (c :: (s ++ t :: q)).drop (width c) =
              (c :: s).drop (width c) ++ t :: q := by
            rw [← List.cons_append]
            exact List.drop_append_of_le_length (by rw [List.length_cons]; omega)
          have hrest : t ∉ (c :: s).drop (width c) := fun h => hs (List.mem_of_mem_drop h)
          rw [hdrop, decide_eq_false hlt, Bool.false_or, ← ih hrest, List.length_drop,
            List.length_cons]
          omega

/-- A loop that ends at the terminator has gone through whole pieces. -/
theorem exists_pieces (hpos : ∀ c, 0 < width c) (hs : t ∉ s) (hover : overlong width n s = false)
    (hend : ((s ++ t :: q).drop (passed width t n (s ++ t :: q))).head? = some t) :
    ∃ ps : List (List α), s = ps.flatten ∧ ps.length ≤ n ∧ ∀ p ∈ ps, Whole width p := by
  induction n generalizing s with
  | zero =>
      cases s with
      | nil => exact ⟨[], rfl, Nat.le_refl 0, by simp⟩
      | cons c s =>
          simp only [passed, List.drop_zero, List.cons_append, List.head?_cons,
            Option.some.injEq] at hend
          exact absurd (hend ▸ List.mem_cons_self) hs
  | succ n ih =>
      cases s with
      | nil => exact ⟨[], rfl, Nat.zero_le _, by simp⟩
      | cons c s =>
          have hc : c ≠ t := fun hc => hs (hc ▸ List.mem_cons_self)
          rw [overlong, Bool.or_eq_false_iff, decide_eq_false_iff_not] at hover
          have hle : width c ≤ (c :: s).length := by rw [List.length_cons]; omega
          have hdrop : (c :: (s ++ t :: q)).drop (width c) =
              (c :: s).drop (width c) ++ t :: q := by
            rw [← List.cons_append]
            exact List.drop_append_of_le_length hle
          have hrest : t ∉ (c :: s).drop (width c) := fun h => hs (List.mem_of_mem_drop h)
          rw [List.cons_append, passed, if_neg hc, ← List.drop_drop, hdrop] at hend
          obtain ⟨ps, hps, hlen, hwhole⟩ := ih hrest hover.2 hend
          refine ⟨(c :: s).take (width c) :: ps, ?_, Nat.succ_le_succ hlen, ?_⟩
          · rw [List.flatten_cons, ← hps, List.take_append_drop]
          · intro p hp
            rcases List.mem_cons.mp hp with rfl | hp
            · refine ⟨c, ?_, List.length_take_of_le hle⟩
              rw [List.head?_take, if_neg (Nat.ne_of_gt (hpos c))]
              rfl
            · exact hwhole p hp

end Strides
