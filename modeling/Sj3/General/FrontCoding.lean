import Mathlib.Data.List.Lex
import Mathlib.Order.Lattice
import Mathlib.Tactic.Common

/-! # Front coding

A sorted list of strings is front-coded when each string is stored without the elements it
shares with the one in front of it. This file has the length of the common prefix of two
strings, how it behaves along a sorted list, and what a search through such a list knows
of the strings it has passed. -/

namespace FrontCoding

variable {α : Type*}

/-! ## Common prefixes -/

section Lcp

variable [DecidableEq α]

/-- The length of the longest common prefix. -/
def lcp : List α → List α → ℕ
  | a :: x, b :: y => if a = b then lcp x y + 1 else 0
  | _, _ => 0

@[simp] theorem lcp_nil_left (y : List α) : lcp [] y = 0 := by
  cases y <;> rfl

@[simp] theorem lcp_nil_right (x : List α) : lcp x [] = 0 := by
  cases x <;> rfl

theorem lcp_cons_cons (a b : α) (x y : List α) :
    lcp (a :: x) (b :: y) = if a = b then lcp x y + 1 else 0 := rfl

@[simp] theorem lcp_cons_self (a : α) (x y : List α) :
    lcp (a :: x) (a :: y) = lcp x y + 1 := if_pos rfl

theorem lcp_cons_ne {a b : α} (h : a ≠ b) (x y : List α) : lcp (a :: x) (b :: y) = 0 :=
  if_neg h

theorem lcp_comm (x y : List α) : lcp x y = lcp y x := by
  induction x generalizing y with
  | nil => simp
  | cons a x ih =>
      cases y with
      | nil => simp
      | cons b y =>
          by_cases h : a = b
          · subst h
            simp [ih]
          · rw [lcp_cons_ne h, lcp_cons_ne (Ne.symm h)]

theorem lcp_le_left (x y : List α) : lcp x y ≤ x.length := by
  induction x generalizing y with
  | nil => simp
  | cons a x ih =>
      cases y with
      | nil => simp
      | cons b y =>
          rw [lcp_cons_cons]
          split
          · simpa using ih y
          · simp

theorem lcp_le_right (x y : List α) : lcp x y ≤ y.length := by
  rw [lcp_comm]
  exact lcp_le_left y x

theorem take_lcp (x y : List α) : x.take (lcp x y) = y.take (lcp x y) := by
  induction x generalizing y with
  | nil => simp
  | cons a x ih =>
      cases y with
      | nil => simp
      | cons b y =>
          by_cases h : a = b
          · subst h
            simpa using ih y
          · simp [lcp_cons_ne h]

theorem take_eq_of_le_lcp {x y : List α} {n : ℕ} (h : n ≤ lcp x y) : x.take n = y.take n := by
  have h' := congrArg (List.take n) (take_lcp x y)
  rwa [List.take_take, List.take_take, min_eq_left h] at h'

theorem lcp_append (p x y : List α) : lcp (p ++ x) (p ++ y) = p.length + lcp x y := by
  induction p with
  | nil => simp
  | cons a p ih =>
      simp only [List.cons_append, lcp_cons_self, ih, List.length_cons]
      omega

@[simp] theorem lcp_self (x : List α) : lcp x x = x.length := by
  simpa using lcp_append x [] []

theorem lcp_eq_length_iff {x y : List α} : lcp x y = y.length ↔ y <+: x := by
  constructor
  · intro h
    have ht := take_lcp x y
    rw [h, List.take_length] at ht
    exact ht ▸ List.take_prefix _ _
  · rintro ⟨z, rfl⟩
    simpa using lcp_append y z []

/-- Two strings with a common prefix of at least `n` elements, split behind it. -/
theorem exists_append_of_le_lcp {x y : List α} {n : ℕ} (h : n ≤ lcp x y) :
    ∃ p, p.length = n ∧ x = p ++ x.drop n ∧ y = p ++ y.drop n := by
  refine ⟨x.take n, ?_, (List.take_append_drop n x).symm, ?_⟩
  · have := lcp_le_left x y
    simp
    omega
  · rw [take_eq_of_le_lcp h, List.take_append_drop]

end Lcp

/-! ## Common prefixes and order -/

section Order

variable [LinearOrder α]

theorem append_lt_append_iff (p : List α) {x y : List α} : p ++ x < p ++ y ↔ x < y := by
  induction p with
  | nil => rfl
  | cons a p ih =>
      rw [List.cons_append, List.cons_append, List.cons_lt_cons_iff]
      simp [ih]

theorem nil_le (x : List α) : [] ≤ x := not_lt.mp (List.not_lt_nil x)

theorem cons_le_cons_iff {a b : α} {x y : List α} :
    a :: x ≤ b :: y ↔ a < b ∨ a = b ∧ x ≤ y := by
  rw [← not_lt, ← not_lt, List.cons_lt_cons_iff, not_or, not_and, not_lt]
  constructor
  · rintro ⟨hle, h⟩
    rcases lt_or_eq_of_le hle with hlt | rfl
    · exact .inl hlt
    · exact .inr ⟨rfl, h rfl⟩
  · rintro (hlt | ⟨rfl, h⟩)
    · exact ⟨hlt.le, fun e => absurd e hlt.ne'⟩
    · exact ⟨le_rfl, fun _ => h⟩

theorem prefix_le {x y : List α} (h : x <+: y) : x ≤ y := by
  obtain ⟨z, rfl⟩ := h
  refine not_lt.mp fun hlt => ?_
  have h := (append_lt_append_iff x (x := z) (y := [])).mp (by rwa [List.append_nil])
  exact List.not_lt_nil _ h

/-- Along a sorted list the common prefix of two strings is the shortest on the way. -/
theorem lcp_eq_min {x y z : List α} (hxy : x ≤ y) (hyz : y ≤ z) :
    lcp x z = min (lcp x y) (lcp y z) := by
  induction x generalizing y z with
  | nil => simp
  | cons a x ih =>
      cases y with
      | nil => exact absurd hxy (not_le.mpr (List.nil_lt_cons _ _))
      | cons b y =>
          cases z with
          | nil => exact absurd hyz (not_le.mpr (List.nil_lt_cons _ _))
          | cons c z =>
              rcases cons_le_cons_iff.mp hxy with hab | ⟨rfl, hxy'⟩ <;>
                rcases cons_le_cons_iff.mp hyz with hbc | ⟨rfl, hyz'⟩
              · rw [lcp_cons_ne hab.ne, lcp_cons_ne (hab.trans hbc).ne, Nat.zero_min]
              · rw [lcp_cons_ne hab.ne, lcp_cons_ne hab.ne, Nat.zero_min]
              · rw [lcp_cons_ne hbc.ne, lcp_cons_ne hbc.ne, Nat.min_zero]
              · simp only [lcp_cons_self, ih hxy' hyz']
                omega

/-- A string that shares more with `prev` than `x` does lies on the same side of `x`. -/
theorem lt_of_lcp_lt {x prev y : List α} (hp : prev ≤ x) (h : lcp x prev < lcp prev y) :
    y < x ∧ lcp x y = lcp x prev := by
  induction prev generalizing x y with
  | nil => simp at h
  | cons b prev ih =>
      cases y with
      | nil => simp at h
      | cons c y =>
          cases x with
          | nil => exact absurd hp (not_le.mpr (List.nil_lt_cons _ _))
          | cons a x =>
              by_cases hbc : b = c
              · subst hbc
                rcases cons_le_cons_iff.mp hp with hba | ⟨rfl, hp'⟩
                · rw [lcp_cons_ne hba.ne', lcp_cons_ne hba.ne']
                  exact ⟨List.cons_lt_cons_iff.mpr (.inl hba), rfl⟩
                · rw [lcp_cons_self, lcp_cons_self] at h
                  obtain ⟨hlt, he⟩ := ih (y := y) hp' (by omega)
                  exact ⟨List.cons_lt_cons_iff.mpr (.inr ⟨rfl, hlt⟩), by simp [he]⟩
              · rw [lcp_cons_ne hbc] at h
                omega

/-- A string that shares less with `x` than `prev` does lies on the same side of both. -/
theorem lt_of_lt_lcp {x prev y : List α} (hlt : prev < y) (h : lcp x y < lcp x prev) :
    x < y := by
  induction prev generalizing x y with
  | nil => simp at h
  | cons b prev ih =>
      cases x with
      | nil => simp at h
      | cons a x =>
          cases y with
          | nil => exact absurd hlt (List.not_lt_nil _)
          | cons c y =>
              have hab : a = b := by
                by_contra hne
                rw [lcp_cons_ne hne] at h
                omega
              subst hab
              rcases List.cons_lt_cons_iff.mp hlt with hac | ⟨rfl, hlt'⟩
              · exact List.cons_lt_cons_iff.mpr (.inl hac)
              · rw [lcp_cons_self, lcp_cons_self] at h
                exact List.cons_lt_cons_iff.mpr (.inr ⟨rfl, ih hlt' (by omega)⟩)

/-- If `y` comes in front of `x`, so does it of the part of `x` that tells them apart. -/
theorem le_take_lcp_succ {x y : List α} (h : y ≤ x) : y ≤ x.take (lcp x y + 1) := by
  induction y generalizing x with
  | nil => exact nil_le _
  | cons b y ih =>
      cases x with
      | nil => exact absurd h (not_le.mpr (List.nil_lt_cons _ _))
      | cons a x =>
          rcases cons_le_cons_iff.mp h with hlt | ⟨rfl, h'⟩
          · rw [lcp_cons_ne hlt.ne']
            exact cons_le_cons_iff.mpr (.inl hlt)
          · rw [lcp_cons_self, List.take_succ_cons]
            exact cons_le_cons_iff.mpr (.inr ⟨rfl, ih h'⟩)

/-! ## Searching -/

/-- A search for `x` has passed `prev`, which shares its first `n` elements with `x`. -/
structure Passed (x prev : List α) (n : ℕ) : Prop where
  le : prev ≤ x
  eq : n = lcp x prev

theorem Passed.start (x : List α) : Passed x [] 0 := ⟨nil_le x, by simp⟩

theorem Passed.of_le {x y : List α} (h : y ≤ x) : Passed x y (lcp x y) := ⟨h, rfl⟩

/-- A string that shares more with the last one passed than `x` does is passed unseen. -/
theorem Passed.skip {x prev y : List α} {n : ℕ} (h : Passed x prev n) (hn : n < lcp prev y) :
    y < x ∧ lcp x y = n := by
  rw [h.eq] at hn ⊢
  exact lt_of_lcp_lt h.le hn

/-- What a string shares with the last one passed, as far as `x` does, it shares with
`x`. -/
theorem Passed.agree {x prev y : List α} {n p : ℕ} (h : Passed x prev n) (hp : p ≤ lcp prev y)
    (hn : p ≤ n) : p ≤ lcp x y := by
  rw [h.eq] at hn
  obtain ⟨u, hu, hpu, hyu⟩ := exists_append_of_le_lcp hp
  have hx : x.take p = u := by
    rw [take_eq_of_le_lcp hn, hpu, ← hu, List.take_left]
  rw [← List.take_append_drop p x, hx, hyu, lcp_append]
  omega

/-- Nothing that was passed has `x` as far as the next string to look for. -/
theorem Passed.lt_of_prefix {x prev y : List α} {n : ℕ} (h : Passed x prev n) (hy : y <+: x)
    (hprev : prev < y) : n < y.length := by
  by_contra hn
  have ht : x.take y.length = prev.take y.length :=
    take_eq_of_le_lcp (by rw [← h.eq]; omega)
  have hpy : y <+: prev := by
    rw [List.prefix_iff_eq_take, ← ht]
    exact List.prefix_iff_eq_take.mp hy
  exact absurd hprev (not_lt.mpr (prefix_le hpy))

end Order

end FrontCoding
