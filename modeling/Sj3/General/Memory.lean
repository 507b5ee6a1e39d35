import Mathlib.Data.List.Basic
import Mathlib.Logic.Function.Basic
import Mathlib.Tactic.Common

/-! # Memory as a function of the address -/

namespace Memory

variable {α : Type*}

/-- The `n` cells from `p` on. -/
def cells (m : ℕ → α) : ℕ → ℕ → List α
  | _, 0 => []
  | p, n + 1 => m p :: cells m (p + 1) n

/-- The elements stored from `p` on. -/
def write (m : ℕ → α) : ℕ → List α → ℕ → α
  | _, [] => m
  | p, c :: cs => write (Function.update m p c) (p + 1) cs

@[simp] theorem length_cells (m : ℕ → α) (p n : ℕ) : (cells m p n).length = n := by
  induction n generalizing p with
  | zero => rfl
  | succ n ih => rw [cells, List.length_cons, ih]

theorem write_append (m : ℕ → α) (p : ℕ) (cs ds : List α) :
    write m p (cs ++ ds) = write (write m p cs) (p + cs.length) ds := by
  induction cs generalizing m p with
  | nil => rfl
  | cons c cs ih =>
      rw [List.cons_append, write, ih, write, List.length_cons, Nat.add_assoc, Nat.add_comm 1]

theorem write_below (m : ℕ → α) {p i : ℕ} (cs : List α) (h : i < p) : write m p cs i = m i := by
  induction cs generalizing m p with
  | nil => rfl
  | cons c cs ih =>
      rw [write, ih _ (Nat.lt_succ_of_lt h), Function.update_of_ne (Nat.ne_of_lt h)]

theorem write_above (m : ℕ → α) {p i : ℕ} (cs : List α) (h : p + cs.length ≤ i) :
    write m p cs i = m i := by
  induction cs generalizing m p with
  | nil => rfl
  | cons c cs ih =>
      rw [List.length_cons] at h
      rw [write, ih _ (by omega), Function.update_of_ne (by omega)]

/-- The cells depend on the memory there only. -/
theorem cells_congr {m m' : ℕ → α} {p n : ℕ} (h : ∀ i, p ≤ i → i < p + n → m i = m' i) :
    cells m p n = cells m' p n := by
  induction n generalizing p with
  | zero => rfl
  | succ n ih =>
      rw [cells, cells, h p (Nat.le_refl p) (by omega),
        ih fun i hi hlt => h i (by omega) (by omega)]

theorem cells_add (m : ℕ → α) (p n k : ℕ) :
    cells m p (n + k) = cells m p n ++ cells m (p + n) k := by
  induction n generalizing p with
  | zero => rw [Nat.zero_add]; rfl
  | succ n ih =>
      rw [Nat.succ_add, cells, ih, cells, List.cons_append, Nat.add_assoc, Nat.add_comm 1]

@[simp] theorem cells_write (m : ℕ → α) (p : ℕ) (cs : List α) :
    cells (write m p cs) p cs.length = cs := by
  induction cs generalizing m p with
  | nil => rfl
  | cons c cs ih =>
      rw [List.length_cons, cells, write, ih, write_below _ cs (Nat.lt_succ_self p),
        Function.update_self]

end Memory
