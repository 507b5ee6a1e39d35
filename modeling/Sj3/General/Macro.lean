import Mathlib.Data.List.Basic
import Mathlib.Tactic.Common

/-! # Abbreviations

Some symbols stand for strings, which may have such symbols in them again. This file has the
spelling of a string with them, the expansion of a spelling in a bounded number of steps, and
when a spelling is a shortest one. -/

namespace Macro

variable {σ τ β : Type*}

/-! ## Spelling -/

section Spells

variable {stands : σ → List τ → Prop}

/-- The symbols `s` stand for the parts of `k`, one after the other. -/
inductive Spells (stands : σ → List τ → Prop) : List σ → List τ → Prop
  | nil : Spells stands [] []
  | cons {a : σ} {x : List τ} {s : List σ} {k : List τ} (ha : stands a x)
      (h : Spells stands s k) : Spells stands (a :: s) (x ++ k)

theorem Spells.eq_nil {k : List τ} (h : Spells stands [] k) : k = [] := by
  cases h with
  | nil => rfl

/-- Told in another way what the symbols stand for. -/
theorem Spells.map {ρ : Type*} {f : List τ → List ρ} (hnil : f [] = [])
    (happ : ∀ a x k, stands a x → f (x ++ k) = f x ++ f k) {s : List σ} {k : List τ}
    (h : Spells stands s k) : Spells (fun a y => ∃ x, stands a x ∧ y = f x) s (f k) := by
  induction h with
  | nil =>
      rw [hnil]
      exact .nil
  | cons ha h ih =>
      rw [happ _ _ _ ha]
      exact .cons ⟨_, ha, rfl⟩ ih

end Spells

/-! ## Expansion -/

section Expands

variable {plain : σ → Prop} {body : σ → List σ → Prop} {m n : ℕ} {s k : List σ}

/-- Replacing the symbols of `s` that have a body by it, over and over, leads to `k`; `n` bounds
the symbols that are passed on any way from the first one to one that stays. -/
inductive Expands (plain : σ → Prop) (body : σ → List σ → Prop) : ℕ → List σ → List σ → Prop
  | nil {n : ℕ} : Expands plain body n [] []
  | plain {n : ℕ} {a : σ} {s k : List σ} (ha : plain a) (h : Expands plain body n s k) :
      Expands plain body (n + 1) (a :: s) (a :: k)
  | body {n : ℕ} {a : σ} {b s kb k : List σ} (ha : body a b) (hne : b ≠ [])
      (hb : Expands plain body n b kb) (h : Expands plain body n s k) :
      Expands plain body (n + 1) (a :: s) (kb ++ k)

theorem Expands.mono (h : Expands plain body n s k) (hle : n ≤ m) : Expands plain body m s k := by
  induction h generalizing m with
  | nil => exact .nil
  | plain ha h ih =>
      obtain ⟨m, rfl⟩ : ∃ i, m = i + 1 := ⟨m - 1, by omega⟩
      exact .plain ha (ih (by omega))
  | body ha hne hb h ihb ih =>
      obtain ⟨m, rfl⟩ : ∃ i, m = i + 1 := ⟨m - 1, by omega⟩
      exact .body ha hne (ihb (by omega)) (ih (by omega))

/-- With more bodies about, what had one still has it. -/
theorem Expands.weaken {body' : σ → List σ → Prop} (h : Expands plain body n s k)
    (hsub : ∀ a b, body a b → body' a b) : Expands plain body' n s k := by
  induction h with
  | nil => exact .nil
  | plain ha h ih => exact .plain ha ih
  | body ha hne hb h ihb ih => exact .body (hsub _ _ ha) hne ihb ih

/-- Plain symbols stay as they are. -/
theorem Expands.of_plain (h : ∀ a ∈ s, plain a) : Expands plain body s.length s s := by
  induction s with
  | nil => exact .nil
  | cons a s ih => exact .plain (h a (by simp)) (ih fun b hb => h b (by simp [hb]))

theorem Expands.ne_nil (h : Expands plain body n s k) (hs : s ≠ []) : k ≠ [] := by
  induction h with
  | nil => exact absurd rfl hs
  | plain ha h ih => simp
  | body ha hne hb h ihb ih =>
      intro hk
      exact ihb hne (List.append_eq_nil_iff.mp hk).1

/-- A spelling expands, if every symbol of it does. -/
theorem Spells.expands {stands : σ → List σ → Prop} (h : Spells stands s k)
    (hstep : ∀ a ∈ s, ∀ x, stands a x →
      plain a ∧ x = [a] ∨ ∃ b, body a b ∧ b ≠ [] ∧ Expands plain body n b x) :
    Expands plain body (n + s.length) s k := by
  induction h with
  | nil => exact .nil
  | @cons a x s k ha h ih =>
      have ih := ih fun b hb => hstep b (by simp [hb])
      rw [List.length_cons, ← Nat.add_assoc]
      rcases hstep a (by simp) x ha with ⟨hp, rfl⟩ | ⟨b, hb, hne, hx⟩
      · exact .plain hp ih
      · exact .body hb hne (hx.mono (Nat.le_add_right _ _)) ih

end Expands

/-! ## Reading -/

section Render

variable {one : Bool → σ → List β} {k l : List σ}

/-- What is read off a string symbol by symbol; the last one may be read in another way. -/
def render (one : Bool → σ → List β) (flg : Bool) : List σ → List β
  | [] => []
  | [a] => one flg a
  | a :: b :: k => one false a ++ render one flg (b :: k)

theorem render_cons (a : σ) (hk : k ≠ []) (flg : Bool) :
    render one flg (a :: k) = one false a ++ render one flg k := by
  cases k with
  | nil => exact absurd rfl hk
  | cons b k => rfl

theorem render_append (hl : l ≠ []) (flg : Bool) :
    render one flg (k ++ l) = render one false k ++ render one flg l := by
  induction k with
  | nil => rfl
  | cons a k ih =>
      rw [List.cons_append, render_cons a (by simp [hl]), ih]
      by_cases hk : k = []
      · subst hk
        simp [render]
      · rw [render_cons a hk, List.append_assoc]

end Render

end Macro
