import Mathlib.Data.List.Forall2
import Mathlib.Data.Option.Basic
import Mathlib.Tactic.Common

/-! # Transducers

A machine answers every event with an output and a new state, or gets stuck. Conditions on
runs are conditions on their steps. -/

namespace Transducer

variable {σ τ ε ο : Type*}

/-- The last state and the outputs of a run. -/
def run (step : σ → ε → Option (σ × ο)) : σ → List ε → Option (σ × List ο)
  | s, [] => some (s, [])
  | s, e :: es => (step s e).bind fun r => (run step r.1 es).map fun q => (q.1, r.2 :: q.2)

def outputs (step : σ → ε → Option (σ × ο)) (s : σ) (es : List ε) : Option (List ο) :=
  (run step s es).map Prod.snd

/-- Every step of the run meets a condition. -/
def Along (step : σ → ε → Option (σ × ο)) (good : σ → ε → Prop) : σ → List ε → Prop
  | _, [] => True
  | s, e :: es => good s e ∧ ∀ r ∈ step s e, Along step good r.1 es

instance Along.decidable (step : σ → ε → Option (σ × ο)) (good : σ → ε → Prop)
    [∀ s e, Decidable (good s e)] : ∀ s es, Decidable (Along step good s es)
  | _, [] => isTrue trivial
  | s, e :: es =>
      have := fun r : σ × ο => Along.decidable step good r.1 es
      inferInstanceAs (Decidable (good s e ∧ ∀ r ∈ step s e, Along step good r.1 es))

theorem outputs_cons (step : σ → ε → Option (σ × ο)) (s : σ) (e : ε) (es : List ε) :
    outputs step s (e :: es) =
      (step s e).bind fun r => (outputs step r.1 es).map (r.2 :: ·) := by
  rw [outputs, run]
  cases step s e with
  | none => rfl
  | some r =>
      rw [Option.bind_some, Option.bind_some, outputs, Option.map_map, Option.map_map]
      rfl

/-- An observer follows the outputs of a run. When steps that meet a condition do not get stuck
and keep what relates the state to what has been observed, runs of them do so too. -/
theorem run_observed {step : σ → ε → Option (σ × ο)} {good : σ → ε → Prop} {ρ : Type*}
    (observe : ρ → ο → ρ) (inv : σ → ρ → Prop)
    (hstep : ∀ s q e, inv s q → good s e →
      ∃ r, step s e = some r ∧ inv r.1 (observe q r.2))
    {es : List ε} {s : σ} {q : ρ} (hs : inv s q) (hgood : Along step good s es) :
    ∃ r, run step s es = some r ∧ inv r.1 (r.2.foldl observe q) := by
  induction es generalizing s q with
  | nil => exact ⟨_, rfl, hs⟩
  | cons e es ih =>
      obtain ⟨r, hr, hinv⟩ := hstep s q e hs hgood.1
      obtain ⟨t, ht, hlast⟩ := ih hinv (hgood.2 r hr)
      refine ⟨(t.1, r.2 :: t.2), ?_, hlast⟩
      rw [run, hr, Option.bind_some, ht, Option.map_some]

/-- Without an observer. -/
theorem run_invariant {step : σ → ε → Option (σ × ο)} {good : σ → ε → Prop} (inv : σ → Prop)
    (hstep : ∀ s e, inv s → good s e → ∃ r, step s e = some r ∧ inv r.1) {es : List ε} {s : σ}
    (hs : inv s) (hgood : Along step good s es) : ∃ r, run step s es = some r ∧ inv r.1 :=
  run_observed (fun (_ : Unit) _ => ()) (fun s _ => inv s) (fun s _ e => hstep s e) (q := ()) hs
    hgood

theorem along_true (step : σ → ε → Option (σ × ο)) (s : σ) (es : List ε) :
    Along step (fun _ _ => True) s es := by
  induction es generalizing s with
  | nil => trivial
  | cons e es ih => exact ⟨trivial, fun r _ => ih r.1⟩

/-- Answers that agree step by step, and the states they lead to. -/
def Agree (R : σ → τ → Prop) (x : Option (σ × ο)) (y : Option (τ × ο)) : Prop :=
  Option.Rel (fun r q => R r.1 q.1 ∧ r.2 = q.2) x y

/-- Two machines whose steps agree from related states have the same outputs. -/
theorem outputs_eq_of_agree {step : σ → ε → Option (σ × ο)} {step' : τ → ε → Option (τ × ο)}
    {good : σ → ε → Prop} {R : σ → τ → Prop}
    (hstep : ∀ s t e, R s t → good s e → Agree R (step s e) (step' t e)) {es : List ε} {s : σ}
    {t : τ} (hst : R s t) (hgood : Along step good s es) :
    outputs step s es = outputs step' t es := by
  induction es generalizing s t with
  | nil => rfl
  | cons e es ih =>
      rw [outputs_cons, outputs_cons]
      have hagree := hstep s t e hst hgood.1
      have hrest := hgood.2
      generalize step s e = x at hagree hrest
      generalize step' t e = y at hagree
      cases hagree with
      | none => rfl
      | @some r q h =>
          rw [Option.bind_some, Option.bind_some, ih h.1 (hrest r rfl), h.2]

theorem run_cons_eq_some {step : σ → ε → Option (σ × ο)} {s s' : σ} {e : ε} {es : List ε}
    {os : List ο} (h : run step s (e :: es) = some (s', os)) :
    ∃ t o os', step s e = some (t, o) ∧ run step t es = some (s', os') ∧ os = o :: os' := by
  rw [run] at h
  obtain ⟨⟨t, o⟩, hstep, h⟩ := Option.bind_eq_some_iff.mp h
  obtain ⟨⟨t', os'⟩, hrun, h⟩ := Option.map_eq_some_iff.mp h
  cases h
  exact ⟨t, o, os', hstep, hrun, rfl⟩

/-- States only grow, and what a step says about an event and its output stays so. -/
structure Grows (step : σ → ε → Option (σ × ο)) (inv : σ → Prop) (le : σ → σ → Prop)
    (good : ε → Prop) (rel : σ → ε → ο → Prop) : Prop where
  refl : ∀ s, le s s
  trans : ∀ s t u, le s t → le t u → le s u
  mono : ∀ s t e o, le s t → rel s e o → rel t e o
  step : ∀ s e t o, inv s → good e → step s e = some (t, o) → inv t ∧ le s t ∧ rel t e o

/-- After a run it is so for all events and outputs. -/
theorem Grows.of_run {step : σ → ε → Option (σ × ο)} {inv : σ → Prop} {le : σ → σ → Prop}
    {good : ε → Prop} {rel : σ → ε → ο → Prop} (h : Grows step inv le good rel) {s s' : σ}
    {es : List ε} {os : List ο} (hs : inv s) (hgood : ∀ e ∈ es, good e)
    (hrun : run step s es = some (s', os)) :
    inv s' ∧ le s s' ∧ List.Forall₂ (rel s') es os := by
  induction es generalizing s os with
  | nil =>
      cases hrun
      exact ⟨hs, h.refl _, .nil⟩
  | cons e es ih =>
      obtain ⟨t, o, os', hstep, hrest, rfl⟩ := run_cons_eq_some hrun
      obtain ⟨ht, hle, hr⟩ := h.step s e t o hs (hgood e (by simp)) hstep
      obtain ⟨hs', hle', hrs⟩ := ih ht (fun e he => hgood e (by simp [he])) hrest
      exact ⟨hs', h.trans _ _ _ hle hle', .cons (h.mono _ _ _ _ hle' hr) hrs⟩

end Transducer
