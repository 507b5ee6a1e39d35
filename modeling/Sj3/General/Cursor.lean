import Mathlib.Data.List.Chain
import Mathlib.Tactic.Common

/-! # Cursors

A cursor steps through a list of places, forwards with `next` and backwards with `prev`;
at either end the step fails. Cursors over blocks whose places are themselves stepped
through by a cursor combine to one. -/

namespace Cursor

variable {α : Type*}

/-- `next` goes through the places `l` from the first to the last, and `prev` back. -/
structure Walk (next prev : α → Option α) (l : List α) : Prop where
  steps : l.IsChain fun p q => next p = some q ∧ prev q = some p
  last : ∀ p ∈ l.getLast?, next p = none
  first : ∀ p ∈ l.head?, prev p = none

section Walk

variable {next prev : α → Option α} {l : List α} (h : Walk next prev l)
include h

theorem Walk.reverse : Walk prev next l.reverse := by
  constructor
  · rw [List.isChain_reverse]
    exact h.steps.imp fun _ _ hstep => hstep.symm
  · rw [List.getLast?_reverse]
    exact h.first
  · rw [List.head?_reverse]
    exact h.last

theorem Walk.step {i : ℕ} (hi : i + 1 < l.length) :
    next l[i] = some l[i + 1] ∧ prev l[i + 1] = some l[i] :=
  List.isChain_iff_getElem.mp h.steps i hi

/-- A step forwards is undone by a step backwards. -/
theorem Walk.prev_next {p q : α} (hp : p ∈ l) (hq : next p = some q) :
    q ∈ l ∧ prev q = some p := by
  obtain ⟨i, hi, rfl⟩ := List.getElem_of_mem hp
  rcases Nat.lt_or_ge (i + 1) l.length with hlt | hge
  · have hstep := h.step hlt
    rw [hstep.1, Option.some_inj] at hq
    rw [← hq]
    exact ⟨List.getElem_mem hlt, hstep.2⟩
  · -- there is no step behind the last place
    have hlast : l.getLast? = some l[i] := by
      rw [List.getLast?_eq_getElem?, List.getElem?_eq_some_iff]
      exact ⟨by omega, by congr 1; omega⟩
    rw [h.last _ hlast] at hq
    exact absurd hq (by simp)

/-- A step backwards is undone by a step forwards. -/
theorem Walk.next_prev {p q : α} (hp : p ∈ l) (hq : prev p = some q) :
    q ∈ l ∧ next q = some p := by
  have hrev := h.reverse.prev_next (List.mem_reverse.mpr hp) hq
  exact ⟨List.mem_reverse.mp hrev.1, hrev.2⟩

end Walk

/-! ## Cursors over blocks -/

section Nest

variable {β γ : Type*} (nextBlk prevBlk : β → Option β) (nextIn prevIn : β → γ → Option γ)
variable (inner : β → List γ)

/-- The next place in the block, or else the first one of the next block. -/
def nestNext (p : β × γ) : Option (β × γ) :=
  match nextIn p.1 p.2 with
  | some c => some (p.1, c)
  | none => (nextBlk p.1).bind fun b => (inner b).head?.map (b, ·)

/-- The place in front of it in the block, or else the last one of the block in front. -/
def nestPrev (p : β × γ) : Option (β × γ) :=
  match prevIn p.1 p.2 with
  | some c => some (p.1, c)
  | none => (prevBlk p.1).bind fun b => (inner b).getLast?.map (b, ·)

def placesIn (b : β) : List (β × γ) := (inner b).map (b, ·)

/-- The places of all blocks. -/
def places (l : List β) : List (β × γ) := l.flatMap (placesIn inner)

variable {nextBlk prevBlk nextIn prevIn inner}

theorem mem_places {l : List β} {p : β × γ} :
    p ∈ places inner l ↔ p.1 ∈ l ∧ p.2 ∈ inner p.1 := by
  obtain ⟨b, c⟩ := p
  simp [places, placesIn]

theorem nextIn_nest {b : β} {c d : γ} (hd : nextIn b c = some d) :
    nestNext nextBlk nextIn inner (b, c) = some (b, d) := by
  simp only [nestNext, hd]

theorem prevIn_nest {b : β} {c d : γ} (hd : prevIn b c = some d) :
    nestPrev prevBlk prevIn inner (b, c) = some (b, d) := by
  simp only [nestPrev, hd]

theorem isChain_placesIn {b : β} (h : Walk (nextIn b) (prevIn b) (inner b)) :
    (placesIn inner b).IsChain fun p q =>
      nestNext nextBlk nextIn inner p = some q ∧ nestPrev prevBlk prevIn inner q = some p := by
  rw [placesIn, List.isChain_map]
  exact h.steps.imp fun _ _ hstep => ⟨nextIn_nest hstep.1, prevIn_nest hstep.2⟩

theorem head?_places {b : β} {l : List β} (hne : inner b ≠ []) :
    (places inner (b :: l)).head? = (inner b).head?.map (b, ·) := by
  rw [places, List.flatMap_cons, List.head?_append, placesIn, List.head?_map]
  obtain ⟨c, cs, hcs⟩ := List.exists_cons_of_ne_nil hne
  rw [hcs]
  rfl

theorem getLast?_places {l : List β} {b : β} (hne : inner b ≠ []) :
    (places inner (l ++ [b])).getLast? = (inner b).getLast?.map (b, ·) := by
  rw [places, List.flatMap_append, List.flatMap_singleton, List.getLast?_append, placesIn,
    List.getLast?_map]
  rw [List.getLast?_eq_some_getLast hne]
  rfl

/-- Cursors over the blocks and over the places of each block make one over all places. -/
theorem Walk.nest {l : List β} (h : Walk nextBlk prevBlk l)
    (hin : ∀ b ∈ l, inner b ≠ [] ∧ Walk (nextIn b) (prevIn b) (inner b)) :
    Walk (nestNext nextBlk nextIn inner) (nestPrev prevBlk prevIn inner)
      (places inner l) := by
  constructor
  · have hsteps := h.steps
    clear h
    induction l with
    | nil => exact List.IsChain.nil
    | cons b l ih =>
        have hb := hin b List.mem_cons_self
        have htail : ∀ b' ∈ l, inner b' ≠ [] ∧ Walk (nextIn b') (prevIn b') (inner b') :=
          fun b' hb' => hin b' (List.mem_cons_of_mem _ hb')
        rw [places, List.flatMap_cons, List.isChain_append]
        refine ⟨isChain_placesIn hb.2, ih htail hsteps.tail, ?_⟩
        intro p hp q hq
        cases l with
        | nil => exact absurd hq (by simp)
        | cons b' l =>
            have hb' := htail b' List.mem_cons_self
            have hstep := (List.isChain_cons_cons.mp hsteps).1
            -- the last place of one block and the first of the next
            rw [placesIn, List.getLast?_map] at hp
            obtain ⟨c, hc, rfl⟩ := Option.map_eq_some_iff.mp hp
            have hq : (places inner (b' :: l)).head? = some q := hq
            rw [head?_places hb'.1] at hq
            obtain ⟨d, hd, rfl⟩ := Option.map_eq_some_iff.mp hq
            constructor
            · simp only [nestNext, hb.2.last c hc, hstep.1, Option.bind_some, hd, Option.map_some]
            · simp only [nestPrev, hb'.2.first d hd, hstep.2, Option.bind_some, hc,
                Option.map_some]
  · intro p hp
    cases l using List.reverseRecOn with
    | nil => exact absurd hp (by simp [places])
    | append_singleton l b =>
        have hb := hin b (by simp)
        rw [getLast?_places hb.1] at hp
        obtain ⟨c, hc, rfl⟩ := Option.map_eq_some_iff.mp hp
        simp only [nestNext, hb.2.last c hc, h.last b (by simp), Option.bind_none]
  · intro p hp
    cases l with
    | nil => exact absurd hp (by simp [places])
    | cons b l =>
        have hb := hin b List.mem_cons_self
        rw [head?_places hb.1] at hp
        obtain ⟨c, hc, rfl⟩ := Option.map_eq_some_iff.mp hp
        simp only [nestPrev, hb.2.first c hc, h.first b rfl, Option.bind_none]

end Nest

end Cursor
