import Mathlib.Data.List.Lex
import Mathlib.Order.Lattice

/-! # Ascending words, none of which starts another

`Before x y` says that the first place where the words differ is in both of them and decides
for `x`; words that do not differ that way are `Related`. -/

namespace PrefixFree

variable {α : Type*}

/-- One of the words starts the other. -/
def Related (x y : List α) : Prop := x <+: y ∨ y <+: x

instance [DecidableEq α] : DecidableRel (@Related α) := fun x y =>
  inferInstanceAs (Decidable (x <+: y ∨ y <+: x))

theorem Related.symm {x y : List α} (h : Related x y) : Related y x := Or.symm h

theorem related_cons {a : α} {x y : List α} : Related (a :: x) (a :: y) ↔ Related x y := by
  simp [Related]

variable [LinearOrder α]

inductive Before : List α → List α → Prop where
  | here {a b : α} {x y : List α} (h : a < b) : Before (a :: x) (b :: y)
  | there {a : α} {x y : List α} (h : Before x y) : Before (a :: x) (a :: y)

theorem Before.trans {x y z : List α} (hxy : Before x y) (hyz : Before y z) : Before x z := by
  induction hxy generalizing z with
  | here h =>
      cases hyz with
      | here h' => exact .here (h.trans h')
      | there _ => exact .here h
  | there _ ih =>
      cases hyz with
      | here h' => exact .here h'
      | there h' => exact .there (ih h')

theorem not_related_of_before {x y : List α} (h : Before x y) : ¬ Related x y := by
  induction h with
  | here h =>
      rintro (hp | hp)
      · exact h.ne (List.cons_prefix_cons.mp hp).1
      · exact h.ne (List.cons_prefix_cons.mp hp).1.symm
  | there _ ih => rwa [related_cons]

theorem Before.asymm {x y : List α} (h : Before x y) : ¬ Before y x := by
  intro h'
  exact not_related_of_before (h.trans h') (.inl (List.prefix_refl x))

theorem before_or_before {x y : List α} (h : ¬ Related x y) : Before x y ∨ Before y x := by
  induction x generalizing y with
  | nil => exact absurd (.inl List.nil_prefix) h
  | cons a x ih =>
      cases y with
      | nil => exact absurd (.inr List.nil_prefix) h
      | cons b y =>
          rcases lt_trichotomy a b with hlt | rfl | hgt
          · exact .inl (.here hlt)
          · exact (ih (mt related_cons.mpr h)).imp .there .there
          · exact .inr (.here hgt)

/-- A word that is related to none of an ascending list has its place in it. -/
theorem exists_place {β : Type*} {word : β → List α} {l : List β} {x : List α}
    (h : l.Pairwise fun a b => Before (word a) (word b)) (hx : ∀ a ∈ l, ¬ Related x (word a)) :
    ∃ front back, l = front ++ back ∧ (∀ a ∈ front, Before (word a) x) ∧
      ∀ a ∈ back, Before x (word a) := by
  induction l with
  | nil => exact ⟨[], [], rfl, by simp, by simp⟩
  | cons a l ih =>
      rw [List.pairwise_cons] at h
      rcases before_or_before (hx a List.mem_cons_self) with hb | hb
      · refine ⟨[], a :: l, rfl, by simp, ?_⟩
        intro b hmem
        rcases List.mem_cons.mp hmem with rfl | hmem
        · exact hb
        · exact hb.trans (h.1 b hmem)
      · obtain ⟨front, back, rfl, hf, hk⟩ := ih h.2 fun b hm => hx b (List.mem_cons_of_mem _ hm)
        refine ⟨a :: front, back, rfl, ?_, hk⟩
        intro b hmem
        rcases List.mem_cons.mp hmem with rfl | hmem
        · exact hb
        · exact hf b hmem

theorem pairwise_insert {β : Type*} (word : β → List α) {front back : List β} {b : β}
    (h : (front ++ back).Pairwise fun a b => Before (word a) (word b))
    (hf : ∀ a ∈ front, Before (word a) (word b)) (hk : ∀ a ∈ back, Before (word b) (word a)) :
    (front ++ b :: back).Pairwise fun a b => Before (word a) (word b) := by
  rw [List.pairwise_append] at h ⊢
  refine ⟨h.1, List.pairwise_cons.mpr ⟨hk, h.2.1⟩, ?_⟩
  intro a ha c hc
  rcases List.mem_cons.mp hc with rfl | hc
  · exact hf a ha
  · exact h.2.2 a ha c hc

end PrefixFree
