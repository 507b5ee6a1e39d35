import Mathlib.Data.List.Lex
import Mathlib.Data.List.Pairwise
import Sj3.General.PrefixFree

/-! # First match and longest match

A list of keys is searched for the first one that starts a word, or that the word starts.
This finds the longest key that starts the word if no key stands in front of a longer one
that it starts; inserting each key in front of the smaller ones that are no longer than it
keeps such an order. -/

namespace FirstMatch

open PrefixFree

variable {α : Type*}

/-- No key starts one behind it. -/
def Ordered (l : List (List α)) : Prop := l.Pairwise fun k k' => ¬ k <+: k'

/-- The word is the beginning of a longer key. -/
def Open (l : List (List α)) (w : List α) : Prop := ∃ k ∈ l, w <+: k ∧ w ≠ k

/-- `k` is the longest of the keys that start the word. -/
structure Longest (l : List (List α)) (w k : List α) : Prop where
  mem : k ∈ l
  start : k <+: w
  longest : ∀ k' ∈ l, k' <+: w → k' <+: k

theorem Longest.unique {l : List (List α)} {w k k' : List α} (h : Longest l w k)
    (h' : Longest l w k') : k = k' :=
  (h'.longest k h.mem h.start).eq_of_length
    (le_antisymm (h'.longest k h.mem h.start).length_le (h.longest k' h'.mem h'.start).length_le)

theorem Longest.congr {l l' : List (List α)} (hmem : ∀ k, k ∈ l ↔ k ∈ l') {w k : List α}
    (h : Longest l w k) : Longest l' w k :=
  ⟨(hmem k).mp h.mem, h.start, fun k' hk' => h.longest k' ((hmem k').mpr hk')⟩

section Search

variable {l pre post : List (List α)} {w k : List α}

/-- The first related key of an ordered list goes on behind the word whenever some key
does. -/
theorem Ordered.open_iff (h : Ordered (pre ++ k :: post))
    (hpre : ∀ k' ∈ pre, ¬ Related k' w) (hk : Related k w) :
    Open (pre ++ k :: post) w ↔ w <+: k ∧ w ≠ k := by
  constructor
  · rintro ⟨k', hk', hstart, hne⟩
    rcases List.mem_append.mp hk' with hmem | hmem
    · exact absurd (Or.inr hstart) (hpre k' hmem)
    · rcases List.mem_cons.mp hmem with rfl | hmem
      · exact ⟨hstart, hne⟩
      · rcases hk with hk | hk
        · -- `k` would stand in front of a longer key that it starts
          have hpair := (List.pairwise_append.mp h).2.1
          exact absurd (hk.trans hstart) (List.rel_of_pairwise_cons hpair hmem)
        · refine ⟨hk, fun heq => ?_⟩
          have hpair := (List.pairwise_append.mp h).2.1
          exact absurd (heq ▸ hstart) (List.rel_of_pairwise_cons hpair hmem)
  · rintro ⟨hstart, hne⟩
    exact ⟨k, by simp, hstart, hne⟩

/-- Otherwise it is the longest key that starts the word. -/
theorem Ordered.longest (h : Ordered (pre ++ k :: post))
    (hpre : ∀ k' ∈ pre, ¬ Related k' w) (hk : k <+: w) :
    Longest (pre ++ k :: post) w k := by
  refine ⟨by simp, hk, ?_⟩
  intro k' hk' hstart
  rcases List.mem_append.mp hk' with hmem | hmem
  · exact absurd (Or.inl hstart) (hpre k' hmem)
  · rcases List.mem_cons.mp hmem with rfl | hmem
    · exact List.prefix_refl _
    · have hpair := (List.pairwise_append.mp h).2.1
      rcases List.prefix_or_prefix_of_prefix hk hstart with hle | hle
      · exact absurd hle (List.rel_of_pairwise_cons hpair hmem)
      · exact hle

end Search

/-! ## Insertion -/

variable [LinearOrder α]

/-- What is asked of a key in front of another one. -/
def Above (k k' : List α) : Prop := k ≠ k' ∧ ¬ (k < k' ∧ k.length ≤ k'.length)

/-- The order that insertion keeps. -/
def Descending (l : List (List α)) : Prop := l.Pairwise Above

def insertKey (key : List α) : List (List α) → List (List α)
  | [] => [key]
  | k :: l =>
      if key = k then k :: l
      else if k < key ∧ k.length ≤ key.length then key :: k :: l
      else k :: insertKey key l

theorem lt_of_prefix {k k' : List α} (h : k <+: k') (hne : k ≠ k') : k < k' := by
  induction k generalizing k' with
  | nil =>
      cases k' with
      | nil => exact absurd rfl hne
      | cons a k' => exact List.nil_lt_cons a k'
  | cons a k ih =>
      cases k' with
      | nil => exact absurd (List.prefix_nil.mp h) hne
      | cons b k' =>
          obtain ⟨rfl, htail⟩ := List.cons_prefix_cons.mp h
          exact List.cons_lt_cons_self.mpr (ih htail fun heq => hne (by rw [heq]))

theorem Descending.ordered {l : List (List α)} (h : Descending l) : Ordered l := by
  refine h.imp ?_
  rintro k k' ⟨hne, hlt⟩ hstart
  exact hlt ⟨ lt_of_prefix hstart hne, hstart.length_le⟩

theorem mem_insertKey (key k : List α) (l : List (List α)) :
    k ∈ insertKey key l ↔ k = key ∨ k ∈ l := by
  induction l with
  | nil => simp [insertKey]
  | cons k' l ih =>
      rw [insertKey]
      split
      · rename_i heq
        simp [heq]
      · split
        · simp
        · rw [List.mem_cons, ih, List.mem_cons]
          tauto

/-- The search for the place of a key passes a key that is there already. -/
theorem Descending.not_before {k key : List α} {l : List (List α)} (h : Descending (k :: l))
    (hkey : key ∈ l) : ¬ (k < key ∧ k.length ≤ key.length) :=
  ((List.pairwise_cons.mp h).1 key hkey).2

/-- Inserting a key keeps the order. -/
theorem Descending.insertKey {l : List (List α)} (h : Descending l) (key : List α) :
    Descending (insertKey key l) := by
  induction l with
  | nil => exact List.pairwise_singleton _ _
  | cons k l ih =>
      have hk : ∀ k' ∈ l, Above k k' := (List.pairwise_cons.mp h).1
      rw [FirstMatch.insertKey]
      split
      · exact h
      · rename_i hne
        split
        · rename_i hlt
          refine List.pairwise_cons.mpr ⟨?_, h⟩
          -- what the key must not stand in front of, `k` does not stand in front of either
          intro k' hk'
          rcases List.mem_cons.mp hk' with rfl | hmem
          · exact ⟨hne, fun h' => absurd h'.1 (not_lt.mpr hlt.1.le)⟩
          · obtain ⟨hne', hlt'⟩ := hk k' hmem
            refine ⟨?_, fun h' => hlt' ⟨hlt.1.trans h'.1, hlt.2.trans h'.2⟩⟩
            rintro rfl
            exact hlt' hlt
        · rename_i hlt
          refine List.pairwise_cons.mpr ⟨?_, ih h.of_cons⟩
          intro k' hk'
          rcases (mem_insertKey key k' l).mp hk' with rfl | hmem
          · exact ⟨Ne.symm hne, hlt⟩
          · exact hk k' hmem

end FirstMatch
