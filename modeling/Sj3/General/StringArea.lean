import Mathlib.Data.List.Basic

/-! # Areas of terminated strings

Strings one behind another, each followed by a terminator, at the front of an area of
fixed length whose rest is filled with terminators. -/

namespace StringArea

variable {α : Type*} (z : α)

/-- The strings with their terminators. -/
def strings (ss : List (List α)) : List α := ss.flatMap (· ++ [z])

/-- The strings in an area with `n` elements to spare. -/
def area (ss : List (List α)) (n : ℕ) : List α := strings z ss ++ List.replicate n z

/-- Where the strings start, the first of them at `ofs`. -/
def offsets : ℕ → List (List α) → List ℕ
  | _, [] => []
  | ofs, s :: ss => ofs :: offsets (ofs + (s.length + 1)) ss

@[simp] theorem strings_nil : strings z ([] : List (List α)) = [] := rfl

@[simp] theorem strings_cons (s : List α) (ss : List (List α)) :
    strings z (s :: ss) = s ++ z :: strings z ss := by
  simp [strings]

theorem strings_append (ss ts : List (List α)) :
    strings z (ss ++ ts) = strings z ss ++ strings z ts := List.flatMap_append

@[simp] theorem length_area (ss : List (List α)) (n : ℕ) :
    (area z ss n).length = (strings z ss).length + n := by
  simp [area]

theorem area_split (l : List (List α)) (s : List α) (r : List (List α)) (n : ℕ) :
    area z (l ++ s :: r) n = strings z l ++ (s ++ (z :: area z r n)) := by
  simp [area, strings_append]

@[simp] theorem length_offsets (ofs : ℕ) (ss : List (List α)) :
    (offsets ofs ss).length = ss.length := by
  induction ss generalizing ofs with
  | nil => rfl
  | cons s ss ih => simp [offsets, ih]

theorem offsets_getD (ofs : ℕ) (l : List (List α)) (s : List α) (r : List (List α)) :
    (offsets ofs (l ++ s :: r)).getD l.length 0 = ofs + (strings z l).length := by
  induction l generalizing ofs with
  | nil => rfl
  | cons t l ih =>
      simp only [List.cons_append, offsets, List.length_cons, List.getD_cons_succ, ih,
        strings_cons, List.length_append]
      omega

/-- Room is taken from the end of the area. -/
theorem take_area (ss : List (List α)) {n g : ℕ} (h : g ≤ n) :
    (area z ss n).take ((area z ss n).length - g) = area z ss (n - g) := by
  obtain ⟨m, rfl⟩ := Nat.exists_eq_add_of_le h
  have he : area z ss (g + m) = area z ss m ++ List.replicate g z := by
    rw [area, area, Nat.add_comm g m, List.replicate_add, List.append_assoc]
  rw [he, Nat.add_sub_cancel_left, List.length_append, List.length_replicate,
    Nat.add_sub_cancel, List.take_left]

/-- The last elements of an area are terminators. -/
theorem drop_area (s : List α) (r : List (List α)) {n g : ℕ} (h : g ≤ n + 1) :
    (s ++ z :: area z r n).drop ((s ++ z :: area z r n).length - g) = List.replicate g z := by
  obtain ⟨w, hw⟩ : ∃ w, s ++ z :: area z r n = w ++ List.replicate (n + 1) z := by
    rcases List.eq_nil_or_concat' r with rfl | ⟨l, t, rfl⟩
    · exact ⟨s, by simp [area, List.replicate_succ]⟩
    · exact ⟨s ++ z :: (strings z l ++ t), by
        simp [area, strings_append, List.replicate_succ]⟩
  obtain ⟨m, hm⟩ := Nat.exists_eq_add_of_le h
  rw [hw, hm, Nat.add_comm g m, List.replicate_add, ← List.append_assoc, List.length_append,
    List.length_replicate, Nat.add_sub_cancel, List.drop_left]

end StringArea
