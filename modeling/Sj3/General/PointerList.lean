import Mathlib.Data.List.Basic
import Mathlib.Data.List.TakeWhile
import Mathlib.Logic.Function.Basic
import Mathlib.Tactic.Common

/-! # Lists linked by pointers

Cells that name the next one. `next` is what the memory holds, so that a store is an update
of it. -/

namespace PointerList

variable {α : Type*} {next next' : α → Option α} {p q r : Option α} {x y : α}
  {xs ys pre post : List α}

/-- The cells met on the way from `p` to `q`. -/
def Path (next : α → Option α) : Option α → List α → Option α → Prop
  | p, [], q => p = q
  | p, x :: xs, q => p = some x ∧ Path next (next x) xs q

/-- A list that ends. -/
abbrev Chain (next : α → Option α) (p : Option α) (xs : List α) : Prop := Path next p xs none

@[simp] theorem path_nil : Path next p [] q ↔ p = q := Iff.rfl

@[simp] theorem path_cons : Path next p (x :: xs) q ↔ p = some x ∧ Path next (next x) xs q :=
  Iff.rfl

theorem path_append :
    Path next p (xs ++ ys) q ↔ ∃ r, Path next p xs r ∧ Path next r ys q := by
  induction xs generalizing p with
  | nil => simp
  | cons x xs ih =>
      rw [List.cons_append, path_cons, ih]
      constructor
      · rintro ⟨hp, r, hxs, hys⟩
        exact ⟨r, ⟨hp, hxs⟩, hys⟩
      · rintro ⟨r, ⟨hp, hxs⟩, hys⟩
        exact ⟨hp, r, hxs, hys⟩

theorem Chain.eq_head? (h : Chain next p xs) : p = xs.head? := by
  cases xs with
  | nil => exact h
  | cons x xs => exact h.1

/-- The path up to a cell of a list and the list from there. -/
theorem Chain.split (h : Chain next p (pre ++ x :: post)) :
    Path next p pre (some x) ∧ Chain next (next x) post := by
  obtain ⟨r, hpre, rfl, hpost⟩ := path_append.mp h
  exact ⟨hpre, hpost⟩

/-- From one cell on the memory holds one list. -/
theorem Chain.unique (h : Chain next p xs) (h' : Chain next p ys) : xs = ys := by
  induction xs generalizing p ys with
  | nil =>
      cases ys with
      | nil => rfl
      | cons y ys => exact absurd (h.symm.trans h'.1) (by simp)
  | cons x xs ih =>
      cases ys with
      | nil => exact absurd (h'.symm.trans h.1) (by simp)
      | cons y ys =>
          obtain rfl : x = y := Option.some.inj (h.1.symm.trans h'.1)
          rw [ih h.2 h'.2]

/-- A list that ends has no cycle. -/
theorem Chain.nodup (h : Chain next p xs) : xs.Nodup := by
  induction xs generalizing p with
  | nil => exact List.nodup_nil
  | cons x xs ih =>
      refine List.nodup_cons.mpr ⟨fun hx => ?_, ih h.2⟩
      obtain ⟨pre, post, rfl⟩ := List.append_of_mem hx
      have hagain : Chain next (some x) (x :: post) := ⟨rfl, (Chain.split h.2).2⟩
      have heq := Chain.unique (h.1 ▸ h) hagain
      have := congrArg List.length heq
      simp only [List.length_cons, List.length_append] at this
      omega

theorem Path.congr (h : Path next p xs q) (heq : ∀ x ∈ xs, next x = next' x) :
    Path next' p xs q := by
  induction xs generalizing p with
  | nil => exact h
  | cons x xs ih =>
      refine ⟨h.1, ?_⟩
      rw [← heq x List.mem_cons_self]
      exact ih h.2 fun y hy => heq y (List.mem_cons_of_mem x hy)

section Store

variable [DecidableEq α]

/-- A store to a cell elsewhere leaves the list as it is. -/
theorem Path.update (h : Path next p xs q) (hx : x ∉ xs) :
    Path (Function.update next x r) p xs q :=
  h.congr fun _ hy => (Function.update_of_ne (ne_of_mem_of_not_mem hy hx) ..).symm

theorem Chain.push (h : Chain next p xs) (hx : x ∉ xs) :
    Chain (Function.update next x p) (some x) (x :: xs) := by
  refine ⟨rfl, ?_⟩
  rw [Function.update_self]
  exact h.update hx

/-- A cell is put behind another one. -/
theorem Chain.insert (h : Chain next p (pre ++ x :: post)) (hy : y ∉ pre ++ x :: post) :
    Chain (Function.update (Function.update next x (some y)) y post.head?) p
      (pre ++ x :: y :: post) := by
  obtain ⟨hpre, hpost⟩ := h.split
  have hnodup := List.nodup_append.mp h.nodup
  have hxpre : x ∉ pre := fun hx => hnodup.2.2 x hx x List.mem_cons_self rfl
  have hxpost : x ∉ post := (List.nodup_cons.mp hnodup.2.1).1
  simp only [List.mem_append, List.mem_cons, not_or] at hy
  refine path_append.mpr ⟨some x, (hpre.update hxpre).update hy.1, rfl, ?_⟩
  rw [Function.update_of_ne (Ne.symm hy.2.1), Function.update_self]
  refine ⟨rfl, ?_⟩
  rw [Function.update_self, ← hpost.eq_head?]
  exact (hpost.update hxpost).update hy.2.2

/-- The last cell is cut off. -/
theorem Chain.cut (h : Chain next p (pre ++ [x, y])) :
    Chain (Function.update next x none) p (pre ++ [x]) := by
  obtain ⟨hpre, -⟩ := h.split
  have hxpre : x ∉ pre := fun hx =>
    (List.nodup_append.mp h.nodup).2.2 x hx x List.mem_cons_self rfl
  refine path_append.mpr ⟨some x, hpre.update hxpre, rfl, ?_⟩
  rw [Function.update_self]
  rfl

end Store

/-! ## Loops over a list

The loops have a bound on the number of cells. They end without a result where it is too
low. -/

/-- The cells of the list from `p` on. -/
def walk (next : α → Option α) : ℕ → Option α → List α
  | 0, _ => []
  | _ + 1, none => []
  | n + 1, some x => x :: walk next n (next x)

/-- The last cell from `x` on and the one in front of it, which is `ptr` for `x`. -/
def toLast (next : α → Option α) : ℕ → Option α → α → Option (Option α × α)
  | 0, _, _ => none
  | n + 1, ptr, x =>
      match next x with
      | none => some (ptr, x)
      | some child => toLast next n (some x) child

/-- The cell from `ptr` on in front of the first later one that `front` holds of, and that
one. -/
def toPlace (next : α → Option α) (front : α → Bool) : ℕ → α → Option (α × Option α)
  | 0, _ => none
  | n + 1, ptr =>
      match next ptr with
      | none => some (ptr, none)
      | some child => if front child then some (ptr, some child) else toPlace next front n child

theorem walk_eq {n : ℕ} (h : Chain next p xs) (hn : xs.length ≤ n) : walk next n p = xs := by
  induction n generalizing p xs with
  | zero => rw [List.length_eq_zero_iff.mp (Nat.le_zero.mp hn), walk]
  | succ n ih =>
      cases xs with
      | nil => rw [show p = none from h, walk]
      | cons x xs => rw [h.1, walk, ih h.2 (Nat.le_of_succ_le_succ hn)]

/-- With the room for it the loop ends at the last cell. -/
theorem toLast_eq {n : ℕ} {ptr : Option α} (h : Chain next (some x) (pre ++ [y]))
    (hn : pre.length < n) : toLast next n ptr x = some (pre.getLast?.or ptr, y) := by
  induction n generalizing pre ptr x with
  | zero => exact absurd hn (Nat.not_lt_zero _)
  | succ n ih =>
      cases pre with
      | nil =>
          obtain ⟨hx, hend⟩ := h
          obtain rfl := Option.some.inj hx
          rw [toLast, show next x = none from hend]
          rfl
      | cons a pre =>
          obtain ⟨hx, hrest⟩ := h
          obtain rfl := Option.some.inj hx
          rw [toLast]
          cases hchild : next x with
          | none => exact absurd (hchild.symm.trans (Chain.eq_head? hrest)) (by simp)
          | some child =>
              rw [hchild] at hrest
              simp only
              rw [ih hrest (Nat.lt_of_succ_lt_succ hn), List.getLast?_cons]
              cases pre.getLast? <;> rfl

/-- Put an element in front of the first one that `front` holds of. -/
def place (front : α → Bool) (x : α) (xs : List α) : List α :=
  xs.takeWhile (!front ·) ++ x :: xs.dropWhile (!front ·)

@[simp] theorem place_nil {front : α → Bool} : place front y [] = [y] := rfl

theorem place_cons_of_front {front : α → Bool} (hx : front x = true) :
    place front y (x :: xs) = y :: x :: xs := by
  rw [place, List.takeWhile_cons_of_neg (by simp [hx]), List.dropWhile_cons_of_neg (by simp [hx])]
  rfl

theorem place_cons_of_not_front {front : α → Bool} (hx : front x = false) :
    place front y (x :: xs) = x :: place front y xs := by
  rw [place, List.takeWhile_cons_of_pos (by simp [hx]), List.dropWhile_cons_of_pos (by simp [hx])]
  rfl

/-- The place is in front of every element that `front` holds of. -/
theorem place_append_cons {front : α → Bool} (hx : front x = true) :
    place front y (pre ++ x :: post) = place front y pre ++ x :: post := by
  induction pre with
  | nil => exact place_cons_of_front hx
  | cons a pre ih =>
      cases ha : front a with
      | true => rw [List.cons_append, place_cons_of_front ha, place_cons_of_front ha]; rfl
      | false =>
          rw [List.cons_append, place_cons_of_not_front ha, place_cons_of_not_front ha, ih]
          rfl

/-- With the room for it the loop ends at the place. -/
theorem toPlace_eq {n : ℕ} {front : α → Bool} (y : α) (h : Chain next (some x) (x :: xs))
    (hn : xs.length < n) (hx : front x = false) :
    ∃ pre ptr post, x :: xs = pre ++ ptr :: post ∧
      place front y (x :: xs) = pre ++ ptr :: y :: post ∧
      toPlace next front n x = some (ptr, post.head?) := by
  induction n generalizing xs x with
  | zero => exact absurd hn (Nat.not_lt_zero _)
  | succ n ih =>
      rw [toPlace, place_cons_of_not_front hx]
      cases xs with
      | nil =>
          rw [show next x = none from h.2]
          exact ⟨[], x, [], rfl, rfl, rfl⟩
      | cons a xs =>
          rw [show next x = some a from h.2.1]
          cases ha : front a with
          | true =>
              rw [place_cons_of_front ha]
              simp only
              rw [if_pos ha]
              exact ⟨[], x, a :: xs, rfl, rfl, rfl⟩
          | false =>
              obtain ⟨pre, ptr, post, hsplit, hplace, hloop⟩ :=
                ih ⟨rfl, h.2.2⟩ (Nat.lt_of_succ_lt_succ hn) ha
              simp only
              rw [ha, if_neg Bool.false_ne_true, hloop, hplace, hsplit]
              exact ⟨x :: pre, ptr, post, rfl, rfl, rfl⟩

theorem place_congr {front front' : α → Bool} (h : ∀ a ∈ xs, front a = front' a) :
    place front y xs = place front' y xs := by
  induction xs with
  | nil => rfl
  | cons a xs ih =>
      have hrest := ih fun b hb => h b (List.mem_cons_of_mem a hb)
      cases ha : front a with
      | true =>
          rw [place_cons_of_front ha, place_cons_of_front (h a List.mem_cons_self ▸ ha)]
      | false =>
          rw [place_cons_of_not_front ha, place_cons_of_not_front (h a List.mem_cons_self ▸ ha),
            hrest]

theorem place_perm {front : α → Bool} : (place front x xs).Perm (x :: xs) := by
  have hperm : (place front x xs).Perm
      (x :: (xs.takeWhile (!front ·) ++ xs.dropWhile (!front ·))) := List.perm_middle
  rwa [List.takeWhile_append_dropWhile] at hperm

theorem mem_place {front : α → Bool} : y ∈ place front x xs ↔ y = x ∨ y ∈ xs := by
  rw [place_perm.mem_iff, List.mem_cons]

/-- An order survives if what stands in front of the new element is before it and what stands
behind the place is after it. -/
theorem pairwise_place {R : α → α → Prop} {front : α → Bool} (h : xs.Pairwise R)
    (hbefore : ∀ a ∈ xs, front a = false → R a x)
    (hafter : ∀ a ∈ xs, front a = true → R x a)
    (hrest : ∀ a ∈ xs, ∀ b ∈ xs, front a = true → R a b → R x b) :
    (place front x xs).Pairwise R := by
  have htake : xs.takeWhile (!front ·) ++ xs.dropWhile (!front ·) = xs :=
    List.takeWhile_append_dropWhile
  have hparts := List.pairwise_append.mp (htake.symm ▸ h)
  have hmem {a : α} (ha : a ∈ xs.dropWhile (!front ·)) : a ∈ xs :=
    htake ▸ List.mem_append_right _ ha
  have htaken : ∀ a ∈ xs.takeWhile (!front ·), R a x := fun a ha =>
    hbefore a (List.takeWhile_subset _ ha) (by simpa using List.mem_takeWhile_imp ha)
  have hdropped : ∀ b ∈ xs.dropWhile (!front ·), R x b := by
    cases hdrop : xs.dropWhile (!front ·) with
    | nil => simp
    | cons a rest =>
        have hfront : front a = true := by
          have := List.head_dropWhile_not (!front ·) (l := xs) (by rw [hdrop]; simp)
          simpa [hdrop] using this
        rw [hdrop] at hparts hmem
        intro b hb
        rcases List.mem_cons.mp hb with rfl | hb
        · exact hafter b (hmem List.mem_cons_self) hfront
        · exact hrest a (hmem List.mem_cons_self) b (hmem (List.mem_cons_of_mem a hb)) hfront
            ((List.pairwise_cons.mp hparts.2.1).1 b hb)
  refine List.pairwise_append.mpr ⟨hparts.1, List.pairwise_cons.mpr ⟨hdropped, hparts.2.1⟩, ?_⟩
  intro a ha b hb
  rcases List.mem_cons.mp hb with rfl | hb
  · exact htaken a ha
  · exact hparts.2.2 a ha b hb

end PointerList
