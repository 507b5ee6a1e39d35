import Mathlib.Algebra.BigOperators.Group.List.Basic
import Mathlib.Algebra.GroupWithZero.Nat
import Mathlib.Tactic.Common

/-! # Recoding a text

A text is read character by character up to a stop element. The first element of a character
tells how many it takes and how many it becomes; a character is written if it fits into the
room that is left. -/

namespace Recode

variable {α β : Type*}

structure Coding (α β : Type*) where
  stop : α
  taken : α → ℕ
  size : α → ℕ
  put : List α → List β
  taken_pos : ∀ a, 0 < taken a
  size_pos : ∀ a, 0 < size a
  length_put : ∀ p, (put p).length = size (p.headD stop)

/-- A character that was recoded, and where it starts in the text and in the output. -/
structure Turn (α : Type*) where
  src : ℕ
  dest : ℕ
  char : List α

/-- What the loop has done, where it left off, and whether it gave up for want of room. -/
structure Run (α : Type*) where
  turns : List (Turn α)
  src : ℕ
  dest : ℕ
  rest : List α
  refused : Bool

namespace Coding

variable (c : Coding α β)

/-- The elements of the first character. -/
def width (p : List α) : ℕ := c.taken (p.headD c.stop)

/-- How many elements a character becomes. -/
def outSize (ch : List α) : ℕ := c.size (ch.headD c.stop)

def char (p : List α) : List α := p.take (c.width p)

def total (cs : List (List α)) : ℕ := (cs.map c.outSize).sum

/-- No character is cut off. -/
def Whole (cs : List (List α)) : Prop := ∀ ch ∈ cs, ch.length = c.width ch

/-- The output is never full between two characters. -/
def Clear (room dest : ℕ) (cs : List (List α)) : Prop :=
  ∀ k ≤ cs.length, dest + c.total (cs.take k) ≠ room

/-- A character by itself. -/
structure IsChar (ch : List α) : Prop where
  head : ch.headD c.stop ≠ c.stop
  length_eq : ch.length = c.width ch

section Loop

variable [DecidableEq α]

/-- The loop when `room` elements fit in all; `fuel` bounds its turns. -/
def loop (room : ℕ) : ℕ → ℕ → ℕ → List α → Run α
  | 0, src, dest, p => ⟨[], src, dest, p, true⟩
  | fuel + 1, src, dest, p =>
      if p.headD c.stop = c.stop ∨ room ≤ dest then ⟨[], src, dest, p, decide (room < dest)⟩
      else if room < dest + c.outSize p then ⟨[], src, dest, p, true⟩
      else
        let r := loop room fuel (src + c.width p) (dest + c.outSize p) (p.drop (c.width p))
        { r with turns := ⟨src, dest, c.char p⟩ :: r.turns }

/-- The characters of a text without a stop element; the last one may be cut off. -/
def chars : List α → List (List α)
  | [] => []
  | a :: p => c.char (a :: p) :: chars ((a :: p).drop (c.width (a :: p)))
termination_by p => p.length
decreasing_by
  have := c.taken_pos a
  simp only [width, List.headD_cons, List.length_drop, List.length_cons]
  omega

end Loop

variable {c}

@[simp] theorem total_nil : c.total [] = 0 := rfl

@[simp] theorem total_cons (ch : List α) (cs : List (List α)) :
    c.total (ch :: cs) = c.outSize ch + c.total cs := rfl

theorem total_eq (cs : List (List α)) : c.total cs = (cs.flatMap c.put).length := by
  induction cs with
  | nil => rfl
  | cons ch cs ih =>
      rw [total_cons, ih, List.flatMap_cons, List.length_append, c.length_put, outSize]

theorem clear_nil (room dest : ℕ) : c.Clear room dest [] ↔ dest ≠ room := by
  simp [Clear]

theorem clear_cons (room dest : ℕ) (ch : List α) (cs : List (List α)) :
    c.Clear room dest (ch :: cs) ↔ dest ≠ room ∧ c.Clear room (dest + c.outSize ch) cs := by
  constructor
  · intro h
    refine ⟨by simpa using h 0 (Nat.zero_le _), fun k hk => ?_⟩
    have := h (k + 1) (Nat.succ_le_succ hk)
    rwa [List.take_succ_cons, total_cons, ← Nat.add_assoc] at this
  · rintro ⟨hne, h⟩ k hk
    cases k with
    | zero => simpa using hne
    | succ k =>
        rw [List.take_succ_cons, total_cons, ← Nat.add_assoc]
        exact h k (Nat.le_of_succ_le_succ hk)

theorem IsChar.ne_nil {ch : List α} (h : c.IsChar ch) : ch ≠ [] := by
  rintro rfl
  exact h.head rfl

theorem headD_append {ch : List α} (h : ch ≠ []) (rest : List α) (a : α) :
    (ch ++ rest).headD a = ch.headD a := by
  obtain ⟨b, t, rfl⟩ := List.exists_cons_of_ne_nil h
  rfl

theorem IsChar.width_append {ch : List α} (h : c.IsChar ch) (rest : List α) :
    c.width (ch ++ rest) = ch.length := by
  rw [width, headD_append h.ne_nil, ← width, ← h.length_eq]

theorem IsChar.char_append {ch : List α} (h : c.IsChar ch) (rest : List α) :
    c.char (ch ++ rest) = ch := by
  rw [char, h.width_append, List.take_left]

/-! ## Texts of whole characters -/

/-- There are no more characters than elements. -/
theorem length_le_flatten {cs : List (List α)} (hcs : ∀ ch ∈ cs, c.IsChar ch) :
    cs.length ≤ cs.flatten.length := by
  induction cs with
  | nil => exact Nat.le_refl 0
  | cons ch cs ih =>
      rw [List.forall_mem_cons] at hcs
      have hpos := List.length_pos_iff.mpr hcs.1.ne_nil
      have := ih hcs.2
      rw [List.length_cons, List.flatten_cons, List.length_append]
      omega

/-- A text is cut into characters in one way only. -/
theorem exists_append_of_flatten {cs ds : List (List α)} (hcs : ∀ ch ∈ cs, c.IsChar ch)
    (hds : ∀ ch ∈ ds, c.IsChar ch) {q : List α} (h : cs.flatten = ds.flatten ++ q) :
    ∃ post, cs = ds ++ post ∧ post.flatten = q := by
  induction ds generalizing cs with
  | nil => exact ⟨cs, rfl, h⟩
  | cons d ds ih =>
      rw [List.forall_mem_cons] at hds
      cases cs with
      | nil =>
          rw [List.flatten_cons, List.append_assoc] at h
          exact absurd (List.append_eq_nil_iff.mp h.symm).1 hds.1.ne_nil
      | cons ch cs =>
          rw [List.forall_mem_cons] at hcs
          rw [List.flatten_cons, List.flatten_cons, List.append_assoc] at h
          have hfirst : ch = d := by
            rw [← hcs.1.char_append cs.flatten, h, hds.1.char_append]
          subst hfirst
          obtain ⟨post, rfl, hpost⟩ := ih hcs.2 hds.2 (List.append_cancel_left h)
          exact ⟨post, rfl, hpost⟩

/-- Where each of the characters starts. -/
def placed (c : Coding α β) : ℕ → ℕ → List (List α) → List (Turn α)
  | _, _, [] => []
  | src, dest, ch :: cs => ⟨src, dest, ch⟩ :: placed c (src + ch.length) (dest + c.outSize ch) cs

theorem map_char_placed (src dest : ℕ) (cs : List (List α)) :
    (placed c src dest cs).map Turn.char = cs := by
  induction cs generalizing src dest with
  | nil => rfl
  | cons ch cs ih => rw [placed, List.map_cons, ih]

/-- With room for all of them, every character in front of the stop element is recoded. -/
theorem loop_flatten [DecidableEq α] {cs : List (List α)} (hcs : ∀ ch ∈ cs, c.IsChar ch)
    {rest : List α}
    (hrest : rest.headD c.stop = c.stop) {room fuel dest : ℕ} (src : ℕ)
    (hroom : dest + c.total cs ≤ room) (hfuel : cs.length < fuel) :
    c.loop room fuel src dest (cs.flatten ++ rest) =
      ⟨placed c src dest cs, src + cs.flatten.length, dest + c.total cs, rest, false⟩ := by
  induction cs generalizing src dest fuel with
  | nil =>
      cases fuel with
      | zero => cases hfuel
      | succ fuel =>
          have hle : ¬ room < dest := Nat.not_lt.mpr (by simpa using hroom)
          simp only [List.flatten_nil, List.nil_append, loop, hrest, true_or, if_true, hle,
            decide_false]
          rfl
  | cons ch cs ih =>
      cases fuel with
      | zero => cases hfuel
      | succ fuel =>
          rw [List.forall_mem_cons] at hcs
          rw [total_cons, ← Nat.add_assoc] at hroom
          have hsize : c.outSize (ch ++ (cs.flatten ++ rest)) = c.outSize ch := by
            rw [outSize, headD_append hcs.1.ne_nil, ← outSize]
          have hpos : 0 < c.outSize ch := c.size_pos _
          have hgo : ¬ (ch.headD c.stop = c.stop ∨ room ≤ dest) := by
            rintro (hstop | hfull)
            · exact hcs.1.head hstop
            · omega
          rw [List.flatten_cons, List.append_assoc, loop, headD_append hcs.1.ne_nil, if_neg hgo,
            hsize, if_neg (by omega), hcs.1.width_append, hcs.1.char_append, List.drop_left,
            ih hcs.2 (src + ch.length) hroom (Nat.lt_of_succ_lt_succ hfuel)]
          simp only [placed, List.length_append, total_cons, Nat.add_assoc]

/-! ## Any text -/

theorem headD_take {n : ℕ} (hn : 0 < n) (p : List α) (a : α) : (p.take n).headD a = p.headD a := by
  obtain ⟨m, rfl⟩ := Nat.exists_eq_succ_of_ne_zero (Nat.pos_iff_ne_zero.mp hn)
  cases p with
  | nil => rfl
  | cons b p => rfl

theorem headD_char (p : List α) : (c.char p).headD c.stop = p.headD c.stop :=
  headD_take (c.taken_pos _) p _

theorem outSize_char (p : List α) : c.outSize (c.char p) = c.outSize p := by
  rw [outSize, headD_char, ← outSize]

theorem width_char (p : List α) : c.width (c.char p) = c.width p := by
  rw [width, headD_char, ← width]

section Bounds

variable [DecidableEq α] {room fuel src dest : ℕ} {p : List α}

theorem le_src : src ≤ (c.loop room fuel src dest p).src := by
  induction fuel generalizing src dest p with
  | zero => exact Nat.le_refl src
  | succ fuel ih =>
      rw [loop]
      split_ifs
      · exact Nat.le_refl src
      · exact Nat.le_refl src
      · exact Nat.le_trans (Nat.le_add_right src _) ih

/-- What is written stays in the room, and the output ends behind it. -/
theorem loop_dest (hdest : dest ≤ room) :
    (∀ t ∈ (c.loop room fuel src dest p).turns, t.dest + c.outSize t.char ≤ room) ∧
      (c.loop room fuel src dest p).dest =
        dest + c.total ((c.loop room fuel src dest p).turns.map Turn.char) := by
  induction fuel generalizing src dest p with
  | zero => exact ⟨fun t ht => (by cases ht), rfl⟩
  | succ fuel ih =>
      rw [loop]
      split_ifs with hend hfull
      · exact ⟨fun t ht => (by cases ht), rfl⟩
      · exact ⟨fun t ht => (by cases ht), rfl⟩
      · have hchar : c.outSize (c.char p) = c.outSize p := outSize_char p
        obtain ⟨hturns, hlast⟩ :=
          @ih (src + c.width p) (dest + c.outSize p) (p.drop (c.width p)) (by omega)
        refine ⟨List.forall_mem_cons.mpr ⟨by simp only [hchar]; omega, hturns⟩, ?_⟩
        simp only [List.map_cons, total_cons, hchar, hlast, Nat.add_assoc]

/-- No turn starts behind `stop`, nor does the loop look at anything behind it. -/
structure Within (r : Run α) (e : ℕ) : Prop where
  start : ∀ t ∈ r.turns, t.src ≤ e
  last : r.src ≤ e

theorem not_within_loop {e : ℕ} (h : e < src) : ¬ Within (c.loop room fuel src dest p) e := by
  intro hw
  have := Nat.le_trans le_src hw.last
  omega

theorem Within.turn_end {e : ℕ} (h : Within (c.loop room fuel src dest p) e) :
    ∀ t ∈ (c.loop room fuel src dest p).turns, t.src + c.width t.char ≤ e := by
  induction fuel generalizing src dest p with
  | zero => exact fun t ht => by cases ht
  | succ fuel ih =>
      by_contra hcon
      rw [loop] at h hcon
      split_ifs at h hcon
      · exact hcon fun t ht => by cases ht
      · exact hcon fun t ht => by cases ht
      · have hin : Within (c.loop room fuel (src + c.width p) (dest + c.outSize p)
            (p.drop (c.width p))) e :=
          ⟨fun t ht => h.start t (List.mem_cons_of_mem _ ht), h.last⟩
        refine hcon (List.forall_mem_cons.mpr ⟨?_, ih hin⟩)
        simp only [width_char]
        exact Nat.le_trans le_src hin.last

/-- What is left of the text. -/
theorem loop_rest : ∃ k, (c.loop room fuel src dest p).src = src + k ∧
    (c.loop room fuel src dest p).rest = p.drop k := by
  induction fuel generalizing src dest p with
  | zero => exact ⟨0, rfl, rfl⟩
  | succ fuel ih =>
      rw [loop]
      split_ifs
      · exact ⟨0, rfl, rfl⟩
      · exact ⟨0, rfl, rfl⟩
      · obtain ⟨k, hsrc, hrest⟩ :=
          @ih (src + c.width p) (dest + c.outSize p) (p.drop (c.width p))
        refine ⟨c.width p + k, ?_, ?_⟩
        · simp only [hsrc, Nat.add_assoc]
        · simp only [hrest, List.drop_drop]

/-- The loop gives up at a character, not at the end of the text. -/
theorem loop_refused (hfuel : p.length < fuel) (hdest : dest ≤ room)
    (h : (c.loop room fuel src dest p).refused = true) :
    (c.loop room fuel src dest p).rest.headD c.stop ≠ c.stop := by
  induction fuel generalizing src dest p with
  | zero => cases hfuel
  | succ fuel ih =>
      rw [loop] at h ⊢
      by_cases hend : p.headD c.stop = c.stop ∨ room ≤ dest
      · rw [if_pos hend] at h
        exact absurd (of_decide_eq_true h) (Nat.not_lt.mpr hdest)
      · rw [if_neg hend] at h ⊢
        by_cases hroom : room < dest + c.outSize p
        · rw [if_pos hroom]
          exact fun hstop => hend (.inl hstop)
        · rw [if_neg hroom] at h ⊢
          refine ih ?_ (Nat.not_lt.mp hroom) h
          have htaken : 0 < c.width p := c.taken_pos _
          have hlong : 0 < p.length := by
            rw [List.length_pos_iff]
            rintro rfl
            exact hend (.inl rfl)
          rw [List.length_drop]
          omega

/-- A run that does not give up has come to the end of the text, with room to spare. -/
def Finished (r : Run α) (e room : ℕ) : Prop := r.refused = false → r.src = e ∧ r.dest < room

/-- When the loop stays in a text `t` and recodes all of it unless it gives up: there is no
place between two characters where the output is full, and the last character is whole or
there is no room for all of them. -/
theorem loop_within_iff {t q : List α} (ht : c.stop ∉ t) (hq : q.headD c.stop = c.stop)
    (hfuel : t.length < fuel) (hdest : dest ≤ room) :
    Within (c.loop room fuel src dest (t ++ q)) (src + t.length) ∧
        Finished (c.loop room fuel src dest (t ++ q)) (src + t.length) room ↔
      c.Clear room dest (c.chars t) ∧
        (c.Whole (c.chars t) ∨ room < dest + c.total (c.chars t)) := by
  induction fuel generalizing src dest t with
  | zero => cases hfuel
  | succ fuel ih =>
      cases t with
      | nil =>
          rw [List.nil_append, loop, if_pos (.inl hq), chars, clear_nil]
          constructor
          · rintro ⟨-, hfin⟩
            have := (hfin (decide_eq_false (Nat.not_lt.mpr hdest))).2
            exact ⟨by simp only [] at this; omega, .inl fun ch hch => by cases hch⟩
          · rintro ⟨hne, -⟩
            refine ⟨⟨fun t ht => (by cases ht), Nat.le_add_right _ _⟩, fun _ => ⟨rfl, ?_⟩⟩
            simp only []
            omega
      | cons a t =>
          have ha : a ≠ c.stop := fun h => ht (h ▸ List.mem_cons_self)
          have hhead : (a :: t ++ q).headD c.stop = a := rfl
          have hw : c.width (a :: t ++ q) = c.width (a :: t) := rfl
          have hs : c.outSize (a :: t ++ q) = c.outSize (a :: t) := rfl
          have hpos : 0 < c.outSize (a :: t) := c.size_pos a
          rw [chars, clear_cons, total_cons, outSize_char, loop, hhead, hs, hw]
          by_cases hfull : room ≤ dest
          · -- the output is full before the end of the text
            rw [if_pos (.inr hfull)]
            constructor
            · rintro ⟨-, hfin⟩
              have := (hfin (decide_eq_false (Nat.not_lt.mpr hdest))).2
              simp only [] at this
              omega
            · rintro ⟨⟨hne, -⟩, -⟩
              omega
          · rw [if_neg (by simp only [ha, hfull, or_self, not_false_iff])]
            by_cases hroom : room < dest + c.outSize (a :: t)
            · rw [if_pos hroom]
              constructor
              · intro _
                refine ⟨⟨by omega, fun k _ => by omega⟩, .inr (by omega)⟩
              · intro _
                exact ⟨⟨fun t ht => (by cases ht), Nat.le_add_right _ _⟩, fun h => by cases h⟩
            · rw [if_neg hroom]
              by_cases hwidth : c.width (a :: t) ≤ (a :: t).length
              · -- a whole character
                have hdrop : (a :: t ++ q).drop (c.width (a :: t)) =
                    (a :: t).drop (c.width (a :: t)) ++ q := List.drop_append_of_le_length hwidth
                have hmem : c.stop ∉ (a :: t).drop (c.width (a :: t)) :=
                  fun h => ht (List.mem_of_mem_drop h)
                have hlen : ((a :: t).drop (c.width (a :: t))).length < fuel := by
                  have htaken : 0 < c.width (a :: t) := c.taken_pos a
                  have hlong : 0 < (a :: t).length := Nat.succ_pos _
                  rw [List.length_drop]
                  omega
                have hend : src + c.width (a :: t) + ((a :: t).drop (c.width (a :: t))).length =
                    src + (a :: t).length := by
                  rw [List.length_drop]
                  omega
                have hchar : (c.char (a :: t)).length = c.width (c.char (a :: t)) := by
                  rw [width_char, char, List.length_take]
                  omega
                have := @ih (src + c.width (a :: t)) (dest + c.outSize (a :: t))
                  ((a :: t).drop (c.width (a :: t))) hmem hlen (by omega)
                rw [hend] at this
                rw [hdrop, ← Nat.add_assoc]
                have hwhole :
                    c.Whole (c.char (a :: t) :: c.chars ((a :: t).drop (c.width (a :: t)))) ↔
                    c.Whole (c.chars ((a :: t).drop (c.width (a :: t)))) :=
                  List.forall_mem_cons.trans (and_iff_right hchar)
                rw [hwhole, and_iff_right (show dest ≠ room by omega), ← this]
                constructor
                · rintro ⟨hin, hfin⟩
                  exact ⟨⟨fun t ht => hin.start t (List.mem_cons_of_mem _ ht), hin.last⟩, hfin⟩
                · rintro ⟨hin, hfin⟩
                  refine ⟨⟨List.forall_mem_cons.mpr ⟨Nat.le_add_right _ _, hin.start⟩, hin.last⟩,
                    hfin⟩
              · -- the text ends inside of the character
                constructor
                · rintro ⟨hin, -⟩
                  refine absurd ⟨fun t ht => hin.start t (List.mem_cons_of_mem _ ht), hin.last⟩
                    (not_within_loop (by omega))
                · rintro ⟨-, hwhole | hlt⟩
                  · have := hwhole _ List.mem_cons_self
                    rw [width_char, char, List.length_take] at this
                    omega
                  · rw [List.drop_eq_nil_of_le (by omega), chars, total_nil] at hlt
                    omega

end Bounds

end Coding

end Recode
