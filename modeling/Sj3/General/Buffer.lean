import Mathlib.Data.List.Basic

/-! # Copying inside a buffer

Element-by-element copies between overlapping regions of one buffer, and the two uses
editors make of them: closing a gap and opening one. -/

namespace Buffer

variable {α : Type*}

/-- Store a run of elements over the ones at `ofs`. -/
def overwrite (buf : List α) (ofs : ℕ) (w : List α) : List α :=
  buf.take ofs ++ w ++ buf.drop (ofs + w.length)

/-- Copy the element at `src` over the one at `dest`. -/
def copyOne (buf : List α) (src dest : ℕ) : List α :=
  match buf[src]? with
  | some x => buf.set dest x
  | none => buf

/-- Copy `len` elements from `src` on to `dest` on, the first one first. -/
def copyAsc (buf : List α) (src dest : ℕ) : ℕ → List α
  | 0 => buf
  | len + 1 => copyAsc (copyOne buf src dest) (src + 1) (dest + 1) len

/-- Copy `len` elements that end before `src` to the places before `dest`, the last one
first. -/
def copyDesc (buf : List α) (src dest : ℕ) : ℕ → List α
  | 0 => buf
  | len + 1 => copyDesc (copyOne buf (src - 1) (dest - 1)) (src - 1) (dest - 1) len

/-! ## Overwriting -/

theorem overwrite_append (x old y w : List α) (h : old.length = w.length) :
    overwrite (x ++ (old ++ y)) x.length w = x ++ (w ++ y) := by
  have hdrop : (x ++ (old ++ y)).drop (x.length + w.length) = y := by
    rw [← h, ← List.append_assoc, ← List.length_append, List.drop_left]
  rw [overwrite, hdrop, List.take_left, List.append_assoc]

theorem overwrite_end (x old w : List α) (h : old.length = w.length) :
    overwrite (x ++ old) x.length w = x ++ w := by
  simpa using overwrite_append x old [] w h

@[simp] theorem length_overwrite (buf : List α) (ofs : ℕ) (w : List α)
    (h : ofs + w.length ≤ buf.length) : (overwrite buf ofs w).length = buf.length := by
  simp [overwrite]
  omega

theorem take_overwrite {buf : List α} {ofs : ℕ} (h : ofs ≤ buf.length) (w : List α) :
    (overwrite buf ofs w).take (ofs + w.length) = buf.take ofs ++ w := by
  have hlen : (buf.take ofs ++ w).length = ofs + w.length := by
    rw [List.length_append, List.length_take_of_le h]
  rw [overwrite, ← hlen, List.take_left]

theorem drop_overwrite {buf : List α} {ofs q : ℕ} (h : ofs ≤ buf.length) (w : List α)
    (hq : ofs + w.length ≤ q) : (overwrite buf ofs w).drop q = buf.drop q := by
  have hlen : (buf.take ofs ++ w).length = ofs + w.length := by
    rw [List.length_append, List.length_take_of_le h]
  obtain ⟨k, rfl⟩ := Nat.exists_eq_add_of_le hq
  rw [overwrite, List.drop_append, List.drop_eq_nil_of_le (by omega), List.nil_append,
    List.drop_drop, hlen]
  congr 1
  omega

/-! ## Copying -/

theorem copyOne_eq (buf : List α) (src dest : ℕ) (hs : src < buf.length)
    (hd : dest < buf.length) :
    copyOne buf src dest = buf.take dest ++ buf[src] :: buf.drop (dest + 1) := by
  rw [copyOne, List.getElem?_eq_getElem hs]
  exact List.set_eq_take_append_cons_drop.trans (if_pos hd)

@[simp] theorem length_copyOne (buf : List α) (src dest : ℕ) :
    (copyOne buf src dest).length = buf.length := by
  unfold copyOne
  split <;> simp

@[simp] theorem length_copyAsc (buf : List α) (src dest len : ℕ) :
    (copyAsc buf src dest len).length = buf.length := by
  induction len generalizing buf src dest with
  | zero => rfl
  | succ len ih => rw [copyAsc, ih, length_copyOne]

@[simp] theorem length_copyDesc (buf : List α) (src dest len : ℕ) :
    (copyDesc buf src dest len).length = buf.length := by
  induction len generalizing buf src dest with
  | zero => rfl
  | succ len ih => rw [copyDesc, ih, length_copyOne]

/-- A copy towards the front moves the whole region, overlapping or not. -/
theorem copyAsc_eq (buf : List α) (src dest len : ℕ) (hd : dest ≤ src)
    (hn : src + len ≤ buf.length) :
    copyAsc buf src dest len =
      buf.take dest ++ (buf.drop src).take len ++ buf.drop (dest + len) := by
  induction len generalizing buf src dest with
  | zero => simp [copyAsc]
  | succ len ih =>
      have hs : src < buf.length := by omega
      have hone := copyOne_eq buf src dest hs (by omega)
      have hlen : (buf.take dest).length = dest := by simp; omega
      have hdrop : ∀ k, dest + 1 ≤ k → (copyOne buf src dest).drop k = buf.drop k := by
        intro k hk
        rw [copyOne, List.getElem?_eq_getElem hs]
        exact List.drop_set_of_lt (by omega)
      have htake : (copyOne buf src dest).take (dest + 1) = buf.take dest ++ [buf[src]] := by
        rw [hone, List.take_append, hlen]
        simp [List.take_take]
      rw [copyAsc, ih _ _ _ (by omega) (by simp; omega), htake, hdrop _ (by omega),
        hdrop _ (by omega), List.drop_eq_getElem_cons hs, List.take_succ_cons]
      simp [Nat.add_assoc, Nat.add_comm 1 len]

/-- A copy towards the end moves the whole region, overlapping or not. -/
theorem copyDesc_eq (buf : List α) (src dest len : ℕ) (hd : src ≤ dest)
    (hn : dest ≤ buf.length) (hl : len ≤ src) :
    copyDesc buf src dest len =
      buf.take (dest - len) ++ (buf.drop (src - len)).take len ++ buf.drop dest := by
  induction len generalizing buf src dest with
  | zero => simp [copyDesc]
  | succ len ih =>
      have hs : src - 1 < buf.length := by omega
      have hd' : dest - 1 < buf.length := by omega
      have hone := copyOne_eq buf (src - 1) (dest - 1) hs hd'
      have htake : ∀ k, k ≤ dest - 1 →
          (copyOne buf (src - 1) (dest - 1)).take k = buf.take k := by
        intro k hk
        rw [hone, List.take_append_of_le_length (by simp; omega), List.take_take]
        congr 1
        omega
      have hdrop : (copyOne buf (src - 1) (dest - 1)).drop (dest - 1) =
          buf[src - 1] :: buf.drop dest := by
        rw [hone, List.drop_append_of_le_length (by simp; omega),
          List.drop_eq_nil_of_le (by rw [List.length_take]; omega), List.nil_append,
          Nat.sub_add_cancel (by omega)]
      have hmid : ((copyOne buf (src - 1) (dest - 1)).drop (src - 1 - len)).take len =
          (buf.drop (src - 1 - len)).take len := by
        rw [List.take_drop, List.take_drop, show src - 1 - len + len = src - 1 by omega,
          htake _ (by omega)]
      rw [copyDesc, ih _ _ _ (by omega) (by simp; omega) (by omega), htake _ (by omega),
        hdrop, hmid]
      have hsplit : (buf.drop (src - (len + 1))).take (len + 1) =
          (buf.drop (src - 1 - len)).take len ++ [buf[src - 1]] := by
        rw [List.take_add_one, show src - (len + 1) = src - 1 - len by omega]
        congr 1
        rw [List.getElem?_drop, show src - 1 - len + len = src - 1 by omega,
          List.getElem?_eq_getElem hs]
        rfl
      rw [hsplit, show dest - 1 - len = dest - (len + 1) by omega]
      simp

/-- Closing a gap: everything behind `gap` moves down over it, and the last `gap.length`
elements of the buffer keep what they were. -/
theorem copyAsc_close (x gap y : List α) :
    copyAsc (x ++ (gap ++ y)) (x.length + gap.length) x.length y.length =
      x ++ (y ++ (gap ++ y).drop y.length) := by
  rw [copyAsc_eq _ _ _ _ (by omega) (by simp; omega), List.take_left]
  have hsrc : (x ++ (gap ++ y)).drop (x.length + gap.length) = y := by
    rw [← List.append_assoc, ← List.length_append, List.drop_left]
  rw [hsrc, List.take_length, List.drop_append, List.append_assoc,
    List.drop_eq_nil_of_le (by omega), List.nil_append,
    show x.length + y.length - x.length = y.length by omega]

/-- Closing a gap and filling the end of the buffer. -/
theorem overwrite_copyAsc_close (x gap y fill : List α) (h : fill.length = gap.length) :
    overwrite (copyAsc (x ++ (gap ++ y)) (x.length + gap.length) x.length y.length)
      (x.length + y.length) fill = x ++ (y ++ fill) := by
  rw [copyAsc_close, ← List.append_assoc, ← List.length_append,
    overwrite_end _ _ _ (by simp; omega),
    List.append_assoc]

/-- Moving the end of the buffer from `q` down to `p` and filling what it leaves. -/
theorem overwrite_copyAsc_fill (buf fill : List α) {p q : ℕ} (h : p ≤ q) (hq : q ≤ buf.length)
    (hfill : fill.length = q - p) :
    overwrite (copyAsc buf q p (buf.length - q)) (p + (buf.length - q)) fill =
      buf.take p ++ (buf.drop q ++ fill) := by
  have hmove := copyAsc_eq buf q p (buf.length - q) h (by omega)
  have hlen : (buf.take p ++ buf.drop q).length = p + (buf.length - q) := by
    simp only [List.length_append, List.length_take, List.length_drop]
    omega
  have htake : (buf.drop q).take (buf.length - q) = buf.drop q :=
    List.take_of_length_le (by simp)
  rw [htake] at hmove
  rw [hmove, ← hlen, overwrite_end _ _ _ (by simp only [List.length_drop]; omega),
    List.append_assoc]

/-- Rewriting the header `old` and dropping `g` elements behind it leaves the last elements
of the buffer twice. -/
theorem exists_copyAsc_header (x old h y rest : List α) {g : ℕ} (hh : old.length = h.length)
    (hg : g ≤ y.length) :
    ∃ stale : List α, stale.length = g ∧
      copyAsc (overwrite (x ++ (old ++ (y ++ rest))) x.length h) (x.length + h.length + g)
          (x.length + h.length)
          ((x ++ (old ++ (y ++ rest))).length - (x.length + h.length + g)) =
        x ++ (h ++ (y.drop g ++ (rest ++ stale))) := by
  have hyl : (y.take g).length = g := by
    rw [List.length_take]
    omega
  have hover : overwrite (x ++ (old ++ (y ++ rest))) x.length h =
      (x ++ h) ++ (y.take g ++ (y.drop g ++ rest)) := by
    rw [overwrite_append _ _ _ _ hh, List.append_assoc, ← List.append_assoc (y.take g),
      List.take_append_drop]
  have hlen : (x ++ (old ++ (y ++ rest))).length - (x.length + h.length + g) =
      (y.drop g ++ rest).length := by
    simp only [List.length_append, List.length_drop]
    omega
  have hclose := copyAsc_close (x ++ h) (y.take g) (y.drop g ++ rest)
  rw [List.length_append, hyl] at hclose
  refine ⟨(y.take g ++ (y.drop g ++ rest)).drop (y.drop g ++ rest).length, ?_, ?_⟩
  · rw [List.length_drop, List.length_append, hyl]
    omega
  · rw [hover, hlen, hclose]
    simp only [List.append_assoc]

/-- Rewriting the header `old`, keeping only `k` of the elements `y` behind it, closing what
comes between these and `z`, and filling the end of the buffer. -/
theorem overwrite_copyAsc_header_fill (x old h y gap z fill : List α) {k n : ℕ}
    (hh : old.length = h.length) (hk : k ≤ y.length)
    (hfill : fill.length + k = y.length + gap.length)
    (hn : n = (x ++ (old ++ (y ++ (gap ++ z)))).length) :
    overwrite (copyAsc (overwrite (x ++ (old ++ (y ++ (gap ++ z)))) x.length h)
        (x.length + h.length + y.length + gap.length) (x.length + h.length + k)
        (n - (x.length + h.length + y.length + gap.length)))
      (n - fill.length) fill = x ++ (h ++ (y.take k ++ (z ++ fill))) := by
  obtain ⟨buf, hbuf⟩ : ∃ b, b = overwrite (x ++ (old ++ (y ++ (gap ++ z)))) x.length h := ⟨_, rfl⟩
  obtain ⟨q, hq⟩ : ∃ q, q = x.length + h.length + y.length + gap.length := ⟨_, rfl⟩
  have heq : buf = (x ++ h) ++ (y ++ (gap ++ z)) := by
    rw [hbuf, overwrite_append _ _ _ _ hh, List.append_assoc]
  have hlen : buf.length = n := by
    rw [hn, heq]
    simp only [List.length_append]
    omega
  have hnq : n = q + z.length := by
    rw [hn, hq]
    simp only [List.length_append]
    omega
  have htake : buf.take (x.length + h.length + k) = x ++ (h ++ y.take k) := by
    rw [heq, ← List.length_append, List.take_length_add_append, List.take_append_of_le_length hk,
      List.append_assoc]
  have hdrop : buf.drop q = z := by
    have hfront : (((x ++ h) ++ y) ++ gap).length = q := by
      rw [hq]
      simp only [List.length_append]
    have hsplit : buf = (((x ++ h) ++ y) ++ gap) ++ z := by
      rw [heq]
      simp only [List.append_assoc]
    rw [hsplit, ← hfront, List.drop_left]
  have hmove := overwrite_copyAsc_fill buf fill (p := x.length + h.length + k) (q := q)
    (by omega) (by omega) (by omega)
  rw [htake, hdrop, hlen] at hmove
  rw [← hbuf, ← hq, show n - fill.length = x.length + h.length + k + (n - q) by omega, hmove]
  simp only [List.append_assoc]

/-- Opening a gap of `n` elements at `x.length` pushes the last elements out of the buffer. -/
theorem exists_copyDesc_open (x y : List α) {n : ℕ} (h : n ≤ y.length) :
    ∃ gap : List α, gap.length = n ∧
      copyDesc (x ++ y) (x.length + y.length - n) (x.length + y.length) (y.length - n) =
        x ++ (gap ++ y.take (y.length - n)) := by
  have hgap : x.length + y.length - (y.length - n) = x.length + n := by omega
  have hsrc : x.length + y.length - n - (y.length - n) = x.length := by omega
  have hend : (x ++ y).drop (x.length + y.length) = [] := by
    rw [← List.length_append, List.drop_length]
  refine ⟨y.take n, by simp; omega, ?_⟩
  rw [copyDesc_eq _ _ _ _ (by omega) (by simp) (by omega), hgap, hsrc, hend,
    List.drop_left, List.append_nil, List.take_append, List.take_of_length_le (by omega),
    show x.length + n - x.length = n by omega, List.append_assoc]

/-- Opening a gap and storing `w` into it. -/
theorem overwrite_copyDesc_open (x y w : List α) (h : w.length ≤ y.length) :
    overwrite (copyDesc (x ++ y) (x.length + y.length - w.length) (x.length + y.length)
      (y.length - w.length)) x.length w = x ++ (w ++ y.take (y.length - w.length)) := by
  obtain ⟨gap, hgap, hmove⟩ := exists_copyDesc_open x y h
  rw [hmove, overwrite_append _ _ _ _ hgap]

/-- Opening a gap some way behind a header, rewriting the header and storing `w` into the
gap. -/
theorem overwrite_header_open (x old h m y w : List α) (hh : old.length = h.length)
    (hw : w.length ≤ y.length) {n : ℕ} (hn : n = (x ++ (old ++ (m ++ y))).length) :
    let buf := copyDesc (x ++ (old ++ (m ++ y))) (n - w.length) n (y.length - w.length)
    (∃ z, buf.drop x.length = old ++ z) ∧
      overwrite (overwrite buf x.length h) (x.length + (old.length + m.length)) w =
        x ++ (h ++ (m ++ (w ++ y.take (y.length - w.length)))) := by
  obtain ⟨gap, hgap, hopen⟩ := exists_copyDesc_open (x ++ (old ++ m)) y hw
  have hlen : n = (x ++ (old ++ m)).length + y.length := by
    rw [hn]
    simp only [List.length_append]
    omega
  rw [← hlen] at hopen
  simp only [List.append_assoc] at hopen
  simp only [hopen]
  refine ⟨⟨m ++ (gap ++ y.take (y.length - w.length)), List.drop_left⟩, ?_⟩
  have hword := overwrite_append (x ++ (h ++ m)) gap (y.take (y.length - w.length)) w hgap
  have hpos : (x ++ (h ++ m)).length = x.length + (old.length + m.length) := by
    simp only [List.length_append]
    omega
  rw [hpos] at hword
  simp only [List.append_assoc] at hword
  rw [overwrite_append _ _ _ _ hh, hword]

/-- Replacing `x` by a longer run pushes the last elements out of the buffer. -/
theorem overwrite_copyDesc_grow (a x y w : List α) (hw : x.length ≤ w.length)
    (hy : w.length - x.length ≤ y.length) :
    overwrite (copyDesc (a ++ (x ++ y))
        (a.length + (x.length + y.length) - (w.length - x.length))
        (a.length + (x.length + y.length))
        (a.length + (x.length + y.length) - (w.length - x.length) - a.length))
      a.length w = a ++ (w ++ y.take (y.length - (w.length - x.length))) := by
  have hlen : (a ++ (x ++ y)).length = a.length + (x.length + y.length) := by simp
  rw [copyDesc_eq _ _ _ _ (by omega) (by omega) (by omega), ← hlen, List.drop_length,
    List.append_nil]
  have h₁ : (a ++ (x ++ y)).length - ((a ++ (x ++ y)).length - (w.length - x.length) - a.length) =
      a.length + (w.length - x.length) := by omega
  have h₂ : (a ++ (x ++ y)).length - (w.length - x.length) -
      ((a ++ (x ++ y)).length - (w.length - x.length) - a.length) = a.length := by omega
  have h₃ : (a ++ (x ++ y)).length - (w.length - x.length) - a.length =
      x.length + (y.length - (w.length - x.length)) := by omega
  rw [h₁, h₂, List.drop_left, List.take_append, List.take_of_length_le (by omega),
    Nat.add_sub_cancel_left, h₃, List.take_length_add_append, List.append_assoc,
    ← List.append_assoc _ x]
  exact overwrite_append _ _ _ _ (by simp; omega)

/-- Replacing `x` by a shorter run leaves the last elements of the buffer twice. -/
theorem overwrite_copyAsc_shrink (a x y w : List α) (hw : w.length ≤ x.length) :
    overwrite (copyAsc (a ++ (x ++ y)) (a.length + (x.length - w.length)) a.length
        (a.length + (x.length + y.length) - (a.length + (x.length - w.length))))
      a.length w =
      a ++ (w ++ (y ++ (x ++ y).drop (w.length + y.length))) := by
  have hlen : (a ++ (x ++ y)).length = a.length + (x.length + y.length) := by simp
  have h₁ : a.length + (x.length + y.length) - (a.length + (x.length - w.length)) =
      w.length + y.length := by omega
  have h₂ : (x ++ y).drop (x.length - w.length) = x.drop (x.length - w.length) ++ y := by
    rw [List.drop_append_of_le_length (by omega)]
  rw [copyAsc_eq _ _ _ _ (by omega) (by omega), List.take_left, h₁, ← List.drop_drop,
    List.drop_left, h₂, List.take_of_length_le (by simp; omega), ← List.drop_drop,
    List.drop_left, List.append_assoc, List.append_assoc]
  exact overwrite_append _ _ _ _ (by simp; omega)

end Buffer
