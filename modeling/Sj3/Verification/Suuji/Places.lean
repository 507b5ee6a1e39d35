import Mathlib.Tactic.Ring
import Sj3.Verification.Suuji.Packing

/-! # Places of digits

A digit with marks names its place, and one without is next to the digit behind it. -/

namespace Sj3

/-- A digit, with the marks of ten to thousand and of the groups above it. A mark of zero is
none. -/
structure Keta where
  digit : Fin 10
  small : Fin 4
  large : Fin 4
  deriving DecidableEq, Repr

namespace Keta

/-- The byte in `suuji_ubuf`. -/
def byte (u : Keta) : UInt8 := UInt8.ofNat (u.large * 64 + u.small * 16 + u.digit + num0)

/-- Its place, when `next` is the one above its successor. -/
def place (u : Keta) (next : ℕ) : ℕ :=
  if u.large.val ≠ 0 then 4 * u.large + u.small
  else if u.small.val ≠ 0 then 4 * (next / 4) + u.small
  else next

/-- The places of digits, which come from the last one on. -/
def places : ℕ → List Keta → List ℕ
  | _, [] => []
  | next, u :: us => u.place next :: places (u.place next + 1) us

/-- What the digits mean at these places. -/
def number (us : List Keta) (ps : List ℕ) : ℕ :=
  ((us.zip ps).map fun e => e.1.digit.val * 10 ^ e.2).sum

theorem byte_large (u : Keta) : (u.byte.toNat >>> 6) &&& 3 = u.large := by
  have hall : ∀ d : Fin 10, ∀ k j : Fin 4, ((Keta.mk d k j).byte.toNat >>> 6) &&& 3 = j := by
    decide +kernel
  exact hall u.digit u.small u.large

theorem byte_small (u : Keta) : (u.byte.toNat >>> 4) &&& 3 = u.small := by
  have hall : ∀ d : Fin 10, ∀ k j : Fin 4, ((Keta.mk d k j).byte.toNat >>> 4) &&& 3 = k := by
    decide +kernel
  exact hall u.digit u.small u.large

theorem byte_digit (u : Keta) : u.byte.toNat &&& 0x0f = u.digit + 1 := by
  have hall : ∀ d : Fin 10, ∀ k j : Fin 4, (Keta.mk d k j).byte.toNat &&& 0x0f = d + 1 := by
    decide +kernel
  exact hall u.digit u.small u.large

/-- Every digit is above the ones behind it and has a place in the words. -/
def Placed : ℕ → List Keta → Prop
  | _, [] => True
  | next, u :: us =>
      (next ≤ u.place next ∧ u.place next < numketalength) ∧ Placed (u.place next + 1) us

/-- The digits put behind others, with zeros in the gaps. -/
def assemble : List ℕ → List Keta → List ℕ
  | ds, [] => ds
  | ds, u :: us =>
      assemble (ds ++ List.replicate (u.place ds.length - ds.length) 0 ++ [u.digit.val]) us

/-! ## Places in order -/

theorem Placed.le_of_mem {next : ℕ} {us : List Keta} (h : Placed next us) {p : ℕ}
    (hp : p ∈ places next us) : next ≤ p ∧ p < numketalength := by
  induction us generalizing next with
  | nil => exact absurd hp List.not_mem_nil
  | cons u us ih =>
      rcases List.mem_cons.mp hp with rfl | hp
      · exact h.1
      · have := ih h.2 hp
        exact ⟨by have := h.1.1; omega, this.2⟩

theorem Placed.pairwise {next : ℕ} {us : List Keta} (h : Placed next us) :
    (places next us).Pairwise (· < ·) := by
  induction us generalizing next with
  | nil => exact List.Pairwise.nil
  | cons u us ih =>
      refine List.pairwise_cons.mpr ⟨?_, ih h.2⟩
      intro p hp
      exact (h.2.le_of_mem hp).1

/-! ## The digits put together -/

theorem length_assemble_cons {u : Keta} {ds : List ℕ} (h : ds.length ≤ u.place ds.length) :
    (ds ++ List.replicate (u.place ds.length - ds.length) 0 ++ [u.digit.val]).length =
      u.place ds.length + 1 := by
  simp only [List.length_append, List.length_replicate, List.length_singleton]
  omega

theorem Placed.assemble {ds : List ℕ} {us : List Keta} (h : Placed ds.length us)
    (hlen : ds.length ≤ numketalength) (hlt : ∀ d ∈ ds, d < 10) :
    (assemble ds us).length ≤ numketalength ∧ ∀ d ∈ assemble ds us, d < 10 := by
  induction us generalizing ds with
  | nil => exact ⟨hlen, hlt⟩
  | cons u us ih =>
      have hnext := length_assemble_cons h.1.1
      refine ih (hnext.symm ▸ h.2) (by rw [hnext]; exact h.1.2) ?_
      intro d hd
      simp only [List.mem_append, List.mem_replicate, List.mem_singleton] at hd
      rcases hd with (hd | ⟨_, rfl⟩) | rfl
      · exact hlt d hd
      · decide
      · exact u.digit.isLt

theorem Placed.ofDigits {ds : List ℕ} {us : List Keta} (h : Placed ds.length us) :
    Nat.ofDigits 10 (Keta.assemble ds us) =
      Nat.ofDigits 10 ds + number us (places ds.length us) := by
  induction us generalizing ds with
  | nil => rfl
  | cons u us ih =>
      have hnext := length_assemble_cons h.1.1
      have hplace : ds.length + (u.place ds.length - ds.length) = u.place ds.length :=
        Nat.add_sub_cancel' h.1.1
      have hsum : number (u :: us) (places ds.length (u :: us)) =
          u.digit.val * 10 ^ u.place ds.length +
            number us (places (u.place ds.length + 1) us) := rfl
      rw [Keta.assemble, ih (hnext.symm ▸ h.2), hnext, hsum, Nat.ofDigits_append,
        Nat.ofDigits_append_replicate_zero, Nat.ofDigits_singleton, List.length_append,
        List.length_replicate, hplace]
      ring

/-- Below its end a list is a part of what is put together. -/
theorem getElem?_assemble_of_lt {ds : List ℕ} (us : List Keta) {p : ℕ} (hp : p < ds.length) :
    (assemble ds us)[p]? = ds[p]? := by
  induction us generalizing ds with
  | nil => rfl
  | cons u us ih =>
      rw [assemble, ih (by simp only [List.length_append]; omega), List.append_assoc,
        List.getElem?_append_left hp]

theorem Placed.getElem?_of_mem {ds : List ℕ} {us : List Keta} (h : Placed ds.length us)
    {e : Keta × ℕ} (he : e ∈ us.zip (places ds.length us)) :
    (Keta.assemble ds us)[e.2]? = some e.1.digit.val := by
  induction us generalizing ds with
  | nil => exact absurd he List.not_mem_nil
  | cons u us ih =>
      have hnext := length_assemble_cons h.1.1
      rw [places, List.zip_cons_cons] at he
      rw [Keta.assemble]
      have hplace : ds.length + (u.place ds.length - ds.length) = u.place ds.length :=
        Nat.add_sub_cancel' h.1.1
      rcases List.mem_cons.mp he with rfl | he
      · rw [getElem?_assemble_of_lt us (by rw [hnext]; exact Nat.lt_succ_self _),
          List.getElem?_append_right
            (by simp only [List.length_append, List.length_replicate]; exact hplace.le)]
        have hzero : u.place ds.length -
            (ds ++ List.replicate (u.place ds.length - ds.length) 0).length = 0 := by
          simp only [List.length_append, List.length_replicate]
          omega
        rw [hzero]
        rfl
      · exact ih (hnext.symm ▸ h.2) (hnext.symm ▸ he)

/-- Between the digits there are zeros. -/
theorem Placed.getElem?_of_notMem {ds : List ℕ} {us : List Keta} (h : Placed ds.length us)
    {p : ℕ} (hge : ds.length ≤ p) (hp : p ∉ places ds.length us) :
    (Keta.assemble ds us)[p]? = if ∃ q ∈ places ds.length us, p < q then some 0 else none := by
  induction us generalizing ds with
  | nil =>
      rw [if_neg (by simp [places])]
      exact List.getElem?_eq_none hge
  | cons u us ih =>
      have hnext := length_assemble_cons h.1.1
      rw [places, List.mem_cons, not_or] at hp
      rw [Keta.assemble]
      rcases Nat.lt_or_gt_of_ne hp.1 with hlt | hgt
      · rw [if_pos ⟨u.place ds.length, by simp [places], hlt⟩,
          getElem?_assemble_of_lt us (by rw [hnext]; omega), List.append_assoc,
          List.getElem?_append_right hge,
          List.getElem?_append_left (by rw [List.length_replicate]; omega),
          List.getElem?_replicate_of_lt (by omega)]
      · have hmem := ih (hnext.symm ▸ h.2) (by rw [hnext]; omega) (hnext.symm ▸ hp.2)
        rw [hnext] at hmem
        rw [hmem]
        refine if_congr ?_ rfl rfl
        constructor
        · rintro ⟨q, hq, hlt⟩
          exact ⟨q, List.mem_cons_of_mem _ hq, hlt⟩
        · rintro ⟨q, hq, hlt⟩
          rcases List.mem_cons.mp hq with rfl | hq
          · omega
          · exact ⟨q, hq, hlt⟩

end Keta

/-! ## The loop -/

namespace NumState

variable {s s' : NumState} {ds : List ℕ}

/-- One turn puts a digit at its place. -/
theorem Holds.turn (h : s.Holds ds) {u : Keta} (hs' : s.turn u.byte = some s') :
    (ds.length ≤ u.place ds.length ∧ u.place ds.length < numketalength) ∧
      s'.Holds (ds ++ List.replicate (u.place ds.length - ds.length) 0 ++ [u.digit.val]) := by
  rw [NumState.turn] at hs'
  split at hs'
  · exact absurd hs' nofun
  rename_i hhigh
  simp only [Keta.byte_large, Keta.byte_small, Keta.byte_digit, Option.bind_eq_some_iff,
    Option.map_eq_some_iff] at hs'
  obtain ⟨s₁, hlarge, s₂, hsmall, hlast⟩ := hs'
  have hplace := h.place
  have hlow := h.lketa
  -- what the large mark asks for
  have hfirst := h.large u.large.isLt hlarge
  have hgroup : ∃ ds₁, s₁.Holds ds₁ ∧ s₁.hketa < 4 ∧
      ds₁ = ds ++ List.replicate (ds₁.length - ds.length) 0 ∧ ds.length ≤ ds₁.length ∧
      (u.large.val = 0 → s₁ = s ∧ ds₁ = ds) ∧ (u.large.val ≠ 0 → s₁.hketa = u.large) := by
    by_cases hzero : u.large.val = 0
    · rw [if_pos hzero] at hfirst
      refine ⟨ds, hfirst ▸ h, by rw [hfirst]; omega, by simp, le_rfl, fun _ => ⟨hfirst, rfl⟩, ?_⟩
      exact fun hne => absurd hzero hne
    · rw [if_neg hzero] at hfirst
      refine ⟨_, hfirst.2.2, by rw [hfirst.1]; exact u.large.isLt, by simp, by simp, ?_, ?_⟩
      · exact fun heq => absurd heq hzero
      · exact fun _ => hfirst.1
  obtain ⟨ds₁, hds₁, hhigh₁, hfill, hle, hnone, hsome⟩ := hgroup
  -- what the small mark asks for
  obtain ⟨hq, hsame, hds₂⟩ := hds₁.small u.small.isLt hhigh₁ hsmall
  have hplace₁ := hds₁.place
  have hlow₁ := hds₁.lketa
  have hmark : (if u.large.val ≠ 0 ∨ u.small.val ≠ 0 then 4 * s₁.hketa + u.small.val
      else ds₁.length) = u.place ds.length := by
    rw [Keta.place]
    by_cases hzero : u.large.val = 0
    · obtain ⟨rfl, rfl⟩ := hnone hzero
      simp only [hzero, ne_eq, not_true_eq_false, false_or, if_false]
      by_cases hsmallzero : u.small.val = 0
      · rw [if_neg (by simpa using hsmallzero), if_neg (by simpa using hsmallzero)]
      · rw [if_pos hsmallzero, if_pos hsmallzero]
        omega
    · rw [if_pos (.inl hzero), if_pos hzero, hsome hzero]
  rw [hmark] at hq hds₂
  have hcount : ds₁.length - ds.length + (u.place ds.length - ds₁.length) =
      u.place ds.length - ds.length := by omega
  rw [hfill, List.append_assoc, ← List.replicate_add, ← hfill, hcount] at hds₂
  have hend : (ds ++ List.replicate (u.place ds.length - ds.length) 0).length =
      u.place ds.length := by
    rw [List.length_append, List.length_replicate]
    omega
  have hplace₂ := hds₂.place
  have hlow₂ := hds₂.lketa
  have hlt : u.place ds.length < numketalength := by
    simp only [numketalength]
    omega
  refine ⟨⟨by omega, hlt⟩, ?_⟩
  rw [← hlast]
  exact .next (hds₂.put (by rw [hend]; exact hlt) (by omega)) hlow₂ hplace₂

/-- The whole loop. -/
theorem Holds.foldlM {us : List Keta} (h : s.Holds ds)
    (hs' : (us.map Keta.byte).foldlM NumState.turn s = some s') :
    Keta.Placed ds.length us ∧ s'.Holds (Keta.assemble ds us) := by
  induction us generalizing s ds with
  | nil =>
      cases hs'
      exact ⟨trivial, h⟩
  | cons u us ih =>
      rw [List.map_cons, List.foldlM_cons] at hs'
      obtain ⟨s₁, hturn, hrest⟩ := Option.bind_eq_some_iff.mp hs'
      obtain ⟨hplace, hds₁⟩ := h.turn hturn
      have hnext := Keta.length_assemble_cons hplace.1
      obtain ⟨hplaced, hlast⟩ := ih hds₁ hrest
      exact ⟨⟨hplace, hnext ▸ hplaced⟩, hlast⟩

end NumState

/-- The digits that a call has packed. -/
theorem checkNum_packs {us : List Keta} {tmp : ℕ} {wd : List UInt16} {flag : UInt16}
    (h : checkNum (us.map Keta.byte) tmp = some (wd, flag)) :
    Keta.Placed 0 us.reverse ∧ Packs wd (Keta.assemble [] us.reverse) := by
  have hinit : NumState.Holds ⟨List.replicate numwordbuf 0, 0, 0, 0, false, 0, tmp⟩ [] := by
    refine ⟨⟨rfl, ?_⟩, by simp, rfl⟩
    intro p
    have hzero : (List.replicate numwordbuf (0 : UInt16)).getD (p / 4) 0 = 0 := by
      rw [List.getD_eq_getElem?_getD, List.getElem?_replicate]
      split <;> rfl
    rw [nibbleAt, hzero]
    exact Nibble.zero_nibble _
  rw [checkNum, ← List.map_reverse] at h
  obtain ⟨s, hloop, hend⟩ := Option.bind_eq_some_iff.mp h
  obtain ⟨hplaced, hds⟩ := hinit.foldlM hloop
  split at hend
  · cases hend
  · cases hend
    exact ⟨hplaced, hds.packs⟩

end Sj3
