import Sj3.Model.Fuzoku

/-! # Particles at a place

The particles that the table has for a place of the reading, and the search for them as a run
over this list. -/

namespace Sj3

/-! ## The loop -/

theorem nkrcmp_match (nkrlen : ℕ) (yptr p : Bytes) (saml : ℕ)
    (h : (nkrcmp nkrlen yptr p saml).1 = .match) :
    (nkrcmp nkrlen yptr p saml).2 = saml + nkrlen := by
  induction nkrlen generalizing yptr p saml with
  | zero => rfl
  | succ nkrlen ih =>
      simp only [nkrcmp] at h ⊢
      split_ifs at h ⊢ with hgt hlt hend
      rw [ih yptr.tail p.tail (saml + 1) h]
      omega

/-- What an entry matches is what it shares with the one before it and what it adds. -/
theorem fzkstrcmp_match {yptr fzkp : Bytes} {saml : ℕ}
    (h : (fzkstrcmp yptr fzkp saml).1 = .match) :
    (fzkstrcmp yptr fzkp saml).2 = fzkAskLen fzkp + fzkNkrLen fzkp := by
  simp only [fzkstrcmp, askcmp] at h ⊢
  split_ifs at h ⊢ with hless hmore
  rw [nkrcmp_match _ _ _ _ h]
  omega

section Loop

variable {σ τ : Type} {R : σ → τ → Prop} {use : Bytes → ℕ → σ → σ} {use' : Bytes → ℕ → τ → τ}

/-- Two uses of the matching particles that are related for each of them stay related. -/
theorem fzkLoop_rel (yptr : Bytes)
    (huse : ∀ fzk st st', R st st' →
      R (use fzk (fzkAskLen fzk + fzkNkrLen fzk) st)
        (use' fzk (fzkAskLen fzk + fzkNkrLen fzk) st'))
    (n : ℕ) (fzk : Bytes) (len : ℕ) {st : σ} {st' : τ} (h : R st st') :
    R (fzkLoop yptr use n fzk len st) (fzkLoop yptr use' n fzk len st') := by
  induction n generalizing fzk len st st' with
  | zero => exact h
  | succ n ih =>
      simp only [fzkLoop]
      by_cases hend : fzk.headD fzkEnd = fzkEnd
      · rw [if_pos hend, if_pos hend]
        exact h
      rw [if_neg hend, if_neg hend]
      cases hcmp : (fzkstrcmp yptr fzk len).1 with
      | «over» => exact h
      | partly => exact h
      | under => exact ih _ _ h
      | cont => exact ih _ _ h
      | «match» =>
          rw [fzkstrcmp_match hcmp]
          by_cases hdpnd : isdpnd (yptr.getD (fzkAskLen fzk + fzkNkrLen fzk) 0) = true
          · simp only [hdpnd, if_true]
            exact ih _ _ h
          · simp only [hdpnd, Bool.false_eq_true, if_false]
            exact ih _ _ (huse _ _ _ h)

theorem fzkScan_rel (g : Grammar) (y : Bytes) (yptr : ℕ)
    (huse : ∀ fzk st st', R st st' →
      R (use fzk (fzkAskLen fzk + fzkNkrLen fzk) st)
        (use' fzk (fzkAskLen fzk + fzkNkrLen fzk) st'))
    {st : σ} {st' : τ} (h : R st st') :
    R (fzkScan g y yptr use st) (fzkScan g y yptr use' st') := by
  unfold fzkScan
  split
  · exact h
  · exact fzkLoop_rel _ huse _ _ _ h

end Loop

/-! ## The particles -/

/-- The particles at `yptr`, in the order of the table. -/
def fzkMatches (g : Grammar) (y : Bytes) (yptr : ℕ) : List Bytes :=
  fzkScan g y yptr (fun fzk _ found => found ++ [fzk]) []

/-- The place behind the particle `fzk` that was found at `yptr`. -/
def fzkNext (yptr : ℕ) (fzk : Bytes) : ℕ := yptr + 1 + (fzkAskLen fzk + fzkNkrLen fzk)

theorem lt_fzkNext (yptr : ℕ) (fzk : Bytes) : yptr < fzkNext yptr fzk := by
  unfold fzkNext
  omega

theorem fzkScan_eq_foldl {σ : Type} (g : Grammar) (y : Bytes) (yptr : ℕ)
    (use : ℕ → Bytes → σ → σ) (st : σ) :
    fzkScan g y yptr (fun fzk len => use (yptr + 1 + len) fzk) st =
      (fzkMatches g y yptr).foldl (fun st fzk => use (fzkNext yptr fzk) fzk st) st := by
  let behind (st : σ) (fzk : Bytes) : σ := use (fzkNext yptr fzk) fzk st
  have hstep : ∀ fzk (found : List Bytes) (t : σ), t = found.foldl behind st →
      behind t fzk = (found ++ [fzk]).foldl behind st := by
    intro fzk found t h
    rw [List.foldl_append, ← h]
    rfl
  exact @fzkScan_rel (List Bytes) σ (fun found t => t = found.foldl behind st) _ _ g y yptr
    hstep [] st rfl

end Sj3
