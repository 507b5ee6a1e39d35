import Sj3.Model.Adddic
import Sj3.Verification.Study.Index

/-! # What registration does to the clause-study area -/

namespace Sj3

open Recency

/-! ## Finding the record a reading starts with -/

theorem clFind_clArea (y : Bytes) (free : ℕ) {recs : List ClRec} {n : ℕ} (h : ∀ r ∈ recs, r.Fits)
    (hn : recs.length ≤ n) :
    Stdy.clFind y n (clArea recs free) = none ∨
      ∃ l r rs, recs = l ++ r :: rs ∧
        Stdy.clFind y n (clArea recs free) = some (clArea (r :: rs) free) := by
  induction recs generalizing n with
  | nil =>
      cases n with
      | zero => exact .inl rfl
      | succ n => exact .inl (if_pos (iseocl_zeros free))
  | cons r recs ih =>
      have hr := h r List.mem_cons_self
      obtain ⟨n, rfl⟩ := Nat.exists_eq_add_of_lt (Nat.lt_of_lt_of_le (Nat.succ_pos _) hn)
      rw [Nat.zero_add] at hn ⊢
      have hrest : Stdy.clFind y n (clArea recs free) = none ∨ ∃ l t rs, r :: recs = l ++ t :: rs ∧
          Stdy.clFind y n (clArea recs free) = some (clArea (t :: rs) free) := by
        refine (ih (fun t ht => h t (List.mem_cons_of_mem _ ht)) (by simpa using hn)).imp id ?_
        rintro ⟨l, t, rs, rfl, heq⟩
        exact ⟨r :: l, t, rs, rfl, heq⟩
      rw [Stdy.clFind, clArea_cons, if_neg (by simp [iseocl_bytes hr]), clNextTag_bytes hr]
      split
      · exact .inr ⟨[], r, recs, rfl, by rw [clArea_cons]⟩
      · exact .inl rfl
      · exact hrest

namespace ClStudied

variable {s : Stdy} {recs : List ClRec}

/-- The part of the study data this is about. -/
theorem congr {t : Stdy} (h : ClStudied s recs) (hstep : t.clstdystep = s.clstdystep)
    (hidx : t.clstdyidx = s.clstdyidx) (hdic : t.clstdydic = s.clstdydic) : ClStudied t recs where
  toClOrdered := h.toClOrdered
  area_eq := hdic ▸ h.area_eq
  length_le := hdic ▸ h.length_le
  step_pos := hstep ▸ h.step_pos
  length_idx := hidx ▸ h.length_idx
  indexed := by
    rw [hstep, hidx]
    exact h.indexed

theorem forgetClause (h : ClStudied s recs) (y : Bytes) :
    ClKept s (s.forgetClause y) := by
  obtain ⟨free, hfree, harea⟩ := h.area_eq
  have hcount := h.count_lt
  have hfits := h.fits hcount
  have hn : recs.length ≤ s.clstdydic.length := by
    have := length_le_length_clBytes recs
    rw [harea, length_clArea]
    omega
  rcases clFind_clArea y free hfits hn with hnone | ⟨l, r, rs, rfl, hsome⟩
  · have hkeep : s.forgetClause y = s := by
      rw [← harea] at hnone
      rw [Stdy.forgetClause, hnone]
    rw [hkeep]
    exact ⟨recs, h, rfl⟩
  · have hdel : s.forgetClause y =
        { s with
          clstdydic := clArea ((l ++ rs).map (ClRec.setNum (closeUp r.num)))
            (free + r.bytes.length) }.mkclidx := by
      rw [← delclsub_clArea free hfits, ← harea]
      rw [← harea] at hsome
      rw [Stdy.forgetClause, hsome]
    have hlen : (clArea ((l ++ rs).map (ClRec.setNum (closeUp r.num)))
        (free + r.bytes.length)).length = s.clstdydic.length := by
      rw [harea, length_clArea, length_clBytes_map, length_clArea]
      simp only [clBytes_append, clBytes_cons, List.length_append]
      omega
    rw [hdel]
    exact h.kept_refresh h.toClOrdered.remove (by omega) hlen

end ClStudied

/-! ## Registration -/

/-- The study data differ in the study table only. -/
def SameClauses (s t : Stdy) : Prop :=
  t.clstdystep = s.clstdystep ∧ t.clstdyidx = s.clstdyidx ∧ t.clstdydic = s.clstdydic

theorem SameClauses.refl (s : Stdy) : SameClauses s s := ⟨rfl, rfl, rfl⟩

theorem SameClauses.trans {s t u : Stdy} (h : SameClauses s t) (h' : SameClauses t u) :
    SameClauses s u :=
  ⟨h'.1.trans h.1, h'.2.1.trans h.2.1, h'.2.2.trans h.2.2⟩

theorem sameClauses_study (s : Stdy) (outp : StdyOut) : SameClauses s (s.study outp).1 := by
  unfold Stdy.study
  split
  · exact SameClauses.refl s
  · split
    · exact ⟨rfl, rfl, rfl⟩
    · split
      · split <;> exact ⟨rfl, rfl, rfl⟩
      · exact ⟨rfl, rfl, rfl⟩

namespace AddEnd

def dict : AddEnd → Dict
  | fail _ d _ => d
  | fit d _ _ _ _ _ _ => d
  | stuck d _ => d

def stdy : AddEnd → Option Stdy
  | fail _ _ s => s
  | fit _ s _ _ _ _ _ => s
  | stuck _ s => s

/-- The dictionary and the study data have the property `I` at the end. -/
def Keeps (I : Dict → Option Stdy → Prop) (e : AddEnd) : Prop := I e.dict e.stdy

theorem Keeps.ite {I : Dict → Option Stdy → Prop} {c : Prop} [Decidable c] {e e' : AddEnd}
    (h : e.Keeps I) (h' : e'.Keeps I) : (if c then e else e').Keeps I := by
  split
  · exact h
  · exact h'

end AddEnd

/-- What splitting and adding segments keep, the loop of `adddic` keeps. -/
theorem addLoop_keeps {I : Dict → Option Stdy → Prop} (env : Env) (yptr kptr : Bytes)
    (hinsi : UInt8)
    (hsplit : ∀ d s seg ofs, I d s → I (sprtSeg d s seg ofs).1 (sprtSeg d s seg ofs).2)
    (happend : ∀ d s, I d s → I (appendSeg d) s) (n : ℕ) {d : Dict} {s : Option Stdy}
    (segnum : ℕ) (h : I d s) : (addLoop env yptr kptr hinsi n d s segnum).Keeps I := by
  induction n generalizing d s segnum with
  | zero => exact h
  | succ n ih =>
      rw [addLoop]
      cases addPlace env.prevIdx yptr kptr hinsi (d.getdic segnum) with
      | none => exact h
      | some pos =>
          -- the word fits, goes to the next segment, or finds no further segment
          refine .ite h (.ite (ih _ h) (.ite h ?_))
          refine .ite ?_ (.ite ?_ ?_)
          · exact .ite h (.ite h (hsplit _ _ _ _ h))
          · exact .ite h (.ite h (ih _ (happend _ _ h)))
          · exact .ite h (.ite h (ih _ (hsplit _ _ _ _ h)))

theorem studyWord_sameClauses (s : Stdy) (dicid segnum : ℕ) (yptr : Bytes) (pos : AddPos)
    (size : ℤ) :
    ∃ u, SameClauses s u ∧
      SameClauses (u.forgetClause yptr) (studyWord s dicid segnum yptr pos size) :=
  ⟨s.shiftOffsets dicid segnum pos.dstofs size, ⟨rfl, rfl, rfl⟩, sameClauses_study _ _⟩

/-- What registration may do to the clause-study area: nothing, or forget the record the
reading starts with. -/
def Registers (s : Stdy) (y : Bytes) (r : Result) : Prop :=
  ∃ t, r.stdy = some t ∧
    (SameClauses s t ∨ ∃ u, SameClauses s u ∧ SameClauses (u.forgetClause y) t)

theorem Registers.ite {s : Stdy} {y : Bytes} {c : Prop} [Decidable c] {r r' : Result}
    (h : Registers s y r) (h' : Registers s y r') : Registers s y (if c then r else r') := by
  split
  · exact h
  · exact h'

theorem adddic_registers (env : Env) (dictlist : List Dict) (d : Dict) (s : Stdy)
    (yomi kanji : Bytes) (hinsi : UInt8) :
    Registers s (yomiCodes yomi) (adddic env dictlist d (some s) yomi kanji hinsi) := by
  have hsame : ∀ ret d, Registers s (yomiCodes yomi) ⟨ret, d, some s⟩ :=
    fun _ _ => ⟨s, rfl, .inl (SameClauses.refl s)⟩
  have hloop := fun kptr segnum => addLoop_keeps
    (I := fun _ s' => ∃ t, s' = some t ∧ SameClauses s t) env (yomiCodes yomi) kptr hinsi
    (by
      rintro d _ seg ofs ⟨t, rfl, ht⟩
      exact ⟨_, rfl, ht.trans ⟨rfl, rfl, rfl⟩⟩)
    (fun _ _ h => h) (addFuel d) (d := d) segnum ⟨s, rfl, SameClauses.refl s⟩
  rw [adddic]
  refine .ite (hsame _ _) (.ite (hsame _ _) (.ite (hsame _ _)
    (.ite (hsame _ _) (.ite (hsame _ _) ?_))))
  specialize hloop (cvtknj env.below env.belowKana yomi kanji)
    (d.srchidx (yomiCodes yomi) dicSegBase (yomiCodes yomi).length)
  revert hloop
  cases addLoop env (yomiCodes yomi) (cvtknj env.below env.belowKana yomi kanji) hinsi (addFuel d)
      d (some s) (d.srchidx (yomiCodes yomi) dicSegBase (yomiCodes yomi).length) with
  | fail ret d s' =>
      rintro ⟨t, ht, hst⟩
      exact ⟨t, ht, .inl hst⟩
  | stuck d s' =>
      rintro ⟨t, ht, hst⟩
      exact ⟨t, ht, .inl hst⟩
  | fit d s' segnum pos newsiz oldsiz nxtask =>
      rintro ⟨t, ht, hst⟩
      obtain rfl : s' = some t := ht
      obtain ⟨u, hu, hstored⟩ := studyWord_sameClauses t _ segnum (yomiCodes yomi) pos _
      exact ⟨_, rfl, .inr ⟨u, hst.trans hu, hstored⟩⟩

theorem ClStudied.adddic {s : Stdy} {recs : List ClRec} (h : ClStudied s recs) (env : Env)
    (dictlist : List Dict) (d : Dict) (yomi kanji : Bytes) (hinsi : UInt8) :
    ∃ t, (adddic env dictlist d (some s) yomi kanji hinsi).stdy = some t ∧ ClKept s t := by
  obtain ⟨t, ht, hsame | ⟨u, hu, hsame⟩⟩ := adddic_registers env dictlist d s yomi kanji hinsi
  · exact ⟨t, ht, recs, h.congr hsame.1 hsame.2.1 hsame.2.2, by rw [hsame.2.2]⟩
  · obtain ⟨recs', h', hlen⟩ :=
      (h.congr hu.1 hu.2.1 hu.2.2).forgetClause (yomiCodes yomi)
    exact ⟨t, ht, recs', h'.congr hsame.1 hsame.2.1 hsame.2.2, by rw [hsame.2.2, hlen, hu.2.2]⟩

end Sj3
