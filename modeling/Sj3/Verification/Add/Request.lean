import Sj3.Verification.Add.Codes
import Sj3.Verification.Add.Outcome

/-! # Requests

An accepted request is about a word if its kanji can be stored, as EUC text can. Registration
runs its loop for any accepted kanji unless the word is known already, its reading has too many,
or the dictionary cannot be written. -/

namespace Sj3

open FrontCoding

/-! ## The word of a request -/

/-- The code string of the kanji is one that can be stored: the walks find their way through it,
and none of its bytes is a terminator. -/
def Storable (env : Env) (yomi kanji : Bytes) : Prop :=
  IsUsrKnjStr (cvtknj env.below env.belowKana yomi kanji)

/-- EUC text can be stored. -/
theorem storable_eucBytes (env : Env) {yomi : Bytes} {s : List EucChar} {hinsi : UInt8}
    (h : addelArg yomi (eucBytes s) hinsi = 0) : Storable env yomi (eucBytes s) := by
  obtain ⟨ps, hps⟩ := (addelArg_accepted h).exists_text
  apply cvtknj_isUsrKnjStr hps
  rintro rfl
  exact absurd ((addelArg_eq_zero_iff _ _ _).mp h).2.2.1 (by decide)

/-- The request is accepted and is about the word. -/
structure IsWordOf (env : Env) (yomi kanji : Bytes) (hinsi : UInt8) (w : Word) : Prop where
  accepted : addelArg yomi kanji hinsi = 0
  yomi_eq : w.yomi = yomiCodes yomi
  kanji_eq : w.kanji = cvtknj env.below env.belowKana yomi kanji
  hinsi_eq : w.hinsi = hinsi

/-- The request is accepted, and to the loop it looks like the word, but for the codes of its
kanji. Only their number counts. -/
structure LooksLike (env : Env) (yomi kanji : Bytes) (hinsi : UInt8) (w : Word) : Prop where
  accepted : addelArg yomi kanji hinsi = 0
  yomi_eq : w.yomi = yomiCodes yomi
  length_eq : (cvtknj env.below env.belowKana yomi kanji).length = w.kanji.length
  hinsi_eq : w.hinsi = hinsi

variable {env : Env} {dictlist : List Dict} {d : Dict} {st : Option Stdy} {yomi kanji : Bytes}
  {hinsi : UInt8} {w : Word}

theorem IsWordOf.looksLike (h : IsWordOf env yomi kanji hinsi w) :
    LooksLike env yomi kanji hinsi w :=
  ⟨h.accepted, h.yomi_eq, by rw [h.kanji_eq], h.hinsi_eq⟩

theorem exists_word (env : Env) (h : addelArg yomi kanji hinsi = 0)
    (hstore : Storable env yomi kanji) : ∃ w, IsWordOf env yomi kanji hinsi w := by
  have hy := addelArg_accepted h
  obtain ⟨-, -, hk, hg⟩ := (addelArg_eq_zero_iff _ _ _).mp h
  obtain ⟨ps, hps⟩ := hy.exists_text
  exact ⟨⟨yomiCodes yomi, cvtknj env.below env.belowKana yomi kanji, hinsi, hy.isYomi, hstore,
    isgrm_ne_term hg, length_cvtknj_le hps _ _ hk⟩, h, rfl, rfl, rfl⟩

/-- Codes that can be stored, as many as one likes. -/
theorem isUsrKnjStr_replicate {n : ℕ} (hn : n ≠ 0) :
    IsUsrKnjStr (List.replicate n zenHiraAssyuku) := by
  have hcodes : ∀ m, IsCodes (List.replicate m zenHiraAssyuku) := by
    intro m
    induction m with
    | zero => exact .nil
    | succ m ih => exact .short (by decide) (by decide) ih
  have hmem : ∀ c : UInt8, c ≠ zenHiraAssyuku → c ∉ List.replicate n zenHiraAssyuku :=
    fun c hc h => hc (List.eq_of_mem_replicate h)
  obtain ⟨m, rfl⟩ := Nat.exists_eq_succ_of_ne_zero hn
  exact ⟨⟨hcodes _, by simp, show zenHiraAssyuku ≠ hinsiBlkTerm by decide⟩,
    hmem _ (by decide), hmem _ (by decide)⟩

/-- Every accepted request looks like a word. -/
theorem exists_looksLike (env : Env) (h : addelArg yomi kanji hinsi = 0) :
    ∃ w, LooksLike env yomi kanji hinsi w := by
  have hy := addelArg_accepted h
  obtain ⟨-, -, hk, hg⟩ := (addelArg_eq_zero_iff _ _ _).mp h
  obtain ⟨ps, hps⟩ := hy.exists_text
  have hhead : kanji.headD 0 ≠ 0 := by
    intro h0
    rw [isvknj, if_pos h0] at hk
    cases hk
  have hne := cvtknj_ne_nil hps env.below env.belowKana hhead
  have hlen := length_cvtknj_le hps env.below env.belowKana hk
  exact ⟨⟨yomiCodes yomi, List.replicate _ zenHiraAssyuku, hinsi, hy.isYomi,
    isUsrKnjStr_replicate (mt List.length_eq_zero_iff.mp hne), isgrm_ne_term hg,
    by rwa [List.length_replicate]⟩, h, rfl, List.length_replicate.symm, rfl⟩

/-! ## The loop -/

/-- Registration runs its loop. -/
structure Runs (env : Env) (dictlist : List Dict) (d : Dict) (yomi kanji : Bytes)
    (hinsi : UInt8) : Prop where
  accepted : addelArg yomi kanji hinsi = 0
  new : checkdict env dictlist yomi (yomiCodes yomi) kanji hinsi = 0
  writable : d.maxunit ≠ 0

/-- Otherwise it changes nothing. -/
theorem adddic_of_not_runs (st : Option Stdy) (h : ¬ Runs env dictlist d yomi kanji hinsi) :
    ∃ ret, ret ≠ adDone ∧ adddic env dictlist d st yomi kanji hinsi = ⟨some ret, d, st⟩ := by
  rw [adddic]
  by_cases harg : addelArg yomi kanji hinsi ≠ 0
  · exact ⟨_, harg, if_pos harg⟩
  rw [if_neg harg]
  rw [ne_eq, not_not] at harg
  by_cases hnew : checkdict env dictlist yomi (yomiCodes yomi) kanji hinsi ≠ 0
  · exact ⟨_, hnew, if_pos hnew⟩
  rw [ne_eq, not_not] at hnew
  by_cases hmax : d.maxunit = 0
  · refine ⟨adNotUserDict, by decide, ?_⟩
    simp only [hnew, ne_eq, not_true_eq_false, if_false, if_pos hmax]
  · exact absurd ⟨harg, hnew, hmax⟩ h

/-- The length checks of `adddic` never fail. -/
theorem Runs.adddic_eq (h : Runs env dictlist d yomi kanji hinsi)
    (hw : LooksLike env yomi kanji hinsi w) (hlen : minSegLen ≤ d.seglen) :
    adddic env dictlist d st yomi kanji hinsi =
      addRun env w (cvtknj env.below env.belowKana yomi kanji) (addFuel d) d st
        (d.srchidx w.yomi dicSegBase w.yomi.length) := by
  have hy := w.isYomi.length_le
  have hk := w.length_le
  have hlen : 512 ≤ d.seglen := hlen
  rw [← hw.length_eq] at hk
  simp only [maxWdYomiLen, maxWdKanjiLen] at hy hk
  obtain ⟨kptr, hkptr⟩ : ∃ kptr, kptr = cvtknj env.below env.belowKana yomi kanji := ⟨_, rfl⟩
  rw [← hkptr] at hk ⊢
  have hsize : douonBlkSizeNumber + w.yomi.length +
      (if ¬ kptr.length = 0 then kptr.length + 1 else 0) + 2 ≤ 101 := by
    simp only [douonBlkSizeNumber]
    split <;> omega
  rw [adddic, if_neg (not_not.mpr h.accepted)]
  simp only [h.new, ne_eq, not_true_eq_false, if_false, if_neg h.writable]
  rw [← hw.yomi_eq, ← hkptr, ← hw.hinsi_eq]
  rw [if_neg (by simp only [maxDouonBlk]; omega), if_neg (by omega), addRun]
  cases addLoop env w.yomi kptr w.hinsi (addFuel d) d st
    (d.srchidx w.yomi dicSegBase w.yomi.length) <;> rfl

end Sj3
