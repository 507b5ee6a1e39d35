import Sj3.General.Byte
import Sj3.General.FirstMatch
import Sj3.Model.RkConv

/-! # Matching keys -/

namespace Sj3

/-- A pending character as keys are spelled. No key has the NUL that stands for a wide
one. -/
def foldChar (c : UInt16) : UInt16 := if c > 0xff then 0 else wtoupper c

def fold (s : Wstr) : Wstr := s.map foldChar

/-! ## Characters -/

theorem and_ff_eq {c : UInt16} (h : ¬ c > 0xff) : c &&& 0xff = c := by
  have hle : c.toNat ≤ 255 := by
    rw [gt_iff_lt, UInt16.lt_iff_toNat_lt, not_lt] at h
    exact h
  rw [← UInt16.toNat_inj, UInt16.toNat_and]
  exact Nat.and_two_pow_sub_one_eq_mod c.toNat 8 |>.trans (Nat.mod_eq_of_lt (by omega))

theorem toNat_wtoupper {c : UInt16} (h : ¬ c > 0xff) :
    (wtoupper c).toNat = c.toNat ∨ (0x61 ≤ c.toNat ∧ (wtoupper c).toNat + 0x20 = c.toNat) := by
  rw [wtoupper, and_ff_eq h]
  split
  · rename_i hlower
    have hle : 0x61 ≤ c.toNat := UInt16.le_iff_toNat_le.mp hlower.1
    refine Or.inr ⟨hle, ?_⟩
    rw [UInt16.toNat_sub_of_le]
    · have h20 : (0x20 : UInt16).toNat = 0x20 := rfl
      omega
    · exact UInt16.le_iff_toNat_le.mpr (by
        have h20 : (0x20 : UInt16).toNat = 0x20 := rfl
        omega)
  · exact Or.inl rfl

theorem wtoupper_ne_zero {c : UInt16} (h : ¬ c > 0xff) (hc : c ≠ 0) : wtoupper c ≠ 0 := by
  intro h0
  have hnat := congrArg UInt16.toNat h0
  have hpos : c.toNat ≠ 0 := fun h' => hc (UInt16.toNat_inj.mp h')
  have hcases := toNat_wtoupper h
  rw [show (0 : UInt16).toNat = 0 from rfl] at hnat
  omega

theorem wtoupper_le {c : UInt16} (h : ¬ c > 0xff) : (wtoupper c).toNat ≤ 0xff := by
  have hle : c.toNat ≤ 255 := by
    rw [gt_iff_lt, UInt16.lt_iff_toNat_lt, not_lt] at h
    exact h
  have hcases := toNat_wtoupper h
  omega

/-- The list of a narrow first character is the one of the keys that start with it. -/
theorem toUInt16_toUInt8_wtoupper {c : UInt16} (h : ¬ c > 0xff) :
    (wtoupper c).toUInt8.toUInt16 = wtoupper c := by
  have hle := wtoupper_le h
  rw [← UInt16.toNat_inj, UInt8.toNat_toUInt16, UInt16.toNat_toUInt8]
  exact Nat.mod_eq_of_lt (by omega)

@[simp] theorem length_fold (s : Wstr) : (fold s).length = s.length := List.length_map _

theorem headD_ne_zero_iff {s : Wstr} (hs : 0 ∉ s) : s.headD 0 ≠ 0 ↔ s ≠ [] := by
  cases s with
  | nil => simp
  | cons c s =>
      rw [List.mem_cons, not_or] at hs
      simp [Ne.symm hs.1]

/-! ## Comparing keys -/

theorem wscmp_spec {a b : Wstr} (ha : 0 ∉ a) (hb : 0 ∉ b) :
    (wscmp a b = 0 ↔ a = b) ∧ (wscmp a b > 0 ↔ b < a) := by
  induction a generalizing b with
  | nil =>
      cases b with
      | nil => simp [wscmp]
      | cons d b =>
          rw [List.mem_cons, not_or] at hb
          simp [wscmp, Ne.symm hb.1]
  | cons c a ih =>
      rw [List.mem_cons, not_or] at ha
      cases b with
      | nil => simp [wscmp, Ne.symm ha.1]
      | cons d b =>
          rw [List.mem_cons, not_or] at hb
          rw [wscmp, List.headD_cons, List.tail_cons]
          rcases lt_trichotomy c d with hlt | heq | hgt
          · rw [if_neg (fun h => hlt.ne h.2), if_neg (fun h => ha.1 h.1.symm), if_pos hlt]
            simp [hlt.ne, List.cons_lt_cons_iff, hlt.ne', hlt.asymm]
          · rw [if_pos ⟨Ne.symm ha.1, heq⟩, (ih ha.2 hb.2).1, (ih ha.2 hb.2).2, heq]
            simp
          · rw [if_neg (fun h => hgt.ne' h.2), if_neg (fun h => ha.1 h.1.symm),
              if_neg hgt.asymm]
            simp [hgt.ne', List.cons_lt_cons_iff, hgt]

/-! ## Matching -/

open PrefixFree

/-- There is no wide character right behind the characters of a key. -/
def NarrowBehind (s : Wstr) (n : ℕ) : Prop := ∀ c ∈ s[n]?, ¬ c > 0xff

theorem narrowBehind_cons {c : UInt16} {s : Wstr} {n : ℕ} :
    NarrowBehind (c :: s) (n + 1) ↔ NarrowBehind s n := by
  simp [NarrowBehind]

/-- What `rkmatch` says about a key that is `t` behind its first character. -/
inductive Matches (s t : Wstr) (i : ℤ) : ℤ → Prop where
  | cont (h : fold s <+: t) (hne : fold s ≠ t) : Matches s t i rkContinue
  | whole (h : t <+: fold s) : Matches s t i (i + t.length)
  | nomach (h : ¬ Related t (fold s)) : Matches s t i rkNomach

theorem rkmatchLoop_spec {s t : Wstr} (hs : 0 ∉ s) (ht : 0 ∉ t)
    (hwide : t <+: fold s → NarrowBehind s t.length) (i : ℤ) :
    Matches s t i (rkmatchLoop s.length s t i) := by
  induction s generalizing t i with
  | nil =>
      rw [List.length_nil, rkmatchLoop]
      split
      · rename_i hne
        exact .cont List.nil_prefix (Ne.symm ((headD_ne_zero_iff ht).mp hne))
      · rename_i heq
        have hnil : t = [] := by
          by_contra hne
          exact heq ((headD_ne_zero_iff ht).mpr hne)
        subst hnil
        simpa using Matches.whole (s := []) (t := []) (i := i) List.nil_prefix
  | cons c s ih =>
      rw [List.mem_cons, not_or] at hs
      rw [List.length_cons, rkmatchLoop, List.headD_cons, List.tail_cons]
      cases t with
      | nil =>
          have hnarrow : ¬ c > 0xff := hwide List.nil_prefix c (by simp)
          have hne : wtoupper c ≠ ([] : Wstr).headD 0 :=
            wtoupper_ne_zero hnarrow (Ne.symm hs.1)
          rw [if_neg hnarrow, if_pos hne, if_neg (by simp)]
          simpa using Matches.whole (s := c :: s) (t := []) (i := i) List.nil_prefix
      | cons d t =>
          rw [List.mem_cons, not_or] at ht
          have hfold : fold (c :: s) = foldChar c :: fold s := rfl
          by_cases hc : c > 0xff
          · rw [if_pos hc]
            refine .nomach ?_
            rw [hfold, foldChar, if_pos hc]
            rintro (h | h)
            · exact ht.1 (List.cons_prefix_cons.mp h).1.symm
            · exact ht.1 (List.cons_prefix_cons.mp h).1
          · have hchar : foldChar c = wtoupper c := if_neg hc
            rw [if_neg hc, List.headD_cons, List.tail_cons]
            by_cases hd : wtoupper c = d
            · rw [if_neg (not_not.mpr hd)]
              have hrec := ih hs.2 ht.2 (fun h => narrowBehind_cons.mp
                (hwide (by rw [hfold, hchar, hd]; exact List.cons_prefix_cons.mpr ⟨rfl, h⟩)))
                (i + 1)
              generalize rkmatchLoop s.length s t (i + 1) = r at hrec
              cases hrec with
              | cont h hne =>
                  refine .cont ?_ ?_
                  · rw [hfold, hchar, hd]
                    exact List.cons_prefix_cons.mpr ⟨rfl, h⟩
                  · rw [hfold]
                    exact fun heq => hne (List.cons.inj heq).2
              | whole h =>
                  have hlen : i + 1 + (t.length : ℤ) = i + ((d :: t).length : ℤ) := by
                    rw [List.length_cons]
                    omega
                  rw [hlen]
                  refine .whole ?_
                  rw [hfold, hchar, hd]
                  exact List.cons_prefix_cons.mpr ⟨rfl, h⟩
              | nomach h =>
                  refine .nomach ?_
                  rw [hfold, hchar, hd, related_cons]
                  exact h
            · rw [if_pos hd, if_pos (Ne.symm ht.1)]
              refine .nomach ?_
              rw [hfold, hchar]
              rintro (h | h)
              · exact hd (List.cons_prefix_cons.mp h).1.symm
              · exact hd (List.cons_prefix_cons.mp h).1

/-! ## Searching -/

/-- A search stops at the first entry that does not fail to match. -/
theorem rkSearch_eq_some {s : Wstr} {l : List RkTabl} {rlen : ℤ} {r : RkTabl}
    {rest : List RkTabl} (h : rkSearch s l = some (rlen, r, rest)) :
    ∃ pre, l = pre ++ r :: rest ∧
      (∀ r' ∈ pre, rkmatch s.tail r'.r_key (s.length - 1) = rkNomach) ∧
      rkmatch s.tail r.r_key (s.length - 1) = rlen ∧ rlen ≠ rkNomach := by
  induction l with
  | nil => exact absurd h (by simp [rkSearch])
  | cons r' l ih =>
      rw [rkSearch] at h
      split at h
      · rename_i hno
        obtain ⟨pre, hl, hpre, hr⟩ := ih h
        refine ⟨r' :: pre, by rw [hl]; rfl, fun r'' hr'' => ?_, hr⟩
        rcases List.mem_cons.mp hr'' with rfl | hmem
        · exact hno
        · exact hpre r'' hmem
      · rename_i hyes
        have heq : rkmatch s.tail r'.r_key (s.length - 1) = rlen ∧ r' = r ∧ l = rest := by
          simpa using h
        obtain ⟨hrlen, rfl, rfl⟩ := heq
        exact ⟨[], rfl, by simp, hrlen, hrlen ▸ hyes⟩

end Sj3
