import Mathlib.Data.Bool.AllAny
import Sj3.Model.HanZen
import Sj3.General.Byte

/-! # There and back between the widths

A voiced character becomes its base and a mark; the way back joins a mark with the character in
front of it. -/

namespace Sj3

/-- Hiragana with a half-width form of their own. Small wa, wi and we are without one. -/
def HasHankaku (c : UInt16) : Prop :=
  (0xa4a1 ≤ c ∧ c ≤ 0xa4f3) ∧ c ≠ 0xa4ee ∧ c ≠ 0xa4f0 ∧ c ≠ 0xa4f1

instance (c : UInt16) : Decidable (HasHankaku c) := inferInstanceAs (Decidable (_ ∧ _))

theorem forall_hiragana {p : UInt16 → Prop} (h : ∀ i : Fin 83, p (UInt16.ofNat (0xa4a1 + i)))
    {c : UInt16} (hc : 0xa4a1 ≤ c ∧ c ≤ 0xa4f3) : p c := by
  have hlow : 0xa4a1 ≤ c.toNat := UInt16.le_iff_toNat_le.mp hc.1
  have hhigh : c.toNat ≤ 0xa4f3 := UInt16.le_iff_toNat_le.mp hc.2
  have := h ⟨c.toNat - 0xa4a1, by omega⟩
  rwa [Nat.add_sub_cancel' hlow, UInt16.ofNat_toNat] at this

/-! ## Lengths -/

theorem zentohanLoop_length (len : ℕ) (s2 : List UInt16) (rlen : ℤ) :
    (zentohanLoop len s2 rlen).2 = rlen + (zentohanLoop len s2 rlen).1.length := by
  induction len generalizing s2 rlen with
  | zero => simp [zentohanLoop]
  | succ len ih =>
      cases s2 with
      | nil => simp [zentohanLoop]
      | cons c s2 =>
          rw [zentohanLoop]
          by_cases hc : c = 0
          · simp [hc]
          · simp only [if_neg hc, List.length_append, Nat.cast_add]
            rw [ih]
            omega

theorem sjZentohan_length (s2 : List UInt16) (len : ℕ) :
    (sjZentohan s2 len).2 = (sjZentohan s2 len).1.length := by
  rw [sjZentohan, zentohanLoop_length, zero_add]

/-- A character that waits for its mark has been written. -/
theorem hantozenLoop_length (len : ℕ) (s2 : List UInt16) (prefixc : UInt16) (rlen : ℤ)
    (s1 : List UInt16) (hlen : rlen = s1.length) (hs1 : prefixc ≠ 0 → s1 ≠ []) :
    (hantozenLoop len s2 prefixc rlen s1).2 =
      (hantozenLoop len s2 prefixc rlen s1).1.length := by
  induction len generalizing s2 prefixc rlen s1 with
  | zero => exact hlen
  | succ len ih =>
      cases s2 with
      | nil => exact hlen
      | cons c s2 =>
          rw [hantozenLoop]
          by_cases hc : c = 0
          · rw [if_pos hc]
            exact hlen
          · rw [if_neg hc]
            have hnext (q : UInt16) (u : UInt16) :
                (hantozenLoop len s2 q (rlen + 1) (s1 ++ [u])).2 =
                  (hantozenLoop len s2 q (rlen + 1) (s1 ++ [u])).1.length :=
              ih _ _ _ _ (by simp [hlen]) (by simp)
            simp only
            split_ifs with hfull hmark
            · have hpos : 0 < s1.length := List.length_pos_of_ne_nil (hs1 hmark.1)
              refine ih _ _ _ _ ?_ (by simp)
              rw [List.length_append, List.length_dropLast, List.length_singleton, hlen]
              omega
            · exact hnext _ _
            · exact hnext _ _

theorem sjHantozen_length (s2 : List UInt16) (len : ℕ) :
    (sjHantozen s2 len).2 = (sjHantozen s2 len).1.length :=
  hantozenLoop_length len s2 0 0 [] rfl (by simp)

/-! ## One character -/

/-- A full-width character that is no mark. -/
def Based (z : UInt16) : Prop := rkzen z ∧ z ≠ 0 ∧ z ≠ zenDten ∧ z ≠ zenHdten

instance (z : UInt16) : Decidable (Based z) := inferInstanceAs (Decidable (_ ∧ _))

/-- A half-width form of a character. -/
def HankakuOf (z : UInt16) : List UInt16 → Prop
  | [c] => c ≠ 0 ∧ sjHan2zen c = z
  | [c, m] =>
      (c ≠ 0 ∧ m ≠ 0) ∧ Based (sjHan2zen c) ∧ rkzen (sjHan2zen m) ∧
        sjAddten (sjHan2zen c) (sjHan2zen m) = z
  | _ => False

instance (z : UInt16) : ∀ cs, Decidable (HankakuOf z cs)
  | [] => isFalse id
  | [_] => inferInstanceAs (Decidable (_ ∧ _))
  | [_, _] => inferInstanceAs (Decidable (_ ∧ _))
  | _ :: _ :: _ :: _ => isFalse id

theorem hankakuOf_zentohanChar {z : UInt16} (hz : HasHankaku z) :
    HankakuOf z (zentohanChar z) := by
  have hall : ∀ i : Fin 83, HasHankaku (UInt16.ofNat (0xa4a1 + i)) →
      HankakuOf (UInt16.ofNat (0xa4a1 + i)) (zentohanChar (UInt16.ofNat (0xa4a1 + i))) := by
    decide +kernel
  exact @forall_hiragana (fun z => HasHankaku z → HankakuOf z (zentohanChar z)) hall z hz.1 hz

theorem based_hiragana {z : UInt16} (hz : HasHankaku z) : Based z := by
  have hall : ∀ i : Fin 83, Based (UInt16.ofNat (0xa4a1 + i)) := by decide +kernel
  exact forall_hiragana hall hz.1

theorem sjAddten_of_based {z : UInt16} (hz : Based z) (prefixc : UInt16) :
    sjAddten prefixc z = 0 := by
  simp [sjAddten, hz.2.2.1, hz.2.2.2]

/-- A character that is no mark waits for one. -/
theorem hantozenLoop_based {c : UInt16} (hc : c ≠ 0) (hz : Based (sjHan2zen c)) (len : ℕ)
    (s2 : List UInt16) (prefixc : UInt16) (rlen : ℤ) (s1 : List UInt16) :
    hantozenLoop (len + 1) (c :: s2) prefixc rlen s1 =
      hantozenLoop len s2 (sjHan2zen c) (rlen + 1) (s1 ++ [sjHan2zen c]) := by
  rw [hantozenLoop, if_neg hc]
  simp only [hz.1, if_true, sjAddten_of_based hz, ne_eq, not_true_eq_false, and_false, if_false]

/-- A mark is joined with the character that waits. -/
theorem hantozenLoop_mark {m prefixc : UInt16} (hm : m ≠ 0) (hzen : rkzen (sjHan2zen m))
    (hp : prefixc ≠ 0) (hadd : sjAddten prefixc (sjHan2zen m) ≠ 0) (len : ℕ) (s2 : List UInt16)
    (rlen : ℤ) (s1 : List UInt16) :
    hantozenLoop (len + 1) (m :: s2) prefixc (rlen + 1) (s1 ++ [prefixc]) =
      hantozenLoop len s2 0 (rlen + 1) (s1 ++ [sjAddten prefixc (sjHan2zen m)]) := by
  rw [hantozenLoop, if_neg hm]
  simp only [hzen, if_true, if_pos (And.intro hp hadd), List.dropLast_concat]
  rw [Int.add_sub_cancel]

/-- The half-width form of a character is read as that character, whatever is in front of it. -/
theorem hantozenLoop_hankaku {z : UInt16} (hz : Based z) {cs : List UInt16}
    (hcs : HankakuOf z cs) (len : ℕ) (s2 : List UInt16) (prefixc : UInt16) (rlen : ℤ)
    (s1 : List UInt16) :
    ∃ q, hantozenLoop (cs.length + len) (cs ++ s2) prefixc rlen s1 =
      hantozenLoop len s2 q (rlen + 1) (s1 ++ [z]) := by
  match cs, hcs with
  | [c], ⟨hc, hhan⟩ =>
      subst hhan
      refine ⟨sjHan2zen c, ?_⟩
      rw [List.length_singleton, Nat.add_comm]
      exact hantozenLoop_based hc hz len s2 prefixc rlen s1
  | [c, m], ⟨⟨hc, hm⟩, hbase, hmark, hadd⟩ =>
      refine ⟨0, ?_⟩
      have hne : sjAddten (sjHan2zen c) (sjHan2zen m) ≠ 0 := hadd ▸ hz.2.1
      calc hantozenLoop (2 + len) (c :: m :: s2) prefixc rlen s1
          = hantozenLoop (len + 1) (m :: s2) (sjHan2zen c) (rlen + 1) (s1 ++ [sjHan2zen c]) := by
            rw [Nat.add_comm]
            exact hantozenLoop_based hc hbase (len + 1) (m :: s2) prefixc rlen s1
        _ = hantozenLoop len s2 0 (rlen + 1) (s1 ++ [z]) := by
            rw [hantozenLoop_mark hm hmark hbase.2.1 hne, hadd]

/-! ## Strings -/

/-- Up to the terminator every character is converted on its own. -/
theorem zentohanLoop_eq {s : List UInt16} (hs : ∀ c ∈ s, c ≠ 0) {len : ℕ} (hlen : s.length ≤ len)
    (rest : List UInt16) (rlen : ℤ) :
    (zentohanLoop len (s ++ 0 :: rest) rlen).1 = s.flatMap zentohanChar := by
  induction s generalizing len rlen with
  | nil =>
      cases len with
      | zero => rfl
      | succ len => simp [zentohanLoop]
  | cons c s ih =>
      cases len with
      | zero => simp at hlen
      | succ len =>
          have hc : c ≠ 0 := hs c List.mem_cons_self
          rw [List.cons_append, zentohanLoop, if_neg hc, List.flatMap_cons]
          simp only
          rw [ih (fun u hu => hs u (List.mem_cons_of_mem c hu)) (Nat.le_of_succ_le_succ hlen)]

theorem sjZentohan_eq {s : List UInt16} (hs : ∀ c ∈ s, c ≠ 0) {len : ℕ} (hlen : s.length ≤ len)
    (rest : List UInt16) : (sjZentohan (s ++ 0 :: rest) len).1 = s.flatMap zentohanChar :=
  zentohanLoop_eq hs hlen rest 0

theorem hantozenLoop_flatMap {s : List UInt16} (hs : ∀ c ∈ s, HasHankaku c) {len : ℕ}
    (hlen : (s.flatMap zentohanChar).length ≤ len) (rest : List UInt16) (prefixc : UInt16)
    (rlen : ℤ) (s1 : List UInt16) :
    (hantozenLoop len (s.flatMap zentohanChar ++ 0 :: rest) prefixc rlen s1).1 = s1 ++ s := by
  induction s generalizing len prefixc rlen s1 with
  | nil =>
      cases len with
      | zero => simp [hantozenLoop]
      | succ len => simp [hantozenLoop]
  | cons z s ih =>
      rw [List.flatMap_cons, List.length_append] at hlen
      have hz := hs z List.mem_cons_self
      obtain ⟨q, hq⟩ := hantozenLoop_hankaku (based_hiragana hz) (hankakuOf_zentohanChar hz)
        (len - (zentohanChar z).length) (s.flatMap zentohanChar ++ 0 :: rest) prefixc rlen s1
      rw [List.flatMap_cons, List.append_assoc,
        ← Nat.add_sub_cancel' (show (zentohanChar z).length ≤ len by omega), hq,
        ih (fun c hc => hs c (List.mem_cons_of_mem z hc)) (by omega), List.append_assoc,
        List.singleton_append]

/-- Hiragana come back from the half-width form, and both functions return the length of what
they write. -/
theorem sjHantozen_sjZentohan {s : List UInt16} (hs : ∀ c ∈ s, HasHankaku c) {len len' : ℕ}
    (hlen : s.length ≤ len) (rest rest' : List UInt16)
    (hlen' : (sjZentohan (s ++ 0 :: rest) len).1.length ≤ len') :
    let han := sjZentohan (s ++ 0 :: rest) len
    let zen := sjHantozen (han.1 ++ 0 :: rest') len'
    zen.1 = s ∧ han.2 = han.1.length ∧ zen.2 = zen.1.length := by
  have hne : ∀ c ∈ s, c ≠ 0 := fun c hc => (based_hiragana (hs c hc)).2.1
  refine ⟨?_, sjZentohan_length _ _, sjHantozen_length _ _⟩
  rw [sjZentohan_eq hne hlen rest] at hlen' ⊢
  exact hantozenLoop_flatMap hs hlen' rest' 0 0 []

/-- ga, ka, pa and a small tsu. -/
theorem sjHantozen_sjZentohan_gakapa :
    let s : List UInt16 := [0xa4ac, 0xa4ab, 0xa4d1, 0xa4c3]
    let han := sjZentohan (s ++ [0]) 4
    let zen := sjHantozen (han.1 ++ [0]) 6
    zen.1 = s ∧ han.2 = han.1.length ∧ zen.2 = zen.1.length :=
  sjHantozen_sjZentohan (List.all_iff_forall_prop.mp (by decide)) (by decide) [] [] (by decide)

end Sj3
