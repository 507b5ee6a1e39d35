import Sj3.General.Byte
import Sj3.General.Recode
import Sj3.Model.SjString
import Sj3.Verification.Text

/-! # The turns of the conversions

Both conversions go through a text character by character; what they do in a turn depends on
the first byte. -/

namespace Sj3

open Recode

/-- The half-width kana of SJIS. -/
def isHalfKana (c : UInt8) : Bool := c ≥ 0xa1 && c ≤ 0xdf

/-! ## From SJIS -/

def sjisCode (ch : Bytes) : Char2 := sjSjis2euc (ch.headD 0, ch.getD 1 0)

def sjisReplaced (ch : Bytes) : Bool := issjis1 (ch.headD 0) && sjisCode ch = (0, 0)

def sjisPut (sjisDefault : Char2) (ch : Bytes) : Bytes :=
  let c := ch.headD 0
  if issjis1 c then
    if sjisCode ch = (0, 0) then (sjSjis2euc sjisDefault).bytes else (sjisCode ch).bytes
  else if isHalfKana c then [0x8e, c]
  else [c]

/-- The bytes of a character, by its first one. -/
def sjisTaken (c : UInt8) : ℕ := if issjis1 c then 2 else 1

/-- The bytes it becomes. -/
def sjisSize (c : UInt8) : ℕ := if issjis1 c || isHalfKana c then 2 else 1

def sjisCoding (sjisDefault : Char2) : Coding UInt8 UInt8 where
  stop := 0
  taken := sjisTaken
  size := sjisSize
  put := sjisPut sjisDefault
  taken_pos c := by
    unfold sjisTaken
    split_ifs <;> omega
  size_pos c := by
    unfold sjisSize
    split_ifs <;> omega
  length_put p := by
    simp only [sjisPut, sjisSize, Char2.bytes, Bool.or_eq_true]
    split_ifs <;> simp_all

/-! ## From EUC -/

def eucCode (ch : Bytes) : Char2 := sjEuc2sjis (ch.headD 0, ch.getD 1 0)

def eucReplaced (ch : Bytes) : Bool :=
  if iseuc (ch.headD 0) then eucCode ch = (0, 0) else ch.headD 0 = 0x8f

def eucPut (sjisDefault : Char2) (ch : Bytes) : Bytes :=
  let c := ch.headD 0
  if iseuc c then if eucCode ch = (0, 0) then sjisDefault.bytes else (eucCode ch).bytes
  else if c = 0x8f then sjisDefault.bytes
  else if c = 0x8e then [ch.getD 1 0]
  else [c]

def eucTaken (c : UInt8) : ℕ :=
  if iseuc c then 2 else if c = 0x8f then 3 else if c = 0x8e then 2 else 1

def eucSize (c : UInt8) : ℕ := if iseuc c || c = 0x8f then 2 else 1

def eucCoding (sjisDefault : Char2) : Coding UInt8 UInt8 where
  stop := 0
  taken := eucTaken
  size := eucSize
  put := eucPut sjisDefault
  taken_pos c := by
    unfold eucTaken
    split_ifs <;> omega
  size_pos c := by
    unfold eucSize
    split_ifs <;> omega
  length_put p := by
    simp only [eucPut, eucSize, Char2.bytes, Bool.or_eq_true, decide_eq_true_eq]
    split_ifs <;> simp_all

/-! ## The loops are runs of these -/

/-- What a run has converted. -/
def strconvOf (put : Bytes → Bytes) (replaced : Bytes → Bool) (r : Recode.Run UInt8) :
    Option Strconv :=
  if r.refused then none
  else some ⟨(r.turns.map Turn.char).flatMap put, (r.turns.map Turn.char).countP replaced⟩

/-- One turn of a run. -/
theorem strconvOf_loop (c : Coding UInt8 UInt8) (put : Bytes → Bytes) (replaced : Bytes → Bool)
    (outlen fuel src n : ℕ) (p : Bytes) :
    strconvOf put replaced (c.loop outlen (fuel + 1) src n p) =
      if p.headD c.stop = c.stop ∨ outlen ≤ n then if n > outlen then none else some ⟨[], 0⟩
      else if n + c.outSize p > outlen then none
      else
        (strconvOf put replaced (c.loop outlen fuel (src + c.width p) (n + c.outSize p)
          (p.drop (c.width p)))).map fun s => s.put (put (c.char p)) (replaced (c.char p)) := by
  rw [Coding.loop]
  split_ifs with hend hover hroom
  · simp [strconvOf, hover]
  · simp [strconvOf, hover]
  · rfl
  · simp only [strconvOf]
    cases (c.loop outlen fuel (src + c.width p) (n + c.outSize p) (p.drop (c.width p))).refused with
    | true => rfl
    | false =>
        simp only [Bool.false_eq_true, if_false, Option.map_some, Strconv.put, List.map_cons,
          List.flatMap_cons, List.countP_cons]
        split_ifs <;> rfl

theorem getD_one_take {n : ℕ} (hn : 2 ≤ n) (p : Bytes) : (p.take n).getD 1 0 = p.getD 1 0 := by
  rw [List.getD_eq_getElem?_getD, List.getD_eq_getElem?_getD, List.getElem?_take_of_lt hn]

theorem width_sjis (d : Char2) (p : Bytes) :
    (sjisCoding d).width p = sjisTaken (p.headD 0) := rfl

theorem outSize_sjis (d : Char2) (p : Bytes) :
    (sjisCoding d).outSize p = sjisSize (p.headD 0) := rfl

/-- The loop of `sj3_str_sjistoeuc`. -/
theorem strSjistoeucLoop_eq (outlen : ℕ) (d : Char2) (fuel src n : ℕ) (sjis : Bytes) :
    strSjistoeucLoop outlen d fuel n sjis =
      strconvOf (sjisPut d) sjisReplaced ((sjisCoding d).loop outlen fuel src n sjis) := by
  induction fuel generalizing src n sjis with
  | zero => rfl
  | succ fuel ih =>
      rw [strSjistoeucLoop, strconvOf_loop, width_sjis, outSize_sjis]
      refine ite_congr rfl (fun _ => rfl) fun hgo => ?_
      have hroom : ¬ n + 1 > outlen := fun h => hgo (.inr (Nat.le_of_lt_succ h))
      have hhead : ((sjisCoding d).char sjis).headD 0 = sjis.headD 0 := Coding.headD_char sjis
      simp only [sjisPut, sjisReplaced, hhead, sjisTaken, sjisSize]
      cases hlead : issjis1 (sjis.headD 0) with
      | true =>
          have hcode : sjisCode ((sjisCoding d).char sjis) =
              sjSjis2euc (sjis.headD 0, sjis.getD 1 0) := by
            rw [sjisCode, hhead, Coding.char, width_sjis, sjisTaken, if_pos hlead,
              getD_one_take (Nat.le_refl 2)]
          simp only [if_true, Bool.true_or, Bool.true_and, hcode, ih (src + 2)]
      | false =>
          cases hkana : isHalfKana (sjis.headD 0) with
          | true =>
              have hrange : sjis.headD 0 ≥ 0xa1 ∧ sjis.headD 0 ≤ 0xdf := by
                simpa [isHalfKana] using hkana
              simp only [hrange, and_self, Bool.false_eq_true, if_true, if_false, Bool.or_true,
                Bool.false_and, ih (src + 1)]
          | false =>
              have hrange : ¬ (sjis.headD 0 ≥ 0xa1 ∧ sjis.headD 0 ≤ 0xdf) := by
                simpa [isHalfKana] using hkana
              simp only [hrange, hroom, Bool.false_eq_true, if_false, Bool.or_false, Bool.false_and,
                ih (src + 1)]

theorem width_euc (d : Char2) (p : Bytes) : (eucCoding d).width p = eucTaken (p.headD 0) := rfl

theorem outSize_euc (d : Char2) (p : Bytes) :
    (eucCoding d).outSize p = eucSize (p.headD 0) := rfl

/-- The loop of `sj3_str_euctosjis`. -/
theorem strEuctosjisLoop_eq (outlen : ℕ) (d : Char2) (fuel src n : ℕ) (euc : Bytes) :
    strEuctosjisLoop outlen d fuel n euc =
      strconvOf (eucPut d) eucReplaced ((eucCoding d).loop outlen fuel src n euc) := by
  induction fuel generalizing src n euc with
  | zero => rfl
  | succ fuel ih =>
      rw [strEuctosjisLoop, strconvOf_loop, width_euc, outSize_euc]
      refine ite_congr rfl (fun _ => rfl) fun hgo => ?_
      have hroom : ¬ n + 1 > outlen := fun h => hgo (.inr (Nat.le_of_lt_succ h))
      have hhead : ((eucCoding d).char euc).headD 0 = euc.headD 0 := Coding.headD_char euc
      have hnext : 2 ≤ eucTaken (euc.headD 0) → ((eucCoding d).char euc).getD 1 0 = euc.getD 1 0 :=
        fun h => getD_one_take h euc
      simp only [eucPut, eucReplaced, hhead]
      cases hdouble : iseuc (euc.headD 0) with
      | true =>
          have hcode : eucCode ((eucCoding d).char euc) =
            sjEuc2sjis (euc.headD 0, euc.getD 1 0) := by
            rw [eucCode, hhead, hnext (Nat.le_of_eq (if_pos hdouble).symm)]
          simp only [eucTaken, eucSize, hdouble, if_true, Bool.true_or, hcode, ih (src + 2)]
      | false =>
          by_cases hss3 : euc.headD 0 = 0x8f
          · simp only [eucTaken, eucSize, hdouble, if_pos hss3, decide_eq_true hss3,
              Bool.false_eq_true, if_true, if_false, Bool.or_true, ih (src + 3)]
          · by_cases hss2 : euc.headD 0 = 0x8e
            · have hbyte : ((eucCoding d).char euc).getD 1 0 = euc.getD 1 0 := by
                refine hnext (Nat.le_of_eq ?_)
                rw [eucTaken, if_neg (ne_true_of_eq_false hdouble), if_neg hss3, if_pos hss2]
              simp only [eucTaken, eucSize, hdouble, if_neg hss3, if_pos hss2, decide_eq_false hss3,
                hbyte, hroom, Bool.false_eq_true, if_false, Bool.or_false, ih (src + 2)]
            · simp only [eucTaken, eucSize, hdouble, hss3, hss2, hroom, Bool.false_eq_true,
                if_false, decide_false, Bool.or_false, ih (src + 1)]

end Sj3
