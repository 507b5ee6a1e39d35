import Sj3.Model.Kanji

/-! # Wide characters of 16 bits

Strings of `wchar16_t` and EUC (`wc16_str.c`). A wide string ends at a zero, like a string of
bytes. -/

namespace Sj3

/-- What a conversion leaves: the units it has written, whether a zero stands behind them,
and its value. -/
structure WcConverted (α : Type*) where
  out : List α
  terminated : Bool
  ret : ℤ
  deriving DecidableEq, Repr

/-- A unit in front of what is written next. -/
def WcConverted.put {α : Type*} (units : List α) (c : WcConverted α) : WcConverted α :=
  { c with out := units ++ c.out }

def euc2wc16 (code : ℕ) : UInt16 :=
  if code >>> 16 &&& 0xff = ss3.toNat then UInt16.ofNat (code &&& 0xff7f)
  else if code >>> 8 &&& 0xff = ss2.toNat then UInt16.ofNat (code &&& 0xff)
  else UInt16.ofNat code

def wc2euc16 (wc : UInt16) : ℕ :=
  let tmp := UInt8.ofNat (wc.toNat >>> 8)
  if tmp ≠ 0 then
    if wc.toNat &&& 0x80 ≠ 0 then wc.toNat else ss3.toNat <<< 16 + wc.toNat + 0x80
  else if wc.toNat &&& 0x80 ≠ 0 then ss2.toNat <<< 8 + wc.toNat
  else wc.toNat

/-- The loop of `sj3_wcs2eucs16` when `i` bytes were written. -/
def wcs2eucs16Loop (n : ℤ) : ℤ → List UInt16 → WcConverted UInt8
  | i, [] => ⟨[], true, i⟩
  | i, w :: ws =>
      if w ≠ 0 ∧ i < n then
        let code := wc2euc16 w
        let c2 := UInt8.ofNat (code >>> 16)
        let c1 := UInt8.ofNat (code >>> 8)
        let c0 := UInt8.ofNat code
        if c2 ≠ 0 then
          if i + 1 = n then ⟨[c2], false, i + 1⟩
          else if i + 2 = n then ⟨[c2, c1], false, i + 2⟩
          else if i + 3 = n then ⟨[c2, c1, c0], false, i + 3⟩
          else (wcs2eucs16Loop n (i + 3) ws).put [c2, c1, c0]
        else if c1 ≠ 0 then
          if i + 1 = n then ⟨[c1], false, i + 1⟩
          else if i + 2 = n then ⟨[c1, c0], false, i + 2⟩
          else (wcs2eucs16Loop n (i + 2) ws).put [c1, c0]
        else if c0 ≠ 0 then (wcs2eucs16Loop n (i + 1) ws).put [c0]
        else ⟨[], false, -1⟩
      else ⟨[], w = 0, i⟩

def wcs2eucs16 (ws : List UInt16) (n : ℤ) : WcConverted UInt8 := wcs2eucs16Loop n 0 ws

/-- The loop of `sj3_eucs2wcs16` when `i` characters were written; `fuel` bounds its turns. -/
def eucs2wcs16Loop (n : ℤ) : ℕ → ℤ → Bytes → WcConverted UInt16
  | 0, i, _ => ⟨[], false, i⟩
  | fuel + 1, i, mb =>
      let c := mb.headD 0
      if c ≠ 0 ∧ i < n then
        let step : ℕ × ℕ :=
          if c = ss3 then
            (c.toNat <<< 16 + (mb.getD 1 0).toNat <<< 8 + (mb.getD 2 0).toNat, 3)
          else if c = ss2 ∨ c &&& 0x80 ≠ 0 then (c.toNat <<< 8 + (mb.getD 1 0).toNat, 2)
          else (c.toNat, 1)
        if euc2wc16 step.1 = 0 then ⟨[], true, -1⟩
        else (eucs2wcs16Loop n fuel (i + 1) (mb.drop step.2)).put [euc2wc16 step.1]
      else ⟨[], c = 0, i⟩

def eucs2wcs16 (mb : Bytes) (n : ℤ) : WcConverted UInt16 :=
  eucs2wcs16Loop n (mb.length + 1) 0 mb

end Sj3
