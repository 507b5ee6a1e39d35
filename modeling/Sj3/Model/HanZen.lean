import Sj3.General.Byte
import Sj3.Model.Wc16

/-! # Full-width and half-width kana

The conversions between the two widths (`sj3_rkcv.c`), on wide characters. -/

namespace Sj3

/-! ## Tables -/

def zkata1 : UInt16 := 0xa5
def zhira1 : UInt16 := 0xa4
def zkataf2 : UInt16 := 0xa1
def zhiraf2 : UInt16 := 0xa1

/-- The number of full-width katakana. -/
def zkatan : ℕ := 86

def zenSpace : UInt16 := 0xa1a1
def zenKten : UInt16 := 0xa1a3
def zenFkakko : UInt16 := 0xa1d6
def zenEkakko : UInt16 := 0xa1d7
def zenTten : UInt16 := 0xa1a2
def zenCten : UInt16 := 0xa1a6
def zenChouon : UInt16 := 0xa1bc
def zenDten : UInt16 := 0xa1ab
def zenHdten : UInt16 := 0xa1ac
def zenVu : UInt16 := 0xa5f4

def kanaKten : UInt16 := 0xa1
def kanaFkakko : UInt16 := 0xa2
def kanaEkakko : UInt16 := 0xa3
def kanaTten : UInt16 := 0xa4
def kanaCten : UInt16 := 0xa5
def kanaChouon : UInt16 := 0xb0
def kanaDten : UInt16 := 0xde
def kanaHdten : UInt16 := 0xdf
def kanaXa : UInt16 := 0xa7
def kanaXya : UInt16 := 0xac
def kanaXtsu : UInt16 := 0xaf
def kanaA : UInt16 := 0xb1
def kanaKa : UInt16 := 0xb6
def kanaSa : UInt16 := 0xbb
def kanaTa : UInt16 := 0xc0
def kanaNa : UInt16 := 0xc5
def kanaHa : UInt16 := 0xca
def kanaMa : UInt16 := 0xcf
def kanaYa : UInt16 := 0xd4
def kanaRa : UInt16 := 0xd7
def kanaWa : UInt16 := 0xdc
def kanaWo : UInt16 := 0xa6
def kanaGa : UInt16 := kanaKa <<< 8 + kanaDten
def kanaZa : UInt16 := kanaSa <<< 8 + kanaDten
def kanaDa : UInt16 := kanaTa <<< 8 + kanaDten
def kanaBa : UInt16 := kanaHa <<< 8 + kanaDten
def kanaPa : UInt16 := kanaHa <<< 8 + kanaHdten

/-- The half-width form of each full-width kana; a mark is in the low byte. -/
def hktable : List UInt16 :=
  [kanaXa, kanaA, kanaXa + 1, kanaA + 1, kanaXa + 2, kanaA + 2, kanaXa + 3, kanaA + 3,
   kanaXa + 4, kanaA + 4,
   kanaKa, kanaGa, kanaKa + 1, kanaGa + 0x100, kanaKa + 2, kanaGa + 0x200,
   kanaKa + 3, kanaGa + 0x300, kanaKa + 4, kanaGa + 0x400,
   kanaSa, kanaZa, kanaSa + 1, kanaZa + 0x100, kanaSa + 2, kanaZa + 0x200,
   kanaSa + 3, kanaZa + 0x300, kanaSa + 4, kanaZa + 0x400,
   kanaTa, kanaDa, kanaTa + 1, kanaDa + 0x100, kanaXtsu, kanaTa + 2, kanaDa + 0x200,
   kanaTa + 3, kanaDa + 0x300, kanaTa + 4, kanaDa + 0x400,
   kanaNa, kanaNa + 1, kanaNa + 2, kanaNa + 3, kanaNa + 4,
   kanaHa, kanaBa, kanaPa, kanaHa + 1, kanaBa + 0x100, kanaPa + 0x100,
   kanaHa + 2, kanaBa + 0x200, kanaPa + 0x200, kanaHa + 3, kanaBa + 0x300,
   kanaPa + 0x300, kanaHa + 4, kanaBa + 0x400, kanaPa + 0x400,
   kanaMa, kanaMa + 1, kanaMa + 2, kanaMa + 3, kanaMa + 4,
   kanaXya, kanaYa, kanaXya + 1, kanaYa + 1, kanaXya + 2, kanaYa + 2,
   kanaRa, kanaRa + 1, kanaRa + 2, kanaRa + 3, kanaRa + 4,
   kanaWa, kanaWa, kanaA + 1, kanaA + 3, kanaWo, kanaWa + 1,
   (kanaA + 2) <<< 8 + kanaDten, kanaKa, kanaKa + 3]

/-- Marks, full-width and half-width. -/
def hkktbl : List (UInt16 × UInt16) :=
  [(zenKten, kanaKten), (zenFkakko, kanaFkakko), (zenEkakko, kanaEkakko), (zenTten, kanaTten),
   (zenCten, kanaCten), (zenChouon, kanaChouon), (zenDten, kanaDten), (zenHdten, kanaHdten)]

/-- The full-width forms of the characters of ASCII from the blank on. -/
def hztbl : List UInt16 :=
  [0xa1a1, 0xa1aa, 0xa1c9, 0xa1f4, 0xa1f0, 0xa1f3, 0xa1f5, 0xa1c7,
   0xa1ca, 0xa1cb, 0xa1f6, 0xa1dc, 0xa1a4, 0xa1dd, 0xa1a5, 0xa1bf,
   0xa3b0, 0xa3b1, 0xa3b2, 0xa3b3, 0xa3b4, 0xa3b5, 0xa3b6, 0xa3b7,
   0xa3b8, 0xa3b9, 0xa1a7, 0xa1a8, 0xa1e3, 0xa1e1, 0xa1e4, 0xa1a9,
   0xa1f7, 0xa3c1, 0xa3c2, 0xa3c3, 0xa3c4, 0xa3c5, 0xa3c6, 0xa3c7,
   0xa3c8, 0xa3c9, 0xa3ca, 0xa3cb, 0xa3cc, 0xa3cd, 0xa3ce, 0xa3cf,
   0xa3d0, 0xa3d1, 0xa3d2, 0xa3d3, 0xa3d4, 0xa3d5, 0xa3d6, 0xa3d7,
   0xa3d8, 0xa3d9, 0xa3da, 0xa1ce, 0xa1ef, 0xa1cf, 0xa1b0, 0xa1b2,
   0xa1c6, 0xa3e1, 0xa3e2, 0xa3e3, 0xa3e4, 0xa3e5, 0xa3e6, 0xa3e7,
   0xa3e8, 0xa3e9, 0xa3ea, 0xa3eb, 0xa3ec, 0xa3ed, 0xa3ee, 0xa3ef,
   0xa3f0, 0xa3f1, 0xa3f2, 0xa3f3, 0xa3f4, 0xa3f5, 0xa3f6, 0xa3f7,
   0xa3f8, 0xa3f9, 0xa3fa, 0xa1d0, 0xa1c3, 0xa1d1, 0xa1b1]

/-! ## Characters -/

def sjIshira (c : UInt16) : Bool := c ≥ 0xa4a1 && c ≤ 0xa4f3

def sjIskata (c : UInt16) : Bool := c ≥ 0xa5a1 && c ≤ 0xa5f6

def wcIsZenkaku (c : UInt16) : Bool := c &&& 0x8000 = 0x8000

def wcIsHankaku (c : UInt16) : Bool := c &&& 0x8000 = 0

/-- `iskana2` of a wide character. -/
def wcIskana2 (c : UInt16) : Bool := c ≥ 0xa1 && c ≤ 0xdf

/-- `c & RKZEN` -/
def rkzen (c : UInt16) : Bool := c &&& 0xff00 ≠ 0

def sjZen2han (c : UInt16) : UInt16 :=
  let cc := c &&& 0xff
  let i :=
    if sjIshira c then (cc - zhiraf2).toNat
    else if sjIskata c then (cc - zkataf2).toNat
    else zkatan
  if i < zkatan then hktable.getD i 0
  else
    match hkktbl.find? fun e => e.1 = c with
    | some e => e.2
    | none => if c ∈ hztbl then UInt16.ofNat (hztbl.idxOf c) + 0x20 else c

def sjAddten (prefixc c : UInt16) : UInt16 :=
  if (c = zenDten || c = zenHdten) && (sjIshira prefixc || sjIskata prefixc) then
    let c1 := sjZen2han prefixc
    if (c1 ≥ kanaKa && c1 < kanaNa) || (c1 ≥ kanaHa && c1 < kanaMa) then
      if c = zenDten then prefixc + 1
      else if c = zenHdten && c1 ≥ kanaHa then prefixc + 2
      else 0
    else if c1 = kanaA + 2 && sjIskata prefixc && c = zenDten then zenVu
    else 0
  else 0

def sjHan2zen (c : UInt16) : UInt16 :=
  if wcIsHankaku c && wcIskana2 c then
    let i := hktable.idxOf c
    if i < zkatan then
      if i ≥ zkatan - 3 then zkata1 <<< 8 + (zkataf2 + UInt16.ofNat i + 1)
      else
        let cc := zhira1 <<< 8 + (zhiraf2 + UInt16.ofNat i)
        if c = kanaWa then cc + 1 else cc
    else
      match hkktbl.find? fun e => e.2 = c with
      | some e => e.1
      | none => zenSpace
  else if c ≥ 0x20 && c ≤ 0x7e then hztbl.getD (c - 0x20).toNat 0
  else c

/-! ## Strings -/

/-- The loop of `sj_hantozen`, with what is written so far. -/
def hantozenLoop : ℕ → List UInt16 → UInt16 → ℤ → List UInt16 → List UInt16 × ℤ
  | 0, _, _, rlen, s1 => (s1, rlen)
  | _ + 1, [], _, rlen, s1 => (s1, rlen)
  | len + 1, c :: s2, prefixc, rlen, s1 =>
      if c = 0 then (s1, rlen)
      else
        let cc := sjHan2zen c
        if rkzen cc then
          let c1 := sjAddten prefixc cc
          if prefixc ≠ 0 ∧ c1 ≠ 0 then
            hantozenLoop len s2 0 (rlen - 1 + 1) (s1.dropLast ++ [c1])
          else hantozenLoop len s2 cc (rlen + 1) (s1 ++ [cc])
        else hantozenLoop len s2 0 (rlen + 1) (s1 ++ [cc])

/-- What is written in front of the terminator, and the value. -/
def sjHantozen (s2 : List UInt16) (len : ℕ) : List UInt16 × ℤ := hantozenLoop len s2 0 0 []

/-- What one character becomes. -/
def zentohanChar (c : UInt16) : List UInt16 :=
  let cc := if wcIsZenkaku c then sjZen2han c else c
  if wcIsZenkaku c ∧ cc >>> 8 ≠ 0 ∧ cc ≠ c then [cc >>> 8, cc &&& 0xff]
  else if rkzen cc then [cc >>> 8, cc]
  else [cc]

def zentohanLoop : ℕ → List UInt16 → ℤ → List UInt16 × ℤ
  | 0, _, rlen => ([], rlen)
  | _ + 1, [], rlen => ([], rlen)
  | len + 1, c :: s2, rlen =>
      if c = 0 then ([], rlen)
      else
        let out := zentohanChar c
        let r := zentohanLoop len s2 (rlen + out.length)
        (out ++ r.1, r.2)

def sjZentohan (s2 : List UInt16) (len : ℕ) : List UInt16 × ℤ := zentohanLoop len s2 0

end Sj3
