import Sj3.Model.Const

/-! # C strings

A pointer is modelled by the memory from it on. Reading past the end of that list gives
the NUL byte, so a string may be given with or without its terminator. -/

namespace Sj3

abbrev Bytes := List UInt8

/-- The `k` bytes right below an object, lowest address first; `below 0` is the nearest. -/
def belowBytes (below : ℕ → UInt8) (k : ℕ) : Bytes :=
  (List.range k).reverse.map below

/-- The memory at `p + i`, where `below` is what lies in front of `p`. -/
def around (below : ℕ → UInt8) (p : Bytes) (i : ℤ) : Bytes :=
  if 0 ≤ i then p.drop i.toNat else belowBytes below (-i).toNat ++ p

/-- The first `n` bytes at `p`. -/
def readN : ℕ → Bytes → Bytes
  | 0, _ => []
  | n + 1, p => p.headD 0 :: readN n p.tail

def sstrlen : Bytes → ℕ
  | [] => 0
  | c :: p => if c = 0 then 0 else sstrlen p + 1

/-- The bytes in front of the terminator. -/
def cstr (p : Bytes) : Bytes := p.takeWhile (· ≠ 0)

def sstrcmp : Bytes → Bytes → ℤ
  | [], dst => 0 - (dst.headD 0).toNat
  | c :: src, dst =>
      if c ≠ 0 ∧ c = dst.headD 0 then sstrcmp src dst.tail
      else (c.toNat : ℤ) - (dst.headD 0).toNat

def sstrncmp (src dst : Bytes) : ℕ → Cmp
  | 0 => .match
  | len + 1 =>
      if src.headD 0 > dst.headD 0 then .cont
      else if src.headD 0 < dst.headD 0 then
        if src.headD 0 = 0 then .partly else .over
      else sstrncmp src.tail dst.tail len

def cmpstr : Bytes → Bytes → Bool
  | [], dst => dst.headD 0 = 0
  | c :: src, dst =>
      if c ≠ 0 then
        if c ≠ dst.headD 0 then false else cmpstr src dst.tail
      else dst.headD 0 = 0

/-- Compare a reading with an index string, both given with their lengths. -/
def istrcmp (yomip idxp : Bytes) : ℕ → ℕ → Cmp
  | 0, 0 => .match
  | _ + 1, 0 => .under
  | 0, _ + 1 => .over
  | ylen + 1, ilen + 1 =>
      if yomip.headD 0 < idxp.headD 0 then .over
      else if yomip.headD 0 > idxp.headD 0 then .under
      else istrcmp yomip.tail idxp.tail ylen ilen

end Sj3
