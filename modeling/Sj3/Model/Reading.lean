import Sj3.Model.Text

/-! # Readings

The conversion of EUC text to reading codes in `sj2code.c`, the way back in `peepdic.c`,
and the check a reading passes before it is registered or deleted. -/

namespace Sj3

/-- The reading code of the character at `euc`, and the number of bytes it takes. -/
def sj2cdChr (euc : Bytes) : UInt8 × ℕ :=
  let first := euc.headD 0
  let chr := euc.getD 1 0
  if first = 0xa1 then
    (if chr < eucStart then yZenkaku
      else if chr ≤ eucEnd then kigou (chr - eucStart).toNat
      else yZenkaku, 2)
  else if first = 0xa2 then
    (if chr < eucStart then yZenkaku
      else if chr ≤ 0xae then kigou ((chr - eucStart).toNat + 94)
      else yZenkaku, 2)
  else if first = 0xa3 then
    (if chr < 0xb0 then yZenkaku
      else if chr ≤ 0xb9 then chr - 0xb0 + 0x10
      else if chr < 0xc1 then yZenkaku
      else if chr ≤ 0xda then chr - 0xc1 + 0x1a
      else if chr < 0xe1 then yZenkaku
      else if chr ≤ 0xfa then chr - 0xe1 + 0x34
      else yZenkaku, 2)
  else if first = 0xa4 then
    (if chr < eucStart then yZenkaku
      else if chr ≤ 0xf3 then chr - eucStart + 0x4e
      else yZenkaku, 2)
  else if first = 0xa5 then
    (if chr = 0xf4 then 0xa1
      else if chr = 0xf5 then 0xa2
      else if chr = 0xf6 then 0xa3
      else yZenkaku, 2)
  else if first &&& 0x80 = 0 then (yHankaku, 1)
  else if first = ss2 then (yHankaku, 2)
  else if first = ss3 then (yZenkaku, 3)
  else (yZenkaku, 2)

/-- The loop of `sj2cd_str` with room for `len` more codes. -/
def sj2cdLoop : ℕ → Bytes → Bytes × Bool
  | 0, euc => ([], euc.headD 0 = 0)
  | len + 1, euc =>
      if euc.headD 0 = 0 then ([], true)
      else
        let r := sj2cdLoop len (euc.drop (sj2cdChr euc).2)
        ((sj2cdChr euc).1 :: r.1, r.2)

/-- The reading codes of `euc`, and whether all of it was converted; the buffer takes
`len` bytes, the terminator included. -/
def sj2cdStr (euc : Bytes) (len : ℕ) : Bytes × Bool :=
  if len = 0 then ([], false) else sj2cdLoop (len - 1) euc

/-- The loop of `isvyomi` behind `len` accepted codes. -/
def isvyomiLoop : ℕ → Bytes → Bool
  | _, [] => true
  | len, y :: yp =>
      if y = 0 then true
      else if chrtbl y = 0 ∨ y ≥ yKuten then false
      else if len + 1 > maxWdYomiLen then false
      else isvyomiLoop (len + 1) yp

def isvyomi (yp : Bytes) : Bool :=
  if yp.headD 0 = 0 then false
  else if chrtbl (yp.headD 0) &&& dicTop = 0 then false
  else isvyomiLoop 0 yp

/-- The EUC character of a reading code; other codes write nothing. -/
def cd2sjhChr (ch : UInt8) : Bytes :=
  if ch = 0x01 then [0xa1, 0xbc]
  else if ch = 0x02 then [0xa1, 0xf4]
  else if ch = 0x03 then [0xa1, 0xf7]
  else if ch = 0x04 then [0xa2, 0xa9]
  else if ch < 0x10 then []
  else if ch ≤ 0x19 then [0xa3, ch + 0xa0]
  else if ch ≤ 0x33 then [0xa3, ch + 0xa7]
  else if ch ≤ 0x4d then [0xa3, ch + 0xad]
  else if ch ≤ 0xa0 then [0xa4, ch + 0x53]
  else if ch ≤ 0xa3 then [0xa5, ch + 0x53]
  else []

end Sj3
