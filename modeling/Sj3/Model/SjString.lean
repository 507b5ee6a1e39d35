import Sj3.Model.Text

/-! # SJIS and EUC

The conversions of text between the code of the client and that of the dictionaries
(`sj_string.c`). Both stop at a NUL, and give up when the output is full. -/

namespace Sj3

/-! ## Single characters -/

def issjis1 (c : UInt8) : Bool := (0x81 ≤ c && c ≤ 0x9f) || (0xe0 ≤ c && c ≤ 0xfc)

def iseuc (c : UInt8) : Bool := 0xa1 ≤ c && c ≤ 0xfe

/-- Both bytes of a character, and what to do when it has no counterpart. -/
abbrev Char2 := UInt8 × UInt8

def Char2.bytes (c : Char2) : Bytes := [c.1, c.2]

def sjJis2sjis (s : Char2) : Char2 :=
  let high := s.1.toNat
  let low := s.2.toNat
  let nh := ((high : ℤ) - 0x21) / 2 + 0x81
  let nl := if high % 2 = 1 then if low > 0x5f then low + 0x20 else low + 0x1f else low + 0x7e
  (UInt8.ofInt (if nh > 0x9f then nh + 0x40 else nh), UInt8.ofNat nl)

def sjEuc2sjis (s : Char2) : Char2 := sjJis2sjis (s.1 &&& 0x7f, s.2 &&& 0x7f)

def sjSjis2jis (s : Char2) : Char2 :=
  let bad : Bool :=
    s.1 ≤ 0x80 || s.1 ≥ 0xf0 || (s.1 ≥ 0xa0 && s.1 ≤ 0xdf) || s.2 ≤ 0x3f || s.2 ≥ 0xfe ||
      s.2 = 0x7f
  let byte1 := if bad then 0x81 else s.1.toNat
  let byte2 := if bad then 0x40 else s.2.toNat
  let row := (byte1 - if byte1 ≥ 0xa0 then 0xc1 else 0x81) * 2
  if byte2 ≥ 0x9f then (UInt8.ofNat (row + 0x22), UInt8.ofNat (byte2 - 0x7e))
  else (UInt8.ofNat (row + 0x21), UInt8.ofNat (byte2 - if byte2 ≤ 0x7e then 0x1f else 0x20))

def sjSjis2euc (s : Char2) : Char2 :=
  let s := sjSjis2jis s
  (s.1 ||| 0x80, s.2 ||| 0x80)

/-! ## Strings -/

/-- What a conversion has written, and how many characters it had to replace. -/
structure Strconv where
  out : Bytes
  useflag : ℕ
  deriving DecidableEq, Repr

def Strconv.put (s : Strconv) (bytes : Bytes) (replaced : Bool) : Strconv :=
  ⟨bytes ++ s.out, if replaced then s.useflag + 1 else s.useflag⟩

/-- The loop of `sj3_str_sjistoeuc` when `n` bytes were written; `fuel` bounds its turns. -/
def strSjistoeucLoop (outlen : ℕ) (sjisDefault : Char2) : ℕ → ℕ → Bytes → Option Strconv
  | 0, _, _ => none
  | fuel + 1, n, sjis =>
      let c := sjis.headD 0
      if c = 0 ∨ n ≥ outlen then if n > outlen then none else some ⟨[], 0⟩
      else if issjis1 c then
        let code := sjSjis2euc (c, sjis.getD 1 0)
        if n + 2 > outlen then none
        else
          (strSjistoeucLoop outlen sjisDefault fuel (n + 2) (sjis.drop 2)).map fun s =>
            s.put (if code = (0, 0) then (sjSjis2euc sjisDefault).bytes else code.bytes)
              (code = (0, 0))
      else if c ≥ 0xa1 ∧ c ≤ 0xdf then
        if n + 2 > outlen then none
        else
          (strSjistoeucLoop outlen sjisDefault fuel (n + 2) (sjis.drop 1)).map fun s =>
            s.put [0x8e, c] false
      else
        (strSjistoeucLoop outlen sjisDefault fuel (n + 1) (sjis.drop 1)).map fun s =>
          s.put [c] false

def strSjistoeuc (outlen : ℕ) (sjisDefault : Char2) (sjis : Bytes) : Option Strconv :=
  strSjistoeucLoop outlen sjisDefault (sjis.length + 1) 0 sjis

/-- The loop of `sj3_str_euctosjis` when `n` bytes were written; `fuel` bounds its turns. -/
def strEuctosjisLoop (outlen : ℕ) (sjisDefault : Char2) : ℕ → ℕ → Bytes → Option Strconv
  | 0, _, _ => none
  | fuel + 1, n, euc =>
      let c := euc.headD 0
      if c = 0 ∨ n ≥ outlen then if n > outlen then none else some ⟨[], 0⟩
      else if iseuc c then
        let code := sjEuc2sjis (c, euc.getD 1 0)
        if n + 2 > outlen then none
        else
          (strEuctosjisLoop outlen sjisDefault fuel (n + 2) (euc.drop 2)).map fun s =>
            s.put (if code = (0, 0) then sjisDefault.bytes else code.bytes) (code = (0, 0))
      else if c = 0x8f then
        if n + 2 > outlen then none
        else
          (strEuctosjisLoop outlen sjisDefault fuel (n + 2) (euc.drop 3)).map fun s =>
            s.put sjisDefault.bytes true
      else if c = 0x8e then
        (strEuctosjisLoop outlen sjisDefault fuel (n + 1) (euc.drop 2)).map fun s =>
          s.put [euc.getD 1 0] false
      else
        (strEuctosjisLoop outlen sjisDefault fuel (n + 1) (euc.drop 1)).map fun s =>
          s.put [c] false

def strEuctosjis (outlen : ℕ) (sjisDefault : Char2) (euc : Bytes) : Option Strconv :=
  strEuctosjisLoop outlen sjisDefault (euc.length + 1) 0 euc

/-! ## Predicted lengths -/

/-- The loop of `sj3_sjistoeuclen`; `fuel` bounds its turns. -/
def sjistoeuclenLoop (max : ℤ) : ℕ → ℤ → ℕ → Bytes → ℕ
  | 0, _, len, _ => len
  | fuel + 1, bytes, len, str =>
      let c := str.headD 0
      if bytes ≤ max ∧ c ≠ 0 then
        if issjis1 c then
          if str.getD 1 0 = 0 then len
          else sjistoeuclenLoop max fuel (bytes + 2) (len + 2) (str.drop 2)
        else if c &&& 0x80 ≠ 0 then
          sjistoeuclenLoop max fuel (bytes + 1) (len + 2) (str.drop 1)
        else sjistoeuclenLoop max fuel (bytes + 1) (len + 1) (str.drop 1)
      else len

def sjistoeuclen (str : Bytes) (max : ℤ) : ℕ :=
  if max = 0 then 0 else sjistoeuclenLoop max (str.length + 1) 1 0 str

end Sj3
