import Sj3.Model.SjString

/-! # Conversion tables

How the conversion definitions are read from a file and put into the table of a conversion
(`rk_conv.c`). Memory is always found for them. -/

namespace Sj3

/-- A string of `wchar16_t` in front of its terminator. -/
abbrev Wstr := List UInt16

def rkSpace : UInt8 := 0x20
def rkTab : UInt8 := 0x09
def rkEol : UInt8 := 0x0a
def rkBsl : UInt8 := 0x5c
def rkCaret : UInt8 := 0x5e
def maxLen : ℕ := 256
def maxWlen : ℕ := 16

/-- The file's code, as far as it is known. -/
inductive FileCode where
  | no
  | sjis
  | euc
  deriving DecidableEq, Repr

/-! ## Reading a line -/

def endmark (c : UInt8) : Bool := c = rkSpace || c = rkTab

def skline (c : UInt8) : Bool := c = rkEol || c = 0

def toupper (c : UInt8) : UInt8 := if 0x61 ≤ c ∧ c ≤ 0x7a then c - 0x20 else c

/-- A `char`, which is signed, as a `wchar16_t`. -/
def wchar (c : UInt8) : UInt16 :=
  if c < 0x80 then c.toUInt16 else 0xff00 + c.toUInt16

/-- A turn of a loop over a line: its end, or a character and the line behind it. -/
inductive FieldTurn where
  | stop (p : Bytes)
  | char (c : UInt16) (p : Bytes)

def keyTurn (p : Bytes) : FieldTurn :=
  let c := p.headD 0
  let p' := p.tail
  if endmark c || skline c then .stop p
  else if c = rkBsl then
    let c := p'.headD 0
    if skline c then .stop p'
    else if c = 0x6e then .char rkEol.toUInt16 p'.tail
    else if c = 0x74 then .char rkTab.toUInt16 p'.tail
    else .char (wchar (toupper c)) p'.tail
  else if c = rkCaret then
    let d := p'.headD 0
    if 0x40 ≤ d ∧ d ≤ 0x5f then .char (d.toUInt16 - 0x40) p'.tail
    else if d = 0x3f then .char 0x7f p'.tail
    else .char rkCaret.toUInt16 p'
  else .char (wchar (toupper c)) p'

/-- The characters up to the end of a field, unless there are more than `room`. -/
def fieldLoop (turn : Bytes → FieldTurn) : ℕ → Bytes → Option (Wstr × Bytes)
  | room, p =>
      match turn p with
      | .stop p => some ([], p)
      | .char c p =>
          match room with
          | 0 => none
          | room + 1 => (fieldLoop turn room p).map fun r => (c :: r.1, r.2)

/-- A field that is not empty and not too long. -/
def field (turn : Bytes → FieldTurn) (istr : Bytes) : Option (Wstr × Bytes) :=
  match fieldLoop turn maxWlen (istr.dropWhile endmark) with
  | some ([], _) => none
  | r => r

def getkey (istr : Bytes) : Option (Wstr × Bytes) := field keyTurn istr

def issjis2 (c : UInt8) : Bool := 0x40 ≤ c && c ≤ 0xfc && c ≠ 0x7f
def iseuckana (c : UInt8) : Bool := c = 0x8e
def iskana2 (c : UInt8) : Bool := 0xa1 ≤ c && c ≤ 0xdf
def isEUCHojo (c : UInt8) : Bool := c = 0x8f

def char2 (c : Char2) : UInt16 := c.1.toUInt16 <<< 8 + c.2.toUInt16

/-- The code of the file once the character at `p` has been looked at. -/
def settle (file_code : FileCode) (p : Bytes) : FileCode :=
  let c := p.headD 0
  let p := p.tail
  match file_code with
  | .no =>
      if issjis1 c && issjis2 (p.headD 0) then .sjis
      else if (iseuc c && iseuc (p.headD 0)) || (iseuckana c && iskana2 (p.headD 0)) ||
          (isEUCHojo c && iseuc (p.headD 0) && iseuc (p.tail.headD 0)) then .euc
      else .no
  | code => code

def yomiTurn (file_code : FileCode) (p : Bytes) : FieldTurn :=
  let c := p.headD 0
  let p' := p.tail
  if endmark c || skline c then .stop p
  else
    match file_code with
    | .sjis =>
        if issjis1 c && issjis2 (p'.headD 0) then
          .char (char2 (sjSjis2euc (c, p'.headD 0))) p'.tail
        else .char c.toUInt16 p'
    | .euc =>
        if iseuc c && iseuc (p'.headD 0) then .char (char2 (c, p'.headD 0)) p'.tail
        else if iseuckana c && iskana2 (p'.headD 0) then .char (p'.headD 0).toUInt16 p'.tail
        else if isEUCHojo c && iseuc (p'.headD 0) && iseuc (p'.tail.headD 0) then
          .char (char2 (p'.headD 0, p'.tail.headD 0 &&& 0x7f)) p'.tail.tail
        else .char c.toUInt16 p'
    | .no => .char c.toUInt16 p'

/-- The loop of `rkgetyomi`; the first character of more than one byte settles the code. -/
def yomiLoop : ℕ → FileCode → Bytes → FileCode × Option (Wstr × Bytes)
  | room, file_code, p =>
      let file_code := settle file_code p
      match yomiTurn file_code p with
      | .stop p => (file_code, some ([], p))
      | .char c p =>
          match room with
          | 0 => (file_code, none)
          | room + 1 =>
              let r := yomiLoop room file_code p
              (r.1, r.2.map fun s => (c :: s.1, s.2))

def rkgetyomi (file_code : FileCode) (istr : Bytes) : FileCode × Option (Wstr × Bytes) :=
  match yomiLoop maxWlen file_code (istr.dropWhile endmark) with
  | (file_code, some ([], _)) => (file_code, none)
  | r => r

/-! ## Strings of wide characters -/

def wstr (s : Wstr) : Wstr := s.takeWhile (· ≠ 0)

def wscmp : Wstr → Wstr → ℤ
  | [], ws2 => if ws2.headD 0 = 0 then 0 else -1
  | c :: ws1, ws2 =>
      if c ≠ 0 ∧ c = ws2.headD 0 then wscmp ws1 ws2.tail
      else if c = 0 ∧ ws2.headD 0 = 0 then 0
      else if c < ws2.headD 0 then -1
      else 1

def wsncmp : Wstr → Wstr → ℕ → ℤ
  | ws1, ws2, n =>
      let c1 := ws1.headD 0
      let c2 := ws2.headD 0
      if c1 = 0 ∧ c2 = 0 then 0
      else
        match n with
        | 0 => 0
        | n + 1 =>
            if c1 = c2 then wsncmp ws1.tail ws2.tail n
            else if c1 < c2 then -1
            else 1

/-- The loop of `chk_rstr` with `n` characters of the key from `p` on left. -/
def chkRstrLoop (rstr : Wstr) : ℕ → Wstr → Bool
  | n, p =>
      if rstr.length ≤ n then
        if wsncmp rstr p rstr.length = 0 then false
        else
          match n with
          | 0 => true
          | n + 1 => chkRstrLoop rstr n p.tail
      else true

/-- Whether a remainder is refused. -/
def chkRstr (rstr rkey : Wstr) : Bool :=
  if rstr.length ≥ rkey.length then true else chkRstrLoop rstr rkey.length rkey

/-! ## The table -/

/-- A definition as a line gives it; the strings may have NUL characters in them. -/
structure RkDef where
  rkey : Wstr
  kstr : Wstr
  rstr : Wstr
  deriving DecidableEq, Repr

/-- An entry of the table: the key behind its first character, what it is converted to, and
what stays behind. -/
structure RkTabl where
  r_key : Option Wstr
  k_yomi : Wstr
  r_str : Option Wstr
  deriving DecidableEq, Repr

/-- A list of entries for each first character. -/
abbrev RkTable := UInt8 → List RkTabl

def stradd (str : Wstr) (len : ℕ) : Option Wstr := if len ≤ 1 then none else some (wstr str)

def RkDef.code (d : RkDef) : UInt8 := (d.rkey.headD 0).toUInt8

def RkDef.entry (d : RkDef) : RkTabl where
  r_key := stradd d.rkey.tail d.rkey.length
  k_yomi := wstr d.kstr
  r_str := stradd d.rstr (d.rstr.length + 1)

/-- The list with the entry of a key that is `key` behind its first character and `len`
characters long. When there is an entry with this key already it is left as it is. -/
def mktable (key : Wstr) (len : ℕ) (rktp : RkTabl) : List RkTabl → List RkTabl
  | [] => [rktp]
  | r :: rest =>
      match r.r_key with
      | none => if key = [] then r :: rest else rktp :: r :: rest
      | some r_key =>
          let i := wscmp key r_key
          if i = 0 then r :: rest
          else if i > 0 ∧ r_key.length < len then rktp :: r :: rest
          else r :: mktable key len rktp rest

def addDef (tbl : RkTable) (d : RkDef) : RkTable := fun code =>
  if code = d.code then mktable (wstr d.rkey.tail) d.rkey.length d.entry (tbl code)
  else tbl code

/-! ## The file -/

/-- The pieces of the file that `fgets` returns, where `cur` is what it has read of the
first. -/
def fgetsAll (cur : Bytes) : Bytes → List Bytes
  | [] => if cur = [] then [] else [cur]
  | c :: file =>
      if c = rkEol ∨ cur.length + 1 = maxLen then (cur ++ [c]) :: fgetsAll [] file
      else fgetsAll (cur ++ [c]) file

/-- Whether something other than a line's end was read to the last but one place of the
buffer. -/
def tooLong (line : Bytes) : Bool :=
  line.length = maxLen - 1 || (line.length = maxLen && line.getLast? ≠ some rkEol)

/-- The definition in a line, if there is one. -/
def readDef (file_code : FileCode) (line : Bytes) : FileCode × Option RkDef :=
  if tooLong line then (file_code, none)
  else if skline (line.headD 0) || line.headD 0 = 0x23 then (file_code, none)
  else
    match getkey line with
    | none => (file_code, none)
    | some (rkey, p) =>
        match rkgetyomi file_code p with
        | (file_code, none) => (file_code, none)
        | (file_code, some (kstr, p)) =>
            let rstr := ((getkey p).map Prod.fst).getD []
            (file_code, some ⟨rkey, kstr, if chkRstr rstr rkey then [] else rstr⟩)

def readDefs (file_code : FileCode) : List Bytes → List RkDef
  | [] => []
  | line :: lines =>
      let r := readDef file_code line
      r.2.toList ++ readDefs r.1 lines

/-- The definitions of a file, in the order of its lines. -/
def rkDefs (file_code : FileCode) (file : Bytes) : List RkDef :=
  readDefs file_code (fgetsAll [] file)

/-- The table of a file that is read with the code `file_code` from earlier ones. -/
def rkinit (file_code : FileCode) (file : Bytes) : RkTable :=
  (rkDefs file_code file).foldl addDef fun _ => []

end Sj3
