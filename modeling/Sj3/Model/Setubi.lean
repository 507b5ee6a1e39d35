import Sj3.Model.Fuzoku
import Sj3.Model.Reclist

/-! # Suffixes of words

The suffixes that a word of some grammar code may have (`stbtbl.c`), and the loop of
`mkjiritu` that puts a copy of each word with each of its suffixes into the list of words
(`setubi.c`). -/

namespace Sj3.Reclist

def timei : UInt8 := 24

def stbYomiLen (p : Bytes) : ℕ := (p.headD 0).toNat >>> 4
def stbYomiTop (p : Bytes) : Bytes := p.drop 2
def stbKnjLen (p : Bytes) : ℕ := (p.headD 0 &&& 0x07).toNat
def stbBakeru (p : Bytes) : Bool := p.headD 0 &&& 0x08 ≠ 0

/-! ## Tables -/

def nameStb : Bytes :=
  [0x22, 0x01, 0x5c, 0xa0, 0xb7, 0xaf, 0x22, 0x01, 0x62, 0x8b, 0xcd, 0xcd,
    0x24, 0x01, 0x62, 0xa0, 0xa4, 0xb5, 0xa4, 0xf3, 0x12, 0x01, 0x64, 0xbb, 0xe1,
    0x36, 0x01, 0x6e, 0x90, 0xa0, 0xa4, 0xc1, 0xa4, 0xe3, 0xa4, 0xf3,
    0x22, 0x01, 0x76, 0x7b, 0xc5, 0xc2, 0x00]

def timeiStb : Bytes :=
  [0x22, 0x01, 0x55, 0x5a, 0xb1, 0xd8, 0x44, 0x01, 0x55, 0x5a, 0x7c, 0x71, 0xb1, 0xd8, 0xc8, 0xaf,
    0x44, 0x01, 0x55, 0x5a, 0x93, 0x5a, 0xb1, 0xd8, 0xb9, 0xd4,
    0x22, 0x01, 0x5d, 0xa0, 0xb7, 0xb4, 0x12, 0x01, 0x64, 0xbb, 0xd4,
    0x32, 0x01, 0x6e, 0x94, 0x53, 0xc4, 0xae, 0x22, 0x01, 0x7c, 0x71, 0xc8, 0xaf,
    0x22, 0x01, 0x8b, 0x6e, 0xc4, 0xae, 0x22, 0x01, 0x8d, 0x96, 0xc2, 0xbc, 0x00]

def meisiStb : Bytes :=
  [0x44, 0x06, 0x4f, 0x71, 0x58, 0x51, 0xb0, 0xb7, 0xa4, 0xa4, 0x1a, 0x06, 0x58, 0xb2, 0xbd,
    0x22, 0x08, 0x73, 0x5a, 0xc5, 0xaa,
    0x56, 0x2d, 0x78, 0x75, 0x8f, 0x77, 0x51, 0xa4, 0xcb, 0xc8, 0xbc, 0xa4, 0xa4,
    0x56, 0x2d, 0x78, 0x75, 0x8f, 0x77, 0x53, 0xa4, 0xcb, 0xc8, 0xbc, 0xa4, 0xa6,
    0x22, 0x08, 0x82, 0x53, 0xc9, 0xf7, 0x00]

def sahenStb : Bytes :=
  [0x44, 0x06, 0x4f, 0x71, 0x58, 0x51, 0xb0, 0xb7, 0xa4, 0xa4, 0x1a, 0x06, 0x58, 0xb2, 0xbd,
    0x12, 0x0b, 0x61, 0xb8, 0xe5, 0x22, 0x0b, 0x61, 0x75, 0xcb, 0xe8,
    0x32, 0x0b, 0x65, 0x94, 0x53, 0xbe, 0xe5, 0x32, 0x0b, 0x6e, 0x92, 0x53, 0xc3, 0xe6,
    0x22, 0x08, 0x73, 0x5a, 0xc5, 0xaa,
    0x56, 0x2d, 0x78, 0x75, 0x8f, 0x77, 0x51, 0xa4, 0xcb, 0xc8, 0xbc, 0xa4, 0xa4,
    0x56, 0x2d, 0x78, 0x75, 0x8f, 0x77, 0x53, 0xa4, 0xcb, 0xc8, 0xbc, 0xa4, 0xa6,
    0x22, 0x08, 0x82, 0x53, 0xc9, 0xf7, 0x22, 0x0b, 0x8b, 0x55, 0xc1, 0xb0, 0x00]

def humanStb : Bytes :=
  [0x24, 0x01, 0x62, 0xa0, 0xa4, 0xb5, 0xa4, 0xf3, 0x00]

def ippanStb : Bytes :=
  [0x56, 0x2d, 0x78, 0x75, 0x8f, 0x77, 0x51, 0xa4, 0xcb, 0xc8, 0xbc, 0xa4, 0xa4,
    0x56, 0x2d, 0x78, 0x75, 0x8f, 0x77, 0x53, 0xa4, 0xcb, 0xc8, 0xbc, 0xa4, 0xa6, 0x00]

/-- The table of a grammar code (`stbadr`). -/
def stbadr (hinsi : UInt8) : Option Bytes :=
  match hinsi.toNat with
  | 4 | 8 | 9 | 10 => some meisiStb
  | 5 | 6 | 7 => some sahenStb
  | 13 => some humanStb
  | 21 | 22 => some nameStb
  | 24 => some timeiStb
  | 0 | 19 | 20 | 23 => none
  | _ => some ippanStb

/-- `getstb`, for any tables. -/
def getstb (stbadr : UInt8 → Option Bytes) (hinsi : UInt8) : Option Bytes :=
  if hinsi < meisi1 ∨ hinsi > timei then none else stbadr hinsi

/-! ## The loop -/

/-- The list of words with the place in it that the loop has come to; and what it has done: how
many calls of `argjrec`, the words that `setubi` was called for, and the copies with the words
they were made of. -/
structure Expansion where
  words : Recs Jrec
  cursor : Option ℕ
  calls : ℕ
  visited : List ℕ
  copies : List (ℕ × ℕ)

section Loop

-- what memory each call of `argjrec` finds
variable (mem : ℕ → Malloc)

/-- The call of `argjrec` for the suffix at `stb`, which is an offset into `stbtbl`. -/
def addSuffix (stbtbl : Bytes) (stb rec : ℕ) (e : Expansion) : Option Expansion := do
  let p := stbtbl.drop stb
  let (words, new) ←
    argjrec (mem e.calls) ((e.words.val rec).jlen.toNat + stbYomiLen p) (some rec) e.words
  match new with
  | none => return { e with words, calls := e.calls + 1 }
  | some new =>
      let val := words.val new
      return { e with
        words := words.setVal new { val with
          stbofs := uchar (stb + 1)
          flags := val.flags ||| if stbBakeru p then jflagKa else 0 }
        calls := e.calls + 1
        copies := e.copies ++ [(rec, new)] }

/-- The loop of `setubi`. It has as many rounds as the table has bytes at most. -/
def setubiLoop (stbtbl yptr : Bytes) (rec : ℕ) : ℕ → ℕ → Expansion → Option Expansion
  | 0, _, _ => none
  | n + 1, stb, e =>
      let p := stbtbl.drop stb
      let slen := stbYomiLen p
      let next := stb + 2 + slen + stbKnjLen p
      if p.headD 0 = 0 then some e
      else
        match sstrncmp yptr (stbYomiTop p) slen with
        | .over | .partly => some e
        | .match =>
            if isdpnd (yptr.getD slen 0) then setubiLoop stbtbl yptr rec n next e
            else addSuffix mem stbtbl stb rec e >>= setubiLoop stbtbl yptr rec n next
        | _ => setubiLoop stbtbl yptr rec n next e

/-- `cnvstart` is the reading. -/
def setubi (cnvstart stbtbl : Bytes) (rec : ℕ) (e : Expansion) : Option Expansion :=
  setubiLoop mem stbtbl (cnvstart.drop (e.words.val rec).jlen.toNat) rec (stbtbl.length + 1) 0
    { e with visited := e.visited ++ [rec] }

/-- The body of the loop in `mkjiritu`. -/
def visitWord (stbadr : UInt8 → Option Bytes) (cnvstart : Bytes) (jrec : ℕ) (e : Expansion) :
    Option Expansion :=
  match getstb stbadr (e.words.val jrec).hinsi with
  | none => some e
  | some stb => setubi mem cnvstart stb jrec e

/-- `n` rounds of it. At the end of the list nothing happens any more. -/
def expandWords (stbadr : UInt8 → Option Bytes) (cnvstart : Bytes) :
    ℕ → Expansion → Option Expansion
  | 0, e => some e
  | n + 1, e =>
      match e.cursor with
      | none => some e
      | some jrec =>
          (visitWord mem stbadr cnvstart jrec e).bind fun e =>
            expandWords stbadr cnvstart n { e with cursor := e.words.sort jrec }

end Loop

/-- The loop starts at the top of the list. -/
def Expansion.start (w : Recs Jrec) : Expansion := ⟨w, w.top, 0, [], []⟩

end Sj3.Reclist
