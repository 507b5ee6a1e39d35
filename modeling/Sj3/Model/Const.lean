import Mathlib.Data.UInt

/-! # Constants and character tables

Numbers from `sj_dict.h`, `sj_const.h`, `sj_euc.h`, `sj_yomi.h` and `sj_hinsi.h`, the
class table of `chrtbl.c` and the symbol table of `s2ctbl.c`. -/

namespace Sj3

/-! ## Dictionary format -/

def dicSegBase : ℕ := 0
def maxDouonBlk : ℕ := 0xfff
def douonBlkSizeNumber : ℕ := 3
def dicSegTerm : UInt8 := 0xff
def hinsiBlkTerm : UInt8 := 0xff
def kanjiStrEnd : UInt8 := 0x00
def assyukuYomiTop : UInt8 := 0x80
def nokoriYomiTop : UInt8 := 0x40

def normalKanjiMask : UInt8 := 0x7f
def zenHiraAssyuku : UInt8 := 0x80
def offsetAssyuku : UInt8 := 0x90
def zenKataAssyuku : UInt8 := 0xa0
def aiAttribute : UInt8 := 0xb0
def kanjiAssyuku : UInt8 := 0xc0
def leadingHankaku : UInt8 := 0xd0
def kanjiCodeMask : UInt8 := 0x0f
def kanjiModeMask : UInt8 := 0xf0

def maxYomiAskNumber : ℕ := 16
def maxWdYomiLen : ℕ := 31
def maxWdKanjiLen : ℕ := 64
def maxKouhoNumber : ℕ := 255

/-! ## Results of registration and deletion -/

def adDone : ℕ := 0x0000
def adNotUserDict : ℕ := 0x0001
def adBadYomi : ℕ := 0x0002
def adBadKanji : ℕ := 0x0004
def adBadHinsi : ℕ := 0x0008
def adArExist : ℕ := 0x0010
def adOvflwDouBlk : ℕ := 0x0020
def adOvflwDouNum : ℕ := 0x0040
def adOvflwUsrDic : ℕ := 0x0080
def adOvflwIndex : ℕ := 0x0100
def adNoMidasi : ℕ := 0x0010
def adNoHinsi : ℕ := 0x0020
def adNoKanji : ℕ := 0x0040

/-- The outcomes of comparing two strings. -/
inductive Cmp where
  | match
  | over
  | partly
  | cont
  | under
  deriving DecidableEq, Repr

/-! ## EUC bytes -/

def ss2 : UInt8 := 0x8e
def ss3 : UInt8 := 0x8f
def eucStart : UInt8 := 0xa1
def eucEnd : UInt8 := 0xfe

/-- The first byte of a two-byte character. -/
def isknj1 (c : UInt8) : Bool :=
  c = ss2 || (c &&& 0x80 ≠ 0 && c ≠ ss3)

/-! ## Reading codes -/

def yKuten : UInt8 := 0xf2
def yHankaku : UInt8 := 0xfd
def yZenkaku : UInt8 := 0xfe

def dicTop : UInt8 := 0x01
def depend : UInt8 := 0x04

/-- The class of every reading code. -/
def chrtblTable : List UInt8 := [
    0x00, 0x02, 0x21, 0x21, 0x61, 0x00, 0x00, 0x00, 0x00, 0x00, 0x00, 0x00, 0x00, 0x00, 0x00, 0x00,
    0x09, 0x09, 0x09, 0x09, 0x09, 0x09, 0x09, 0x09, 0x09, 0x09, 0x21, 0x21, 0x21, 0x21, 0x21, 0x21,
    0x21, 0x21, 0x21, 0x21, 0x21, 0x21, 0x21, 0x21, 0x21, 0x21, 0x21, 0x21, 0x21, 0x21, 0x21, 0x21,
    0x21, 0x21, 0x21, 0x21, 0x21, 0x21, 0x21, 0x21, 0x21, 0x21, 0x21, 0x21, 0x21, 0x21, 0x21, 0x21,
    0x21, 0x21, 0x21, 0x21, 0x21, 0x21, 0x21, 0x21, 0x21, 0x21, 0x21, 0x21, 0x21, 0x21, 0x04, 0x01,
    0x04, 0x01, 0x04, 0x01, 0x04, 0x01, 0x04, 0x01, 0x01, 0x01, 0x01, 0x01, 0x01, 0x01, 0x01, 0x01,
    0x01, 0x01, 0x01, 0x01, 0x01, 0x01, 0x01, 0x01, 0x01, 0x01, 0x01, 0x01, 0x01, 0x01, 0x01, 0x01,
    0x02, 0x01, 0x01, 0x01, 0x01, 0x01, 0x01, 0x01, 0x01, 0x01, 0x01, 0x01, 0x01, 0x01, 0x01, 0x01,
    0x01, 0x01, 0x01, 0x01, 0x01, 0x01, 0x01, 0x01, 0x01, 0x01, 0x01, 0x01, 0x01, 0x01, 0x01, 0x01,
    0x04, 0x01, 0x04, 0x01, 0x04, 0x01, 0x01, 0x01, 0x01, 0x01, 0x01, 0x04, 0x01, 0x01, 0x01, 0x02,
    0x01, 0x01, 0x04, 0x04, 0x00, 0x00, 0x00, 0x00, 0x00, 0x00, 0x00, 0x00, 0x00, 0x00, 0x00, 0x00,
    0x00, 0x00, 0x00, 0x00, 0x00, 0x00, 0x00, 0x00, 0x00, 0x00, 0x00, 0x00, 0x00, 0x00, 0x00, 0x00,
    0x00, 0x00, 0x00, 0x00, 0x00, 0x00, 0x00, 0x00, 0x00, 0x00, 0x00, 0x00, 0x00, 0x00, 0x00, 0x00,
    0x00, 0x00, 0x00, 0x00, 0x00, 0x00, 0x00, 0x00, 0x00, 0x00, 0x00, 0x00, 0x00, 0x00, 0x00, 0x00,
    0x00, 0x00, 0x00, 0x00, 0x00, 0x00, 0x00, 0x00, 0x00, 0x00, 0x00, 0x00, 0x00, 0x00, 0x00, 0x00,
    0x00, 0x00, 0x10, 0x10, 0x90, 0x90, 0x30, 0x30, 0x60, 0x20, 0x10, 0x20, 0x20, 0x20, 0x20, 0x00]

def chrtbl (c : UInt8) : UInt8 := chrtblTable.getD c.toNat 0

/-- A dependent code never starts a word. -/
def isdpnd (c : UInt8) : Bool := chrtbl c &&& depend ≠ 0

/-- The reading codes of the symbols in rows `0xa1` and `0xa2`. -/
def kigouTable : List UInt8 := [
    0xfa, 0xf2, 0xf3, 0xf4, 0xf5, 0xfa, 0xfa, 0xfa, 0xf7, 0xf7, 0xfc, 0xfc,
    0xfc, 0xfc, 0xfc, 0xfc, 0xfc, 0xfc, 0xfc, 0xfc, 0xfc, 0xfc, 0xfc, 0xfc,
    0xfc, 0xfc, 0xfc, 0x01, 0xfc, 0xfc, 0xfc, 0xfc, 0xfc, 0xfc, 0xfc, 0xfc,
    0xfc, 0xfa, 0xf6, 0xfa, 0xf6, 0xfa, 0xfb, 0xfa, 0xfb, 0xfa, 0xfb, 0xfa,
    0xfb, 0xfa, 0xfb, 0xfa, 0xfb, 0xfa, 0xfb, 0xfa, 0xfb, 0xfa, 0xfb, 0xfc,
    0xfc, 0xfc, 0xfc, 0xfc, 0xfc, 0xfc, 0xfc, 0xfc, 0xfc, 0xfc, 0xfc, 0xfc,
    0xfc, 0xfc, 0xfc, 0xfc, 0xfc, 0xf9, 0xf8, 0xf8, 0xf9, 0xf8, 0xf9, 0x02,
    0xfc, 0xfc, 0x03, 0xfc, 0xfc, 0xfc, 0xfc, 0xfc, 0xfc, 0xfc, 0xfc, 0xfc,
    0xfc, 0xfc, 0xfc, 0xfc, 0xfc, 0xfc, 0x04, 0xfc, 0xfc, 0xfc, 0xfc, 0xfc]

def kigou (i : ℕ) : UInt8 := kigouTable.getD i 0

end Sj3
