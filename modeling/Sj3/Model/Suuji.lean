import Mathlib.Tactic.Common
import Sj3.Model.Kouho
import Sj3.Model.Text

/-! # Numerals

The digits of a number are packed into words (`srchnum.c`), four in a word, and printed from
there in three ways (`mknumber.c`). In a word a digit is one more than its value, and zero is no
digit at all. -/

namespace Sj3

def numketalength : ℕ := 16

def numwordbuf : ℕ := 4

def num0 : ℕ := 0x01
def num1 : ℕ := 0x02
def num2 : ℕ := 0x03
def num3 : ℕ := 0x04
def num1s : ℕ := 0x0b

def numbers1 : ℕ := 1 <<< num1s
def number01 : ℕ := 1 <<< num0 ||| 1 <<< num1 ||| 1 <<< num1s
def number23 : ℕ := 1 <<< num2 ||| 1 <<< num3

/-! ## Packing -/

/-- The place that `check_num` has come to, and what it knows so far. -/
structure NumState where
  wbuf : List UInt16
  hketa : ℕ
  lketa : ℕ
  flag : UInt16
  flg : Bool
  cnt : ℕ
  tmp : ℕ
  deriving DecidableEq, Repr

namespace NumState

/-- `suuji_wbuf[hketa] |= x << (lketa * 4)` -/
def put (s : NumState) (x : ℕ) : NumState :=
  { s with wbuf := s.wbuf.modify s.hketa (· ||| UInt16.ofNat (x <<< (s.lketa * 4))) }

/-- `if (++lketa >= 4) lketa = 0, hketa++` -/
def next (s : NumState) : NumState :=
  if s.lketa + 1 ≥ 4 then { s with lketa := 0, hketa := s.hketa + 1 }
  else { s with lketa := s.lketa + 1 }

theorem hketa_next (s : NumState) :
    s.next.hketa = if s.lketa + 1 ≥ 4 then s.hketa + 1 else s.hketa := by
  rw [next]
  split <;> rfl

theorem lketa_next (s : NumState) :
    s.next.lketa = if s.lketa + 1 ≥ 4 then 0 else s.lketa + 1 := by
  rw [next]
  split <;> rfl

def fillLarge (j : ℕ) (s : NumState) : NumState :=
  let s' := (s.put num0).next
  if j > s'.hketa then fillLarge j s' else s'
termination_by (j - s.hketa, 4 - s.lketa)
decreasing_by
  have h : j > (s.put num0).next.hketa := ‹_›
  have hhigh : (s.put num0).hketa = s.hketa := rfl
  have hlow : (s.put num0).lketa = s.lketa := rfl
  rw [hketa_next, hhigh, hlow] at h
  rw [hketa_next, lketa_next, hhigh, hlow]
  by_cases hwrap : s.lketa + 1 ≥ 4
  · rw [if_pos hwrap] at h ⊢
    exact Prod.Lex.left _ _ (by omega)
  · rw [if_neg hwrap, if_neg hwrap]
    exact Prod.Lex.right _ (by omega)

def fillSmall (k : ℕ) (s : NumState) : NumState :=
  let s' := { s.put num0 with lketa := s.lketa + 1 }
  if k > s'.lketa then fillSmall k s' else s'
termination_by k - s.lketa
decreasing_by
  have h : k > s.lketa + 1 := ‹_›
  omega

/-- Up to the group of a large mark. -/
def large (s : NumState) (j : ℕ) : Option NumState :=
  if j = 0 then some s
  else if j < s.hketa then none
  else if j > s.hketa then some ({ s with flag := s.flag ||| jflagN01 }.fillLarge j)
  else some s

/-- Up to the place of a small mark. -/
def small (s : NumState) (j k : ℕ) : Option NumState :=
  if j ≠ 0 ∨ k ≠ 0 then
    if k < s.lketa then none
    else
      let s :=
        if k > s.lketa then { s with flag := s.flag ||| jflagN01 }.fillSmall k else s
      some { s with flg := true }
  else some s

/-- What a digit says about the number. -/
def digitFlag (s : NumState) (tmp : ℕ) : UInt16 :=
  let j := 1 <<< tmp
  (if j &&& numbers1 ≠ 0 then jflagNS1 else 0) |||
    (if j &&& number01 ≠ 0 then jflagN01 else 0) |||
    (if j &&& number23 ≠ 0 then jflagN23 else 0) |||
    (if tmp ≠ num0 then
      if s.lketa = 0 ∧ tmp = num1 then jflagN_1
      else if s.lketa = 1 then jflagN10
      else 0
    else 0)

/-- One turn of the loop, or none when `check_num` returns `FALSE`. -/
def turn (s : NumState) (c : UInt8) : Option NumState :=
  if s.hketa ≥ 4 then none
  else
    let j := (c.toNat >>> 6) &&& 3
    let k := (c.toNat >>> 4) &&& 3
    (s.large j).bind fun s =>
      (s.small j k).map fun s =>
        let tmp := c.toNat &&& 0x0f
        { s.put tmp with
          cnt := s.cnt + 1
          flag := s.flag ||| s.digitFlag tmp
          flg := if tmp ≠ num0 then false else s.flg
          tmp := tmp }.next

end NumState

/-- The words and the flags for `setnrec` when it returns `TRUE`. The first `suuji_keta` bytes of
`suuji_ubuf` are given, and `tmp` is what the variable holds when there are none. -/
def checkNum (ubuf : Bytes) (tmp : ℕ) : Option (List UInt16 × UInt16) :=
  (ubuf.reverse.foldlM NumState.turn ⟨List.replicate numwordbuf 0, 0, 0, 0, false, 0, tmp⟩).bind
    fun s =>
      if s.flg then none
      else
        some (s.wbuf,
          s.flag |||
            (if ubuf.length = 1 ∨ s.tmp ≠ num0 then jflagNN0 else 0) |||
            (if s.hketa ≠ 0 then jflagNK4 ||| jflagNK2
              else if s.lketa > 1 then jflagNK2 else 0) |||
            (if s.cnt > 1 then jflagNSN else 0))

/-! ## Tables -/

def num1tbl : Bytes :=
  [0xa3, 0xb0, 0xa3, 0xb1, 0xa3, 0xb2, 0xa3, 0xb3, 0xa3, 0xb4, 0xa3, 0xb5, 0xa3, 0xb6,
   0xa3, 0xb7, 0xa3, 0xb8, 0xa3, 0xb9, 0xa3, 0xb1, 0xbf, 0xf4, 0xb2, 0xbf]

def num2tbl : Bytes :=
  [0xa1, 0xbb, 0xb0, 0xec, 0xc6, 0xf3, 0xbb, 0xb0, 0xbb, 0xcd, 0xb8, 0xde, 0xcf, 0xbb,
   0xbc, 0xb7, 0xc8, 0xac, 0xb6, 0xe5, 0xb0, 0xec, 0xbf, 0xf4, 0xb2, 0xbf]

def num3tbl : Bytes :=
  [0xce, 0xed, 0xb0, 0xed, 0xc6, 0xf5, 0xbb, 0xb2, 0xbb, 0xcd, 0xb8, 0xde, 0xcf, 0xbb,
   0xbc, 0xb7, 0xc8, 0xac, 0xb6, 0xe5, 0xb0, 0xed, 0xbf, 0xf4, 0xb2, 0xbf]

def num4tbl : Bytes := [0xc0, 0xe9, 0xc9, 0xb4, 0xbd, 0xbd, 0]

def num5tbl : Bytes := [0xc0, 0xe9, 0xc9, 0xb4, 0xbd, 0xa6, 0]

def num6tbl : Bytes := [0xc3, 0xfb, 0xb2, 0xaf, 0xcb, 0xfc, 0]

def commahigh : UInt8 := 0xa1
def commalow : UInt8 := 0xa4

/-- The two bytes of a table at an offset. -/
def tblChar (tbl : Bytes) (i : ℕ) : Bytes := [tbl.getD i 0, tbl.getD (i + 1) 0]

/-! ## Printing -/

/-- What `word2char` has written, and what is left of the word. -/
structure WordState where
  kanjitmp : Bytes
  wd : ℕ
  keta : ℤ
  flg : Bool
  deriving DecidableEq, Repr

def wordMask (tbl : Bytes) (s : WordState) (mask : ℕ) : WordState :=
  let num := s.wd / mask
  let s :=
    if num = 0 ∨ (num = num0 ∧ ¬s.flg) then s
    else
      { s with
        kanjitmp := s.kanjitmp ++ tblChar tbl ((num - num0) * 2) ++
          (if s.keta ≠ 0 ∧ s.keta.tmod 3 = 0 then [commahigh, commalow] else [])
        flg := true }
  { s with
    keta := if s.keta ≠ 0 then s.keta - 1 else s.keta
    wd := s.wd &&& (mask - 1) }

/-- What it writes behind `kanjitmp`, and the value. -/
def word2char (kanjitmp : Bytes) (wd : ℕ) (tbl : Bytes) (keta : ℤ) (flg : Bool) : Bytes × Bool :=
  let s := [0x1000, 0x100, 0x10, 0x1].foldl (wordMask tbl) ⟨kanjitmp, wd, keta, flg⟩
  (s.kanjitmp, s.flg)

/-- The loop of `words2num`; the words come from the last to the first. -/
def words2numLoop (tbl : Bytes) : List UInt16 → Bytes → ℤ → Bool → Bytes
  | [], kanjitmp, _, _ => kanjitmp
  | w :: wd, kanjitmp, keta, flg =>
      let r := word2char kanjitmp w.toNat tbl keta flg
      words2numLoop tbl wd r.1 (if keta ≠ 0 then keta - 4 else keta) r.2

/-- The text of a number, with commas or without. -/
def words2num (wd : List UInt16) (tbl : Bytes) (flgc : Bool) : Bytes :=
  let kanjitmp :=
    if flgc then words2numLoop tbl wd.reverse [] (numketalength - 1) false
    else words2numLoop tbl wd.reverse [] 0 true
  if kanjitmp = [] then tblChar tbl 0 else kanjitmp

/-- The loop of `kan_num`. `kurai1` and `kurai2` are offsets in their tables. -/
structure KanState where
  kanjitmp : Bytes
  wd : List UInt16
  tmp : ℕ
  mask : ℕ
  flg : Bool
  kurai1 : ℕ
  kurai2 : ℤ
  deriving DecidableEq, Repr

/-- A new word. -/
def KanState.word (s : KanState) : KanState :=
  { kanjitmp := s.kanjitmp ++ (if s.flg then tblChar num6tbl s.kurai2.toNat else [])
    wd := s.wd.tail
    tmp := (s.wd.headD 0).toNat
    mask := 0x1000
    flg := false
    kurai1 := 0
    kurai2 := s.kurai2 + 2 }

/-- A digit of the word. -/
def KanState.digit (tbl1 tbl2 : Bytes) (s : KanState) : KanState :=
  let num := s.tmp / s.mask
  let unit := tbl2.getD s.kurai1 0
  let s :=
    if num > num0 then
      { s with
        kanjitmp := s.kanjitmp ++
          (if num ≠ num1 ∨ unit = 0 then tblChar tbl1 ((num - num0) * 2) else []) ++
          (if unit ≠ 0 then tblChar tbl2 s.kurai1 else [])
        kurai1 := if unit ≠ 0 then s.kurai1 + 2 else s.kurai1
        flg := true }
    else { s with kurai1 := s.kurai1 + 2 }
  { s with
    tmp := s.tmp &&& (s.mask - 1)
    mask := s.mask >>> 4 }

def KanState.turn (tbl1 tbl2 : Bytes) (s : KanState) : KanState :=
  (if s.mask = 0 then s.word else s).digit tbl1 tbl2

def kanNum (wd : List UInt16) (tbl1 tbl2 : Bytes) : Bytes :=
  let s := (KanState.turn tbl1 tbl2)^[numketalength] ⟨[], wd.reverse, 0, 0, false, 0, -2⟩
  if s.kanjitmp = [] then tblChar tbl1 0 else s.kanjitmp

end Sj3
