import Sj3.General.Bisect
import Sj3.Model.Dict

/-! # Code strings of the dictionary compiler (`sj3mkdic`)

Comparison of code strings (`string.c`), the table of the strings a segment has already
(`offset.c`) and the abbreviation of a string (`knjcvt.c`). A check that ends the program has
the result `none`. All strings consist of whole codes; `codesize` of `char.c` is the one of the
server. -/

namespace Sj3.Mkdic

def maxOffsetNumber : ℕ := 1000
def maxKnjAskNumber : ℕ := 16

/-! ## Tables -/

def stringCmp : Bytes → Bytes → ℤ
  | [], [] => 0
  | _ :: _, [] => 1
  | [], _ :: _ => -1
  | c₁ :: p₁, c₂ :: p₂ => if c₁ ≠ c₂ then (c₁.toNat : ℤ) - c₂.toNat else stringCmp p₁ p₂

/-- The search all tables share: whether `ptr` is there, and where it is or belongs. -/
def tableSearch {τ : Type*} (kptr : τ → Bytes) (tbl : List τ) (ptr : Bytes) : Bool × ℕ :=
  Bisect.search (fun mid => stringCmp ((tbl[mid]?).elim [] kptr) ptr) tbl.length 0 tbl.length

/-- A string and the number that stands for it. -/
structure OffsetRec where
  kptr : Bytes
  offset : ℕ
  deriving DecidableEq, Repr

def makeoffset (ofsrecNum : ℕ) (ptr : Bytes) (ofs : ℕ) : OffsetRec :=
  ⟨ptr, if ofs ≠ 0 then ofs else ofsrecNum + 1⟩

def setOfsrec (ofsrec : List OffsetRec) (ptr : Bytes) (ofs : ℕ) : Option (List OffsetRec) :=
  let found := tableSearch OffsetRec.kptr ofsrec ptr
  if found.1 then some ofsrec
  else if ofsrec.length ≥ maxOffsetNumber then none
  else some (ofsrec.insertIdx found.2 (makeoffset ofsrec.length ptr ofs))

/-- The number of the string, 0 if it is not in the table. -/
def isknjexist (ofsrec : List OffsetRec) (knj : Bytes) : ℕ :=
  let found := tableSearch OffsetRec.kptr ofsrec knj
  if found.1 then (ofsrec[found.2]?).elim 0 OffsetRec.offset else 0

/-- The number an offset code of the bytes `c` and `c'` names. -/
def offsetOf (c c' : UInt8) : ℕ := (c &&& kanjiCodeMask).toNat * 0x100 + c'.toNat

def realOfsrec (ofsrec : List OffsetRec) (c c' : UInt8) : Option OffsetRec :=
  ofsrec.find? fun p => p.offset = offsetOf c c'

/-! ## Abbreviation -/

/-- The code that names the number `num`. -/
def offsetCode (num : ℕ) : Bytes :=
  [offsetAssyuku ||| UInt8.ofNat ((num >>> 8) % 0x100), UInt8.ofNat num]

/-- The code that names the association string `i`. -/
def askCode (i : ℕ) : Bytes := [kanjiAssyuku ||| UInt8.ofNat i]

/-- Where the codes of a string end, the first of which is at `i`. -/
def codeEnds : ℕ → Bytes → List ℕ
  | _, [] => []
  | i, c :: knj =>
      if codesize c = 1 then (i + 1) :: codeEnds (i + 1) knj
      else
        match knj with
        | [] => [i + 2]
        | _ :: knj => (i + 2) :: codeEnds (i + 2) knj

/-- Codes and their length. -/
structure DivList where
  len : ℕ
  codes : List Bytes
  deriving DecidableEq, Repr

/-- The code `code`, and `rest` behind it. -/
def DivList.cons (code : Bytes) (rest : DivList) : DivList :=
  ⟨rest.len + code.length, code :: rest.codes⟩

/-- The shorter of what there is and another choice. -/
def DivList.choose (minrec tmprec : DivList) : DivList :=
  if tmprec.len < minrec.len then tmprec else minrec

/-- The shortest codes for `knj`: its first code, a string that is in the table or an association
string, and the shortest codes for what is behind. Every step takes a byte at least, so the
length of the string bounds their number. -/
def makeDivlist (ofsrec : List OffsetRec) (askknj : List Bytes) : ℕ → Bytes → DivList
  | 0, _ => ⟨0, []⟩
  | n + 1, knj =>
      if knj.length = 0 then ⟨0, []⟩
      else if knj.length = 1 then ⟨1, [knj]⟩
      else
        let behind (code : Bytes) (j : ℕ) : DivList :=
          .cons code (makeDivlist ofsrec askknj n (knj.drop j))
        let size := codesize (knj.headD 0)
        let minrec := behind (knj.take size) size
        let minrec := (codeEnds 0 knj).foldl (fun minrec j =>
          let num := isknjexist ofsrec (knj.take j)
          if j ≤ 2 ∨ num = 0 then minrec else minrec.choose (behind (offsetCode num) j)) minrec
        (askknj.zipIdx).foldl (fun minrec p =>
          let j := p.1.length
          if j > knj.length ∨ stringCmp p.1 (knj.take j) ≠ 0 then minrec
          else minrec.choose (behind (askCode p.2) j)) minrec

/-- The codes in a row; their length is checked. -/
def knjcvt (ofsrec : List OffsetRec) (askknj : List Bytes) (ptr : Bytes) : Option Bytes :=
  let list := makeDivlist ofsrec askknj ptr.length ptr
  if list.len ≠ list.codes.flatten.length then none else some list.codes.flatten

/-- Before the association strings are known. -/
def knjofscvt (ofsrec : List OffsetRec) (ptr : Bytes) : Bytes :=
  (makeDivlist ofsrec [] ptr.length ptr).codes.flatten

/-! ## Strings without offsets -/

/-- The copy `make_knjstr` makes of a string; `ofsask` is what it puts for an offset code. -/
def copyCodes (ofsask : UInt8 → UInt8 → Option Bytes) : Bytes → Option Bytes
  | [] => some []
  | c :: src =>
      let mode := c &&& kanjiModeMask
      if mode = zenHiraAssyuku ∨ mode = zenKataAssyuku ∨ mode = kanjiAssyuku ∨
          mode = kanjiStrEnd then (copyCodes ofsask src).map (c :: ·)
      else if mode = leadingHankaku then none
      else
        match src with
        | [] => none
        | c' :: src =>
            if mode = offsetAssyuku then
              (ofsask c c').bind fun s => (copyCodes ofsask src).map (s ++ ·)
            else (copyCodes ofsask src).map (c :: c' :: ·)

/-- A string from the table must not refer to another one. -/
def setOfsask (ofsrec : List OffsetRec) (c c' : UInt8) : Option Bytes :=
  (realOfsrec ofsrec c c').bind fun ofsrec => copyCodes (fun _ _ => none) ofsrec.kptr

def makeKnjstr (ofsrec : List OffsetRec) (src : Bytes) : Option Bytes :=
  copyCodes (setOfsask ofsrec) src

end Sj3.Mkdic
