import Sj3.General.Buffer
import Sj3.Model.Text

/-! # Study records

The study table of `study.c` and the part of the clause-study area (`clstudy.c`) that
registration touches. The live records of the table are a list; the table itself has room
for `stdymax` of them. -/

namespace Sj3

open Buffer

/-- The value of a C `short`. -/
def short (n : ℤ) : ℤ := (n + 0x8000) % 0x10000 - 0x8000

/-- The value of a C `unsigned short`. -/
def ushort (n : ℤ) : ℕ := (n % 0x10000).toNat

structure StdyIn where
  offset : ℕ
  seg : ℤ
  styno : ℤ
  dicid : ℕ
  sttkj : Bool
  ka_kj : Bool
  nmflg : Bool
  deriving DecidableEq, Repr

/-- What a client sends to have a candidate studied, as far as `study` reads it. -/
structure StdyOut where
  stdy1 : StdyIn
  sttfg : Bool
  ka_fg : Bool
  deriving DecidableEq, Repr

structure Stdy where
  stdymax : ℕ
  stdydic : List StdyIn
  clstdystep : ℕ
  clstdyidx : List ℕ
  clstdydic : Bytes
  deriving DecidableEq, Repr

namespace Stdy

def stdycnt (s : Stdy) : ℕ := s.stdydic.length

/-! ## Searching a record -/

/-- The bisection of `srchstdy` for a record of segment `seg`. -/
def bisect (recs : List StdyIn) (seg : ℤ) : ℕ → ℤ → ℤ → Option ℕ
  | 0, _, _ => none
  | n + 1, low, high =>
      let mid := (low + high) / 2
      match recs[mid.toNat]? with
      | none => none
      | some r =>
          if r.seg > seg then if low > mid - 1 then none else bisect recs seg n low (mid - 1)
          else if r.seg < seg then
            if mid + 1 > high then none else bisect recs seg n (mid + 1) high
          else some mid.toNat

/-- The walk of `srchstdy` towards the front, over the records met on the way. -/
def walkDown (seg : ℤ) (ofs dicid : ℕ) : List StdyIn → Option ℕ
  | [] => none
  | r :: front =>
      if r.seg ≠ seg then none
      else if r.offset < ofs then none
      else if r.dicid = dicid ∧ r.offset = ofs then some front.length
      else walkDown seg ofs dicid front

/-- The walk of `srchstdy` from index `i` towards the end. -/
def walkUp (seg : ℤ) (ofs dicid : ℕ) : List StdyIn → ℕ → Option ℕ
  | [], _ => none
  | r :: recs, i =>
      if r.seg ≠ seg then none
      else if r.offset > ofs then none
      else if r.dicid = dicid ∧ r.offset = ofs then some i
      else walkUp seg ofs dicid recs (i + 1)

/-- The index of the record of a word. -/
def srchstdy (s : Stdy) (seg : ℤ) (ofs dicid : ℕ) : Option ℕ :=
  if s.stdycnt = 0 ∨ ofs = 0 then none
  else
    match bisect s.stdydic seg (s.stdycnt + 1) 0 ((s.stdycnt : ℤ) - 1) with
    | none => none
    | some mid =>
        match walkDown seg ofs dicid (s.stdydic.take (mid + 1)).reverse with
        | some i => some i
        | none => walkUp seg ofs dicid (s.stdydic.drop (mid + 1)) (mid + 1)

/-! ## Studying a word -/

inductive StudyRet where
  | normEnd
  | notStudy
  | fullArea
  | error
  deriving DecidableEq, Repr

/-- Number 1 for the record at index `i`, one more for those that were in front of it. -/
def restudy (recs : List StdyIn) (i : ℕ) (outp : StdyOut) : List StdyIn :=
  match recs[i]? with
  | none => recs
  | some p1 =>
      (recs.map fun r =>
        if r.styno < p1.styno then { r with styno := short (r.styno + 1) } else r).modify i
        fun r =>
          { r with
            styno := 1
            sttkj := if outp.sttfg then outp.stdy1.sttkj else r.sttkj
            ka_kj := if outp.ka_fg then outp.stdy1.ka_kj else r.ka_kj
            nmflg := outp.stdy1.nmflg }

/-- The ageing loop of a full table: every record gets one more, and the last of those
with the highest new number is the one to leave, if that number is above `wi`. -/
def age : List StdyIn → ℕ → ℤ → Option ℕ → List StdyIn × Option ℕ
  | [], _, _, p2 => ([], p2)
  | r :: recs, i, wi, p2 =>
      let nm := short (r.styno + 1)
      let rest := if nm > wi then age recs (i + 1) nm (some i) else age recs (i + 1) wi p2
      ({ r with styno := nm } :: rest.1, rest.2)

/-- The place of a new record: behind those of lower segments, and in its segment behind
those at lower or equal offsets. -/
def insertPos (recs : List StdyIn) (seg : ℤ) (ofs : ℕ) : ℕ :=
  let below := recs.takeWhile fun r => r.seg < seg
  let same := (recs.drop below.length).takeWhile fun r => r.seg = seg ∧ ¬ r.offset > ofs
  below.length + same.length

def insertRec (recs : List StdyIn) (outp : StdyOut) : List StdyIn :=
  let i := insertPos recs outp.stdy1.seg outp.stdy1.offset
  recs.take i ++
    { outp.stdy1 with
      styno := 1
      sttkj := if outp.sttfg then outp.stdy1.sttkj else false
      ka_kj := if outp.ka_fg then outp.stdy1.ka_kj else false } :: recs.drop i

def study (s : Stdy) (outp : StdyOut) : Stdy × StudyRet :=
  if outp.stdy1.offset = 0 then (s, .notStudy)
  else
    match s.srchstdy outp.stdy1.seg outp.stdy1.offset outp.stdy1.dicid with
    | some i => ({ s with stdydic := restudy s.stdydic i outp }, .normEnd)
    | none =>
        if s.stdycnt ≥ s.stdymax then
          match age s.stdydic 0 0 none with
          | (recs, some p2) =>
              ({ s with stdydic := insertRec (recs.eraseIdx p2) outp }, .fullArea)
          | (recs, none) => ({ s with stdydic := recs }, .error)
        else
          let recs := s.stdydic.map fun r => { r with styno := short (r.styno + 1) }
          ({ s with stdydic := insertRec recs outp }, .normEnd)

/-! ## Clause study -/

/-- The end of the clause records; a pointer is the rest of the area from it on. -/
def iseocl (p : Bytes) : Bool := p.headD 0 = 0

def clHdLen : ℕ := 5

def clYomiLen (p : Bytes) : ℕ := (p.headD 0).toNat
def clBlkLen (p : Bytes) : ℕ := clYomiLen p + clHdLen
def clGetNum (p : Bytes) : ℕ := (p.getD 3 0).toNat * 0x100 + (p.getD 4 0).toNat
def clYomiPos (p : Bytes) : Bytes := p.drop clHdLen
def clNextTag (p : Bytes) : Bytes := p.drop (clBlkLen p)

/-- One less for every record whose number is above `num`. -/
def clRenum (num : ℕ) : ℕ → Bytes → Bytes
  | 0, p => p
  | n + 1, p =>
      if iseocl p then p
      else
        let tmp := clGetNum p
        let head :=
          if tmp > num then
            p.take 3 ++ [UInt8.ofNat ((tmp - 1) >>> 8), UInt8.ofNat (tmp - 1)]
          else p.take clHdLen
        head ++ (clYomiPos p).take (clYomiLen p) ++ clRenum num n (clNextTag p)

/-- Remove the clause record at `target`, which is the end of the area from there on. -/
def delclsub (clstdydic target : Bytes) : Bytes :=
  let num := clGetNum target
  let len := clBlkLen target
  let ofs := clstdydic.length - target.length
  let buf := copyAsc clstdydic (ofs + len) ofs (clstdydic.length - (ofs + len))
  let buf := overwrite buf (clstdydic.length - len) (List.replicate len 0)
  clRenum num clstdydic.length buf

/-- The first clause record from `p` on whose first code is at least `st`. -/
def clSkip (st : ℕ) : ℕ → Bytes → Bytes
  | 0, p => p
  | n + 1, p =>
      if iseocl p then p
      else if ((clYomiPos p).headD 0).toNat ≥ st then p
      else clSkip st n (clNextTag p)

def mkclidxLoop (step total : ℕ) : ℕ → ℕ → Bytes → List ℕ
  | 0, _, _ => []
  | n + 1, st, ptr =>
      if st < 0x100 then
        let ptr := clSkip st total ptr
        (if clYomiLen ptr ≠ 0 ∧ ((clYomiPos ptr).headD 0).toNat < st + step
          then total - ptr.length else 0xffff) :: mkclidxLoop step total n (st + step) ptr
      else []

def mkclidx (s : Stdy) : Stdy :=
  let idx := mkclidxLoop s.clstdystep s.clstdydic.length 0x100 0 s.clstdydic
  { s with clstdyidx := idx ++ s.clstdyidx.drop idx.length }

/-- The first clause record whose whole reading starts `yomi`, sought in reading order. -/
def clFind (yomi : Bytes) : ℕ → Bytes → Option Bytes
  | 0, _ => none
  | n + 1, p =>
      if iseocl p then none
      else
        match sstrncmp yomi (clYomiPos p) (clYomiLen p) with
        | .match => some p
        | .over => none
        | _ => clFind yomi n (clNextTag p)

/-- The loop of `dic_cl`: the records it hands to `setcrec`, from the one at `p` on. -/
def dicClLoop (cnvstart : Bytes) : ℕ → Bytes → List Bytes
  | 0, _ => []
  | n + 1, p =>
      if iseocl p then []
      else
        let len := clYomiLen p
        match sstrncmp cnvstart (clYomiPos p) len with
        | .match =>
            if isdpnd (cnvstart.getD len 0) then dicClLoop cnvstart n (clNextTag p)
            else p :: dicClLoop cnvstart n (clNextTag p)
        | .over => []
        | _ => dicClLoop cnvstart n (clNextTag p)

/-- The clause records that may start the reading at `cnvstart`, in the order in which they
are handed to `setcrec`; there are none without study data. -/
def dicCl (curstdy : Option Stdy) (cnvstart : Bytes) : List Bytes :=
  match curstdy with
  | none => []
  | some s =>
      let pos := s.clstdyidx.getD ((cnvstart.headD 0).toNat / s.clstdystep) 0xffff
      if pos ≠ 0xffff then
        dicClLoop cnvstart s.clstdydic.length (s.clstdydic.drop pos)
      else []

/-- A newly registered reading makes the clause record it starts with obsolete. -/
def forgetClause (s : Stdy) (yomi : Bytes) : Stdy :=
  match clFind yomi s.clstdydic.length s.clstdydic with
  | some p => mkclidx { s with clstdydic := delclsub s.clstdydic p }
  | none => s

/-! ## Following the edits of a dictionary -/

/-- Registration moved the bytes of segment `seg` from `dstofs` on by `size`. -/
def shiftOffsets (dicid : ℕ) (seg : ℤ) (dstofs : ℕ) (size : ℤ) (s : Stdy) : Stdy :=
  { s with stdydic := s.stdydic.map fun r =>
      if r.dicid = dicid ∧ r.seg = seg ∧ r.offset ≥ dstofs then
        { r with offset := ushort (r.offset + size) }
      else r }

/-- Segment `seg` was split at `ofs`; the second half moved `j` bytes to the front. -/
def splitSegs (dicid : ℕ) (seg : ℤ) (ofs : ℕ) (j : ℤ) (s : Stdy) : Stdy :=
  { s with stdydic := s.stdydic.map fun r =>
      if r.dicid ≠ dicid then r
      else if r.seg < seg then r
      else if r.seg > seg then { r with seg := short (r.seg + 1) }
      else if r.offset ≥ ofs then
        { r with seg := short (r.seg + 1), offset := ushort (r.offset - j) }
      else r }

/-- The scan of `del_stdy` and `del_segment`: `upd` says what becomes of a record, `none`
that it is removed. The number of the last removed record is handed on. -/
def delScan (upd : StdyIn → Option StdyIn) : List StdyIn → ℤ → List StdyIn × ℤ
  | [], stdynum => ([], stdynum)
  | r :: recs, stdynum =>
      match upd r with
      | some r' =>
          let rest := delScan upd recs stdynum
          (r' :: rest.1, rest.2)
      | none => delScan upd recs r.styno

/-- One less for every record whose number is above `stdynum`. -/
def closeNumbers (stdynum : ℤ) (recs : List StdyIn) : List StdyIn :=
  recs.map fun r => if r.styno > stdynum then { r with styno := short (r.styno - 1) } else r

/-- The word at `ofs` of segment `seg` was deleted and the bytes behind it moved `size`
towards the front. -/
def delStdy (dicid : ℕ) (seg : ℤ) (ofs : ℕ) (size : ℤ) (s : Stdy) : Stdy :=
  let r := delScan (fun r =>
    if r.dicid ≠ dicid then some r
    else if r.seg ≠ seg then some r
    else if r.offset > ofs then some { r with offset := ushort (r.offset - size) }
    else if r.offset = ofs then none
    else some r) s.stdydic 0
  { s with stdydic := closeNumbers r.2 r.1 }

/-- Segment `seg` was deleted. `stdynum` is read without having been set when no record
is removed: `garbage` is what it then holds. -/
def delSegStdy (dicid : ℕ) (seg : ℤ) (garbage : ℤ) (s : Stdy) : Stdy :=
  let r := delScan (fun r =>
    if r.dicid ≠ dicid then some r
    else if r.seg > seg then some { r with seg := short (r.seg - 1) }
    else if r.seg < seg then some r
    else none) s.stdydic garbage
  { s with stdydic := closeNumbers r.2 r.1 }

end Stdy

end Sj3
