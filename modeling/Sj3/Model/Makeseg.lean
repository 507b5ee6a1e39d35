import Sj3.Model.DictFile
import Sj3.Model.Mkdic

/-! # Segments of the dictionary compiler (`makeseg.c`)

The records of a segment, the bytes they become, and the file the segments and their index make
up. -/

namespace Sj3.Mkdic

open Buffer

def mainSegmentLength : ℕ := 2048
def mainIndexLength : ℕ := 2048

/-- A kanji string and, once it is counted, its codes. -/
structure KanjiRec where
  kptr : Bytes
  aptr : Bytes
  deriving DecidableEq, Repr

structure HinsiRec where
  hinsi : ℕ
  krec : List KanjiRec
  deriving DecidableEq, Repr

/-- The words of a reading; `dlen` is how much of the reading the segment gets. -/
structure DouonRec where
  yptr : Bytes
  dlen : ℕ
  hrec : List HinsiRec
  deriving DecidableEq, Repr

/-! ## Writing -/

/-- What is written to the segment, and where the strings in it are. -/
structure SegBuf where
  buf : Bytes
  ofsrec : List OffsetRec
  deriving DecidableEq, Repr

def datset (o : SegBuf) (i : UInt8) : Option SegBuf :=
  if o.buf.length ≥ mainSegmentLength then none else some { o with buf := o.buf ++ [i] }

def datsets (o : SegBuf) (p : Bytes) : Option SegBuf := p.foldlM datset o

def putKrec (askknj : List Bytes) (o : SegBuf) (krec : KanjiRec) : Option SegBuf := do
  let p ← knjcvt o.ofsrec askknj krec.kptr
  let ofsrec ← setOfsrec o.ofsrec krec.kptr o.buf.length
  datsets { o with ofsrec := ofsrec } (p ++ [kanjiStrEnd])

def putHrec (askknj : List Bytes) (o : SegBuf) (hrec : HinsiRec) : Option SegBuf := do
  let o ← datset o (UInt8.ofNat hrec.hinsi)
  let o ← hrec.krec.foldlM (putKrec askknj) o
  datset o hinsiBlkTerm

/-- The header of a block of `size` bytes. -/
def segHeader (size dlen slen : ℕ) : Bytes :=
  [(UInt8.ofNat (size >>> 8) &&& (0x0f : UInt8)) ||| (if dlen > 0x0f then (0x40 : UInt8) else 0) |||
      (if slen > 0x0f then (0x80 : UInt8) else 0),
    UInt8.ofNat size,
    (UInt8.ofNat dlen &&& (0x0f : UInt8)) ||| ((UInt8.ofNat slen <<< 4) &&& (0xf0 : UInt8))]

def putDrec (askknj : List Bytes) (o : SegBuf) (drec : DouonRec) : Option SegBuf := do
  let sdst := o.buf.length
  let slen := drec.yptr.length - drec.dlen
  -- the bytes of the header are left out for now
  let o ← datsets { o with buf := o.buf ++ List.replicate douonBlkSizeNumber 0 }
    (drec.yptr.drop slen)
  let o ← drec.hrec.foldlM (putHrec askknj) o
  some { o with
    buf := overwrite o.buf sdst (segHeader (o.buf.length - sdst) drec.dlen slen) }

/-- The association strings of a segment without offsets, with their length in front. -/
def putAsk (askknj : List Bytes) : Option SegBuf := do
  let tlen := (askknj.map fun p => p.length + 1).sum
  if tlen ≥ 0x100 then none
  let o ← datset ⟨[], []⟩ (UInt8.ofNat tlen)
  askknj.foldlM (fun o p => datsets o (p ++ [kanjiStrEnd])) o

/-- A segment that is full has no terminator. -/
def putTerm (o : SegBuf) : Option SegBuf :=
  if o.buf.length < mainSegmentLength then datset o dicSegTerm else some o

/-- The segment of the records `douon`; the association strings are without offsets. -/
def segImage (askknj : List Bytes) (douon : List DouonRec) : Option Bytes := do
  let o ← putAsk askknj
  let o ← douon.foldlM (putDrec askknj) o
  let o ← putTerm o
  some (o.buf ++ List.replicate (mainSegmentLength - o.buf.length) dicSegTerm)

/-! ## The file -/

/-- The index so far and the segments so far. -/
structure Written where
  mindex : Bytes
  segs : List Bytes
  deriving DecidableEq, Repr

/-- The index gets the reading of a segment, as long as another byte has room behind it. -/
def putIndex (mindex yptr : Bytes) : Option Bytes :=
  if mindex.length + (yptr.length + 1) < mainIndexLength then some (mindex ++ (yptr ++ [0]))
  else none

/-- Write a segment; `askknj` are the chosen association strings, which may be offset codes of
the table `ofsrec`. -/
def makeseg (w : Written) (ofsrec : List OffsetRec) (askknj : List Bytes)
    (douon : List DouonRec) : Option Written := do
  let askknj ← askknj.mapM (makeKnjstr ofsrec)
  let seg ← segImage askknj douon
  let mindex ← putIndex w.mindex ((douon.head?).elim [] DouonRec.yptr)
  some ⟨mindex, w.segs ++ [seg]⟩

/-- The file, with the header `makehead` puts in front; the text `comment` has the name of the
file and the time. -/
def makehead (comment : Bytes) (w : Written) : Bytes :=
  let i := headerLength + commentLength
  let header := List.replicate (headerLength + commentLength) 0
  let header := overwrite header versionPos (put4byte dictVersion)
  let header := overwrite header headerLength comment
  let header := overwrite header dictIdxPos (put4byte i)
  let header := overwrite header dictIdxLen (put4byte mainIndexLength)
  let i := i + mainIndexLength
  let header := overwrite header dictSegPos (put4byte i)
  let header := overwrite header dictSegLen (put4byte mainSegmentLength)
  let header := overwrite header dictSegMax (put4byte 0)
  let header := overwrite header dictSegNum (put4byte w.segs.length)
  header ++ ((w.mindex ++ List.replicate (mainIndexLength - w.mindex.length) 0) ++ w.segs.flatten)

end Sj3.Mkdic
