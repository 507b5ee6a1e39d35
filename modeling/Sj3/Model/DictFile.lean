import Sj3.General.Buffer
import Sj3.Model.Fullpath
import Sj3.Model.Makedict

/-! # Dictionary files (`sdepend.c`)

The file `makedict` writes and the record `opendict` makes of a file. Every file operation
and every `malloc` succeeds. -/

namespace Sj3

open Buffer

def versionPos : ℕ := 0
def passwdPos : ℕ := 16
def passwdLen : ℕ := 16
def dictIdxPos : ℕ := 32
def dictIdxLen : ℕ := 36
def dictSegPos : ℕ := 48
def dictSegLen : ℕ := 52
def dictSegNum : ℕ := 56
def dictSegMax : ℕ := 60
def headerLength : ℕ := 128
def commentLength : ℕ := 128

/-- The characters `D` and the number 2 in the two highest bytes. -/
def dictVersion : ℕ := 0x44 * 2 ^ (8 * 3) + 2 * 2 ^ (8 * 2)

/-- A `long` of 64 bits is never negative here. -/
def get4byte (p : Bytes) : ℕ :=
  let i := (p.getD 0 0).toNat
  let i := i <<< 8 + (p.getD 1 0).toNat
  let i := i <<< 8 + (p.getD 2 0).toNat
  i <<< 8 + (p.getD 3 0).toNat

/-- The four bytes `put4byte` writes. -/
def put4byte (n : ℕ) : Bytes :=
  [UInt8.ofNat (n >>> 8 >>> 8 >>> 8), UInt8.ofNat (n >>> 8 >>> 8), UInt8.ofNat (n >>> 8),
    UInt8.ofNat n]

/-- The file of a new dictionary; `none` for a geometry that is not accepted. -/
def makedictFile (idxlen seglen segnum : ℤ) : Option Bytes :=
  if idxlen < minIdxLen ∨ seglen < minSegLen ∨ segnum < minSegNum then none
  else
    let pos := headerLength + commentLength
    let tmp := List.replicate (headerLength + commentLength) 0
    let tmp := overwrite tmp versionPos (put4byte dictVersion)
    let tmp := overwrite tmp dictIdxPos (put4byte pos)
    let tmp := overwrite tmp dictIdxLen (put4byte idxlen.toNat)
    let pos := pos + idxlen.toNat
    let tmp := overwrite tmp dictSegPos (put4byte pos)
    let tmp := overwrite tmp dictSegLen (put4byte seglen.toNat)
    let tmp := overwrite tmp dictSegNum (put4byte 1)
    let tmp := overwrite tmp dictSegMax (put4byte segnum.toNat)
    some (tmp ++ (List.replicate idxlen.toNat 0 ++
      (0 :: List.replicate (seglen.toNat - 1) dicSegTerm)))

def checkDictfile (buf : Bytes) : Bool := get4byte (buf.drop versionPos) = dictVersion

def checkPasswd (buf passwd : Bytes) : Bool :=
  ¬ ((buf.drop passwdPos).headD 0 ≠ 0 ∧ strncmp passwd (buf.drop passwdPos) passwdLen ≠ 0)

/-- `DICT` and `DictFile`, with the lengths in the types they have there. -/
structure DictRecord where
  dicid : ℕ
  idxlen : UInt16
  seglen : UInt16
  segunit : Int16
  maxunit : Int16
  buffer : Bytes
  idxstrt : ℕ
  segstrt : ℕ
  ofsptr : List UInt16
  deriving DecidableEq

namespace DictRecord

/-- The bytes from `idxbuf` on. -/
def getidx (d : DictRecord) : Bytes := d.buffer.drop d.idxstrt

def mkidxtbl (d : DictRecord) : DictRecord :=
  let idxofs := Dict.mkidxtblLoop d.segunit.toInt.toNat 0 (d.getidx.take d.idxlen.toNat)
  { d with ofsptr := idxofs.map UInt16.ofNat }

/-- The offset of a segment in the file and in memory. -/
def segpos (d : DictRecord) (seg : ℕ) : ℕ := d.segstrt + d.seglen.toNat * seg

/-- The dictionary as its users see it. -/
def toDict (d : DictRecord) : Dict where
  dicid := d.dicid
  idxlen := d.idxlen.toNat
  seglen := d.seglen.toNat
  segunit := d.segunit.toInt.toNat
  maxunit := d.maxunit.toInt.toNat
  idxbuf := d.getidx.take d.idxlen.toNat
  segs := (List.range d.segunit.toInt.toNat).map fun seg =>
    (d.buffer.drop (d.segpos seg)).take d.seglen.toNat
  idxofs := d.ofsptr.map UInt16.toNat

end DictRecord

inductive OpenError where
  | illegalDictFile
  | incorrectPasswd
  deriving DecidableEq, Repr

/-- Open the file `dp` with the inode number `ino`, which nothing has open. -/
def opendictFile (ino : ℕ) (writable : Bool) (passwd dp : Bytes) :
    Except OpenError DictRecord :=
  let tmp := dp.take headerLength
  if ¬ checkDictfile tmp then .error .illegalDictFile
  else if ¬ checkPasswd tmp passwd then .error .incorrectPasswd
  else
    .ok (DictRecord.mkidxtbl {
      dicid := ino
      idxlen := UInt16.ofNat (get4byte (dp.drop dictIdxLen))
      seglen := UInt16.ofNat (get4byte (dp.drop dictSegLen))
      segunit := Int16.ofNat (get4byte (dp.drop dictSegNum))
      maxunit := if writable then Int16.ofNat (get4byte (dp.drop dictSegMax)) else 0
      buffer := dp
      idxstrt := get4byte (dp.drop dictIdxPos)
      segstrt := get4byte (dp.drop dictSegPos)
      ofsptr := [] })

end Sj3
