import Mathlib.Data.Int.Basic
import Sj3.Model.Level1
import Sj3.Model.Server

/-! # Identifiers of dictionaries in requests

`int`s on their way between client and server (`comuni.c`, `level1.c`), and the requests that
look into a dictionary, as far as they select it (`execute.c`). -/

namespace Sj3

/-- Conversion to `int`. -/
def toInt (n : ℤ) : ℤ := Int.bmod n (2 ^ 32)

/-- The bytes of `put_int`, on either side. -/
def intBytes (c : ℤ) : Bytes :=
  [uchar (c / 2 ^ (8 * 3)), uchar (c / 2 ^ (8 * 2)), uchar (c / 2 ^ (8 * 1)), uchar c]

/-- The `int` that `get_int` makes of four bytes, on either side. -/
def getInt (i0 i1 i2 i3 : UInt8) : ℤ :=
  toInt (i0.toNat * 2 ^ (8 * 3) + i1.toNat * 2 ^ (8 * 2) + i2.toNat * 2 ^ (8 * 1) + i3.toNat)

/-- What the other side makes of an `int`. -/
def passInt (c : ℤ) : ℤ :=
  match intBytes c with
  | [i0, i1, i2, i3] => getInt i0 i1 i2 i3
  | _ => 0

/-- An `int` as an identifier. -/
def toDicID (c : ℤ) : TypeDicID := UInt64.ofInt c

/-- The identifier as the client gets it from `exec_opendict`. -/
def clientDicid (dicid : TypeDicID) : ℤ := passInt (toInt dicid.toNat)

/-- The identifier in a request of a client. -/
def requestDicid (id : ℤ) : TypeDicID := toDicID (passInt id)

/-! ## Requests -/

def lockCheckForRead (w : WorkArea) (fd : ℕ) : Bool := w.lock = none ∨ w.lock = some fd

/-- What `seldict` makes the current dictionary. -/
def Server.seldict (s : Server) (dicid : TypeDicID) (dictlist : List ℕ) : Option (Option ℕ) :=
  s.findDicid dicid dictlist

/-- The dictionary a request looks into, or the error of a check in front of it. -/
def execPeepdict (s : Server) (fd : ℕ) (dicid : TypeDicID) : Option (Except ServError ℕ) :=
  match s.work fd with
  | none => some (.error .notConnected)
  | some w =>
      (s.findDicid dicid w.dictlist).bind fun
        | none => some (.error .noSuchDict)
        | some _ =>
            if ¬ lockCheckForRead w fd then some (.error .lockedByOther)
            else (s.seldict dicid w.dictlist).map fun
              | none => .error .noSuchDict
              | some a => .ok a

def execGetdict (s : Server) (fd : ℕ) (dicid : TypeDicID) : Option (Except ServError ℕ) :=
  execPeepdict s fd dicid

def execNextdict (s : Server) (fd : ℕ) (dicid : TypeDicID) : Option (Except ServError ℕ) :=
  execPeepdict s fd dicid

def execPrevdict (s : Server) (fd : ℕ) (dicid : TypeDicID) : Option (Except ServError ℕ) :=
  execPeepdict s fd dicid

end Sj3
