import Sj3.Model.Kouho
import Sj3.General.Buffer

/-! # Clauses and their candidates

The list of the clauses a reading may start with (`argclrec` and `setclrec`), the
conversion of one clause (`cl2knj.c`) and the walk over its candidates with `nextcl` and
`prevcl`. -/

namespace Sj3

open Buffer

def maxClInputLen : ℕ := 64

/-! ## The list of clauses -/

/-- The length of the clause at `clptr`. -/
def cllenAt (clptr : List Bunsetu) : ℕ := (clptr.head?.map Bunsetu.cllen).getD 0

/-- Put a clause into the list: behind the longer ones and those of its own length, but in
front of the first of these that is a single kanji. -/
def insertClrec (clrec : Bunsetu) : List Bunsetu → List Bunsetu
  | [] => [clrec]
  | ptr :: rest =>
      if ptr.cllen < clrec.cllen ∨
          (ptr.cllen = clrec.cllen ∧ ptr.jnode.hinsi = tankanji) then
        clrec :: ptr :: rest
      else ptr :: insertClrec clrec rest

/-- `alloc` says whether there was memory for another record. If not, the last one of the
list is used again, if it is shorter. -/
def argclrec (alloc : Bool) (maxclptr : List Bunsetu) (clrec : Bunsetu) : List Bunsetu :=
  if alloc then insertClrec clrec maxclptr
  else
    match maxclptr.getLast? with
    | none => maxclptr
    | some last =>
        if clrec.cllen ≤ last.cllen then maxclptr else insertClrec clrec maxclptr.dropLast

def setclrec (alloc : Bool) (maxclptr : List Bunsetu) (clrec : Bunsetu) : List Bunsetu :=
  if clrec.cllen = 0 then maxclptr
  else if clrec.cllen > maxClInputLen then maxclptr
  else argclrec alloc maxclptr clrec

/-- Clauses added one after the other, each with what the allocation said. -/
def setclrecs (maxclptr : List Bunsetu) (clrecs : List (Bool × Bunsetu)) : List Bunsetu :=
  clrecs.foldl (fun m c => setclrec c.1 m c.2) maxclptr

/-! ## Conversion of a clause -/

/-- What a conversion uses and does not change. The dictionaries and the grammar reach the
list of clauses through `setclrec` only; `mkbunsetu` and `wakachi` are the clauses they add
for a reading. The text of a candidate depends on the dictionaries, the reading, the input
and the candidate. -/
structure CnvEnv where
  dictlist : List Dict
  curstdy : Option Stdy
  mkbunsetu : Bytes → List (Bool × Bunsetu)
  wakachi : Bytes → List (Bool × Bunsetu)
  stbYomiLen : Jiritu → ℕ
  cvtkouho : Bytes → Bytes → Kouho → Bytes

/-- The part of a work area that `cl2knj`, `nextcl` and `prevcl` use. -/
structure Work where
  hyomi : Bytes
  orgyomi : Bytes
  maxclptr : List Bunsetu
  clt1st : List Bunsetu
  kouhotbl : List Kouho
  selectid : ℕ
  ref : SegRef

/-- What is written for a candidate: its study record and its text. -/
structure Converted where
  stdy : StdyOut
  hinshi : UInt8
  len : ℕ
  sttlen : ℕ
  kanji : Bytes
  deriving DecidableEq, Repr

/-- The bytes of the first `len` characters. -/
def hzstrlen : ℕ → Bytes → ℕ
  | 0, _ => 0
  | len + 1, ptr =>
      eucCodesize (ptr.headD 0) + hzstrlen len (ptr.drop (eucCodesize (ptr.headD 0)))

/-- The loop of `cl2knj` over `len` more bytes of the input: the reading codes, and how many
bytes they take. A character whose second byte lies behind `len` is left out. -/
def cl2kana : ℕ → Bytes → Bytes × ℕ
  | 0, _ => ([], 0)
  | len + 1, ptr =>
      let code (r : Bytes × ℕ) := ((sj2cdChr ptr).1 :: r.1, (sj2cdChr ptr).2 + r.2)
      if isknj1 (ptr.headD 0) then
        match len with
        | 0 => ([], 0)
        | len + 1 => code (cl2kana len (ptr.drop (sj2cdChr ptr).2))
      else code (cl2kana len (ptr.drop (sj2cdChr ptr).2))

/-- The segment that is loaded after a candidate was converted. -/
def cvtRef (dictlist : List Dict) (ref : SegRef) (krec : Kouho) : SegRef :=
  let jrec := krec.clrec.jnode
  match jrec.cls with
  | .dict | .num _ =>
      if krec.offs ≠ 0 then
        match seldict dictlist jrec.dicid with
        | some d => Dict.segRef (d.getdic jrec.jseg)
        | none => ref
      else ref
  | _ => ref

def converted (env : CnvEnv) (w : Work) (krec : Kouho) : Converted :=
  let jrec := krec.clrec.jnode
  { stdy := setstyrec w.kouhotbl krec
    hinshi := jrec.hinsi
    len := (jrec.jlen + 0x100 - env.stbYomiLen jrec) % 0x100
    sttlen := ((settouPtr jrec.sttofs).elim 0 fun fptr => (fptr.headD 0 &&& 0x0f).toNat)
    kanji := env.cvtkouho w.hyomi w.orgyomi krec }

/-- Convert the selected candidate; nothing is written if there is none. -/
def Work.cvtclknj (env : CnvEnv) (w : Work) : Work × Option Converted :=
  let selectid := if w.selectid = 0 then w.kouhotbl.length else w.selectid
  match w.kouhotbl[Sj3.cvtclknj w.kouhotbl selectid]? with
  | some krec =>
      ({ w with selectid, ref := cvtRef env.dictlist w.ref krec }, some (converted env w krec))
  | none => ({ w with selectid }, none)

/-- The bytes of the input the current clause takes. -/
def Work.length (w : Work) : ℕ := hzstrlen (cllenAt w.clt1st) w.orgyomi

/-- Go to the clauses of the length of the first one of `clt1st`, and to candidate `selectid`
of them. -/
def Work.select (env : CnvEnv) (w : Work) (clt1st : List Bunsetu) (selectid : ℕ → ℕ) : Work :=
  let t := mkkouho env.dictlist w.ref clt1st
  { w with
    clt1st
    kouhotbl := getrank env.curstdy t
    selectid := selectid t.khcount
    ref := t.ref }

/-- Convert, and return the length of the clause. -/
def Work.report (env : CnvEnv) (w : Work) : ℕ × Work × Option Converted :=
  (w.length, w.cvtclknj env)

def cl2knj (env : CnvEnv) (w : Work) (yomi : Bytes) (len : ℤ) : ℕ × Work × Option Converted :=
  let len := min len.toNat (maxClInputLen * 2)
  let codes := (cl2kana len yomi).1
  let orgyomi := overwrite w.orgyomi 0 (cstr (readN (cl2kana len yomi).2 yomi) ++ [0])
  let w := { w with hyomi := codes, orgyomi, kouhotbl := [] }
  if codes.headD 0 = 0 then (0, w, none)
  else
    let clrecs := setclrecs [] (env.mkbunsetu codes)
    let maxclptr := if clrecs = [] then setclrecs [] (env.wakachi codes) else clrecs
    Work.report env (({ w with maxclptr }).select env maxclptr fun _ => 1)

/-! ## Walking over the candidates -/

def nextrecblk : List Bunsetu → Option (List Bunsetu)
  | [] => none
  | clrec :: clptr =>
      match clptr.dropWhile fun c => c.cllen = clrec.cllen with
      | [] => none
      | clptr => some clptr

/-- The loop of `prevrecblk` over the longer clauses. -/
def prevrecblkLoop (cllen : ℕ) : ℕ → List Bunsetu → List Bunsetu → List Bunsetu
  | 0, _, keepptr => keepptr
  | _ + 1, [], keepptr => keepptr
  | n + 1, c :: clptr, keepptr =>
      if c.cllen > cllen then
        prevrecblkLoop cllen n ((c :: clptr).dropWhile fun b => b.cllen = c.cllen) (c :: clptr)
      else keepptr

def prevrecblk (maxclptr clt1st : List Bunsetu) : Option (List Bunsetu) :=
  if cllenAt clt1st = cllenAt maxclptr then none
  else some (prevrecblkLoop (cllenAt clt1st) maxclptr.length maxclptr [])

def nextcl (env : CnvEnv) (w : Work) (mode : ℕ) : ℕ × Work × Option Converted :=
  if w.kouhotbl.length = 0 then (0, w, none)
  else if mode = 0 ∧ w.selectid < w.kouhotbl.length then
    Work.report env { w with selectid := w.selectid + 1 }
  else
    match if mode < 2 then nextrecblk w.clt1st else none with
    | some clptr => Work.report env (w.select env clptr fun _ => 1)
    | none => (0, w.cvtclknj env)

def prevcl (env : CnvEnv) (w : Work) (mode : ℕ) : ℕ × Work × Option Converted :=
  if w.kouhotbl.length = 0 then (0, w, none)
  else if mode = 0 ∧ w.selectid > 1 then
    Work.report env { w with selectid := w.selectid - 1 }
  else
    match if mode < 2 then prevrecblk w.maxclptr w.clt1st else none with
    | some clptr => Work.report env (w.select env clptr id)
    | none => (0, w.cvtclknj env)

end Sj3
