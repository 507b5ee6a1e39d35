import Sj3.Model.Kouho
import Sj3.General.PointerList

/-! # Lists of records

How the records of words and clauses are got (`alloc.c`) and put into the lists at `maxjptr`
and `maxclptr` (`argjrec`, `argclrec`), and the loop of `mkjiritu` over the words that takes
their suffixes in (`setubi.c`). A pointer to a record is its number. -/

namespace Sj3.Reclist

open PointerList

/-! ## Memory -/

/-- Whether `malloc` has room for an array of records and for a single one. -/
structure Malloc where
  array : Bool
  single : Bool
  deriving DecidableEq, Repr

/-- A record: its link in a list (`jsort`, `clsort`) and the rest. -/
structure Node (ρ : Type) where
  sort : Option ℕ
  val : ρ

/-- The records of one kind: those that `malloc` has given lie below `brk`, those not in use
are listed from `free`, those in use from `top`. -/
structure Recs (ρ : Type) where
  node : ℕ → Node ρ
  free : Option ℕ
  brk : ℕ
  top : Option ℕ

namespace Recs

variable {ρ : Type}

def sort (w : Recs ρ) (p : ℕ) : Option ℕ := (w.node p).sort

def val (w : Recs ρ) (p : ℕ) : ρ := (w.node p).val

def setSort (w : Recs ρ) (p : ℕ) (q : Option ℕ) : Recs ρ :=
  { w with node := Function.update w.node p ⟨q, w.val p⟩ }

def setVal (w : Recs ρ) (p : ℕ) (v : ρ) : Recs ρ :=
  { w with node := Function.update w.node p ⟨w.sort p, v⟩ }

def setTop (w : Recs ρ) (q : Option ℕ) : Recs ρ := { w with top := q }

/-- The list in use. -/
def list (w : Recs ρ) : List ℕ := walk w.sort w.brk w.top

/-- The array of `num` records that `malloc` gives, linked into a list. -/
def array (num : ℕ) (w : Recs ρ) : Recs ρ where
  node q :=
    if w.brk ≤ q ∧ q < w.brk + num then
      ⟨if q + 1 < w.brk + num then some (q + 1) else none, w.val q⟩
    else w.node q
  free := some w.brk
  brk := w.brk + num
  top := w.top

/-- Take the first record of those not in use. -/
def pop (w : Recs ρ) : Recs ρ × Option ℕ :=
  match w.free with
  | none => (w, none)
  | some p => ({ w with free := w.sort p }, some p)

def alloc (num : ℕ) (mem : Malloc) (w : Recs ρ) : Recs ρ × Option ℕ :=
  match w.free with
  | some _ => w.pop
  | none =>
      if mem.array then (w.array num).pop
      else if mem.single then ({ w with brk := w.brk + 1 }, some w.brk)
      else (w, none)

/-- What `argjrec` and `argclrec` do without memory: they take the last record out of the list,
if it is shorter than `len`. -/
def takeLast (length : ρ → UInt8) (len : ℤ) (w : Recs ρ) : Option (Recs ρ × Option ℕ) :=
  match w.top with
  | none => some (w, none)
  | some head => do
      let (ptr, last) ← toLast w.sort w.brk none head
      if len ≤ (length (w.val last)).toNat then return (w, none)
      match ptr with
      | some ptr => return (w.setSort ptr none, some last)
      | none => return (w.setTop none, some last)

/-- How they put a record into the list: in front of the first one that `front` holds of. -/
def linkIn (front : ℕ → Bool) (p : ℕ) (w : Recs ρ) : Option (Recs ρ) :=
  match w.top with
  | none => some ((w.setTop (some p)).setSort p none)
  | some head =>
      if front head then some ((w.setSort p w.top).setTop (some p))
      else do
        let (ptr, child) ← toPlace w.sort front w.brk head
        return (w.setSort ptr (some p)).setSort p child

end Recs

/-! ## Words -/

/-- The fields of a `JREC` but for `jsort`. -/
structure Jrec where
  jseg : ℕ
  jofsst : ℕ
  jofsed : ℕ
  flags : UInt16
  cls : TypeClass
  dicid : ℕ
  jlen : UInt8
  hinsi : UInt8
  sttofs : UInt8
  stbofs : UInt8
  count : UInt8
  numlen : UInt8
  deriving DecidableEq, Repr

/-- What `memset` leaves; `C_WAKACHI` is 0. -/
def Jrec.zero : Jrec := ⟨0, 0, 0, 0, .wakachi, 0, 0, 0, 0, 0, 0, 0⟩

def jrecNum : ℕ := 128
def clrecNum : ℕ := 128

/-- `(u_char)len` -/
def uchar (len : ℤ) : UInt8 := UInt8.ofNat (len % 256).toNat

/-- The first half of `argjrec`: a record to use. -/
def getJrec (mem : Malloc) (len : ℤ) (w : Recs Jrec) : Option (Recs Jrec × Option ℕ) :=
  match w.alloc jrecNum mem with
  | (w, some p) => some (w, some p)
  | (w, none) => w.takeLast Jrec.jlen len

/-- A word of length `len`, with what else `rec` holds, if it is given. -/
def argjrec (mem : Malloc) (len : ℤ) (rec : Option ℕ) (w : Recs Jrec) :
    Option (Recs Jrec × Option ℕ) := do
  let (w, jrec) ← getJrec mem len w
  match jrec with
  | none => return (w, none)
  | some jrec =>
      let val := rec.elim Jrec.zero w.val
      let w := w.setVal jrec { val with jlen := uchar len }
      let w ← w.linkIn (fun child => decide (((w.val child).jlen.toNat : ℤ) < len)) jrec
      return (w, some jrec)

/-! ## Clauses -/

/-- The fields of a `CLREC` but for `clsort`. -/
structure Clrec where
  jnode : Option ℕ
  gobiln : UInt8
  cllen : UInt8
  right : UInt8
  cl2len : UInt8
  kubun : UInt8
  fzk_ka : Bool
  deriving DecidableEq, Repr

def Clrec.zero : Clrec := ⟨none, 0, 0, 0, 0, 0, false⟩

/-- `rec->jnode->hinsi == TANKANJI` -/
def isTankanji (words : Recs Jrec) (c : Clrec) : Bool :=
  c.jnode.any fun p => (words.val p).hinsi = tankanji

/-- The first half of `argclrec`: a record to use. Of one that is used again not the count of
its word is lowered but its pointer to the word, which is overwritten next. -/
def getClrec (mem : Malloc) (len : ℤ) (w : Recs Clrec) : Option (Recs Clrec × Option ℕ) :=
  match w.alloc clrecNum mem with
  | (w, some p) => some (w, some p)
  | (w, none) =>
      (w.takeLast Clrec.cllen len).map fun (w, last) =>
        (last.elim w fun p => w.setVal p { w.val p with jnode := (w.val p).jnode.map (· - 1) },
          last)

/-- A clause of length `len`. -/
def argclrec (mem : Malloc) (len : ℤ) (words : Recs Jrec) (w : Recs Clrec) :
    Option (Recs Clrec × Option ℕ) := do
  let (w, clrec) ← getClrec mem len w
  match clrec with
  | none => return (w, none)
  | some clrec =>
      let w := w.setVal clrec { Clrec.zero with cllen := uchar len, cl2len := uchar len }
      let w ← w.linkIn (fun child =>
        decide (((w.val child).cllen.toNat : ℤ) < len) ||
          (decide (((w.val child).cllen.toNat : ℤ) = len) &&
            isTankanji words (w.val child))) clrec
      return (w, some clrec)

/-! ## Callers -/

/-- What a caller of `argjrec` stores in the new record. -/
structure JrecFill where
  store : Jrec → Jrec
  jlen_store : ∀ r, (store r).jlen = r.jlen
  count_store : ∀ r, (store r).count = r.count

/-- What a caller of `argclrec` stores in the new record, besides `jnode`. -/
structure ClrecFill where
  store : Clrec → Clrec
  cllen_store : ∀ c, (store c).cllen = c.cllen
  jnode_store : ∀ c, (store c).jnode = c.jnode

structure Lists where
  words : Recs Jrec
  clauses : Recs Clrec

/-- Nothing has been asked of `malloc` yet. -/
def Lists.empty : Lists where
  words := ⟨fun _ => ⟨none, Jrec.zero⟩, none, 0, none⟩
  clauses := ⟨fun _ => ⟨none, Clrec.zero⟩, none, 0, none⟩

/-- A call of `argjrec`, or one of `argclrec` for the word `jrec`, with what follows it. -/
inductive Insertion where
  | word (mem : Malloc) (len : ℤ) (rec : Option ℕ) (fill : JrecFill)
  | clause (mem : Malloc) (len : ℤ) (jrec : ℕ) (fill : ClrecFill)

/-- The lists after an insertion, and the record it got. -/
def Insertion.exec (l : Lists) : Insertion → Option (Lists × Option ℕ)
  | .word mem len rec fill => do
      let (words, new) ← argjrec mem len rec l.words
      match new with
      | none => return ({ l with words }, none)
      | some p => return ({ l with words := words.setVal p (fill.store (words.val p)) }, some p)
  | .clause mem len jrec fill => do
      let (clauses, new) ← argclrec mem len l.words l.clauses
      match new with
      | none => return ({ l with clauses }, none)
      | some p =>
          let word := l.words.val jrec
          return (⟨l.words.setVal jrec { word with count := word.count + 1 },
            clauses.setVal p (fill.store { clauses.val p with jnode := some jrec })⟩, some p)

end Sj3.Reclist
