import Sj3.General.ChunkedReader
import Sj3.General.Memory
import Sj3.Model.DictId

/-! # Replies to the client library

How `level1.c` takes a reply out of its input buffer, and the reply to the conversion of a
whole reading. The memory of the caller is a function of the address. -/

namespace Sj3

open ChunkedReader

/-- `getbuf`, and what the reads to come return. `ReadErrorFlag` is `failed`. -/
abbrev In := ChunkReader UInt8

abbrev Mem := ℕ → UInt8

namespace In

/-- More turns than any loop that stops at a zero byte takes: once a read failed, every
byte is zero. -/
def turns (r : In) : ℕ := (stream r).length + 1

/-- 0 when there is nothing to be read. -/
def getByte (r : In) : UInt8 × In :=
  let n := next r
  (n.1.getD 0, n.2)

def getInt (r : In) : ℤ × In :=
  let i0 := getByte r
  let i1 := getByte i0.2
  let i2 := getByte i1.2
  let i3 := getByte i2.2
  (Sj3.getInt i0.1 i1.1 i2.1 i3.1, i3.2)

/-- The memory with the bytes stored from `p` on. -/
def getNdata (m : Mem) (p : ℕ) : ℕ → In → Mem × In
  | 0, r => (m, r)
  | n + 1, r =>
      let c := getByte r
      getNdata (Function.update m p c.1) (p + 1) n c.2

def skipNdata : ℕ → In → In
  | 0, r => r
  | n + 1, r => skipNdata n (getByte r).2

def skipString : ℕ → In → In
  | 0, r => r
  | n + 1, r =>
      let c := getByte r
      if c.1 ≠ 0 then skipString n c.2 else c.2

end In

/-! ## The reply to `sj3_ikkatu_henkan` -/

/-- Where the loop over the text of a clause leaves off: behind the text, or at a byte there
is no room for. -/
inductive TextEnd where
  | done (m : Mem) (dst : ℕ) (dstsiz : ℤ) (r : In)
  | error2 (m : Mem) (r : In)

def ikkatuText (m : Mem) (dst : ℕ) (dstsiz : ℤ) : ℕ → In → TextEnd
  | 0, r => .done m dst dstsiz r
  | n + 1, r =>
      let c := r.getByte
      if c.1 = 0 then .done m dst dstsiz c.2
      else if dstsiz < 3 then .error2 m c.2
      else ikkatuText (Function.update m dst c.1) (dst + 1) (dstsiz - 1) n c.2

/-- The rest of the reply from the label `error2` on. -/
def ikkatuError2 (stysiz : ℕ) : ℕ → In → In
  | 0, r => r
  | n + 1, r =>
      let c := (r.skipString r.turns).getByte
      if c.1 ≠ 0 then ikkatuError2 stysiz n (c.2.skipNdata stysiz) else c.2

/-- The loop over the clauses: the sum of their lengths, the memory of the caller and the
rest of the input. -/
def ikkatuLoop (stysiz : ℕ) (m : Mem) (dst : ℕ) (dstsiz result : ℤ) : ℕ → In → ℤ × Mem × In
  | 0, r => (result, m, r)
  | n + 1, r =>
      let len1 : ℤ := 1 + stysiz + 1 + 1
      let c := r.getByte
      if c.1 = 0 then (result, Function.update m dst 0, c.2)
      else if dstsiz < len1 then
        let r := c.2.skipNdata stysiz
        (result, Function.update m dst 0, ikkatuError2 stysiz r.turns r)
      else
        let top := dst
        let s := c.2.getNdata (Function.update m dst c.1) (dst + 1) stysiz
        match ikkatuText s.1 (dst + 1 + stysiz) (dstsiz - (stysiz + 1)) s.2.turns s.2 with
        | .error2 m r => (result, Function.update m top 0, ikkatuError2 stysiz r.turns r)
        | .done m dst dstsiz r =>
            ikkatuLoop stysiz (Function.update m dst 0) (dst + 1) (dstsiz - 1)
              (result + c.1.toNat) n r

/-- What the call leaves: its value, the error number, the memory and the input. -/
structure IkkatuRet where
  ret : ℤ
  sj3_error_number : ℤ
  mem : Mem
  input : In

/-- What `sj3_ikkatu_henkan` does once the request is out, with its destination at the
address `dst` of the memory. `put_cmd` has emptied the input buffer; `reads` is what the
reads to come return. -/
def ikkatuReply (stysiz : ℕ) (m : Mem) (dst : ℕ) (dstsiz : ℤ) (reads : List Bytes) : IkkatuRet :=
  let err := In.getInt ⟨[], reads, false⟩
  if err.1 ≠ 0 then ⟨-1, err.1, m, err.2⟩
  else
    let r := (In.getInt err.2).2
    let l := ikkatuLoop stysiz m dst dstsiz 0 r.turns r
    ⟨if l.2.2.failed then -1 else l.1, 0, l.2.1, l.2.2⟩

end Sj3
