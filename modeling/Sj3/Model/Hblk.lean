import Sj3.Model.Segment

/-! # Walks over grammar blocks

How `skiphblk.c`, `setjrec.c` and `srchgram` of `addelcmn.c` go from one grammar block of a
homophone block to the next. -/

namespace Sj3

/-- The loop of `skiphblk`: over kanji strings up to the terminator. -/
def skipKnjs : ℕ → Bytes → Bytes
  | 0, ptr => ptr
  | n + 1, ptr => if ptr.headD dicSegTerm ≠ hinsiBlkTerm then skipKnjs n (skipkstr ptr) else ptr

def skiphblk (ptr : Bytes) : Bytes := (skipKnjs ptr.length ptr.tail).tail

/-- What the functions that `setjrec` calls for a code return. -/
def setjSize (code : UInt8) : ℕ :=
  let mode := code &&& kanjiModeMask
  if mode = zenHiraAssyuku ∨ mode = zenKataAssyuku then 1
  else if mode = offsetAssyuku ∨ mode = aiAttribute ∨ mode = leadingHankaku then 2
  else if mode = kanjiAssyuku ∨ mode = kanjiStrEnd then 1
  else 2

/-- The inner loop of `setjrec`. -/
def setjEnd : Bytes → Bytes
  | [] => []
  | c :: tmp =>
      if c = hinsiBlkTerm then c :: tmp
      else if setjSize c = 1 then setjEnd tmp
      else
        match tmp with
        | [] => []
        | _ :: tmp => setjEnd tmp

/-- The outer loop of `setjrec` goes on here. -/
def setjNext (ptr : Bytes) : Bytes := (setjEnd ptr.tail).tail

/-- The loop of `srchgram` goes on here. -/
def gramNext (ptr : Bytes) : Bytes := (gramEnd ptr).tail

/-- The blocks that a loop visits up to `endp`, and where it stops. -/
def visits (next : Bytes → Bytes) (endp : Bytes) : ℕ → Bytes → List Bytes × Bytes
  | 0, ptr => ([], ptr)
  | n + 1, ptr =>
      if ptr.length > endp.length then
        let r := visits next endp n (next ptr)
        (ptr :: r.1, r.2)
      else ([], ptr)

/-- The visits of a loop over the homophone block at `ptr`. -/
def hblkVisits (next : Bytes → Bytes) (ptr : Bytes) : List Bytes × Bytes :=
  visits next (getntag ptr) (ptr.length + 1) (ptr.drop (douonBlkSizeNumber + getnlen ptr))

end Sj3
