import Sj3.General.Transducer
import Sj3.Model.Makeseg

/-! # Collecting the records of a segment (`makelist.c`)

What becomes of a record when it is put into the segment the compiler is at. The substrings that
are counted for the choice of association strings are not here, so the room that choice saves is
not either: a record is put into the segment, or the segment is written, as the caller says. -/

namespace Sj3.Mkdic

/-- The records of the segment so far, and the strings in them. -/
structure SegRec where
  ofsrec : List OffsetRec
  douon : List DouonRec
  deriving DecidableEq, Repr

/-- How much of the reading `p2` differs from `p1`, which has to come first. -/
def diffYomi : Bytes → Bytes → Option ℕ
  | [], [] => none
  | _ :: _, [] => none
  | [], _ :: p2 => some (p2.length + 1)
  | c₁ :: p₁, c₂ :: p₂ =>
      if c₁ = c₂ then diffYomi p₁ p₂ else if c₁ > c₂ then none else some (p₂.length + 1)

def diffYlen (douon : List DouonRec) (drec : DouonRec) : Option ℕ :=
  match douon.getLast? with
  | none => some 0
  | some dprev => diffYomi dprev.yptr drec.yptr

/-- The codes of a string, which may refer to the strings in front of it. -/
def setKrec (ofsrec : List OffsetRec) (krec : KanjiRec) : Option (List OffsetRec × KanjiRec) :=
  let p := knjofscvt ofsrec krec.kptr
  (setOfsrec ofsrec krec.kptr 0).map fun ofsrec => (ofsrec, { krec with aptr := p })

def setHrec (ofsrec : List OffsetRec) (hrec : HinsiRec) : Option (List OffsetRec × HinsiRec) :=
  (Transducer.run setKrec ofsrec hrec.krec).map fun p => (p.1, { hrec with krec := p.2 })

def douonKnj (ofsrec : List OffsetRec) (drec : DouonRec) : Option (List OffsetRec × DouonRec) :=
  (Transducer.run setHrec ofsrec drec.hrec).map fun p => (p.1, { drec with hrec := p.2 })

/-- The record becomes the last one of the segment. -/
def makeDList (seg : SegRec) (drec : DouonRec) : Option SegRec :=
  (douonKnj seg.ofsrec drec).bind fun p =>
    (diffYlen seg.douon p.2).map fun ylen =>
      ⟨p.1, seg.douon ++ [{ p.2 with dlen := ylen }]⟩

end Sj3.Mkdic
