import Sj3.General.Buffer
import Sj3.Model.Segment

/-! # Dictionaries

The open dictionary of `sj_struct.h` with its index area and segments (`sdepend.c`,
`init.c`, `dict.c`), the edits of the index area, and the look-up of `srchdict.c`. -/

namespace Sj3

open Buffer

/-- An open dictionary. `idxbuf` is the index area: one string per segment. `segs` are the
segments of the file, `segunit` of them in use; a dictionary that cannot be written has
`maxunit = 0`. -/
structure Dict where
  dicid : ℕ
  idxlen : ℕ
  seglen : ℕ
  segunit : ℕ
  maxunit : ℕ
  idxbuf : Bytes
  segs : List Bytes
  idxofs : List ℕ
  deriving DecidableEq, Repr

namespace Dict

def getdic (d : Dict) (seg : ℕ) : Bytes := d.segs.getD seg []

def putdic (d : Dict) (seg : ℕ) (dicbuf : Bytes) : Dict :=
  { d with segs := d.segs.set seg dicbuf }

/-! ## The index area -/

/-- Reading on from the end of the index area meets the first byte of segment 0, which is
NUL in a user dictionary; this is what reading past the end of the list gives. -/
def getIdxptr (d : Dict) (seg : ℕ) : Bytes := d.idxbuf.drop (d.idxofs.getD seg 0)

/-- The offsets of the strings at `p`, which lies at `ofs`, at most `n` of them. -/
def mkidxtblLoop : ℕ → ℕ → Bytes → List ℕ
  | 0, _, _ => []
  | n + 1, ofs, p =>
      if p = [] then []
      else ofs :: mkidxtblLoop n (ofs + (sstrlen p + 1)) (p.drop (sstrlen p + 1))

def mkidxtbl (d : Dict) : Dict :=
  let ofs := mkidxtblLoop d.segunit 0 d.idxbuf
  { d with idxofs := ofs ++ d.idxofs.drop ofs.length }

/-- The unused bytes of the index area, as the unsigned short `count_uidx` returns. -/
def countUidx (d : Dict) : ℕ :=
  let p := d.idxofs.getD (d.segunit - 1) 0 + (sstrlen (d.getIdxptr (d.segunit - 1)) + 1)
  (((d.idxlen : ℤ) - p) % 0x10000).toNat

/-- Replace the string of `seg` by the first `len` codes of `yomi`. Nothing checks that
the new string fits: what does not is cut off here (in memory it runs into segment 0). -/
def chgUidx (d : Dict) (seg : ℕ) (yomi : Bytes) (len : ℕ) : Dict :=
  let p := d.idxofs.getD seg 0
  let olen := sstrlen (d.getIdxptr seg)
  let q := d.idxlen
  let idxbuf :=
    if len > olen then copyDesc d.idxbuf (q - (len - olen)) q (q - (len - olen) - p)
    else copyAsc d.idxbuf (p + (olen - len)) p (q - (p + (olen - len)))
  mkidxtbl { d with idxbuf := (overwrite idxbuf p (readN len yomi)).take q }

/-- Put the first `len` codes of `yomi` as a new string behind the one of `seg`. -/
def apndUidx (d : Dict) (seg : ℕ) (yomi : Bytes) (len : ℕ) : Dict :=
  let p := d.idxofs.getD seg 0 + (sstrlen (d.getIdxptr seg) + 1)
  let q := d.idxlen
  let idxbuf := copyDesc d.idxbuf (q - (len + 1)) q (q - (len + 1) - p)
  mkidxtbl { d with idxbuf := (overwrite idxbuf p (readN len yomi ++ [0])).take q }

/-- Remove the string of `seg`. -/
def delUidx (d : Dict) (seg : ℕ) : Dict :=
  let p := d.idxofs.getD seg 0
  let len := sstrlen (d.getIdxptr seg) + 1
  let idxbuf := copyAsc d.idxbuf (p + len) p (d.idxlen - (p + len))
  mkidxtbl { d with
    idxbuf := (overwrite idxbuf (d.idxlen - len) (List.replicate len 0)).take d.idxlen }

/-! ## Looking up a segment -/

/-- The bisection of `srchidx`; `mid` and `cmp` are those of the last comparison. -/
def srchidxLoop (d : Dict) (cnvstart : Bytes) (len : ℕ) : ℕ → ℤ → ℤ → ℤ → Cmp → ℤ
  | 0, _, _, mid, _ => mid
  | n + 1, low, high, mid, cmp =>
      if low ≤ high then
        let mid := (low + high) / 2
        let target := d.getIdxptr mid.toNat
        let cmp := istrcmp cnvstart target len (sstrlen target)
        if cmp = .over then srchidxLoop d cnvstart len n low (mid - 1) mid cmp
        else if cmp ≠ .match then srchidxLoop d cnvstart len n (mid + 1) high mid cmp
        else mid
      else if cmp = .over ∧ mid ≠ dicSegBase then mid - 1
      else mid

/-- The segment for the first `len` codes of the input, searched from `low` on. -/
def srchidx (d : Dict) (cnvstart : Bytes) (low : ℤ) (len : ℕ) : ℕ :=
  if (d.segunit : ℤ) - 1 < 1 then 0
  else
    (srchidxLoop d cnvstart len (d.segunit + 1) (if low = -1 then 0 else low)
      ((d.segunit : ℤ) - 1) 0 .match).toNat

/-! ## Looking up readings -/

/-- What `srchdict` keeps from call to call: how many codes the next key of the index
search has, how many codes are matched, the current segment and the current block. -/
structure Srch where
  dicinl : ℕ
  dicsaml : ℕ
  prevseg : ℤ
  tagp : Bytes
  deriving DecidableEq, Repr

/-- How a walk over the blocks of one segment ends: at the end of the segment or at a
block followed by a dependent code, behind the input, or at a block to report. -/
inductive Walk where
  | rest (tagp : Bytes) (saml : ℕ)
  | none (tagp : Bytes) (saml : ℕ)
  | found (tagp : Bytes) (saml : ℕ)
  deriving DecidableEq, Repr

/-- The inner loop of `srchdict`. Without a turn left it reports a block of no bytes, which is
none of the dictionary. -/
def srchdictSeg (idx cnvstart : Bytes) (maxlen : ℕ) : ℕ → Bytes → ℕ → Walk
  | 0, _, saml => .found [] saml
  | n + 1, tagp, saml =>
      if segend tagp then .rest tagp saml
      else
        let r := yomicmp idx cnvstart tagp saml
        if r.2 > maxlen then .none tagp r.2
        else if r.1 = .over then .none tagp r.2
        else if r.1 = .match then
          if isdpnd (cnvstart.getD r.2 0) then .rest tagp r.2 else .found tagp r.2
        else srchdictSeg idx cnvstart maxlen n (getntag tagp) r.2

/-- The outer loop of `srchdict`. Without a turn left it reports a block of no bytes. -/
def srchdictLoop (d : Dict) (cnvstart : Bytes) (maxlen : ℕ) :
    ℕ → Srch → Option Bytes × Srch
  | 0, st => (some [], st)
  | n + 1, st =>
      if st.dicinl ≤ maxlen then
        let segno := d.srchidx cnvstart st.prevseg st.dicinl
        let walk (segno : ℕ) (tagp : Bytes) : Option Bytes × Srch :=
          match srchdictSeg (d.getIdxptr segno) cnvstart maxlen
              ((d.getdic segno).length + 1) tagp st.dicsaml with
          | .none tagp saml => (none, ⟨st.dicinl, saml, segno, tagp⟩)
          | .found tagp saml => (some tagp, ⟨saml + 1, saml, segno, tagp⟩)
          | .rest tagp saml => srchdictLoop d cnvstart maxlen n ⟨saml + 1, saml, segno, tagp⟩
        if st.prevseg ≠ segno then walk segno (segtop (d.getdic segno))
        else if segend (getntag st.tagp) then
          if segno + 1 ≥ d.segunit then
            (none, { st with prevseg := segno + 1, tagp := getntag st.tagp })
          else walk (segno + 1) (segtop (d.getdic (segno + 1)))
        else walk segno (getntag st.tagp)
      else (none, st)

/-- The next block whose reading starts the input. -/
def srchdict (d : Dict) (cnvstart : Bytes) (cnvlen : ℕ) (st : Srch) : Option Bytes × Srch :=
  srchdictLoop d cnvstart (min cnvlen maxWdYomiLen) ((d.segunit + 1) * (d.seglen + 1)) st

/-- The association strings of a segment. -/
def getAskknjLoop : ℕ → Bytes → Bytes → List Bytes
  | 0, _, _ => []
  | n + 1, p, q =>
      if p.length > q.length then p :: getAskknjLoop n (skipkstr p) q else []

def getAskknj (dicbuf : Bytes) : List Bytes :=
  getAskknjLoop dicbuf.length dicbuf.tail (dicbuf.drop (dicbuf.headD 0).toNat)

/-- What kanji codes of a segment refer to. -/
def segRef (dicbuf : Bytes) : SegRef := ⟨dicbuf, getAskknj dicbuf⟩

end Dict

end Sj3
