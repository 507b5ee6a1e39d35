import Sj3.Model.Addel

/-! # Deletion of a word (`deldic.c`) -/

namespace Sj3

open Buffer

/-- Delete segment `seg`, whose only word is the one to go. -/
def delSegment (env : Env) (d : Dict) (s : Option Stdy) (seg : ℕ) : Result :=
  let d :=
    if d.segunit > 1 then { d with segs := d.segs.eraseIdx seg, segunit := d.segunit - 1 }
    else d.putdic dicSegBase (0 :: List.replicate (d.seglen - 1) dicSegTerm)
  ⟨some adDone, d.delUidx seg, s.map (Stdy.delSegStdy d.dicid seg env.garbage)⟩

/-- Delete the homophone block at `ptr` of segment `seg`, whose only word is the one at
`ofs`. -/
def delDouon (d : Dict) (s : Option Stdy) (seg : ℕ) (ptr : Bytes) (ofs : ℕ) : Result :=
  let dicbuf := d.getdic seg
  let at_ := ofsOf dicbuf ptr
  let nxt := getntag ptr
  if segend nxt then
    -- as many bytes are cleared as lie behind the block, not as many as it has
    let buf := overwrite dicbuf at_
      (List.replicate (d.seglen - ofsOf dicbuf nxt) dicSegTerm)
    ⟨some adDone, d.putdic seg buf,
      s.map (Stdy.delStdy d.dicid seg ofs (ofsOf dicbuf nxt - at_ : ℤ))⟩
  else
    let size := getsize nxt
    let nlen := getnlen nxt
    let plen := getplen nxt
    let isTop := at_ = ofsOf dicbuf (segtop dicbuf)
    if isTop ∧ nlen + plen > d.countUidx + sstrlen (d.getIdxptr seg) then
      ⟨some adOvflwIndex, d, s⟩
    else
      let len := if getplen ptr < plen then plen - getplen ptr else 0
      let buf := overwrite dicbuf at_ (setSize (size + len) (plen - len) (nlen + len))
      let p1 := ofsOf dicbuf nxt + douonBlkSizeNumber
      let p2 := at_ + douonBlkSizeNumber + len
      let buf := copyAsc buf p1 p2 (d.seglen - p1)
      let size := p1 - p2
      let buf := overwrite buf (d.seglen - size) (List.replicate size dicSegTerm)
      let d :=
        if isTop then d.chgUidx seg (buf.drop (at_ + douonBlkSizeNumber)) (nlen + len) else d
      ⟨some adDone, d.putdic seg buf, s.map (Stdy.delStdy d.dicid seg ofs size)⟩

/-- Delete the bytes from `stp` to `edp`, which belong to the homophone block at `p1`. The
bytes to clear are counted from `edp` after it was set to the end of the segment, so none
are: the last `size` bytes of the segment stay. -/
def delBytes (d : Dict) (s : Option Stdy) (seg : ℕ) (p1 stp edp : Bytes) (ofs : ℕ) : Result :=
  let dicbuf := d.getdic seg
  let size := ofsOf dicbuf edp - ofsOf dicbuf stp
  let len := d.seglen - ofsOf dicbuf edp
  let buf := copyAsc dicbuf (ofsOf dicbuf edp) (ofsOf dicbuf stp) len
  let fillAt := ofsOf dicbuf edp + len
  let buf := overwrite buf fillAt (List.replicate (d.seglen - fillAt) dicSegTerm)
  let p := buf.drop (ofsOf dicbuf p1)
  let buf := overwrite buf (ofsOf dicbuf p1) (setSize (getsize p - size) (getplen p) (getnlen p))
  ⟨some adDone, d.putdic seg buf, s.map (Stdy.delStdy d.dicid seg ofs size)⟩

/-- Delete the word with the code string `kptr` from segment `useg`. -/
def delWord (env : Env) (d : Dict) (s : Option Stdy) (useg : ℕ) (yptr kptr : Bytes)
    (hinsi : UInt8) : Result :=
  let dicbuf := d.getdic useg
  let r := srchkana env.prevIdx yptr dicbuf
  let p1 := r.2.1
  if r.1 = 0 then ⟨some adNoMidasi, d, s⟩
  else
    let g := srchgram p1 hinsi
    let p2 := g.2
    if g.1 = 0 then ⟨some adNoHinsi, d, s⟩
    else
      let k := srchkanji p2 kptr
      let p3 := k.2
      if p3.headD dicSegTerm = hinsiBlkTerm then ⟨some adNoKanji, d, s⟩
      else
        let ofs := ofsOf dicbuf p3
        let edp := skipkstr p3
        if k.1 = 1 then
          if g.1 = 1 then
            if r.1 = 1 then delSegment env d s useg else delDouon d s useg p1 ofs
          else delBytes d s useg p1 p2 edp.tail ofs
        else delBytes d s useg p1 p3 edp ofs

/-- Delete the word with the reading `yomi`, the kanji `kanji` and the grammar code
`hinsi` from `d`. -/
def deldic (env : Env) (d : Dict) (s : Option Stdy) (yomi kanji : Bytes) (hinsi : UInt8) :
    Result :=
  if addelArg yomi kanji hinsi ≠ 0 then ⟨some (addelArg yomi kanji hinsi), d, s⟩
  else if d.maxunit = 0 then ⟨some adNotUserDict, d, s⟩
  else
    let yptr := yomiCodes yomi
    delWord env d s (d.srchidx yptr dicSegBase yptr.length) yptr
      (cvtknj env.below env.belowKana yomi kanji) hinsi

end Sj3
