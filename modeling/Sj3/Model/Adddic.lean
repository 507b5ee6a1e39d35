import Sj3.Model.Addel

/-! # Registration of a word (`adddic.c`) -/

namespace Sj3

open Buffer

/-! ## Looking for the word -/

/-- The walk of `checksub` over the kanji strings of one grammar block; `none` when one of
them is the given kanji. -/
def checkKanji (expand : Bytes → Bytes) (kanji : Bytes) (flg : Bool) :
    ℕ → Bytes → ℕ → Option (Bytes × ℕ)
  | 0, ptr, dounum => some (ptr, dounum)
  | n + 1, ptr, dounum =>
      if ptr.headD dicSegTerm ≠ hinsiBlkTerm then
        if flg ∧ cmpstr kanji (expand ptr) then none
        else checkKanji expand kanji flg n (skipkstr ptr) (dounum + 1)
      else some (ptr, dounum)

/-- The walk of `checksub` over the grammar blocks of a homophone block. -/
def checkHinsi (expand : Bytes → Bytes) (kanji : Bytes) (grm : UInt8) (endp : Bytes) :
    ℕ → Bytes → ℕ → Option ℕ
  | 0, _, dounum => some dounum
  | n + 1, ptr, dounum =>
      if ptr.length > endp.length then
        match checkKanji expand kanji (grm = ptr.headD dicSegTerm) n ptr.tail dounum with
        | none => none
        | some (ptr, dounum) => checkHinsi expand kanji grm endp n ptr.tail dounum
      else some dounum

/-- The loop of `checksub` that looks for the block of the whole reading. -/
def checkBlock (d : Dict) (cnvstart : Bytes) : ℕ → Dict.Srch → Option (Bytes × Dict.Srch)
  | 0, _ => none
  | n + 1, st =>
      match d.srchdict cnvstart cnvstart.length st with
      | (none, _) => none
      | (some tagp, st) =>
          if cnvstart.length = getnlen tagp + getplen tagp then some (tagp, st)
          else checkBlock d cnvstart n st

/-- The number of kanji a dictionary has for the reading, or `none` if the given one is
among them with grammar code `grm`. -/
def checksub (env : Env) (yomi cnvstart kanji : Bytes) (grm : UInt8) (d : Dict) : Option ℕ :=
  match checkBlock d cnvstart ((d.segunit + 1) * (d.seglen + 1))
      ⟨cnvstart.length, 0, -1, []⟩ with
  | none => some 0
  | some (tagp, st) =>
      let dicbuf := d.getdic st.prevseg.toNat
      checkHinsi
        (fun ptr => getkanji env.below (Dict.segRef dicbuf) yomi cnvstart.length ptr)
        kanji grm (tagp.drop (getsize tagp)) (tagp.length + 1)
        (tagp.drop (douonBlkSizeNumber + getnlen tagp)) 0

def checkdictLoop (env : Env) (yomi cnvstart kanji : Bytes) (grm : UInt8) :
    List Dict → ℕ → Option ℕ
  | [], dounum => some dounum
  | d :: dictlist, dounum =>
      match checksub env yomi cnvstart kanji grm d with
      | none => none
      | some tmp => checkdictLoop env yomi cnvstart kanji grm dictlist (dounum + tmp)

def checkdict (env : Env) (dictlist : List Dict) (yomi cnvstart kanji : Bytes)
    (grm : UInt8) : ℕ :=
  match checkdictLoop env yomi cnvstart kanji grm dictlist 0 with
  | none => adArExist
  | some dounum => if maxKouhoNumber ≤ dounum then adOvflwDouNum else 0

/-! ## The place of a word in a segment -/

/-- Where the new bytes go (`dstofs`), and where the homophone block, the end of what
`srchgram` found and the end of what `srchkanji` found are; the last two are 0 when there
is none. -/
structure AddPos where
  dstofs : ℕ
  douofs : ℕ
  hnsofs : ℕ
  knjofs : ℕ
  saml : ℕ
  deriving DecidableEq, Repr

/-- `none` when the grammar block has a kanji string that starts with `kptr`. -/
def addPlace (prevIdx yptr kptr : Bytes) (hinsi : UInt8) (dicbuf : Bytes) : Option AddPos :=
  let r := srchkana prevIdx yptr dicbuf
  let p1 := r.2.1
  let douofs := ofsOf dicbuf p1
  if r.1 = 0 then some ⟨douofs, douofs, 0, 0, r.2.2⟩
  else
    let g := srchgram p1 hinsi
    let hnsofs := ofsOf dicbuf g.2
    if g.1 = 0 then some ⟨hnsofs, douofs, hnsofs, 0, r.2.2⟩
    else
      let k := srchkanji g.2 kptr
      let knjofs := ofsOf dicbuf k.2
      if k.2.headD dicSegTerm ≠ hinsiBlkTerm then none
      else some ⟨knjofs, douofs, hnsofs, knjofs, r.2.2⟩

namespace AddPos

/-- The size of the homophone block so far. -/
def oldsiz (pos : AddPos) (dicbuf : Bytes) : ℕ :=
  if pos.hnsofs = 0 then 0 else getsize (dicbuf.drop pos.douofs)

/-- The size of the homophone block with the word in it. -/
def newsiz (pos : AddPos) (yptr kptr dicbuf : Bytes) : ℕ :=
  (if pos.hnsofs = 0 then douonBlkSizeNumber + (yptr.length - pos.saml)
    else getsize (dicbuf.drop pos.douofs)) +
    (if pos.knjofs = 0 then 2 else 0) + (if kptr.length ≠ 0 then kptr.length + 1 else 0)

/-- How many codes the block behind a new one saves. -/
def nxtask (pos : AddPos) (yptr dicbuf : Bytes) : ℕ :=
  if pos.hnsofs = 0 then calNextym yptr (dicbuf.drop pos.douofs) else 0

end AddPos

/-! ## Making room -/

/-- The reading of the block at `pos`, gathered by `sprt_seg` from the front-coded
readings from `p` on. One byte more than the reading of each block is copied. -/
def sprtYomi (pos : Bytes) : ℕ → Bytes → Bytes → Bytes
  | 0, _, yomi => yomi
  | n + 1, p, yomi =>
      if p.length ≥ pos.length ∧ ¬ segend p then
        let nlen := getnlen p
        let j := if nlen ≠ 0 then nlen + 1 else 0
        sprtYomi pos n (getntag p)
          (yomi.take (getplen p) ++ readN j (p.drop douonBlkSizeNumber))
      else yomi

/-- The segments from `seg` on are copied one further, the last one first. -/
def moveSegs (d : Dict) (seg : ℕ) : Dict :=
  { d with segs := d.segs.take (seg + 1) ++ d.segs.drop seg, segunit := d.segunit + 1 }

/-- The segment with the blocks from `ofs` on, the first of which has the reading `yomi`. -/
def sprtRight (seglen ofs : ℕ) (dicbuf yomi : Bytes) : Bytes :=
  let pos := dicbuf.drop ofs
  let nlen := getnlen pos
  let ylen := getplen pos + nlen
  let top := ofsOf dicbuf (segtop dicbuf)
  let p := top + douonBlkSizeNumber + ylen
  let q := ofs + douonBlkSizeNumber + nlen
  let buf := overwrite dicbuf top (setSize (getsize pos + getplen pos) 0 ylen)
  let buf := overwrite buf (top + douonBlkSizeNumber) (readN ylen yomi)
  let buf := copyAsc buf q p (seglen - q)
  overwrite buf (p + (seglen - q)) (List.replicate (seglen - (p + (seglen - q))) dicSegTerm)

/-- How far the blocks from `ofs` on move to the front. -/
def sprtShift (ofs : ℕ) (dicbuf : Bytes) : ℤ :=
  (ofs : ℤ) - (ofsOf dicbuf (segtop dicbuf) + getplen (dicbuf.drop ofs) : ℕ)

/-- Split segment `seg` in front of the block at `ofs`: the blocks from there on become a
segment of their own behind it. -/
def sprtSeg (d : Dict) (s : Option Stdy) (seg ofs : ℕ) : Dict × Option Stdy :=
  let d := moveSegs d seg
  let dicbuf := d.getdic (seg + 1)
  let pos := dicbuf.drop ofs
  let yomi := sprtYomi pos (dicbuf.length + 1) (segtop dicbuf) []
  let d := d.apndUidx seg yomi (getplen pos + getnlen pos)
  let d := d.putdic (seg + 1) (sprtRight d.seglen ofs dicbuf yomi)
  let s := s.map (Stdy.splitSegs d.dicid seg ofs (sprtShift ofs dicbuf))
  (d.putdic seg (overwrite (d.getdic seg) ofs (List.replicate (d.seglen - ofs) dicSegTerm)), s)

/-- A new, empty segment behind the last one. -/
def appendSeg (d : Dict) : Dict :=
  { d with segs := d.segs ++ [0 :: List.replicate (d.seglen - 1) dicSegTerm]
           segunit := d.segunit + 1 }.mkidxtbl

/-- How the loop of `adddic` ends: with an error, or with a place for the word in segment
`segnum`. `stuck` stands for a loop that does not end. -/
inductive AddEnd where
  | fail (ret : ℕ) (d : Dict) (s : Option Stdy)
  | fit (d : Dict) (s : Option Stdy) (segnum : ℕ) (pos : AddPos) (newsiz oldsiz nxtask : ℕ)
  | stuck (d : Dict) (s : Option Stdy)

/-- The loop of `adddic`, which looks for room from segment `segnum` on. -/
def addLoop (env : Env) (yptr kptr : Bytes) (hinsi : UInt8) :
    ℕ → Dict → Option Stdy → ℕ → AddEnd
  | 0, d, s, _ => .stuck d s
  | n + 1, d, s, segnum =>
      let dicbuf := d.getdic segnum
      match addPlace env.prevIdx yptr kptr hinsi dicbuf with
      | none => .fail adArExist d s
      | some pos =>
          let p1 := dicbuf.drop pos.douofs
          let newsiz := pos.newsiz yptr kptr dicbuf
          let oldsiz := pos.oldsiz dicbuf
          let nxtask := pos.nxtask yptr dicbuf
          -- the difference is compared as an unsigned number
          if ((newsiz : ℤ) - oldsiz - nxtask) % 2 ^ 32 ≤ usrFreelen d.seglen dicbuf then
            .fit d s segnum pos newsiz oldsiz nxtask
          else if segend p1 ∧ segnum + 1 < d.segunit then
            addLoop env yptr kptr hinsi n d s (segnum + 1)
          else if d.segunit ≥ d.maxunit then .fail adOvflwUsrDic d s
          else if pos.douofs + newsiz ≤ d.seglen then
            let p1 := if pos.hnsofs ≠ 0 then getntag p1 else p1
            if d.countUidx < getplen p1 + getnlen p1 + 1 then .fail adOvflwIndex d s
            else if ¬ env.putdic d.segunit then .fail adOvflwUsrDic d s
            else
              let r := sprtSeg d s segnum (ofsOf dicbuf p1)
              .fit r.1 r.2 segnum pos newsiz oldsiz 0
          else if segend p1 then
            if d.countUidx < yptr.length + 1 then .fail adOvflwIndex d s
            else if ¬ env.putdic d.segunit then .fail adOvflwUsrDic d s
            else addLoop env yptr kptr hinsi n (appendSeg d) s (segnum + 1)
          else if d.countUidx < getplen p1 + getnlen p1 + 1 then .fail adOvflwIndex d s
          else if ¬ env.putdic d.segunit then .fail adOvflwUsrDic d s
          else
            let r := sprtSeg d s segnum pos.douofs
            addLoop env yptr kptr hinsi n r.1 r.2 (segnum + 1)

/-- Every turn of the loop moves on to a further segment or adds one. -/
def addFuel (d : Dict) : ℕ := 2 * d.maxunit + d.segunit + 1

/-! ## Storing the word -/

/-- The block behind a new one gives up the `nxtask` codes it now shares with it. -/
def shrinkNext (seglen : ℕ) (dicbuf : Bytes) (douofs nxtask : ℕ) : Bytes :=
  if nxtask = 0 then dicbuf
  else
    let douptr := dicbuf.drop douofs
    let buf := overwrite dicbuf douofs
      (setSize (getsize douptr - nxtask) (getplen douptr + nxtask) (getnlen douptr - nxtask))
    let p1 := douofs + douonBlkSizeNumber
    copyAsc buf (p1 + nxtask) p1 (seglen - (p1 + nxtask))

/-- The bytes of the word behind what is there of its homophone and grammar block. -/
def wordBytes (pos : AddPos) (kptr : Bytes) (hinsi : UInt8) : Bytes :=
  (if pos.knjofs = 0 then [hinsi] else []) ++
    (if kptr.length > 0 then kptr ++ [kanjiStrEnd] else []) ++
    (if pos.knjofs = 0 then [hinsiBlkTerm] else [])

/-- The segment with the word stored at its place. -/
def storeWord (seglen : ℕ) (dicbuf yptr kptr : Bytes) (hinsi : UInt8) (pos : AddPos)
    (newsiz oldsiz nxtask : ℕ) : Bytes :=
  let buf := shrinkNext seglen dicbuf pos.douofs nxtask
  let size := newsiz - oldsiz
  let buf := copyDesc buf (seglen - size) seglen (seglen - pos.dstofs - size)
  if pos.hnsofs = 0 then
    overwrite buf pos.dstofs
      (setSize size pos.saml (yptr.length - pos.saml) ++ yptr.drop pos.saml ++
        wordBytes pos kptr hinsi)
  else
    let douptr := buf.drop pos.douofs
    overwrite (overwrite buf pos.douofs (setSize newsiz (getplen douptr) (getnlen douptr)))
      pos.dstofs (wordBytes pos kptr hinsi)

/-- The offset of the new kanji string, under which the word is studied. -/
def wordOfs (yptr : Bytes) (pos : AddPos) : ℕ :=
  pos.dstofs + (if pos.hnsofs = 0 then douonBlkSizeNumber + (yptr.length - pos.saml) else 0) +
    (if pos.knjofs = 0 then 1 else 0)

/-- The study table after the word was stored and studied. -/
def studyWord (s : Stdy) (dicid segnum : ℕ) (yptr : Bytes) (pos : AddPos) (size : ℤ) : Stdy :=
  let s := s.shiftOffsets dicid segnum pos.dstofs size
  let s := s.forgetClause yptr
  (s.study ⟨⟨wordOfs yptr pos, segnum, 0, dicid, false, false, false⟩, false, false⟩).1

def insertWord (d : Dict) (s : Option Stdy) (segnum : ℕ) (yptr kptr : Bytes) (hinsi : UInt8)
    (pos : AddPos) (newsiz oldsiz nxtask : ℕ) : Dict × Option Stdy :=
  let dicbuf := d.getdic segnum
  let d :=
    if pos.hnsofs = 0 ∧ pos.douofs = ofsOf dicbuf (segtop dicbuf) then
      d.chgUidx segnum yptr yptr.length
    else d
  (d.putdic segnum (storeWord d.seglen dicbuf yptr kptr hinsi pos newsiz oldsiz nxtask),
    s.map fun s =>
      studyWord s d.dicid segnum yptr pos ((newsiz : ℤ) - oldsiz - nxtask))

/-- Register `kanji` with the reading `yomi` and the grammar code `hinsi` in `d`, one of
the dictionaries of `dictlist`. -/
def adddic (env : Env) (dictlist : List Dict) (d : Dict) (s : Option Stdy)
    (yomi kanji : Bytes) (hinsi : UInt8) : Result :=
  let yptr := yomiCodes yomi
  if addelArg yomi kanji hinsi ≠ 0 then ⟨some (addelArg yomi kanji hinsi), d, s⟩
  else
    let err := checkdict env dictlist yomi yptr kanji hinsi
    if err ≠ 0 then ⟨some err, d, s⟩
    else if d.maxunit = 0 then ⟨some adNotUserDict, d, s⟩
    else
      let kptr := cvtknj env.below env.belowKana yomi kanji
      let newsiz := douonBlkSizeNumber + yptr.length +
        (if kptr.length ≠ 0 then kptr.length + 1 else 0) + 2
      if newsiz > maxDouonBlk then ⟨some adOvflwDouBlk, d, s⟩
      else if newsiz > d.seglen then ⟨some adOvflwDouBlk, d, s⟩
      else
        match addLoop env yptr kptr hinsi (addFuel d) d s
            (d.srchidx yptr dicSegBase yptr.length) with
        | .fail ret d s => ⟨some ret, d, s⟩
        | .stuck d s => ⟨none, d, s⟩
        | .fit d s segnum pos newsiz oldsiz nxtask =>
            let r := insertWord d s segnum yptr kptr hinsi pos newsiz oldsiz nxtask
            ⟨some adDone, r.1, r.2⟩

end Sj3
