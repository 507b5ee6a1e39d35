import Sj3.Model.Dict
import Sj3.Model.Study

/-! # Candidates

The candidate table of a clause: how it is filled (`setkouho.c`, `mkkouho.c`,
`selsuuji.c`), ranked by what was studied (`getrank.c`), and how one candidate is picked
(`cvtclknj.c`). -/

namespace Sj3

/-! ## Words and clauses -/

/-- The kinds of numerals, in the order of their classes from `C_N_ARABIA` on. -/
inductive NumClass where
  | arabia
  | aracma
  | kazu
  | suuji
  | nansuu
  | kankura
  | arakura
  | kazulong
  | kazulcma
  | suujilong
  deriving DecidableEq, Repr

inductive TypeClass where
  | wakachi
  | minasi
  | bunsetu
  | dict
  | num (kind : NumClass)
  deriving DecidableEq, Repr

/-- A word found at the start of the input (`JREC`). `addr` is where the record lies. -/
structure Jiritu where
  addr : ℕ
  jseg : ℕ
  jofsst : ℕ
  flags : UInt16
  cls : TypeClass
  dicid : ℕ
  jlen : ℕ
  hinsi : UInt8
  sttofs : ℕ
  stbofs : ℕ
  deriving DecidableEq, Repr

/-- A clause that starts with a word (`CLREC`). `addr` is where the record lies. -/
structure Bunsetu where
  addr : ℕ
  jnode : Jiritu
  cllen : ℕ
  fzk_ka : Bool
  deriving DecidableEq, Repr

/-- A candidate (`KHREC`). -/
structure Kouho where
  clrec : Bunsetu
  offs : ℕ
  styno : ℤ
  rank : ℕ
  sttfg : Bool
  sttkj : Bool
  ka_fg : Bool
  ka_kj : Bool
  mode : ℕ
  deriving DecidableEq, Repr

/-- The candidates so far, the number of those that are plain numerals, and what kanji
codes currently refer to. -/
structure KouhoTbl where
  kouhotbl : List Kouho
  nkhcount : ℕ
  ref : SegRef

def KouhoTbl.khcount (t : KouhoTbl) : ℕ := t.kouhotbl.length

def tankanji : UInt8 := 189

/-! ## Numerals -/

def jflagN10 : UInt16 := (1 : UInt16) <<< 15
def jflagN_1 : UInt16 := (1 : UInt16) <<< 14
def jflagNS1 : UInt16 := (1 : UInt16) <<< 13
def jflagN01 : UInt16 := (1 : UInt16) <<< 12
def jflagN23 : UInt16 := (1 : UInt16) <<< 11
def jflagNK2 : UInt16 := (1 : UInt16) <<< 10
def jflagNK4 : UInt16 := (1 : UInt16) <<< 9
def jflagNN0 : UInt16 := (1 : UInt16) <<< 8
def jflagNSN : UInt16 := (1 : UInt16) <<< 7
def jflagKa : UInt16 := (1 : UInt16) <<< 0

def selarb : UInt16 := 1
def selarb0 : UInt16 := 2
def selarbcma : UInt16 := 3
def selkansj0 : UInt16 := 5
def selkansjym : UInt16 := 9
def selkansjym2 : UInt16 := 10
def sellongarb : UInt16 := 11
def sellongarbcma : UInt16 := 12
def sellongsj : UInt16 := 13
def selarbkr : UInt16 := 14
def selkansjkr : UInt16 := 15

def selnum1_23_10_1 : UInt16 := jflagN_1 ||| jflagN23 ||| jflagN10 ||| jflagNS1
def selnummust : UInt16 := jflagNK2 ||| jflagNK4 ||| jflagNN0 ||| jflagNSN
def selnumall : UInt16 :=
  jflagN10 ||| jflagN_1 ||| jflagNS1 ||| jflagN01 ||| jflagN23 ||| jflagNK2 ||| jflagNK4 |||
    jflagNN0 ||| jflagNSN

def selNumFunc (c : UInt16) : ℕ := (c &&& ~~~selnumall).toNat
def selNumCond (c : UInt16) : UInt16 := c &&& selnumall

/-- The forms a numeral of each kind can be written in, with their conditions
(`selsuuji.c`; the end mark of the tables is left out). -/
def selsjadrs : NumClass → List UInt16
  | .arabia =>
      [selarb0, selarbcma ||| jflagNK4 ||| jflagNN0, selkansjym ||| jflagNN0,
        selkansjym2 ||| selnum1_23_10_1 ||| jflagNN0, selkansj0 ||| jflagNK2]
  | .aracma =>
      [selarbcma ||| jflagNK4 ||| jflagNN0, selarb0, selkansjym ||| jflagNN0,
        selkansjym2 ||| selnum1_23_10_1 ||| jflagNN0, selkansj0 ||| jflagNK2]
  | .kazu =>
      [selkansjym ||| jflagNN0, selkansjym2 ||| selnum1_23_10_1 ||| jflagNN0,
        selkansj0 ||| jflagNK2, selarb0, selarbcma ||| jflagNK4 ||| jflagNN0]
  | .suuji => [selkansj0, selarb0]
  | .nansuu => [selkansjym]
  | .kankura => [selkansjkr, selarbkr]
  | .arakura => [selarbkr, selkansjkr ||| jflagNSN]
  | .kazulong => [sellongarb, sellongarbcma]
  | .kazulcma => [sellongarbcma, sellongarb]
  | .suujilong => [sellongarb, sellongsj]

def chrckNumtbl (flg cond : UInt16) : Bool :=
  let cond := selNumCond cond
  if cond ≠ 0 then
    let must := cond &&& selnummust
    if must ≠ 0 ∧ flg &&& must ≠ must then false
    else
      let cond := if must ≠ 0 then cond &&& ~~~must else cond
      if cond ≠ 0 ∧ cond &&& flg = 0 then false else true
  else true

/-- The form a dictionary entry of a numeral is written in. -/
def selSjmode (jrec : Jiritu) : ℕ :=
  match jrec.cls with
  | .num kind =>
      selNumFunc (((selsjadrs kind).find? (chrckNumtbl jrec.flags)).getD
        ((selsjadrs kind).headD 0))
  | _ => selNumFunc selarb

/-! ## Prefixes -/

def settouPtr : ℕ → Option Bytes
  | 1 => some [0xa1, 0xb8, 0xe6, 0xa4, 0xaa]
  | 2 => some [0xa1, 0xb8, 0xe6, 0xa4, 0xb4]
  | 3 => some [0x22, 0xc2, 0xe8, 0xc2, 0xe8]
  | 4 => some [0x01]
  | _ => none

/-- The prefix has a kanji and a hiragana form. -/
def sttHiraKnj (fptr : Bytes) : Bool := fptr.headD 0 &&& 0x80 ≠ 0

/-- The form of one code pair: 2 for hiragana, 3 for katakana, otherwise 1. -/
def hiraknjHira (p : Bytes) : ℕ :=
  let ch := p.getD 1 0
  if p.headD 0 = 0x24 then if 0x21 ≤ ch ∧ ch ≤ 0x73 then 2 else 1
  else if p.headD 0 = 0x25 then if 0x21 ≤ ch ∧ ch ≤ 0x76 then 3 else 1
  else 1

/-- What the kanji string at `p` starts with: 2 for hiragana, 3 for katakana, otherwise 1;
0 when it stands for nothing. -/
def hiraknj (ref : SegRef) : ℕ → Bytes → ℕ
  | 0, _ => 0
  | fuel + 1, p =>
      let csize := codesize (p.headD 0)
      let mode := p.headD 0 &&& kanjiModeMask
      let result : ℕ :=
        if mode = zenHiraAssyuku then 2
        else if mode = zenKataAssyuku then 3
        else if mode = offsetAssyuku then
          hiraknj ref fuel
            (ref.dicbuf.drop ((p.headD 0 &&& kanjiCodeMask).toNat * 0x100 + (p.getD 1 0).toNat))
        else if mode = aiAttribute then 0
        else if mode = leadingHankaku then 1
        else if mode = kanjiAssyuku then
          hiraknj ref fuel (ref.askknj.getD (p.headD 0 &&& kanjiCodeMask).toNat [])
        else hiraknjHira p
      if result ≠ 0 then result
      else if p.getD csize 0 = kanjiStrEnd then 0
      else hiraknj ref fuel (p.drop csize)

/-! ## Filling the table -/

/-- Put `kptr` behind the candidates; `mode` and `offs` say whether it is a plain numeral. -/
def KouhoTbl.put (t : KouhoTbl) (kptr : Kouho) (offs mode : ℕ) : KouhoTbl :=
  { t with
    kouhotbl := t.kouhotbl ++ [kptr]
    nkhcount := if mode ≠ 0 ∧ offs = 0 then t.nkhcount + 1 else t.nkhcount }

/-- The candidate `setkouho` fills in first. -/
def newKouho (clrec : Bunsetu) (offs mode : ℕ) : Kouho :=
  { clrec, offs
    styno := 0
    rank := 0
    sttfg := false
    sttkj := false
    ka_fg := clrec.jnode.flags &&& jflagKa ≠ 0 || clrec.fzk_ka
    ka_kj := clrec.jnode.flags &&& jflagKa ≠ 0
    mode := mode % 0x10 }

/-- Add the word at `offs`: in one form, or in both forms of its prefix. -/
def setkouho (t : KouhoTbl) (clrec : Bunsetu) (offs mode : ℕ) : KouhoTbl :=
  if t.khcount ≥ maxKouhoNumber then t
  else
    let kptr := newKouho clrec offs mode
    if (settouPtr clrec.jnode.sttofs).any sttHiraKnj then
      let kptr := { kptr with sttfg := true }
      let i := hiraknj t.ref (t.ref.fuel t.ref.dicbuf) (t.ref.dicbuf.drop offs)
      let t := t.put kptr offs mode
      if offs > 1 ∧ (i = 2 ∨ i = 3) then t
      else if t.khcount ≥ maxKouhoNumber then t
      else t.put { kptr with sttkj := true } offs mode
    else t.put kptr offs mode

/-! ### Equal texts -/

/-- One kana code as `sameknj` compares it. -/
def makekan1byte (s : Bytes) : Bytes :=
  if s.headD 0 &&& kanjiModeMask = zenHiraAssyuku then
    [0x10 ||| (s.headD 0 &&& kanjiCodeMask)]
  else [0x90 ||| (s.headD 0 &&& kanjiCodeMask)]

/-- The codes at `s` with all references to the segment replaced, and the end mark if
`flg` says so. -/
def makekan (ref : SegRef) : ℕ → Bytes → Bool → Bytes
  | 0, _, _ => []
  | fuel + 1, s, flg =>
      let csize := codesize (s.headD 0)
      let make (f : Bool) : Bytes :=
        let mode := s.headD 0 &&& kanjiModeMask
        let term := if f then [kanjiStrEnd] else []
        if mode = zenHiraAssyuku ∨ mode = zenKataAssyuku then makekan1byte s ++ term
        else if mode = offsetAssyuku then
          makekan ref fuel
            (ref.dicbuf.drop ((s.headD 0 &&& kanjiCodeMask).toNat * 0x100 + (s.getD 1 0).toNat)) f
        else if mode = aiAttribute then []
        else if mode = leadingHankaku then getkanAscii s ++ term
        else if mode = kanjiAssyuku then
          makekan ref fuel (ref.askknj.getD (s.headD 0 &&& kanjiCodeMask).toNat []) f
        else getkanNorm s ++ term
      if s.getD csize 0 = kanjiStrEnd then make flg
      else make false ++ makekan ref fuel (s.drop csize) flg

def eucCodesize (c : UInt8) : ℕ :=
  if c &&& kanjiModeMask = 0x90 then 1
  else if isknj1 c then 2
  else if c = ss3 then 3
  else 1

/-- All that is left at `p` is one code for the last characters of the reading. -/
def lastHira (p : Bytes) : Bool :=
  p.getD (eucCodesize (p.headD 0)) 0 = kanjiStrEnd && p.headD 0 &&& kanjiModeMask = 0x10

/-- How the comparing loop of `sameknj` ends: the sizes of two characters differ, the
characters do, or one or both of the strings end. -/
inductive KnjEnd where
  | size
  | differ (p q : Bytes)
  | ends (pend qend : Bool) (p q : Bytes)
  deriving DecidableEq, Repr

def sameknjLoop : ℕ → Bytes → Bytes → KnjEnd
  | 0, _, _ => .size
  | n + 1, p, q =>
      let i := eucCodesize (p.headD 0)
      if i ≠ eucCodesize (q.headD 0) then .size
      else if readN i p ≠ readN i q then .differ p q
      else if p.getD i 0 = kanjiStrEnd ∨ q.getD i 0 = kanjiStrEnd then
        .ends (p.getD i 0 = kanjiStrEnd) (q.getD i 0 = kanjiStrEnd) (p.drop i) (q.drop i)
      else sameknjLoop n (p.drop i) (q.drop i)

/-- The two strings are one text, for readings of `plen` and `qlen` codes. -/
def sameknj (p : Bytes) (plen : ℕ) (q : Bytes) (qlen : ℕ) : Bool :=
  -- the rest of one string is a last abbreviation
  let rest (p : Bytes) (plen qlen : ℤ) : Bool :=
    lastHira p && qlen = plen - (p.headD 0 &&& kanjiCodeMask).toNat - 1
  match sameknjLoop (p.length + 1) p q with
  | .size => false
  | .ends true true _ _ => plen = qlen
  | .ends true false _ q => rest q qlen plen
  | .ends false _ p _ => rest p plen qlen
  | .differ p q =>
      lastHira q && lastHira p &&
        (plen : ℤ) - (p.headD 0 &&& kanjiCodeMask).toNat =
          (qlen : ℤ) - (q.headD 0 &&& kanjiCodeMask).toNat

/-- The text of the word at `ptr` is not among the first `num` candidates yet. -/
def diffknj (t : KouhoTbl) (jrec : Jiritu) (ptr : Bytes) (num : ℕ) : Bool :=
  if jrec.hinsi = tankanji then true
  else
    let kan (p : Bytes) := makekan t.ref (t.ref.fuel t.ref.dicbuf) p true
    !(t.kouhotbl.take num).any fun kptr =>
      let jptr := kptr.clrec.jnode
      jptr.addr = jrec.addr ||
        (jptr.hinsi ≠ tankanji && jptr.cls = jrec.cls && jptr.dicid = jrec.dicid &&
          jptr.jseg = jrec.jseg && jptr.sttofs = jrec.sttofs && jptr.stbofs = jrec.stbofs &&
          sameknj (kan ptr) jrec.jlen (kan (t.ref.dicbuf.drop kptr.offs)) jptr.jlen)

/-! ### Words -/

def seldict (dictlist : List Dict) (id : ℕ) : Option Dict :=
  dictlist.find? fun d => d.dicid = id

/-- The loop of `cl_kanji` and `cl_numcmn` over the kanji strings at `ptr`; `use` says which
of them become candidates. -/
def setkouhoLoop (use : KouhoTbl → Bytes → Bool) (clrec : Bunsetu) (mode : ℕ) :
    ℕ → Bytes → KouhoTbl → KouhoTbl
  | 0, _, t => t
  | n + 1, ptr, t =>
      if ptr.headD hinsiBlkTerm = hinsiBlkTerm then t
      else
        setkouhoLoop use clrec mode n (skipkstr ptr)
          (if use t ptr then setkouho t clrec (t.ref.dicbuf.length - ptr.length) mode else t)

def clKanji (dictlist : List Dict) (jrec : Jiritu) (clrec : Bunsetu) (t : KouhoTbl) :
    KouhoTbl :=
  match seldict dictlist jrec.dicid with
  | some d =>
      let dicbuf := d.getdic jrec.jseg
      setkouhoLoop (fun t' ptr => diffknj t' jrec ptr t.khcount) clrec 0 dicbuf.length
        (dicbuf.drop (jrec.jofsst + 1)) { t with ref := Dict.segRef dicbuf }
  | none => setkouho t clrec 1 0

/-- The association strings are not looked up here: they stay those of the segment that
was the current one. -/
def clNumcmn (dictlist : List Dict) (kind : NumClass) (jrec : Jiritu) (clrec : Bunsetu)
    (t : KouhoTbl) : KouhoTbl :=
  if jrec.jofsst ≠ 0 then
    let i := selSjmode jrec
    match seldict dictlist jrec.dicid with
    | some d =>
        let dicbuf := d.getdic jrec.jseg
        setkouhoLoop (fun _ _ => true) clrec i dicbuf.length (dicbuf.drop (jrec.jofsst + 1))
          { t with ref := { t.ref with dicbuf } }
    | none => setkouho t clrec 1 i
  else
    ((selsjadrs kind).filter (chrckNumtbl jrec.flags)).foldl
      (fun t j => setkouho t clrec 0 (selNumFunc j)) t

def getkhtbl (dictlist : List Dict) (t : KouhoTbl) (clrec : Bunsetu) : KouhoTbl :=
  let jrec := clrec.jnode
  match jrec.cls with
  | .dict => clKanji dictlist jrec clrec t
  | .num kind => clNumcmn dictlist kind jrec clrec t
  | .bunsetu => t
  | .minasi => setkouho t clrec 0 0
  | .wakachi => setkouho t clrec 0 0

/-- The clauses from `clt1st` on that have its length. -/
def recblk (clt1st : List Bunsetu) : List Bunsetu :=
  clt1st.takeWhile fun clrec => some clrec.cllen = clt1st.head?.map Bunsetu.cllen

def mkkouho (dictlist : List Dict) (ref : SegRef) (clt1st : List Bunsetu) : KouhoTbl :=
  (recblk clt1st).foldl (getkhtbl dictlist) ⟨[], 0, ref⟩

/-! ## Ranks -/

/-- The table while it is ranked: the candidates dealt with, the next rank behind those of
the studied ones, and the rank plain numerals are to have. -/
structure Ranks where
  kouhotbl : List Kouho
  trank : ℕ
  nrank : ℕ
  deriving DecidableEq, Repr

/-- `kptr`, whose word has the record `sptr`, goes in front of `ptr`. -/
def goesFront (kptr : Kouho) (sptr : StdyIn) (ptr : Kouho) : Bool :=
  if sptr.styno < ptr.styno then true
  else if sptr.styno = ptr.styno then
    if kptr.sttfg && kptr.ka_fg then sptr.sttkj = kptr.sttkj && sptr.ka_kj = kptr.ka_kj
    else if kptr.sttfg then sptr.sttkj = kptr.sttkj
    else if kptr.ka_fg then sptr.ka_kj = kptr.ka_kj
    else false
  else false

def setnspr (r : Ranks) (kptr : Kouho) (sptr : StdyIn) : Ranks :=
  let keepnm := r.trank - r.kouhotbl.countP (goesFront kptr sptr)
  let nrank := if keepnm ≤ r.nrank then r.nrank + 1 else r.nrank
  { kouhotbl :=
      (r.kouhotbl.map fun ptr =>
        if goesFront kptr sptr ptr then { ptr with rank := (ptr.rank + 1) % 0x100 } else ptr) ++
        [{ kptr with styno := sptr.styno, rank := keepnm % 0x100 }]
    trank := r.trank + 1
    nrank := if sptr.nmflg ∧ nrank > keepnm then keepnm else nrank }

/-- The study record of a candidate's word. -/
def Kouho.studied (curstdy : Option Stdy) (kptr : Kouho) : Option StdyIn :=
  curstdy.bind fun s =>
    (s.srchstdy kptr.clrec.jnode.jseg kptr.offs kptr.clrec.jnode.dicid).bind fun i =>
      s.stdydic[i]?

def setstynum (curstdy : Option Stdy) (kouhotbl : List Kouho) : Ranks :=
  kouhotbl.foldl (fun r kptr =>
    match kptr.studied curstdy with
    | some sptr => setnspr r kptr sptr
    | none => { r with kouhotbl := r.kouhotbl ++ [kptr] }) ⟨[], 1, 1⟩

/-- The loop of `regetrank`: the next rank for plain numerals (0 if they have none of their
own) and the next one for the other candidates that were not studied. -/
def regetrankLoop (nrank nkhcount : ℕ) : List Kouho → ℕ → ℕ → List Kouho
  | [], _, _ => []
  | kptr :: rest, tmp, trank =>
      if kptr.rank = 0 then
        if tmp ≠ 0 ∧ kptr.mode ≠ 0 ∧ kptr.offs = 0 then
          { kptr with rank := tmp % 0x100 } :: regetrankLoop nrank nkhcount rest (tmp + 1) trank
        else
          { kptr with rank := trank % 0x100 } :: regetrankLoop nrank nkhcount rest tmp (trank + 1)
      else if kptr.rank ≥ nrank then
        { kptr with rank := (kptr.rank + nkhcount) % 0x100 } ::
          regetrankLoop nrank nkhcount rest tmp trank
      else kptr :: regetrankLoop nrank nkhcount rest tmp trank

def regetrank (r : Ranks) (nkhcount : ℕ) : List Kouho :=
  if r.nrank < r.trank then
    regetrankLoop r.nrank nkhcount r.kouhotbl r.nrank (r.trank + nkhcount)
  else regetrankLoop r.nrank 0 r.kouhotbl 0 r.trank

def getrank (curstdy : Option Stdy) (t : KouhoTbl) : List Kouho :=
  regetrank (setstynum curstdy t.kouhotbl) t.nkhcount

/-! ## Picking a candidate -/

/-- The candidate `cvtclknj` converts, by its place in the table. -/
def cvtclknj (kouhotbl : List Kouho) (selectid : ℕ) : ℕ :=
  kouhotbl.findIdx fun krec =>
    krec.rank = if selectid = 0 then kouhotbl.length else selectid

/-- The part of `setstyrec`'s record that `study` reads. Plain numerals are studied with the
word of the first candidate, which there always is. -/
def setstyrec (kouhotbl : List Kouho) (krec : Kouho) : StdyOut :=
  let numeral := krec.mode ≠ 0 ∧ krec.offs = 0
  let kptr := if numeral then (kouhotbl.find? fun k => k.rank = 1).getD krec else krec
  { stdy1 :=
      { offset := kptr.offs
        seg := kptr.clrec.jnode.jseg
        styno := kptr.styno
        dicid := kptr.clrec.jnode.dicid
        sttkj := krec.sttkj
        ka_kj := krec.ka_kj
        nmflg := numeral }
    sttfg := krec.sttfg
    ka_fg := krec.ka_fg }

end Sj3
