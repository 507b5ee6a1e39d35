import Sj3.Model.Cl2knj

/-! # Particles behind a word

The search for the particles that may follow a word (`fuzoku.c`), with its table of those
already found at a place, and the two ways to the clauses of a reading: from the words of the
dictionaries (`mkbunset.c`) and without any (`wakachi.c`). A pointer into the reading is its
distance from `cnvstart`. -/

namespace Sj3

/-! ## Tables -/

/-- The tables of the grammar (`termtbl.c`, `connect.c`, `fzkyomi.c`, `conjunc.c`,
`stbtbl.c`). -/
structure Grammar where
  termtbl : UInt8 → UInt8
  connadr : UInt8 → UInt8
  rigtadr : UInt8 → Bytes
  fzkadr : ℕ → Option Bytes
  conjadr : UInt8 → Option Bytes
  getstb : UInt8 → Option Bytes

def maxFrec : ℕ := 32
def maxFlvl : ℕ := 10

def fzktop : UInt8 := 0x02
def number : UInt8 := 0x08
def fzkKgu : UInt8 := 0x10
def taiKgu : UInt8 := 0x20
def tKanou : UInt8 := 0x80
def tShuujo : UInt8 := 0x40
def fzkEnd : UInt8 := 0xff
def cnjEnd : UInt8 := 0xff
def tyouonFlg : UInt8 := 0x80

def yTyouon : UInt8 := 0x01
def yXa : UInt8 := 0x4e
def yNn : UInt8 := 0xa0

def rI : UInt8 := 16
def rItadake : UInt8 := 25
def rRenyou1 : UInt8 := 27
def rSa5renyou1 : UInt8 := 29
def rRenyou3 : UInt8 := 30
def rSa5renyou3 : UInt8 := 32
def rDeshi : UInt8 := 46
def rTai : UInt8 := 87
def rNai : UInt8 := 89
def rMeirei2 : UInt8 := 110
def rFzkmeisi : UInt8 := 121
def rDaimeisi : UInt8 := 126
def rCut : UInt8 := 137
def rTe2 : UInt8 := 193
def rTeru : UInt8 := 194
def rFzkkgu : UInt8 := 246
def rMeisi : UInt8 := 247
def rSmeisi1 : UInt8 := 249

def settouO : ℕ := 1
def settouGo : ℕ := 2

def meisi1 : UInt8 := 1
def meisi5 : UInt8 := 5
def meisi6 : UInt8 := 6
def meisi7 : UInt8 := 7
def meisi9 : UInt8 := 9
def dMeisi1 : UInt8 := 12
def dMeisi4 : UInt8 := 15
def dMeisi5 : UInt8 := 16
def rentaisi : UInt8 := 26
def setuzoku : UInt8 := 27
def kandousi : UInt8 := 28
def setubi5 : UInt8 := 40
def setubi6 : UInt8 := 41
def setubi7 : UInt8 := 42
def setubi8 : UInt8 := 43
def fukusi1 : UInt8 := 45
def fukusi9 : UInt8 := 53
def keiyousi1 : UInt8 := 60
def keDousi9 : UInt8 := 79
def doSahen : UInt8 := 80
def spKaOnb : UInt8 := 185
def spFukusi : UInt8 := 186
def aisatu : UInt8 := 187
def spKeiyousi : UInt8 := 188

def fzkAskLen (p : Bytes) : ℕ := (p.headD 0).toNat >>> 5
def fzkNkrLen (p : Bytes) : ℕ := (p.headD 0 &&& 0x07).toNat
def fzkStrKa (p : Bytes) : Bool := (p.headD 0 >>> 3) &&& 1 ≠ 0
def fzkHasCode (p : Bytes) : Bool := p.headD 0 &&& 0x10 ≠ 0
def fzkLeft (p : Bytes) : UInt8 := p.getD (fzkNkrLen p + 1) 0
def fzkRight (p : Bytes) : UInt8 := p.getD (fzkNkrLen p + 2) 0

def cnjAskLen (p : Bytes) : ℕ := (p.headD 0 &&& 0x70).toNat >>> 4
def cnjNkrLen (p : Bytes) : ℕ := (p.headD 0 &&& 0x0f).toNat
def cnjRight (p : Bytes) : UInt8 := p.getD (cnjNkrLen p + 1) 0
def cnjRecLen (p : Bytes) : ℕ := cnjNkrLen p + 2

def stbHinsi (p : Bytes) : UInt8 := p.getD 1 0

/-! ## Comparing -/

/-- The loop over the `nkrlen` bytes an entry does not share with the one before it. -/
def nkrcmp : ℕ → Bytes → Bytes → ℕ → Cmp × ℕ
  | 0, _, _, saml => (.match, saml)
  | nkrlen + 1, yptr, p, saml =>
      if yptr.headD 0 > p.headD 0 then (.cont, saml)
      else if yptr.headD 0 < p.headD 0 then
        if yptr.headD 0 = 0 then (.partly, saml) else (.over, saml)
      else nkrcmp nkrlen yptr.tail p.tail (saml + 1)

/-- `saml` bytes of the reading are known to be those of the entry before. -/
def askcmp (asklen nkrlen : ℕ) (yptr p : Bytes) (saml : ℕ) : Cmp × ℕ :=
  if saml < asklen then (.cont, saml)
  else if saml > asklen then (.over, saml)
  else nkrcmp nkrlen (yptr.drop asklen) p.tail saml

def fzkstrcmp (yptr fzkp : Bytes) (saml : ℕ) : Cmp × ℕ :=
  askcmp (fzkAskLen fzkp) (fzkNkrLen fzkp) yptr fzkp saml

def cnjstrcmp (yptr cnjp : Bytes) (saml : ℕ) : Cmp × ℕ :=
  askcmp (cnjAskLen cnjp) (cnjNkrLen cnjp) yptr cnjp saml

/-- A clause may end in front of `yomi`. -/
def terminate (g : Grammar) (y : Bytes) (right : UInt8) (yomi : ℕ) : Bool :=
  let ch := y.getD yomi 0
  if yomi > 0 ∧ chrtbl (y.getD (yomi - 1) 0) &&& number ≠ 0 then true
  else if g.termtbl right &&& tShuujo ≠ 0 ∧ ch = 0 then true
  else if g.termtbl right &&& tShuujo ≠ 0 ∧ chrtbl ch &&& fzktop ≠ 0 then false
  else if g.termtbl right &&& tShuujo ≠ 0 ∧ ¬ isdpnd ch then true
  else if g.termtbl right &&& tKanou ≠ 0 then
    if ch ≠ 0 ∧ chrtbl ch &&& fzktop ≠ 0 then false else !isdpnd ch
  else false

def fzkcnct (g : Grammar) (right left : UInt8) : Bool :=
  if right ≠ 0 ∧ left ≠ 0 then
    let left := left.toNat - 1
    ((g.rigtadr right).getD (left >>> 3) 0).toNat <<< (left &&& 0x07) &&& 0x80 ≠ 0
  else false

/-! ## Clauses found -/

/-- An entry of `fzktbl`: the place in the reading and the particle found there. -/
abbrev Frec := ℕ × Bytes

inductive Kubun where
  | doushi
  | yougen
  | taigen
  | fukusi
  | rentaisi
  | sonota
  deriving DecidableEq, Repr

/-- What a clause is taken for, by its word, its ending and its right connection. -/
def kubun (hinsi : UInt8) (gobilen : ℕ) (right : UInt8) : Kubun :=
  if doSahen ≤ hinsi ∧ hinsi ≤ spKaOnb then .doushi
  else if (keiyousi1 ≤ hinsi ∧ hinsi ≤ keDousi9) ∨ hinsi = spKeiyousi then
    if right = rFzkmeisi then .taigen else .yougen
  else if hinsi = rentaisi then .rentaisi
  else if (fukusi1 ≤ hinsi ∧ hinsi ≤ fukusi9) ∨ hinsi = spFukusi then .fukusi
  else if hinsi = setuzoku ∨ hinsi = kandousi ∨ hinsi = tankanji ∨ hinsi = aisatu then .sonota
  else if gobilen ≠ 0 then
    if meisi5 ≤ hinsi ∧ hinsi ≤ meisi7 then .doushi
    else if hinsi = dMeisi4 then .doushi
    else if hinsi = setubi7 ∨ hinsi = setubi8 then .doushi
    else if hinsi = dMeisi5 then .yougen
    else if hinsi = setubi5 ∨ hinsi = setubi6 then .yougen
    else .taigen
  else if meisi5 ≤ hinsi ∧ hinsi ≤ meisi7 then
    if rI ≤ right ∧ right ≤ rItadake then .doushi
    else if rDeshi ≤ right ∧ right ≤ rTai then .doushi
    else if rNai ≤ right ∧ right ≤ rMeirei2 then .doushi
    else if right = rTe2 ∨ right = rTeru then .doushi
    else .taigen
  else .taigen

structure Clrec where
  jnode : Jiritu
  cllen : ℕ
  right : UInt8
  gobiln : ℕ
  kubun : Kubun
  fzk_ka : Bool
  deriving DecidableEq, Repr

/-- The part of the work area the search uses. `fzkmost` is the most entries `fzktbl` has had,
`deepest` the highest level that `srchfzk` was called with, and `clrecs` are the records that
`argclrec` was asked for, in this order. -/
structure FzkState (α : Type) where
  fzktbl : List α
  fzkmost : ℕ
  deepest : ℕ
  fzk_ka_flg : Bool
  gobilen : ℕ
  clrecs : List Clrec

namespace FzkState

variable {α : Type}

def setclrec (jrec : Jiritu) (yptr : ℕ) (right : UInt8) (st : FzkState α) : FzkState α :=
  if yptr = 0 then st
  else if yptr > maxClInputLen then st
  else
    { st with
      clrecs := st.clrecs ++
        [⟨jrec, yptr, right, st.gobilen, kubun jrec.hinsi st.gobilen right, st.fzk_ka_flg⟩] }

/-- `alloc i` says whether there was memory for the `i`-th record. -/
def maxclptr (alloc : ℕ → Bool) (st : FzkState α) : List Bunsetu :=
  setclrecs [] (st.clrecs.zipIdx.map fun c => (alloc c.2, ⟨c.2, c.1.jnode, c.1.cllen, c.1.fzk_ka⟩))

end FzkState

/-! ## The search -/

/-- What `srchfzk` does in front of its search: nothing, one clause up to the end of the
punctuation, or the search. -/
inductive FzkStart where
  | stop
  | kugiri
  | search
  deriving DecidableEq, Repr

def isKgu (c : UInt8) : Bool := chrtbl c &&& fzkKgu ≠ 0

def fzkStart (g : Grammar) (y : Bytes) (yptr : ℕ) (right : UInt8) (level : ℕ) : FzkStart :=
  let ch := y.getD yptr 0
  if level ≥ maxFlvl ∧ ¬ isKgu ch then .stop
  else if terminate g y right yptr ∧ isKgu ch then .kugiri
  else if right = rCut then .stop
  else if ch = 0 then .stop
  else if ¬ (yXa ≤ ch ∧ ch ≤ yNn) then .stop
  else .search

/-- Behind the punctuation at `yptr`. -/
def skipKgu (y : Bytes) (yptr : ℕ) : ℕ := yptr + 1 + ((y.drop (yptr + 1)).takeWhile isKgu).length

/-- The clause that ends with punctuation. -/
def setKugiri {α : Type} (y : Bytes) (jrec : Jiritu) (yptr level : ℕ) (st : FzkState α) :
    FzkState α :=
  (if level = 0 then { st with fzk_ka_flg := false } else st).setclrec jrec (skipKgu y yptr) rFzkkgu

/-- Go on behind the particle `fzk`, which ends in front of `next`, if it connects; `srch` is
the recursive call. -/
def follow {α : Type} (g : Grammar) (y : Bytes) (jrec : Jiritu)
    (srch : ℕ → UInt8 → ℕ → FzkState α → FzkState α) (right : UInt8) (level next : ℕ)
    (fzk : Bytes) (st : FzkState α) : FzkState α :=
  if ¬ fzkcnct g right (fzkLeft fzk) then st
  else
    let st := if level = 0 then { st with fzk_ka_flg := fzkStrKa fzk } else st
    let rt := fzkRight fzk
    let st := if terminate g y rt next then st.setclrec jrec next rt else st
    srch next rt (level + 1) st

/-- The loop over the particles at `fzk`, where `len` bytes at `yptr` are known; `use` is what
becomes of one that matches `len` bytes. -/
def fzkLoop {σ : Type} (yptr : Bytes) (use : Bytes → ℕ → σ → σ) : ℕ → Bytes → ℕ → σ → σ
  | 0, _, _, st => st
  | n + 1, fzk, len, st =>
      if fzk.headD fzkEnd = fzkEnd then st
      else
        let rest := fzk.drop (fzkNkrLen fzk + if fzkHasCode fzk then 4 else 3)
        let cmp := fzkstrcmp yptr fzk len
        match cmp.1 with
        | .over => st
        | .partly => st
        | .match =>
            if isdpnd (yptr.getD cmp.2 0) then fzkLoop yptr use n rest cmp.2 st
            else fzkLoop yptr use n rest cmp.2 (use fzk cmp.2 st)
        | _ => fzkLoop yptr use n rest cmp.2 st

/-- Search the table for particles at `yptr`. -/
def fzkScan {σ : Type} (g : Grammar) (y : Bytes) (yptr : ℕ) (use : Bytes → ℕ → σ → σ)
    (st : σ) : σ :=
  match g.fzkadr ((y.getD yptr 0).toNat - yXa.toNat) with
  | none => st
  | some fzk => fzkLoop (y.drop (yptr + 1)) use (fzk.length + 1) fzk 0 st

/-- A new entry of `fzktbl`. -/
def pushFrec (yptr : ℕ) (fzk : Bytes) (st : FzkState Frec) : FzkState Frec :=
  { st with
    fzktbl := st.fzktbl ++ [(yptr, fzk)]
    fzkmost := max st.fzkmost (st.fzktbl.length + 1) }

/-- The first argument is more than the levels to come. -/
def srchfzk (g : Grammar) (y : Bytes) (jrec : Jiritu) :
    ℕ → ℕ → UInt8 → ℕ → FzkState Frec → FzkState Frec
  | 0, _, _, _, st => st
  | n + 1, yptr, right, level, st =>
      let st := { st with deepest := max st.deepest level }
      match fzkStart g y yptr right level with
      | .stop => st
      | .kugiri => setKugiri y jrec yptr level st
      | .search =>
          let use := follow g y jrec (srchfzk g y jrec n) right level
          let known := st.fzktbl.filter fun e => e.1 = yptr
          if known ≠ [] then
            known.foldl
              (fun st e => use (yptr + (fzkAskLen e.2 + fzkNkrLen e.2 + 1)) e.2 st) st
          else
            fzkScan g y yptr
              (fun fzk len st => use (yptr + 1 + len) fzk (pushFrec yptr fzk st)) st

/-! ## Conjugation -/

/-- The loop of `setconj`: lengths and right connections. -/
def setconjLoop (cnvrow : UInt8 → UInt8) (yptr : Bytes) (ofslen : ℕ) :
    ℕ → Bytes → ℕ → List (ℕ × UInt8)
  | 0, _, _ => []
  | n + 1, cnj, saml =>
      if cnj.headD cnjEnd = cnjEnd then []
      else
        let rest := cnj.drop (cnjRecLen cnj)
        let cmp := cnjstrcmp yptr cnj saml
        match cmp.1 with
        | .over => []
        | .partly => []
        | .match =>
            if isdpnd (yptr.getD cmp.2 0) then setconjLoop cnvrow yptr ofslen n rest cmp.2
            else
              let right := cnvrow (cnjRight cnj)
              if right ≠ 0 then
                ((ofslen + cmp.2) % 0x100, right) :: setconjLoop cnvrow yptr ofslen n rest cmp.2
              else setconjLoop cnvrow yptr ofslen n rest cmp.2
        | _ => setconjLoop cnvrow yptr ofslen n rest cmp.2

def cnvrow (rec : Jiritu) (row : UInt8) : UInt8 :=
  if rec.sttofs = settouO then
    if rRenyou1 ≤ row ∧ row ≤ rSa5renyou1 then row + 6
    else if rRenyou3 ≤ row ∧ row ≤ rSa5renyou3 then row + 3
    else if (keiyousi1 ≤ rec.hinsi ∧ rec.hinsi ≤ keDousi9) ∨ rec.hinsi = meisi5 ∨
        rec.hinsi = meisi9 then row
    else 0
  else if rec.sttofs = settouGo then
    if rec.hinsi = meisi7 ∧ row = rSmeisi1 then row + 1 else row
  else row

def setconj (g : Grammar) (y : Bytes) (hinsi : UInt8) (jrec : Jiritu) : List (ℕ × UInt8) :=
  match g.conjadr hinsi with
  | none => []
  | some cnj =>
      let yptr := y.drop jrec.jlen
      let ofslen :=
        if cnj.headD 0 &&& tyouonFlg ≠ 0 then (yptr.takeWhile fun c => c = yTyouon).length else 0
      setconjLoop (cnvrow jrec) (yptr.drop ofslen) ofslen (cnj.length + 1) cnj 0

/-! ## The clauses of a reading -/

section Clauses

variable {α : Type} (g : Grammar) (y : Bytes)
  (srch : Jiritu → ℕ → UInt8 → ℕ → FzkState α → FzkState α)

/-- A clause that may end in front of `next`, and those with particles there. -/
def clauseFrom (jrec : Jiritu) (next : ℕ) (right : UInt8) (st : FzkState α) : FzkState α :=
  let st :=
    if terminate g y right next then
      { st with fzk_ka_flg := false }.setclrec jrec next right
    else st
  srch jrec next right 0 st

/-- The clauses that start with the word `jrec`. -/
def wordClauses (jrec : Jiritu) (st : FzkState α) : FzkState α :=
  let stb := if jrec.stbofs ≠ 0 then g.getstb jrec.hinsi else none
  let hinsi := stb.elim jrec.hinsi fun cnj => stbHinsi (cnj.drop (jrec.stbofs - 1))
  let right := g.connadr hinsi
  if right ≠ 0 then clauseFrom g y srch jrec jrec.jlen right { st with gobilen := 0 }
  else
    (setconj g y hinsi jrec).reverse.foldl
      (fun st c =>
        clauseFrom g y srch jrec (jrec.jlen + c.1) c.2 { st with gobilen := c.1 }) st

def mkbunsetuWith (words : List Jiritu) (st : FzkState α) : FzkState α :=
  words.foldl (fun st jrec => wordClauses g y srch jrec st)
    { st with fzktbl := [], fzkmost := 0, deepest := 0, clrecs := [] }

/-- A word made up by `wakachi`. -/
def wakachiRec (jlen : ℕ) (hinsi : UInt8) : Jiritu where
  addr := 0
  jseg := 0
  jofsst := 0
  flags := 0
  cls := .wakachi
  dicid := 0
  jlen
  hinsi
  sttofs := 0
  stbofs := 0

/-- What the loop over the conjugations leaves behind; `number` tells that it returned at a
numeral. -/
inductive WakachiEnd (α : Type) where
  | next (st : FzkState α)
  | number (st : FzkState α)

/-- The loop of `wakachi` over the conjugations behind `jrec`. -/
def wakachiConj (jrec : Jiritu) : List (ℕ × UInt8) → FzkState α → WakachiEnd α
  | [], st => .next st
  | (gobilen, right) :: crec, st =>
      let st := { st with gobilen }
      let next := jrec.jlen + gobilen
      if gobilen ≠ 0 then
        let st :=
          if terminate g y right next then
            { st with fzk_ka_flg := false }.setclrec jrec next right
          else st
        wakachiConj jrec crec (srch jrec next right 0 st)
      else if chrtbl (y.getD next 0) &&& number ≠ 0 ∧ jrec.jlen ≠ 0 then
        .number ({ st with fzk_ka_flg := false }.setclrec jrec next right)
      else wakachiConj jrec crec (srch jrec next right 0 st)

/-- The loop of `wakachi` over the lengths up to `maxlen`, of which `n` are left: the length
it stops at. -/
def wakachiLoop (alloc : ℕ → Bool) (maxlen : ℕ) : ℕ → FzkState α → WakachiEnd α × ℕ
  | 0, st => (.next st, maxlen)
  | n + 1, st =>
      let jrec := wakachiRec (maxlen - (n + 1)) meisi6
      match wakachiConj g y srch jrec (setconj g y meisi6 jrec).reverse st with
      | .number st => (.number st, jrec.jlen)
      | .next st =>
          if st.maxclptr alloc ≠ [] then (.next st, jrec.jlen) else wakachiLoop alloc maxlen n st

/-- The clause that `wakachi` makes of `jrec` itself. -/
def wakachiSelf (alloc : ℕ → Bool) (jrec : Jiritu) (st : FzkState α) : FzkState α :=
  if st.maxclptr alloc ≠ [] ∧ chrtbl (y.getD jrec.jlen 0) &&& fzktop ≠ 0 then st
  else if jrec.jlen ≠ 0 then
    { st with clrecs := st.clrecs ++ [⟨jrec, jrec.jlen, rMeisi, 0, .taigen, false⟩] }
  else st

def wakachiWith (alloc : ℕ → Bool) (st : FzkState α) : FzkState α :=
  let maxlen := min (sstrlen y) maxClInputLen
  let kugiri (c : UInt8) : Bool := chrtbl c &&& (taiKgu ||| fzkKgu) ≠ 0
  if kugiri (y.getD 0 0) then
    let i := min (y.takeWhile fun c => c ≠ 0 && kugiri c).length maxlen
    let jrec := wakachiRec i dMeisi1
    wakachiSelf y alloc jrec
      (if chrtbl (y.getD (i - 1) 0) &&& taiKgu ≠ 0 then srch jrec i rDaimeisi 0 st else st)
  else
    match wakachiLoop g y srch alloc maxlen maxlen st with
    | (.number st, _) => st
    | (.next st, jlen) => wakachiSelf y alloc (wakachiRec jlen meisi6) st

end Clauses

/-- Levels 0 to `maxFlvl` can be reached. -/
def fzkLevels : ℕ := maxFlvl + 1

def mkbunsetu (g : Grammar) (y : Bytes) (words : List Jiritu) (st : FzkState Frec) :
    FzkState Frec :=
  mkbunsetuWith g y (fun jrec => srchfzk g y jrec fzkLevels) words st

def wakachi (g : Grammar) (y : Bytes) (alloc : ℕ → Bool) (st : FzkState Frec) : FzkState Frec :=
  wakachiWith g y (fun jrec => srchfzk g y jrec fzkLevels) alloc st

/-- The two calls of `cl2knj`. -/
def mkclauses (g : Grammar) (y : Bytes) (words : List Jiritu) (alloc : ℕ → Bool)
    (st : FzkState Frec) : FzkState Frec :=
  let st := mkbunsetu g y words st
  if st.maxclptr alloc = [] then wakachi g y alloc st else st

end Sj3
