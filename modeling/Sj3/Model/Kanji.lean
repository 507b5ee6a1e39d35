import Sj3.Model.Reading

/-! # Kanji strings

The compression of a kanji string against its reading in `addelcmn.c`, and its expansion
in `getkanji.c`. Both step in front of the reading when they look for more of it than
there is; the bytes they meet there are arguments (`below`, `belowKana`). -/

namespace Sj3

/-! ## Checks -/

/-- The loop of `isvknj` behind characters that count `len` together. -/
def isvknjLoop : ℕ → Bytes → Bool
  | _, [] => true
  | len, c :: kanji =>
      if c = 0 then true
      else if len + 2 > maxWdKanjiLen then false
      else if c = ss3 then
        match kanji with
        | _ :: _ :: kanji => isvknjLoop (len + 2) kanji
        | _ => true
      else if isknj1 c then
        match kanji with
        | _ :: kanji => isvknjLoop (len + 2) kanji
        | _ => true
      else isvknjLoop (len + 2) kanji

def isvknj (kanji : Bytes) : Bool :=
  if kanji.headD 0 = 0 then false else isvknjLoop 0 kanji

/-! ## Compression -/

/-- The katakana form of a reading. -/
def yomi2kata : Bytes → Bytes
  | [] => []
  | [first] => if first = 0 then [] else [if first = 0xa4 then 0xa5 else first, 0]
  | first :: second :: src =>
      if first = 0 then []
      else (if first = 0xa4 then 0xa5 else first) :: second :: yomi2kata src

/-- The number of leading bytes `src` and `dst` share. -/
def topMatch : Bytes → Bytes → ℕ
  | [], _ => 0
  | c :: src, dst => if c ≠ 0 ∧ c = dst.headD 0 then topMatch src dst.tail + 1 else 0

/-- How many leading characters of `src` start `dst`, as far as one code can say. -/
def topStrcmp (src dst : Bytes) : ℕ :=
  min (topMatch src dst / 2) maxYomiAskNumber

/-- The number of characters of `dst` if `src` ends with it, otherwise 0. -/
def lastStrcmp (below : ℕ → UInt8) (src dst : Bytes) : ℕ :=
  let slen := sstrlen src
  let dlen := sstrlen dst
  if dlen > maxYomiAskNumber * 2 then 0
  else if sstrcmp (around below src ((slen : ℤ) - dlen)) dst ≠ 0 then 0
  else dlen / 2

/-- The code for the first or last `len` characters of the reading. -/
def hiraCode (len : ℕ) : UInt8 := zenHiraAssyuku ||| UInt8.ofNat (len - 1)

/-- The same for its katakana form. -/
def kataCode (len : ℕ) : UInt8 := zenKataAssyuku ||| UInt8.ofNat (len - 1)

/-- The loop of `cvtknj` over the characters behind a leading abbreviation. -/
def cvtknjLoop (below belowKana : ℕ → UInt8) (yomi kana : Bytes) : Bytes → Bytes
  | [] => []
  | c :: knj =>
      if c = 0 then []
      else if lastStrcmp below yomi (c :: knj) ≠ 0 then
        [hiraCode (lastStrcmp below yomi (c :: knj))]
      else if lastStrcmp belowKana kana (c :: knj) ≠ 0 then
        [kataCode (lastStrcmp belowKana kana (c :: knj))]
      else if c = ss2 then
        match knj with
        | [] => [leadingHankaku, 0]
        | k :: knj => leadingHankaku :: k :: cvtknjLoop below belowKana yomi kana knj
      else if c = ss3 then
        match knj with
        | [] => [0, 0]
        | [k] => [k &&& normalKanjiMask, 0]
        | k₁ :: k₂ :: knj =>
            (k₁ &&& normalKanjiMask) :: k₂ :: cvtknjLoop below belowKana yomi kana knj
      else if c &&& 0x80 ≠ 0 then
        match knj with
        | [] => [c &&& normalKanjiMask, 0]
        | k :: knj =>
            (c &&& normalKanjiMask) :: (k &&& normalKanjiMask) ::
              cvtknjLoop below belowKana yomi kana knj
      else leadingHankaku :: c :: cvtknjLoop below belowKana yomi kana knj

/-- The abbreviation `cvtknj` starts with, and how many characters it stands for. -/
def cvtknjTop (yomi kana knj : Bytes) : Bytes × ℕ :=
  if topStrcmp yomi knj ≠ 0 then ([hiraCode (topStrcmp yomi knj)], topStrcmp yomi knj)
  else if topStrcmp kana knj ≠ 0 then ([kataCode (topStrcmp kana knj)], topStrcmp kana knj)
  else ([], 0)

/-- The code string of `knj`, without its terminator. -/
def cvtknj (below belowKana : ℕ → UInt8) (yomi knj : Bytes) : Bytes :=
  let kana := yomi2kata yomi
  let top := cvtknjTop yomi kana knj
  top.1 ++ cvtknjLoop below belowKana yomi kana (knj.drop (top.2 * 2))

/-! ## Expansion -/

def codesize (code : UInt8) : ℕ :=
  let mode := code &&& kanjiModeMask
  if mode = zenHiraAssyuku ∨ mode = zenKataAssyuku ∨ mode = kanjiAssyuku ∨
      mode = kanjiStrEnd then 1
  else 2

/-- The number of characters an abbreviation code stands for. -/
def askCount (s : Bytes) : ℕ := (s.headD 0 &&& kanjiCodeMask).toNat + 1

/-- Where in the reading the abbreviation at `s` starts. -/
def askStart (below : ℕ → UInt8) (s ym : Bytes) (yl : ℕ) (flg : Bool) : Bytes :=
  if flg ∧ s.getD (codesize (s.headD 0)) 0 = kanjiStrEnd then
    around below ym (((yl : ℤ) - askCount s) * 2)
  else ym

def getkanHira (below : ℕ → UInt8) (s ym : Bytes) (yl : ℕ) (flg : Bool) : Bytes :=
  readN (askCount s * 2) (askStart below s ym yl flg)

/-- `cnt` characters at `ym`, hiragana turned into katakana. -/
def kataN : ℕ → Bytes → Bytes
  | 0, _ => []
  | cnt + 1, ym =>
      let ch := ym.getD 1 0
      (if ym.headD 0 = 0xa4 then if 0xa1 ≤ ch ∧ ch ≤ 0xf3 then 0xa5 else 0xa4
        else ym.headD 0) :: ch :: kataN cnt (ym.drop 2)

def getkanKata (below : ℕ → UInt8) (s ym : Bytes) (yl : ℕ) (flg : Bool) : Bytes :=
  kataN (askCount s) (askStart below s ym yl flg)

def getkanNorm (s : Bytes) : Bytes :=
  if s.headD 0 ≠ 0 then
    let c := s.getD 1 0
    (if c &&& 0x80 ≠ 0 then [ss3] else []) ++ [s.headD 0 ||| 0x80, c ||| 0x80]
  else [s.headD 0]

def getkanAscii (s : Bytes) : Bytes :=
  let c := s.getD 1 0
  (if c &&& 0x80 ≠ 0 then [ss2] else []) ++ [c]

/-- What the codes of a segment may refer to: the segment and its association strings. -/
structure SegRef where
  dicbuf : Bytes
  askknj : List Bytes

/-- The expansion of the codes at `s`. Codes may refer to other strings of the segment,
so the number of steps is bounded by `fuel`. -/
def code2kanji (below : ℕ → UInt8) (ref : SegRef) :
    ℕ → Bytes → Bytes → ℕ → Bool → Bytes
  | 0, _, _, _, _ => []
  | fuel + 1, s, ym, yl, flg =>
      let csize := codesize (s.headD 0)
      let expand (f : Bool) : Bytes :=
        let mode := s.headD 0 &&& kanjiModeMask
        if mode = zenHiraAssyuku then getkanHira below s ym yl f
        else if mode = zenKataAssyuku then getkanKata below s ym yl f
        else if mode = offsetAssyuku then
          code2kanji below ref fuel
            (ref.dicbuf.drop ((s.headD 0 &&& kanjiCodeMask).toNat * 0x100 +
              (s.getD 1 0).toNat)) ym yl f
        else if mode = aiAttribute then []
        else if mode = leadingHankaku then getkanAscii s
        else if mode = kanjiAssyuku then
          code2kanji below ref fuel
            (ref.askknj.getD (s.headD 0 &&& kanjiCodeMask).toNat []) ym yl f
        else getkanNorm s
      if s.getD csize 0 = kanjiStrEnd then expand flg
      else expand false ++ code2kanji below ref fuel (s.drop csize) ym yl flg

/-- The terminator at which `code2kanji` stops reading codes. -/
def code2kanjiStop : Bytes → Bytes
  | [] => []
  | c :: s =>
      if codesize c = 1 then
        if s.headD 0 = kanjiStrEnd then s else code2kanjiStop s
      else
        match s with
        | [] => []
        | _ :: s => if s.headD 0 = kanjiStrEnd then s else code2kanjiStop s

/-- Enough steps for any expansion that ends: a chain of references cannot visit a
position of the segment twice. -/
def SegRef.fuel (ref : SegRef) (ptr : Bytes) : ℕ :=
  ptr.length + (ref.dicbuf.length + 1) * (ref.dicbuf.length + 1)

def getkanji (below : ℕ → UInt8) (ref : SegRef) (ym : Bytes) (yl : ℕ) (ptr : Bytes) : Bytes :=
  code2kanji below ref (ref.fuel ptr) ptr ym yl true

/-! ## Walking over kanji strings -/

def skipkstr : Bytes → Bytes
  | [] => []
  | c :: ptr =>
      if codesize c = 1 then
        if ptr.headD dicSegTerm = kanjiStrEnd then ptr.tail else skipkstr ptr
      else
        match ptr with
        | [] => []
        | _ :: ptr =>
            if ptr.headD dicSegTerm = kanjiStrEnd then ptr.tail else skipkstr ptr

end Sj3
