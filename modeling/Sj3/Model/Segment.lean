import Sj3.Model.Kanji

/-! # Segments

A pointer into a segment is modelled by the rest of the segment from it on, so the end of
the segment is the empty list. Reading there gives the end mark: every use of such a byte
in the source is guarded by `segend`, which holds at the end of the segment anyway.

Loops over the blocks of a segment take the length of the segment as their bound. -/

namespace Sj3

/-! ## Homophone blocks -/

def getsize (p : Bytes) : ℕ :=
  (p.headD dicSegTerm &&& 0x0f).toNat * 0x100 + (p.getD 1 dicSegTerm).toNat

def getntag (p : Bytes) : Bytes :=
  if p.headD dicSegTerm = dicSegTerm then p else p.drop (getsize p)

/-- How many codes of its reading a block shares with the block in front of it. -/
def getplen (p : Bytes) : ℕ :=
  (if p.headD dicSegTerm &&& assyukuYomiTop ≠ 0 then 0x10 else 0) +
    (p.getD 2 dicSegTerm >>> 4).toNat

/-- How many codes of its reading a block stores. -/
def getnlen (p : Bytes) : ℕ :=
  (if p.headD dicSegTerm &&& nokoriYomiTop ≠ 0 then 0x10 else 0) +
    (p.getD 2 dicSegTerm &&& 0x0f).toNat

def segtop (dicbuf : Bytes) : Bytes := dicbuf.drop ((dicbuf.headD dicSegTerm).toNat + 1)

def segend (p : Bytes) : Bool := p.headD dicSegTerm = dicSegTerm

/-- The three bytes `set_size` writes in front of a block. -/
def setSize (size plen nlen : ℕ) : Bytes :=
  [UInt8.ofNat (size >>> 8) ||| (if nlen &&& 0x10 ≠ 0 then nokoriYomiTop else 0) |||
      (if plen &&& 0x10 ≠ 0 then assyukuYomiTop else 0),
    UInt8.ofNat size,
    UInt8.ofNat ((nlen &&& 0x0f) ||| ((plen &&& 0x0f) <<< 4))]

/-! ## Searching a reading -/

/-- The comparing loop of `yomicmp`. The caller's count `saml` only changes when the
input does not come before the block. -/
def yomicmpLoop (saml : ℕ) : ℕ → Bytes → Bytes → ℕ → Cmp × ℕ
  | 0, _, _, same => (.match, same)
  | j + 1, ptr1, ptr2, same =>
      if ptr1.headD 0 > ptr2.headD 0 then (.cont, same)
      else if ptr1.headD 0 < ptr2.headD 0 then (.over, saml)
      else yomicmpLoop saml j ptr1.tail ptr2.tail (same + 1)

/-- Compare the input at `ptr1` with the reading of the block at `ptr2`, of which the
first `saml` codes are known to agree. A block that stores no reading has the one of the
index string `idx`. The new count fits the byte it is kept in, since a reading has at
most `maxWdYomiLen` codes. -/
def yomicmp (idx ptr1 ptr2 : Bytes) (saml : ℕ) : Cmp × ℕ :=
  if getnlen ptr2 = 0 then
    if readN saml ptr1 ≠ readN saml idx then (.over, saml)
    else yomicmpLoop saml (sstrlen (idx.drop saml)) (ptr1.drop saml) (idx.drop saml) saml
  else if getplen ptr2 > saml then (.cont, saml)
  else yomicmpLoop saml (getnlen ptr2) (ptr1.drop (getplen ptr2))
    (ptr2.drop douonBlkSizeNumber) (getplen ptr2)

/-- The loop of `srchkana` at `p`, with `same` codes matched so far, behind `cnt` blocks. -/
def srchkanaLoop (idx cnvstart : Bytes) :
    ℕ → Bytes → ℕ → Option (Bytes × ℕ) → ℕ → ℕ × Bytes × ℕ
  | 0, p, same, _, _ => (0, p, same)
  | n + 1, p, same, some found, cnt =>
      if segend p then (cnt, found)
      else srchkanaLoop idx cnvstart n (getntag p) same (some found) (cnt + 1)
  | n + 1, p, same, none, cnt =>
      if segend p then (0, p, same)
      else
        let r := yomicmp idx cnvstart p same
        if r.1 = .over then (0, p, r.2)
        else
          srchkanaLoop idx cnvstart n (getntag p) r.2
            (if r.1 = .match ∧ cnvstart.getD r.2 0 = 0 then some (p, r.2) else none) (cnt + 1)

/-- The number of blocks of the segment if the input reading has one, with that block and
the length of the reading; otherwise 0, with the place where it belongs and the number of
codes it shares with the block in front. -/
def srchkana (idx cnvstart dicbuf : Bytes) : ℕ × Bytes × ℕ :=
  srchkanaLoop idx cnvstart (dicbuf.length + 1) (segtop dicbuf) 0 none 0

/-- How many more codes of the input reading agree with the block at `ptr` than it shares
with the block in front of it. -/
def calNextymLoop : ℕ → Bytes → Bytes → ℕ
  | 0, _, _ => 0
  | len + 1, ptr, src =>
      if ptr.headD dicSegTerm = src.headD 0 then calNextymLoop len ptr.tail src.tail + 1 else 0

def calNextym (cnvstart ptr : Bytes) : ℕ :=
  if segend ptr then 0
  else calNextymLoop (getnlen ptr) (ptr.drop douonBlkSizeNumber) (cnvstart.drop (getplen ptr))

/-- The end mark of the segment at `ptr`. -/
def usrEnd : ℕ → Bytes → Bytes
  | 0, ptr => ptr
  | n + 1, ptr => if segend ptr then ptr else usrEnd n (ptr.drop (getsize ptr))

/-- The number of unused bytes of a segment. -/
def usrFreelen (seglen : ℕ) (dicbuf : Bytes) : ℕ :=
  seglen - (dicbuf.length - (usrEnd (dicbuf.length + 1) (segtop dicbuf)).length)

/-! ## Searching a grammar code -/

/-- The terminator of the grammar block at `ptr`, reached in steps of `codesize`. -/
def gramEnd : Bytes → Bytes
  | [] => []
  | c :: ptr =>
      if codesize c = 1 then
        if ptr.headD dicSegTerm = hinsiBlkTerm then ptr else gramEnd ptr
      else
        match ptr with
        | [] => []
        | _ :: ptr => if ptr.headD dicSegTerm = hinsiBlkTerm then ptr else gramEnd ptr

def srchgramLoop (hinsi : UInt8) (endp : Bytes) :
    ℕ → Bytes → Option Bytes → ℕ → ℕ × Bytes
  | 0, ptr, _, _ => (0, ptr)
  | n + 1, ptr, found, cnt =>
      if ptr.length > endp.length then
        srchgramLoop hinsi endp n (gramEnd ptr).tail
          (if ptr.headD dicSegTerm = hinsi then some ptr else found) (cnt + 1)
      else
        match found with
        | some dst => (cnt, dst)
        | none => (0, ptr)

/-- The number of grammar blocks of the homophone block at `ptr` if one of them has the
code `hinsi`, with the last such block; otherwise 0, with the end of the homophone block. -/
def srchgram (ptr : Bytes) (hinsi : UInt8) : ℕ × Bytes :=
  srchgramLoop hinsi (getntag ptr) (ptr.length + 1)
    (ptr.drop (douonBlkSizeNumber + getnlen ptr)) none 0

/-! ## Searching a kanji string -/

/-- The terminator of the kanji string at `ptr`. -/
def knjEnd : Bytes → Bytes
  | [] => []
  | c :: ptr =>
      if c = kanjiStrEnd then c :: ptr
      else if codesize c = 1 then knjEnd ptr
      else
        match ptr with
        | [] => []
        | _ :: ptr => knjEnd ptr

def srchkanjiLoop (knj : Bytes) : ℕ → Bytes → Option Bytes → ℕ → ℕ × Bytes
  | 0, ptr, _, _ => (0, ptr)
  | n + 1, ptr, found, cnt =>
      if ptr.headD dicSegTerm ≠ hinsiBlkTerm then
        srchkanjiLoop knj n (knjEnd ptr).tail
          (if knj.isPrefixOf ptr then some ptr else found) (cnt + 1)
      else (cnt, found.getD ptr)

/-- The number of kanji strings of the grammar block at `dst`, and the last of them that
starts with the code string `knj`, or the terminator of the block if none does. -/
def srchkanji (dst knj : Bytes) : ℕ × Bytes :=
  srchkanjiLoop knj dst.length dst.tail none 0

end Sj3
