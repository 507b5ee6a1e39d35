import Sj3.Model.Execute
import Sj3.Model.Reply

/-! # Conversion of a whole reading by the client library

`sj3_getkan` and `sj3_getkan_euc` (`sj.c`). The reading of the caller is no part of the memory
that is written; pointers into it are offsets. Loops over the memory are given a bound on
their turns, and `none` stands for one that does not end within it. -/

namespace Sj3

open Memory

def sj3IkkatuYomi : ℕ := 512
def sj3WordIdSize : ℕ := 32

/-- `SJ3_BUNSETU`; `dcid` has the bytes that were stored into it. -/
structure Sj3Bunsetu where
  srclen : ℤ
  destlen : ℤ
  srcstr : ℕ
  deststr : Option ℕ
  dcid : Bytes
  deriving DecidableEq, Repr

def memStrlen (m : Mem) : ℕ → ℕ → Option ℕ
  | 0, _ => none
  | n + 1, p => if m p = 0 then some 0 else (memStrlen m n (p + 1)).map (· + 1)

/-- `while (*src) *knj++ = *src++` -/
def copyText : ℕ → Mem → ℕ → ℕ → Option (Mem × ℕ × ℕ)
  | 0, _, _, _ => none
  | n + 1, m, src, knj =>
      if m src = 0 then some (m, src, knj)
      else copyText n (Function.update m knj (m src)) (src + 1) (knj + 1)

/-- The variables of the loop over the requests. -/
structure GetkanState where
  mem : Mem
  yomi : ℕ
  knj : ℕ
  knjsiz : ℤ
  bun : List Sj3Bunsetu

/-- The loop over the clauses of a reply, which lies in the buffer of the result itself. -/
def getkanClauses (stysiz turns : ℕ) : ℕ → ℕ → GetkanState → Option GetkanState
  | 0, _, _ => none
  | n + 1, src, s =>
      if s.mem src = 0 then some { s with mem := Function.update s.mem s.knj 0 }
      else
        let srclen := (s.mem src).toNat
        let dcid := cells s.mem (src + 1) stysiz
        let src := src + 1 + stysiz
        match memStrlen s.mem turns src, copyText turns s.mem src s.knj with
        | some destlen, some (mem, src, knj) =>
            getkanClauses stysiz turns n (src + 1)
              ⟨mem, s.yomi + srclen, knj, s.knjsiz - destlen,
                s.bun ++ [⟨srclen, destlen, s.yomi, some s.knj, dcid⟩]⟩
        | _, _ => none

/-- What the reads return after the `i`-th request with a reading. -/
abbrev IkkatuServer := ℕ → Bytes → List Bytes

/-- Where the loop over the requests leaves off: at its end, or with the value that the
function returns for an error. -/
inductive GetkanEnd where
  | done (s : GetkanState)
  | error (ret : ℤ) (s : GetkanState)

/-- The loop over the requests for the reading `yomi`. -/
def getkanLoop (stysiz turns : ℕ) (server : IkkatuServer) (yomi : Bytes) :
    ℕ → ℕ → GetkanState → Option GetkanEnd
  | 0, _, _ => none
  | n + 1, i, s =>
      if (yomi.drop s.yomi).headD 0 = 0 then some (.done s)
      else
        let r := ikkatuReply stysiz s.mem s.knj s.knjsiz (server i (cstr (yomi.drop s.yomi)))
        let s' := { s with mem := r.mem }
        if r.ret = -1 then some (.error (if r.input.failed then -1 else 0) s')
        else if r.ret = 0 then some (.done s')
        else
          match getkanClauses stysiz turns turns s.knj s' with
          | some s => getkanLoop stysiz turns server yomi n (i + 1) s
          | none => none

/-- What the function leaves: its value, the array it was given, and the memory. -/
structure GetkanRet where
  ret : ℤ
  bun : List Sj3Bunsetu
  mem : Mem

/-- What is left of the reading is the last entry. -/
def getkanRest (yomi : Bytes) (s : GetkanState) : GetkanRet :=
  let bun :=
    if (yomi.drop s.yomi).headD 0 ≠ 0 then
      s.bun ++ [⟨sstrlen (yomi.drop s.yomi), 0, s.yomi, none, List.replicate sj3WordIdSize 0⟩]
    else s.bun
  ⟨bun.length, bun, s.mem⟩

/-- The part that both functions share: the requests for the reading `yomi`, with the result
put at `knj`. -/
def getkanHenkan (stysiz : ℕ) (server : IkkatuServer) (yomi : Bytes) (m : Mem) (knj : ℕ)
    (knjsiz : ℤ) : Option GetkanRet :=
  match getkanLoop stysiz (knjsiz.toNat + 1) server yomi (yomi.length + 1) 0
      ⟨m, 0, knj, knjsiz, []⟩ with
  | none => none
  | some (.error ret s) => some ⟨ret, s.bun, s.mem⟩
  | some (.done s) => some (getkanRest yomi s)

def sj3Getkan (stysiz : ℕ) (server : IkkatuServer) (yomi : Bytes) (m : Mem) (knj : ℕ)
    (knjsiz : ℤ) : Option GetkanRet :=
  if sstrlen yomi > sj3IkkatuYomi then some ⟨0, [], m⟩
  else getkanHenkan stysiz server yomi m knj knjsiz

/-! ## The function for EUC -/

/-- How a server of version 1 is served: the reading in SJIS in `buf1`, and a buffer of its own
for the result, which is at `khp` of a memory of its own. `null` is the null pointer less
that address. -/
structure OldServer where
  default_char : Char2
  kmem : Mem
  khp : ℕ
  null : ℤ

/-- An entry for the texts in EUC, from the reading and the result in SJIS. -/
def eucBunsetu (old : OldServer) (yp kp : Bytes) (knj : ℕ) (b : Sj3Bunsetu) : Sj3Bunsetu :=
  let deststr : ℤ × Bytes := match b.deststr with
    | some p => (p - old.khp, kp.drop (p - old.khp))
    | none => (old.null, [])
  { b with
    srclen := sjistoeuclen (yp.drop b.srcstr) b.srclen
    srcstr := sjistoeuclen yp b.srcstr
    destlen := sjistoeuclen deststr.2 b.destlen
    deststr := some (knj + sjistoeuclen kp deststr.1) }

/-- The result in EUC, after the conversion in SJIS has left `r`. -/
def getkanToEuc (old : OldServer) (yp : Bytes) (m : Mem) (knj : ℕ) (knjsiz : ℤ) (r : GetkanRet) :
    GetkanRet :=
  let kp := cells r.mem old.khp (knjsiz.toNat + 1)
  match if knjsiz < 0 then none else strSjistoeuc knjsiz.toNat old.default_char kp with
  | none => ⟨0, r.bun, m⟩
  | some conv =>
      let m := write m knj (conv.out ++ [0])
      if conv.useflag ≠ 0 then ⟨0, r.bun, m⟩
      else ⟨r.ret, r.bun.map (eucBunsetu old yp kp knj), m⟩

/-- With a server of version 1 the texts are converted to SJIS and back. Where a conversion
gives up, what it had written is left out. -/
def sj3GetkanEuc (stysiz : ℕ) (server : IkkatuServer) (svr : Option OldServer) (yomi : Bytes)
    (m : Mem) (knj : ℕ) (knjsiz : ℤ) : Option GetkanRet :=
  if sstrlen yomi > sj3IkkatuYomi then some ⟨0, [], m⟩
  else
    match svr with
    | none => getkanHenkan stysiz server yomi m knj knjsiz
    | some old =>
        match strEuctosjis yomiBufSize old.default_char yomi with
        | none => some ⟨0, [], m⟩
        | some conv =>
            if conv.useflag ≠ 0 then some ⟨0, [], m⟩
            else
              let yp := conv.out ++ [0]
              match getkanLoop stysiz (knjsiz.toNat + 1) server yp (yp.length + 1) 0
                  ⟨old.kmem, 0, old.khp, knjsiz, []⟩ with
              | none => none
              | some (.error ret s) => some ⟨ret, s.bun, m⟩
              | some (.done s) => some (getkanToEuc old yp m knj knjsiz (getkanRest yp s))

end Sj3
