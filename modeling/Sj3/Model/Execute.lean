import Sj3.Model.Cl2knj
import Sj3.Model.SjString

/-! # Requests

The two requests of a client about the candidates of a whole reading (`execute.c`): how
many there are, and all of them. -/

namespace Sj3

open Buffer

def yomiBufSize : ℕ := 1024
def kanjiBufSize : ℕ := 2048

/-- The size of a study record as it is sent, with inode numbers of 64 bits. -/
def stdySize : ℕ := 32

inductive MbFlag where
  | sjisProto
  | eucProto
  deriving DecidableEq, Repr

/-- How a request is answered. -/
inductive Reply where
  | normalEnd (n : ℕ)
  | noMoreDouonWord
  | cannotCodeConvert
  deriving DecidableEq, Repr

/-- What a call of `cl2knj` or `nextcl` returns, and the work area and the text behind it. -/
abbrev CnvResult := ℕ × Work × Option Converted

def CnvResult.text (r : CnvResult) : Bytes := (r.2.2.map Converted.kanji).getD []

/-- The text of a candidate in the client's code; clients that use EUC get it unchanged. -/
def convert (mb_flag : MbFlag) (defChar : Char2) (r : CnvResult) : Option Strconv :=
  match mb_flag with
  | .sjisProto => strEuctosjis (kanjiBufSize - stdySize) defChar r.text
  | .eucProto => some ⟨cstr r.text, 0⟩

/-- The reading in EUC, as it lies in the buffer it is converted to. -/
def yomiEuc (mb_flag : MbFlag) (defChar : Char2) (buf1 buf2 : Bytes) : Option Bytes :=
  match mb_flag with
  | .sjisProto =>
      (strSjistoeuc yomiBufSize defChar buf1).map fun s => overwrite buf2 0 (s.out ++ [0])
  | .eucProto => some buf1

/-- More turns than a loop over the candidates of the clauses takes. -/
def turns (r : CnvResult) : ℕ := r.2.1.clt1st.length * 0x100 + 0x100

/-! ## The number of candidates -/

def cntLoop (env : CnvEnv) (conv : CnvResult → Option Strconv) (len : ℤ) :
    ℕ → CnvResult → ℕ → Option Reply
  | 0, _, _ => none
  | fuel + 1, i, cnt =>
      if (i.1 : ℤ) = len then
        match conv i with
        | none => some .cannotCodeConvert
        | some s =>
            cntLoop env conv len fuel (nextcl env i.2.1 0)
              (if s.useflag = 0 then cnt + 1 else cnt)
      else some (.normalEnd cnt)

/-- In a client's SJIS request `len` still counts the bytes of its SJIS string. -/
def execCl2knjCnt (env : CnvEnv) (mb_flag : MbFlag) (defChar : Char2) (w : Work)
    (buf1 buf2 : Bytes) (len : ℤ) : Option Reply :=
  match yomiEuc mb_flag defChar buf1 buf2 with
  | none => some .cannotCodeConvert
  | some yomi =>
      let i := cl2knj env w yomi len
      if i.1 ≠ 0 then cntLoop env (convert mb_flag defChar) len (turns i) i 0
      else some (.normalEnd 0)

/-! ## All candidates -/

/-- A candidate as it is sent. -/
structure Sent where
  length : ℕ
  stdy : Option Converted
  text : Bytes
  deriving DecidableEq, Repr

/-- The loop that leaves out candidates with characters the client's code has not. -/
def defuseLoop (env : CnvEnv) (conv : CnvResult → Option Strconv) (len : ℤ) :
    ℕ → CnvResult → Strconv → Option (Option (CnvResult × Strconv))
  | 0, _, _ => none
  | fuel + 1, i, s =>
      if s.useflag ≠ 0 ∧ (i.1 : ℤ) = len then
        let i := nextcl env i.2.1 0
        match conv i with
        | none => some none
        | some s => defuseLoop env conv len fuel i s
      else some (some (i, s))

/-- The loop that sends; `max` bounds the turns of the inner one. -/
def allLoop (env : CnvEnv) (conv : CnvResult → Option Strconv) (len : ℤ) (max : ℕ) :
    ℕ → CnvResult → Strconv → List Sent → Option (List Sent × Reply)
  | 0, _, _, _ => none
  | fuel + 1, i, s, sent =>
      if (i.1 : ℤ) = len then
        let sent := sent ++ [⟨i.1, i.2.2, s.out⟩]
        let i := nextcl env i.2.1 0
        match conv i with
        | none => some (sent, .cannotCodeConvert)
        | some s =>
            match defuseLoop env conv len max i s with
            | none => none
            | some none => some (sent, .cannotCodeConvert)
            | some (some (i, s)) => allLoop env conv len max fuel i s sent
      else some (sent, .normalEnd 0)

/-- Here `len` counts the bytes of the EUC string. -/
def execCl2knjAll (env : CnvEnv) (mb_flag : MbFlag) (defChar : Char2) (w : Work)
    (buf1 buf2 : Bytes) (len : ℤ) : Option (List Sent × Reply) :=
  match yomiEuc mb_flag defChar buf1 buf2 with
  | none => some ([], .cannotCodeConvert)
  | some yomi =>
      let len : ℤ := if mb_flag = .sjisProto then (cstr yomi).length else len
      let i := cl2knj env w yomi len
      let conv := convert mb_flag defChar
      let send (i' : CnvResult) (s : Strconv) : Option (List Sent × Reply) :=
        if i'.1 ≠ 0 then allLoop env conv len (turns i) (turns i) i' s []
        else some ([], .normalEnd 0)
      match conv i with
      | none => some ([], .cannotCodeConvert)
      | some s =>
          if s.useflag ≠ 0 then
            match defuseLoop env conv len (turns i) i s with
            | none => none
            | some none => some ([], .cannotCodeConvert)
            | some (some (i', s)) =>
                if s.useflag = 0 ∧ (i'.1 : ℤ) = len then send i' s
                else some ([], .noMoreDouonWord)
          else send i s

end Sj3
