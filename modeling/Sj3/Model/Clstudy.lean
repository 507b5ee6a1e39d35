import Sj3.Model.Addel

/-! # Studying a pair of clauses (`clstudy.c`)

The clause-study area is searched and edited in place, so the loops carry the area and the
offset of the record they are at. -/

namespace Sj3

open Buffer

/-- What a client sends to have a pair of clauses studied, as far as `clstudy` reads it. -/
structure ClStdyOut where
  hinshi : UInt8
  len : UInt8
  deriving DecidableEq, Repr

inductive ClStudyRet where
  | normEnd
  | noDict
  | paraErr
  | yomiErr
  | noArea
  deriving DecidableEq, Repr

def clStdyTmpLen : ℕ := 256

namespace Stdy

/-- The comparison of `delcldata` and `srchclpos`: where the two readings differ or the
first of them ends, and how much of the second one is left. -/
def clMatch : Bytes → Bytes → ℕ → Bytes × Bytes × ℕ
  | ptr1, ptr2, 0 => (ptr1, ptr2, 0)
  | ptr1, ptr2, len + 1 =>
      if ptr1.headD 0 = 0 then (ptr1, ptr2, len + 1)
      else if ptr1.headD 0 ≠ ptr2.headD 0 then (ptr1, ptr2, len + 1)
      else clMatch ptr1.tail ptr2.tail len

/-- Remove, from offset `tag` on, every record that starts with `ycode` or starts it. Also
returns the offset of the end. -/
def delcldata (ycode : Bytes) : ℕ → Bytes → ℕ → Bytes × ℕ
  | 0, dic, tag => (dic, tag)
  | n + 1, dic, tag =>
      let p := dic.drop tag
      if iseocl p then (dic, tag)
      else
        let r := clMatch ycode (clYomiPos p) (clYomiLen p)
        if r.1.headD 0 = 0 ∨ r.2.2 = 0 then delcldata ycode n (delclsub dic p) tag
        else delcldata ycode n dic (tag + clBlkLen p)

/-- The search of `delclold`: the last record with the highest number, and the end. -/
def clOldest : ℕ → Bytes → ℕ → Option Bytes → Option Bytes × Bytes
  | 0, p, _, target => (target, p)
  | n + 1, p, num, target =>
      if iseocl p then (target, p)
      else if clGetNum p ≥ num then clOldest n (clNextTag p) (clGetNum p) (some p)
      else clOldest n (clNextTag p) num target

/-- Remove the oldest record. The length returned is taken at the end of the records, not
at the record removed. -/
def delclold (dic : Bytes) : Bytes × ℕ :=
  match clOldest (dic.length + 1) dic 0 none with
  | (some target, tagptr) => (delclsub dic target, clBlkLen tagptr)
  | (none, _) => (dic, 0)

/-- The loop of `clstudy` that removes old records until `alen` bytes are free, of which
`blen` are so far. -/
def clEvict (alen : ℤ) : ℕ → Bytes → ℤ → Bytes × ℤ
  | 0, dic, blen => (dic, blen)
  | n + 1, dic, blen =>
      if blen < alen then
        let r := delclold dic
        if r.2 = 0 then (r.1, blen) else clEvict alen n r.1 (blen + r.2)
      else (dic, blen)

/-- One more for the number of every record, and the offset of the first record behind
`ycode`. -/
def srchclpos (ycode : Bytes) : ℕ → Bytes → ℕ → Option ℕ → Bytes × ℕ
  | 0, p, tag, target => (p, target.getD tag)
  | n + 1, p, tag, target =>
      if iseocl p then (p, target.getD tag)
      else
        let tmp := clGetNum p + 1
        let r := clMatch ycode (clYomiPos p) (clYomiLen p)
        let target :=
          if target = none ∧ r.2.2 ≠ 0 ∧
              (r.1.headD 0 = 0 ∨ r.1.headD 0 < r.2.1.headD 0) then some tag
          else target
        let rest := srchclpos ycode n (clNextTag p) (tag + clBlkLen p) target
        (p.take 3 ++ [UInt8.ofNat (tmp >>> 8), UInt8.ofNat tmp] ++
          (clYomiPos p).take (clYomiLen p) ++ rest.1, rest.2)

/-- The `len2` bytes of the work area behind which `clstudy` puts the terminator: the
codes of both readings, their terminator, and what the stack holds. -/
def clYtmp (stack : ℕ → UInt8) (codes : Bytes) (len2 : ℕ) : Bytes :=
  (codes ++ [0]).take len2 ++ ((List.range len2).drop (codes.length + 1)).map stack

/-- Store the record of `ytmp`, which takes `alen` bytes, in front of offset `dst`. -/
def clStore (dic ytmp : Bytes) (dst len1 alen : ℕ) (hinshi : UInt8) : Bytes :=
  let ptr := dic.length - alen
  let buf := copyDesc dic ptr dic.length (ptr - dst)
  overwrite buf dst ([UInt8.ofNat ytmp.length, hinshi, UInt8.ofNat len1, 0, 1] ++ ytmp)

/-- Make room for the clause pair with the reading `ytmp` and store it. -/
def clInsert (dic ytmp : Bytes) (len1 : ℕ) (hinshi : UInt8) : Bytes × ClStudyRet :=
  let alen := ytmp.length + clHdLen
  let r := delcldata ytmp (dic.length + 1) dic 0
  let e := clEvict alen (r.1.length + 1) r.1 ((dic.length : ℤ) - r.2 - 1)
  if e.2 ≥ alen then
    let q := srchclpos ytmp (e.1.length + 1) e.1 0 none
    (clStore q.1 ytmp q.2 len1 alen hinshi, .normEnd)
  else (e.1, .noArea)

end Stdy

/-- Study that the clause with the reading `yomi1` is followed by the one with `yomi2`,
as much of it as `stdy` says; a pointer that is not given is an empty string. The stack
holds `stack` behind what is written to the work area. -/
def clstudy (stack : ℕ → UInt8) (s : Option Stdy) (yomi1 yomi2 : Bytes)
    (stdy : Option ClStdyOut) : Option Stdy × ClStudyRet :=
  match s with
  | none => (none, .noDict)
  | some s =>
      if yomi1.headD 0 = 0 then (some s, .paraErr)
      else
        let y1 := sj2cdStr yomi1 clStdyTmpLen
        if yomi2.headD 0 = 0 then
          if ¬ y1.2 then (some s, .yomiErr)
          else
            let r := Stdy.delcldata y1.1 (s.clstdydic.length + 1) s.clstdydic 0
            (some { s with clstdydic := r.1 }.mkclidx, .normEnd)
        else
          match stdy with
          | none => (some s, .paraErr)
          | some stdy =>
              if ¬ y1.2 then (some s, .yomiErr)
              else
                let len1 := sstrlen y1.1
                let y2 := sj2cdStr yomi2 (clStdyTmpLen - len1)
                if ¬ y2.2 then (some s, .yomiErr)
                else
                  let len2 := len1 + stdy.len.toNat
                  let ytmp := Stdy.clYtmp stack (y1.1.take len1 ++ y2.1) len2
                  if len2 + Stdy.clHdLen + 1 ≥ s.clstdydic.length then (some s, .noArea)
                  else
                    let r := Stdy.clInsert s.clstdydic ytmp len1 stdy.hinshi
                    (some { s with clstdydic := r.1 }.mkclidx, r.2)

end Sj3
