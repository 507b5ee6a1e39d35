import Sj3.Model.RkInit

/-! # Romaji conversion

The conversion of a pending string (`sj3_rkconv_w16`), and the conversion of what is typed,
character by character, with the codes for the screen (`sj3_rkconvc`). Pending strings and the
codes in `kstr` are lists, without the bound of `MAXLLEN` cells that the buffers in the source
have; NUL ends a string and is not typed. -/

namespace Sj3

def rkContinue : ℤ := 0
def rkNomach : ℤ := -1

def rkErrcode : UInt32 := 0x80000000
def rkErrbel : UInt32 := 0xfffffffc

def wtoupper (c : UInt16) : UInt16 :=
  let c := c &&& 0xff
  if 0x61 ≤ c ∧ c ≤ 0x7a then c - 0x20 else c

/-- The loop of `rkmatch` with `n` characters of `s1` left. -/
def rkmatchLoop : ℕ → Wstr → Wstr → ℤ → ℤ
  | 0, _, s2, i => if s2.headD 0 ≠ 0 then rkContinue else i
  | n + 1, s1, s2, i =>
      if s1.headD 0 > 0xff then rkNomach
      else if wtoupper (s1.headD 0) ≠ s2.headD 0 then
        if s2.headD 0 ≠ 0 then rkNomach else i
      else rkmatchLoop n s1.tail s2.tail (i + 1)

def rkmatch (s1 : Wstr) (s2 : Option Wstr) (len : ℕ) : ℤ :=
  match s2 with
  | none => 1
  | some s2 => rkmatchLoop len s1 s2 1

/-- The first entry that matches the string, with the result and the list from it on. -/
def rkSearch (wstr : Wstr) : List RkTabl → Option (ℤ × RkTabl × List RkTabl)
  | [] => none
  | r :: rest =>
      let rlen := rkmatch wstr.tail r.r_key (wstr.length - 1)
      if rlen = rkNomach then rkSearch wstr rest else some (rlen, r, rest)

/-- The list of the first character, whatever its high byte is. -/
def rkHead (tbl : RkTable) (wstr : Wstr) : List RkTabl := tbl (wtoupper (wstr.headD 0)).toUInt8

/-- A wide first character has no list. -/
def rkHeadNarrow (tbl : RkTable) (wstr : Wstr) : List RkTabl :=
  if wstr.headD 0 > 0xff then [] else rkHead tbl wstr

/-- The remainder of an entry over the pending characters from `p` on, which keep their
case. -/
def overlay : Wstr → Wstr → Wstr
  | [], _ => []
  | c :: s, p => (if c = wtoupper (p.headD 0) then p.headD 0 else c) :: overlay s p.tail

def RkTabl.remainder (r : RkTabl) : Wstr := r.r_str.getD []

/-! ## A whole string -/

structure Rkconv where
  rlen : ℤ
  kstr : Wstr
  wstr : Wstr
  deriving DecidableEq, Repr

/-- `junk` is what `rlen` holds when the list of the first character is empty. -/
def rkconvW16 (tbl : RkTable) (junk : ℤ) (wstr : Wstr) : Rkconv :=
  match rkSearch wstr (rkHeadNarrow tbl wstr) with
  | some (rlen, r, _) =>
      if rlen = rkContinue then ⟨rlen, [], wstr⟩
      else
        ⟨rlen, r.k_yomi, overlay r.remainder (wstr.drop (rlen.toNat - r.remainder.length)) ++
          if rlen < wstr.length then wstr.drop rlen.toNat else []⟩
  | none =>
      if wstr.length ≤ 1 then ⟨1, wstr, []⟩
      else ⟨if rkHeadNarrow tbl wstr = [] then junk else rkNomach, [], wstr⟩

/-! ## Typed characters -/

/-- The table, the character that erases, and whether a character that matches nothing is
refused. -/
structure RkEnv where
  tbl : RkTable
  rk_erase : UInt16
  rk_errin : Bool

def setMojilen (c : ℤ) : UInt32 := UInt32.ofInt c <<< 16 &&& 0x00ff0000

/-- The codes of a conversion; the first one says how many characters it is made from. -/
def kanaCodes (n : ℤ) : Wstr → List UInt32
  | [] => []
  | c :: kp => (setMojilen n + c.toUInt32) :: kp.map UInt16.toUInt32

/-- What `sj3_rkconv2` returns and leaves in `kstr`, `wstr` and `rktblp`. The position in the
table is the list from it on. -/
structure Rkconv2 where
  len : ℤ
  kstr : List UInt32
  wstr : Wstr
  rktblp : Option (List RkTabl)
  deriving DecidableEq, Repr

/-- The loops of `sj3_rkconv2` from the position `rktp` on, after `kstr` has been written.
Every turn that goes on takes characters from `wstr`, which bounds their number. -/
def rkconv2Loop (env : RkEnv) (rktblp : Option (List RkTabl)) :
    ℕ → List RkTabl → Wstr → List UInt32 → Option Rkconv2
  | 0, _, _, _ => none
  | turns + 1, rktp, wstr, kstr =>
      match rkSearch wstr rktp with
      | some (rlen, r, rest) =>
          if rlen = rkContinue then some ⟨kstr.length, kstr, wstr, some (r :: rest)⟩
          else
            let i := r.remainder.length
            let kstr := kstr ++ kanaCodes (rlen - i) r.k_yomi
            let p := overlay r.remainder (wstr.drop (rlen.toNat - i))
            if rlen ≤ (wstr.length : ℤ) - 1 then
              let wstr := p ++ wstr.drop rlen.toNat
              rkconv2Loop env rktblp turns (rkHead env.tbl wstr) wstr kstr
            else some ⟨kstr.length, kstr, p, none⟩
      | none =>
          if wstr.length ≤ 1 then
            some ⟨kstr.length + 1, kstr ++ [setMojilen 1 + (wstr.headD 0).toUInt32], [], none⟩
          else if env.rk_errin then some ⟨rkNomach, kstr, wstr, rktblp⟩
          else
            rkconv2Loop env rktblp turns (rkHeadNarrow env.tbl wstr.tail) wstr.tail
              (kstr ++ [setMojilen 1 + (wstr.headD 0).toUInt32])

def rkconv2 (env : RkEnv) (rktblp : Option (List RkTabl)) (wstr : Wstr) : Option Rkconv2 :=
  let rktp := rktblp.getD (rkHead env.tbl wstr)
  rkconv2Loop env rktblp wstr.length (if wstr.headD 0 > 0xff then [] else rktp) wstr []

/-- The variables a conversion is carried on in. -/
structure RkState where
  rline : Wstr
  lstr : Wstr
  rktblp : Option (List RkTabl)
  rk_cflag : ℤ
  rk_klen : ℕ
  deriving DecidableEq, Repr

def rkclear : RkState := ⟨[], [], none, -1, 0⟩

def errErase (env : RkEnv) : UInt32 := rkErrcode + env.rk_erase.toUInt32

def errChar (c : UInt16) : UInt32 := rkErrcode + c.toUInt32

/-- Takes back the last conversion. -/
def rkUndo (env : RkEnv) (st : RkState) : RkState × List UInt32 :=
  ({ st with rline := st.lstr, rktblp := none, rk_cflag := -1 },
    List.replicate st.rline.length (errErase env) ++
      List.replicate st.rk_klen env.rk_erase.toUInt32 ++ st.lstr.map errChar)

/-- Takes back the last pending character; without one the last code on the screen. -/
def rkEraseLast (env : RkEnv) (st : RkState) : RkState × List UInt32 :=
  ({ st with
      rline := if st.rline.length ≤ 1 then [] else st.rline.dropLast
      rktblp := if st.rline.length ≤ 1 then none else st.rktblp
      rk_cflag := st.rk_cflag - 1 },
    [if st.rline.length = 0 then env.rk_erase.toUInt32 else errErase env])

/-- The state after a character has been typed, and the codes for the screen in front of
`RKEND`. -/
def rkconvc (env : RkEnv) (st : RkState) (c : UInt16) : Option (RkState × List UInt32) :=
  if c = env.rk_erase then
    some (if st.rk_cflag = 0 then rkUndo env st else rkEraseLast env st)
  else
    (rkconv2 env st.rktblp (st.rline ++ [c])).map fun i =>
      if i.len = rkContinue then
        ({ st with
            rline := st.rline ++ [c]
            rktblp := i.rktblp
            rk_cflag := if st.rk_cflag ≥ 0 then st.rk_cflag + 1 else st.rk_cflag },
          [errChar c])
      else if i.len = rkNomach then ({ st with rktblp := i.rktblp }, [rkErrbel])
      else
        (⟨i.wstr, st.rline, i.rktblp, 0, i.len.toNat⟩,
          List.replicate st.rline.length (errErase env) ++ i.kstr ++ i.wstr.map errChar)

end Sj3
