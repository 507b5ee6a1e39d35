import Sj3.Verification.Romaji.Codes
import Sj3.Verification.Romaji.Resume

/-! # Taking back a conversion

The pending characters on the screen are those of `rline` after every call, and the undo of a
conversion leads back to what was on the screen before it. -/

namespace Sj3

open Transducer

/-- What a typed character leads to. -/
inductive RkTurn where
  | pends
  | refused
  | converts
  deriving DecidableEq, Repr

def Rkconv2.turn (i : Rkconv2) : RkTurn :=
  if i.len = rkContinue then .pends else if i.len = rkNomach then .refused else .converts

def rkTurn (env : RkEnv) (st : RkState) (c : UInt16) : Option RkTurn :=
  (rkconv2 env st.rktblp (st.rline ++ [c])).map Rkconv2.turn

/-- The state and the codes after a character that is not the one that erases. -/
inductive Typed (env : RkEnv) (st : RkState) (c : UInt16) (i : Rkconv2) :
    RkTurn → RkState × List UInt32 → Prop where
  | pends : Typed env st c i .pends
      ({ st with
          rline := st.rline ++ [c]
          rktblp := i.rktblp
          rk_cflag := if st.rk_cflag ≥ 0 then st.rk_cflag + 1 else st.rk_cflag }, [errChar c])
  | refused : Typed env st c i .refused ({ st with rktblp := i.rktblp }, [rkErrbel])
  | converts (hno : i.len ≠ rkNomach) : Typed env st c i .converts
      (⟨i.wstr, st.rline, i.rktblp, 0, i.len.toNat⟩,
        List.replicate st.rline.length (errErase env) ++ i.kstr ++ i.wstr.map errChar)

theorem rkconvc_typed {env : RkEnv} {st : RkState} {c : UInt16} (hc : c ≠ env.rk_erase)
    {i : Rkconv2} (hi : rkconv2 env st.rktblp (st.rline ++ [c]) = some i) :
    ∃ r, rkconvc env st c = some r ∧ Typed env st c i i.turn r := by
  rw [rkconvc, if_neg hc, hi, Option.map_some, Rkconv2.turn]
  by_cases hcont : i.len = rkContinue
  · rw [if_pos hcont, if_pos hcont]
    exact ⟨_, rfl, .pends⟩
  · rw [if_neg hcont, if_neg hcont]
    by_cases hno : i.len = rkNomach
    · rw [if_pos hno, if_pos hno]
      exact ⟨_, rfl, .refused⟩
    · rw [if_neg hno, if_neg hno]
      exact ⟨_, rfl, .converts hno⟩

/-- The state and the codes of a call whose turn is known. -/
theorem typed_of_turn {env : RkEnv} {st : RkState} {c : UInt16} (hc : c ≠ env.rk_erase)
    {t : RkTurn} (hturn : rkTurn env st c = some t) {r : RkState × List UInt32}
    (hr : rkconvc env st c = some r) :
    ∃ i, rkconv2 env st.rktblp (st.rline ++ [c]) = some i ∧ Typed env st c i t r := by
  rw [rkTurn, Option.map_eq_some_iff] at hturn
  obtain ⟨i, hi, rfl⟩ := hturn
  obtain ⟨r', hr', htyped⟩ := rkconvc_typed hc hi
  rw [hr, Option.some_inj] at hr'
  rw [hr']
  exact ⟨i, hi, htyped⟩

/-! ## The screen after a call -/

/-- The screen shows the pending characters, and none of them is the one that erases. -/
structure OnScreen (env : RkEnv) (st : RkState) (s : Screen) : Prop where
  pending : s.pending = st.rline
  rline : env.rk_erase ∉ st.rline
  lstr : env.rk_erase ∉ st.lstr
  position : ∀ p ∈ st.rktblp, UndoableList env.rk_erase p

/-- A typed character fits the buffers: `rline` has room for it and the terminator, and `kstr` for
the codes that `sj3_rkconv2` writes and theirs. -/
def LineFits (env : RkEnv) (st : RkState) (c : UInt16) : Prop :=
  c ≠ env.rk_erase → st.rline.length + 1 < maxLlen ∧
    ∀ i ∈ rkconv2 env st.rktblp (st.rline ++ [c]), i.kstr.length < maxLlen

instance LineFits.decidable (env : RkEnv) (st : RkState) (c : UInt16) :
    Decidable (LineFits env st c) :=
  inferInstanceAs (Decidable (_ → _ ∧ _))

theorem LineFits.length_le {env : RkEnv} {st : RkState} {c : UInt16} (hc : c ≠ env.rk_erase)
    (hfit : LineFits env st c) : (st.rline ++ [c]).length ≤ maxLlen := by
  have hroom := (hfit hc).1
  rw [List.length_append, List.length_singleton]
  omega

section Steps

variable {env : RkEnv} {st : RkState} {s : Screen}

/-- A conversion confirms its kana; what is left of the string is pending. -/
theorem putAll_converts (hpending : s.pending = st.rline) {i : Rkconv2}
    (hi : i.Undoable env.rk_erase) :
    s.putAll env.rk_erase
        (List.replicate st.rline.length (errErase env) ++ i.kstr ++ i.wstr.map errChar) =
      ⟨s.confirmed ++ i.kstr, i.wstr⟩ := by
  rw [Screen.putAll_append, Screen.putAll_append,
    Screen.putAll_errErase s env (by rw [hpending]), Screen.putAll_kana _ hi.kstr,
    Screen.putAll_errChar _ hi.wstr, List.nil_append]

theorem putAll_rkUndo (hpending : s.pending = st.rline) (hlstr : env.rk_erase ∉ st.lstr) :
    s.putAll env.rk_erase (rkUndo env st).2 =
      ⟨s.confirmed.take (s.confirmed.length - st.rk_klen), st.lstr⟩ := by
  rw [rkUndo, Screen.putAll_append, Screen.putAll_append,
    Screen.putAll_errErase s env (by rw [hpending]), Screen.putAll_erase,
    Screen.putAll_errChar _ hlstr, List.nil_append]

theorem rline_rkEraseLast : (rkEraseLast env st).1.rline = st.rline.dropLast := by
  rw [rkEraseLast]
  dsimp only
  split
  · rename_i hlen
    refine (List.length_eq_zero_iff.mp ?_).symm
    rw [List.length_dropLast]
    omega
  · rfl

/-- Without a pending character a confirmed one is erased. -/
theorem putAll_rkEraseLast (hpending : s.pending = st.rline) :
    s.putAll env.rk_erase (rkEraseLast env st).2 =
      ⟨if st.rline.length = 0 then s.confirmed.dropLast else s.confirmed, st.rline.dropLast⟩ := by
  rw [rkEraseLast]
  dsimp only
  rw [Screen.putAll_singleton]
  by_cases hlen : st.rline.length = 0
  · rw [if_pos hlen, if_pos hlen, Screen.put_erase, hpending, List.length_eq_zero_iff.mp hlen,
      List.dropLast_nil]
  · rw [if_neg hlen, if_neg hlen, Screen.put_errErase, hpending]

theorem OnScreen.typed (h : OnScreen env st s) {c : UInt16} (hc : c ≠ env.rk_erase)
    {i : Rkconv2} (hi : i.Undoable env.rk_erase) {t : RkTurn} {r : RkState × List UInt32}
    (ht : Typed env st c i t r) : OnScreen env r.1 (s.putAll env.rk_erase r.2) := by
  cases ht with
  | pends =>
      refine ⟨?_, ?_, h.lstr, hi.position⟩
      · rw [Screen.putAll_singleton, Screen.put_errChar s hc, h.pending]
      · rw [List.mem_append, not_or]
        exact ⟨h.rline, fun hmem => hc (List.mem_singleton.mp hmem).symm⟩
  | refused =>
      refine ⟨?_, h.rline, h.lstr, hi.position⟩
      rw [Screen.putAll_singleton, Screen.put_rkErrbel, h.pending]
  | converts =>
      rw [putAll_converts h.pending hi]
      exact ⟨rfl, hi.wstr, h.rline, hi.position⟩

theorem OnScreen.rkUndo (h : OnScreen env st s) :
    OnScreen env (rkUndo env st).1 (s.putAll env.rk_erase (rkUndo env st).2) := by
  rw [putAll_rkUndo h.pending h.lstr]
  exact ⟨rfl, h.lstr, h.lstr, fun p hp => absurd hp (by simp [Sj3.rkUndo])⟩

theorem OnScreen.rkEraseLast (h : OnScreen env st s) :
    OnScreen env (rkEraseLast env st).1 (s.putAll env.rk_erase (rkEraseLast env st).2) := by
  rw [putAll_rkEraseLast h.pending]
  refine ⟨rline_rkEraseLast.symm, ?_, h.lstr, fun p hp => ?_⟩
  · rw [rline_rkEraseLast]
    exact fun hmem => h.rline (List.mem_of_mem_dropLast hmem)
  · rw [Sj3.rkEraseLast] at hp
    dsimp only at hp
    split at hp
    · exact absurd hp (by simp)
    · exact h.position p hp

/-- A character after which the screen shows what is pending. -/
theorem OnScreen.rkconvc (htbl : UndoableTable env.rk_erase env.tbl) (h : OnScreen env st s)
    {c : UInt16} (hfit : LineFits env st c) :
    ∃ r, rkconvc env st c = some r ∧ OnScreen env r.1 (s.putAll env.rk_erase r.2) := by
  by_cases hc : c = env.rk_erase
  · rw [Sj3.rkconvc, if_pos hc]
    split
    · exact ⟨_, rfl, h.rkUndo⟩
    · exact ⟨_, rfl, h.rkEraseLast⟩
  · have hline : env.rk_erase ∉ st.rline ++ [c] := by
      rw [List.mem_append, not_or]
      exact ⟨h.rline, fun hmem => hc (List.mem_singleton.mp hmem).symm⟩
    obtain ⟨i, hi, hund⟩ :=
      rkconv2_undoable htbl h.position (by simp) (hfit.length_le hc) hline
    obtain ⟨r, hr, htyped⟩ := rkconvc_typed hc hi
    exact ⟨r, hr, h.typed hc hund htyped⟩

end Steps

/-! ## Further characters -/

/-- Behind the state `st` characters that fit have been typed that pend or are refused, and
erased; `n` of them are still pending. -/
inductive Further (env : RkEnv) (st : RkState) : ℕ → RkState → List UInt32 → Prop where
  | none : Further env st 0 st []
  | pends {n : ℕ} {st' : RkState} {out : List UInt32} {c : UInt16} {r : RkState × List UInt32}
      (h : Further env st n st' out) (hc : c ≠ env.rk_erase) (hfit : LineFits env st' c)
      (hturn : rkTurn env st' c = some .pends) (hr : rkconvc env st' c = some r) :
      Further env st (n + 1) r.1 (out ++ r.2)
  | refused {n : ℕ} {st' : RkState} {out : List UInt32} {c : UInt16} {r : RkState × List UInt32}
      (h : Further env st n st' out) (hc : c ≠ env.rk_erase) (hfit : LineFits env st' c)
      (hturn : rkTurn env st' c = some .refused) (hr : rkconvc env st' c = some r) :
      Further env st n r.1 (out ++ r.2)
  | erased {n : ℕ} {st' : RkState} {out : List UInt32} {r : RkState × List UInt32}
      (h : Further env st (n + 1) st' out) (hr : rkconvc env st' env.rk_erase = some r) :
      Further env st n r.1 (out ++ r.2)

/-- Beside the pending characters nothing has changed since the conversion that led to `st`. -/
structure Since (st : RkState) (s : Screen) (n : ℕ) (st' : RkState) (s' : Screen) : Prop where
  pending : s'.pending = st'.rline
  confirmed : s'.confirmed = s.confirmed
  cflag : st'.rk_cflag = n
  lstr : st'.lstr = st.lstr
  klen : st'.rk_klen = st.rk_klen
  room : n ≤ st'.rline.length

theorem Further.since {env : RkEnv} {st st' : RkState} {s : Screen} {n : ℕ}
    {out : List UInt32} (hs : s.pending = st.rline) (hflag : st.rk_cflag = 0)
    (h : Further env st n st' out) : Since st s n st' (s.putAll env.rk_erase out) := by
  induction h with
  | none => exact ⟨hs, rfl, hflag, rfl, rfl, Nat.zero_le _⟩
  | pends h hc _ hturn hr ih =>
      obtain ⟨i, -, htyped⟩ := typed_of_turn hc hturn hr
      rw [Screen.putAll_append]
      cases htyped with
      | pends =>
          rw [Screen.putAll_singleton, Screen.put_errChar _ hc]
          refine ⟨?_, ih.confirmed, ?_, ih.lstr, ih.klen, ?_⟩
          · dsimp only
            rw [ih.pending]
          · have hcflag := ih.cflag
            dsimp only
            rw [if_pos (by omega), hcflag, Nat.cast_succ]
          · have hroom := ih.room
            dsimp only
            rw [List.length_append, List.length_singleton]
            omega
  | refused h hc _ hturn hr ih =>
      obtain ⟨i, -, htyped⟩ := typed_of_turn hc hturn hr
      rw [Screen.putAll_append]
      cases htyped with
      | refused =>
          rw [Screen.putAll_singleton, Screen.put_rkErrbel]
          exact ⟨ih.pending, ih.confirmed, ih.cflag, ih.lstr, ih.klen, ih.room⟩
  | erased h hr ih =>
      have hcflag := ih.cflag
      have hroom := ih.room
      rw [rkconvc, if_pos rfl, Option.some_inj, if_neg (by omega)] at hr
      rw [Screen.putAll_append, ← hr, putAll_rkEraseLast ih.pending, if_neg (by omega)]
      refine ⟨rline_rkEraseLast.symm, ih.confirmed, ?_, ih.lstr, ih.klen, ?_⟩
      · rw [rkEraseLast]
        dsimp only
        omega
      · rw [rline_rkEraseLast, List.length_dropLast]
        omega

/-- The next erase character takes a conversion back, with the characters that it replaced. -/
theorem undo_converts {env : RkEnv} (htbl : UndoableTable env.rk_erase env.tbl) {st : RkState}
    {s : Screen} (h : OnScreen env st s) {c : UInt16} (hc : c ≠ env.rk_erase)
    (hfit : LineFits env st c) (hturn : rkTurn env st c = some .converts)
    {r : RkState × List UInt32} (hr : rkconvc env st c = some r) {st' : RkState}
    {out : List UInt32} (hfurther : Further env r.1 0 st' out) :
    ∃ u, rkconvc env st' env.rk_erase = some u ∧ u.1.rline = st.rline ∧
      s.putAll env.rk_erase (r.2 ++ out ++ u.2) = s := by
  have hline : env.rk_erase ∉ st.rline ++ [c] := by
    rw [List.mem_append, not_or]
    exact ⟨h.rline, fun hmem => hc (List.mem_singleton.mp hmem).symm⟩
  obtain ⟨i, hi, htyped⟩ := typed_of_turn hc hturn hr
  obtain ⟨j, hj, hund⟩ := rkconv2_undoable htbl h.position (by simp) (hfit.length_le hc) hline
  rw [hi, Option.some_inj] at hj
  subst hj
  cases htyped with
  | converts hno =>
      have hkana : i.len.toNat = i.kstr.length := by
        have hcodes := hund.len.resolve_left hno
        omega
      have hconv := putAll_converts h.pending hund
      have hsince := hfurther.since (s := ⟨s.confirmed ++ i.kstr, i.wstr⟩) rfl rfl
      have hflag : st'.rk_cflag = 0 := hsince.cflag
      refine ⟨rkUndo env st', ?_, hsince.lstr, ?_⟩
      · rw [rkconvc, if_pos rfl, if_pos hflag]
      · rw [Screen.putAll_append, Screen.putAll_append, hconv,
          putAll_rkUndo hsince.pending (hsince.lstr ▸ h.rline), hsince.confirmed, hsince.klen,
          hsince.lstr, hkana, List.length_append, Nat.add_sub_cancel, List.take_left,
          ← h.pending]

/-! ## Definition files -/

/-- The screen after a run on a line that shows some kana. -/
def shown (rk_erase : UInt16) (confirmed : List UInt32) (outs : List (List UInt32)) : Screen :=
  Screen.putAll rk_erase ⟨confirmed, []⟩ outs.flatten

theorem onScreen_run {env : RkEnv} (htbl : UndoableTable env.rk_erase env.tbl)
    (confirmed : List UInt32) {cs : List UInt16}
    (hfits : Along (rkconvc env) (LineFits env) rkclear cs) :
    ∃ r, run (rkconvc env) rkclear cs = some r ∧
      OnScreen env r.1 (shown env.rk_erase confirmed r.2) := by
  have hstart : OnScreen env rkclear ⟨confirmed, []⟩ :=
    ⟨rfl, List.not_mem_nil, List.not_mem_nil, fun p hp => absurd hp (by simp [rkclear])⟩
  have hrun := run_observed (Screen.putAll env.rk_erase) (OnScreen env)
    (fun st s c h hfit => h.rkconvc htbl hfit) hstart hfits
  obtain ⟨r, hr, hscreen⟩ := hrun
  rw [Screen.foldl_putAll] at hscreen
  exact ⟨r, hr, hscreen⟩

/-- Every call of a run leaves the pending characters on the screen. A character that triggers
a conversion is taken back, with all that it changed, by the next erase character once the
characters typed behind it have been erased. -/
theorem rkconvc_screen (file_code : FileCode) (file : Bytes) (rk_erase : UInt16)
    (rk_errin : Bool)
    (htbl : ∀ code, ∀ r ∈ rkinit file_code file code, r.Undoable rk_erase)
    (confirmed : List UInt32) (cs : List UInt16)
    (hfits : Along (rkconvc (rkFileEnv file_code file rk_erase rk_errin))
      (LineFits (rkFileEnv file_code file rk_erase rk_errin)) rkclear cs) :
    ∃ st outs, run (rkconvc (rkFileEnv file_code file rk_erase rk_errin)) rkclear cs =
        some (st, outs) ∧
      (shown rk_erase confirmed outs).pending = st.rline ∧
      ∀ c r, c ≠ rk_erase → LineFits (rkFileEnv file_code file rk_erase rk_errin) st c →
        rkTurn (rkFileEnv file_code file rk_erase rk_errin) st c = some .converts →
        rkconvc (rkFileEnv file_code file rk_erase rk_errin) st c = some r →
        ∀ st' out, Further (rkFileEnv file_code file rk_erase rk_errin) r.1 0 st' out →
          ∃ u, rkconvc (rkFileEnv file_code file rk_erase rk_errin) st' rk_erase = some u ∧
            u.1.rline = st.rline ∧
            shown rk_erase confirmed (outs ++ [r.2, out, u.2]) =
              shown rk_erase confirmed outs := by
  have htbl' : UndoableTable rk_erase (rkinit file_code file) := by
    intro code r hr
    obtain ⟨d, hd, rfl⟩ := mem_foldl_addDef hr
    exact ⟨htbl code _ hr, nul_tail_entry d⟩
  obtain ⟨⟨st, outs⟩, hrun, hscreen⟩ :=
    @onScreen_run (rkFileEnv file_code file rk_erase rk_errin) htbl' confirmed cs hfits
  refine ⟨st, outs, hrun, hscreen.pending, fun c r hc hfit hturn hr st' out hfurther => ?_⟩
  obtain ⟨u, hu, hline, hback⟩ := undo_converts htbl' hscreen hc hfit hturn hr hfurther
  refine ⟨u, hu, hline, ?_⟩
  have hstream : [r.2, out, u.2].flatten = r.2 ++ out ++ u.2 := by simp
  rw [shown, List.flatten_append, Screen.putAll_append, hstream]
  exact hback

/-- With `K` and `Y` pending an `O` converts, and a backspace takes this back. -/
theorem rkconvc_screen_sample :
    ∃ st outs, run (rkconvc (rkFileEnv .no resumeRkfile 8 false)) rkclear [0x6b, 0x79] =
        some (st, outs) ∧
      (shown 8 [0x10078] outs).pending = st.rline ∧
      ∃ r u, rkconvc (rkFileEnv .no resumeRkfile 8 false) st 0x6f = some r ∧
        rkconvc (rkFileEnv .no resumeRkfile 8 false) r.1 8 = some u ∧ u.1.rline = st.rline ∧
        shown 8 [0x10078] (outs ++ [r.2, [], u.2]) = shown 8 [0x10078] outs := by
  have hyomi : ∀ code, ∀ r ∈ rkinit .no resumeRkfile code,
      8 ∉ r.remainder ∧ 8 ∉ r.k_yomi.tail := Byte.forall_of_fin (by decide +kernel)
  have hlen := @remainder_lt_of_nul .no resumeRkfile (by decide +kernel)
  obtain ⟨st, outs, hrun, hpending, hundo⟩ := rkconvc_screen .no resumeRkfile 8 false
    (fun code r hr => ⟨hlen code r hr, (hyomi code r hr).1, (hyomi code r hr).2⟩)
    [0x10078] [0x6b, 0x79] (by decide +kernel)
  have hlast : ∀ q ∈ run (rkconvc (rkFileEnv .no resumeRkfile 8 false)) rkclear [0x6b, 0x79],
      LineFits (rkFileEnv .no resumeRkfile 8 false) q.1 0x6f ∧
        rkTurn (rkFileEnv .no resumeRkfile 8 false) q.1 0x6f = some .converts ∧
        (rkconvc (rkFileEnv .no resumeRkfile 8 false) q.1 0x6f).isSome := by decide +kernel
  obtain ⟨hfit, hturn, hsome⟩ := hlast _ hrun
  obtain ⟨r, hr⟩ := Option.isSome_iff_exists.mp hsome
  obtain ⟨u, hu, hline, hback⟩ :=
    hundo 0x6f r (by decide) hfit hturn hr r.1 [] .none
  exact ⟨st, outs, hrun, hpending, r, u, hr, hu, hline, hback⟩

/-- The line `XY a X`. -/
def remainderRkfile : Bytes := [0x58, 0x59, 0x20, 0x61, 0x20, 0x58, 0x0a]

/-- The line `A x` with a backspace behind the `x`. -/
def backspaceRkfile : Bytes := [0x41, 0x20, 0x78, 0x08, 0x0a]

/-- What an entry writes is taken for the erase character: in a remainder it takes a pending
character from the screen, among the kana a confirmed one. -/
theorem rkconvc_not_screen :
    (¬ ∀ (file_code : FileCode) (file : Bytes) (rk_erase : UInt16) (rk_errin : Bool)
      (confirmed : List UInt32) (cs : List UInt16),
      Along (rkconvc (rkFileEnv file_code file rk_erase rk_errin))
        (LineFits (rkFileEnv file_code file rk_erase rk_errin)) rkclear cs →
      ∀ q ∈ run (rkconvc (rkFileEnv file_code file rk_erase rk_errin)) rkclear cs,
        (shown rk_erase confirmed q.2).pending = q.1.rline) ∧
    ¬ ∀ (file_code : FileCode) (file : Bytes) (rk_erase : UInt16) (rk_errin : Bool)
      (confirmed : List UInt32) (cs : List UInt16),
      Along (rkconvc (rkFileEnv file_code file rk_erase rk_errin))
        (LineFits (rkFileEnv file_code file rk_erase rk_errin)) rkclear cs →
      ∀ q ∈ run (rkconvc (rkFileEnv file_code file rk_erase rk_errin)) rkclear cs, ∀ c r u,
        c ≠ rk_erase → LineFits (rkFileEnv file_code file rk_erase rk_errin) q.1 c →
        rkTurn (rkFileEnv file_code file rk_erase rk_errin) q.1 c = some .converts →
        rkconvc (rkFileEnv file_code file rk_erase rk_errin) q.1 c = some r →
        rkconvc (rkFileEnv file_code file rk_erase rk_errin) r.1 rk_erase = some u →
        shown rk_erase confirmed (q.2 ++ [r.2, u.2]) = shown rk_erase confirmed q.2 := by
  refine ⟨fun h => ?_, fun h => ?_⟩
  · have hbad := h .no remainderRkfile 0x58 false [] [0x78, 0x79] (by decide +kernel)
    exact absurd hbad (by decide +kernel)
  · have hbad := h .no backspaceRkfile 8 false [0x10078] [] trivial _ rfl 0x61
      (⟨[], [], none, 0, 2⟩, [0x10078, 8]) (⟨[], [], none, -1, 2⟩, [8, 8]) (by decide)
      (by decide +kernel) (by decide +kernel) (by decide +kernel) (by decide +kernel)
    exact absurd hbad (by decide +kernel)

end Sj3
