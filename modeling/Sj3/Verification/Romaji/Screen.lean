import Sj3.Model.RkConv

/-! # The screen

What the codes of `sj3_rkconvc` say to a screen that shows confirmed kana and, behind them,
the pending characters. -/

namespace Sj3

structure Screen where
  confirmed : List UInt32
  pending : Wstr
  deriving DecidableEq, Repr

namespace Screen

def put (rk_erase : UInt16) (s : Screen) (code : UInt32) : Screen :=
  if code = rkErrbel then s
  else if rkErrcode ≤ code then
    if code = rkErrcode + rk_erase.toUInt32 then { s with pending := s.pending.dropLast }
    else { s with pending := s.pending ++ [(code - rkErrcode).toUInt16] }
  else if code = rk_erase.toUInt32 then { s with confirmed := s.confirmed.dropLast }
  else { s with confirmed := s.confirmed ++ [code] }

def putAll (rk_erase : UInt16) (s : Screen) (codes : List UInt32) : Screen :=
  codes.foldl (put rk_erase) s

end Screen

/-! ## Single codes -/

theorem toNat_rkErrcode_add (c : UInt16) : (rkErrcode + c.toUInt32).toNat = 2 ^ 31 + c.toNat := by
  have hc := c.toNat_lt
  rw [UInt32.toNat_add, UInt16.toNat_toUInt32, show rkErrcode.toNat = 2 ^ 31 from rfl]
  omega

theorem rkErrcode_add_ne_rkErrbel (c : UInt16) : rkErrcode + c.toUInt32 ≠ rkErrbel := by
  intro h
  have hnat := congrArg UInt32.toNat h
  have hc := c.toNat_lt
  rw [toNat_rkErrcode_add, show rkErrbel.toNat = 0xfffffffc from rfl] at hnat
  omega

theorem rkErrcode_le_add (c : UInt16) : rkErrcode ≤ rkErrcode + c.toUInt32 := by
  rw [UInt32.le_iff_toNat_le, toNat_rkErrcode_add, show rkErrcode.toNat = 2 ^ 31 from rfl]
  omega

/-- A code that is neither one for pending characters nor the one that erases. -/
structure Kana (rk_erase : UInt16) (code : UInt32) : Prop where
  lt : code < rkErrcode
  ne : code ≠ rk_erase.toUInt32

theorem ne_rkErrbel_of_lt {code : UInt32} (h : code < rkErrcode) : code ≠ rkErrbel := by
  intro heq
  rw [heq] at h
  exact absurd h (by decide)

theorem toUInt32_lt_rkErrcode (c : UInt16) : c.toUInt32 < rkErrcode := by
  have hc := c.toNat_lt
  rw [UInt32.lt_iff_toNat_lt, UInt16.toNat_toUInt32, show rkErrcode.toNat = 2 ^ 31 from rfl]
  omega

namespace Screen

variable {rk_erase : UInt16} (s : Screen)

theorem put_rkErrbel : s.put rk_erase rkErrbel = s := if_pos rfl

theorem put_errChar {c : UInt16} (hc : c ≠ rk_erase) :
    s.put rk_erase (errChar c) = { s with pending := s.pending ++ [c] } := by
  have hne : rkErrcode + c.toUInt32 ≠ rkErrcode + rk_erase.toUInt32 := by
    intro h
    have hnat := congrArg UInt32.toNat h
    rw [toNat_rkErrcode_add, toNat_rkErrcode_add] at hnat
    exact hc (UInt16.toNat_inj.mp (by omega))
  have hback : (rkErrcode + c.toUInt32 - rkErrcode).toUInt16 = c := by
    rw [UInt32.add_comm, UInt32.add_sub_cancel, UInt16.toUInt16_toUInt32]
  rw [errChar, put, if_neg (rkErrcode_add_ne_rkErrbel c), if_pos (rkErrcode_le_add c),
    if_neg hne, hback]

theorem put_errErase (env : RkEnv) :
    s.put env.rk_erase (errErase env) = { s with pending := s.pending.dropLast } := by
  rw [errErase, put, if_neg (rkErrcode_add_ne_rkErrbel _), if_pos (rkErrcode_le_add _),
    if_pos rfl]

theorem put_erase : s.put rk_erase rk_erase.toUInt32 =
    { s with confirmed := s.confirmed.dropLast } := by
  have hlt := toUInt32_lt_rkErrcode rk_erase
  rw [put, if_neg (ne_rkErrbel_of_lt hlt), if_neg (UInt32.not_le.mpr hlt), if_pos rfl]

theorem put_kana {code : UInt32} (h : Kana rk_erase code) :
    s.put rk_erase code = { s with confirmed := s.confirmed ++ [code] } := by
  rw [put, if_neg (ne_rkErrbel_of_lt h.lt), if_neg (UInt32.not_le.mpr h.lt), if_neg h.ne]

/-! ## Streams -/

theorem putAll_singleton (code : UInt32) : s.putAll rk_erase [code] = s.put rk_erase code := rfl

theorem putAll_append (xs ys : List UInt32) :
    s.putAll rk_erase (xs ++ ys) = (s.putAll rk_erase xs).putAll rk_erase ys :=
  List.foldl_append

/-- Streams one after the other are one stream. -/
theorem foldl_putAll (outs : List (List UInt32)) :
    outs.foldl (putAll rk_erase) s = s.putAll rk_erase outs.flatten := by
  induction outs generalizing s with
  | nil => rfl
  | cons out outs ih => rw [List.foldl_cons, List.flatten_cons, putAll_append, ih]

theorem putAll_errChar {w : Wstr} (hw : rk_erase ∉ w) :
    s.putAll rk_erase (w.map errChar) = { s with pending := s.pending ++ w } := by
  induction w generalizing s with
  | nil => simp [putAll]
  | cons c w ih =>
      rw [List.mem_cons, not_or] at hw
      have hrec := ih { s with pending := s.pending ++ [c] } hw.2
      rw [putAll] at hrec
      rw [List.map_cons, putAll, List.foldl_cons, put_errChar s (Ne.symm hw.1), hrec,
        List.append_assoc, List.singleton_append]

theorem putAll_kana {codes : List UInt32} (h : ∀ code ∈ codes, Kana rk_erase code) :
    s.putAll rk_erase codes = { s with confirmed := s.confirmed ++ codes } := by
  induction codes generalizing s with
  | nil => simp [putAll]
  | cons code codes ih =>
      have hrec := ih { s with confirmed := s.confirmed ++ [code] }
        fun code' h' => h code' (List.mem_cons_of_mem code h')
      rw [putAll] at hrec
      rw [putAll, List.foldl_cons, put_kana s (h code List.mem_cons_self), hrec,
        List.append_assoc, List.singleton_append]

/-- Erasing all of the pending characters. -/
theorem putAll_errErase (env : RkEnv) {n : ℕ} (hn : s.pending.length = n) :
    s.putAll env.rk_erase (List.replicate n (errErase env)) = { s with pending := [] } := by
  induction n generalizing s with
  | zero =>
      rw [List.length_eq_zero_iff] at hn
      rw [List.replicate_zero, ← hn]
      rfl
  | succ n ih =>
      have hrec := ih { s with pending := s.pending.dropLast } (by simp [hn])
      rw [putAll] at hrec
      rw [List.replicate_succ, putAll, List.foldl_cons, put_errErase, hrec]

theorem putAll_erase (n : ℕ) : s.putAll rk_erase (List.replicate n rk_erase.toUInt32) =
    { s with confirmed := s.confirmed.take (s.confirmed.length - n) } := by
  induction n generalizing s with
  | zero => simp [putAll]
  | succ n ih =>
      have hrec := ih { s with confirmed := s.confirmed.dropLast }
      rw [putAll] at hrec
      rw [List.replicate_succ, putAll, List.foldl_cons, put_erase, hrec, List.length_dropLast,
        List.dropLast_eq_take, List.take_take, Nat.sub_sub, Nat.add_comm 1 n,
        Nat.min_eq_left (by omega)]

end Screen

end Sj3
