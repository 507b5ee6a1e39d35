import Mathlib.Data.List.TakeWhile
import Sj3.Model.Text

/-! # Strings in memory -/

namespace Sj3

theorem sstrlen_append {s : Bytes} (h : 0 ∉ s) (rest : Bytes) (hr : rest.headD 0 = 0) :
    sstrlen (s ++ rest) = s.length := by
  induction s with
  | nil =>
      cases rest with
      | nil => rfl
      | cons c rest => exact if_pos hr
  | cons c s ih =>
      simp only [List.mem_cons, not_or] at h
      rw [List.cons_append, sstrlen, if_neg (Ne.symm h.1), ih h.2, List.length_cons]

theorem sstrlen_eq_length {s : Bytes} (h : 0 ∉ s) : sstrlen s = s.length := by
  simpa using sstrlen_append h [] rfl

theorem readN_append (s rest : Bytes) : readN s.length (s ++ rest) = s := by
  induction s with
  | nil => rfl
  | cons c s ih => simp [readN, ih]

theorem readN_add (s rest : Bytes) (n : ℕ) :
    readN (s.length + n) (s ++ rest) = s ++ readN n rest := by
  induction s with
  | nil => simp
  | cons c s ih => simpa [Nat.add_right_comm, readN] using ih

theorem readN_eq_take {n : ℕ} {p : Bytes} (h : n ≤ p.length) : readN n p = p.take n := by
  have := readN_append (p.take n) (p.drop n)
  rwa [List.take_append_drop, List.length_take, min_eq_left h] at this

@[simp] theorem length_readN (n : ℕ) (p : Bytes) : (readN n p).length = n := by
  induction n generalizing p with
  | zero => rfl
  | succ n ih => simp [readN, ih]

theorem headD_readN {n : ℕ} (hn : n ≠ 0) (p : Bytes) : (readN n p).headD 0 = p.headD 0 := by
  obtain ⟨m, rfl⟩ := Nat.exists_eq_succ_of_ne_zero hn
  rfl

theorem readN_succ_add (m n : ℕ) (p : Bytes) :
    readN (m + n) p = readN m p ++ readN n (p.drop m) := by
  induction m generalizing p with
  | zero => simp [readN]
  | succ m ih =>
      cases p with
      | nil => simp [Nat.add_right_comm, readN, ih]
      | cons c p => simp [Nat.add_right_comm, readN, ih]

theorem getD_sstrlen (p : Bytes) : p.getD (sstrlen p) 0 = 0 := by
  induction p with
  | nil => rfl
  | cons c p ih =>
      rw [sstrlen]
      split_ifs with hc
      · simpa using hc
      · simpa using ih

theorem cstr_cons {c : UInt8} (hc : c ≠ 0) (p : Bytes) : cstr (c :: p) = c :: cstr p := by
  simp [cstr, hc]

theorem cstr_readN {n : ℕ} {p : Bytes} (h : n ≤ sstrlen p) : cstr (readN n p) = readN n p := by
  induction n generalizing p with
  | zero => rfl
  | succ n ih =>
      cases p with
      | nil => exact absurd h (by simp [sstrlen])
      | cons c p =>
          rw [sstrlen] at h
          split_ifs at h with hc
          · omega
          · rw [readN, List.headD_cons, cstr_cons hc, List.tail_cons, ih (by omega)]

theorem zero_notMem_cstr (p : Bytes) : 0 ∉ cstr p := by
  intro h
  simpa using List.mem_takeWhile_imp h

theorem cstr_append_zero {s : Bytes} (hs : 0 ∉ s) (rest : Bytes) :
    cstr (s ++ 0 :: rest) = s := by
  induction s with
  | nil => rfl
  | cons c s ih =>
      rw [List.mem_cons, not_or] at hs
      rw [List.cons_append, cstr_cons (Ne.symm hs.1), ih hs.2]

theorem sstrlen_eq_cstr (p : Bytes) : sstrlen p = (cstr p).length := by
  induction p with
  | nil => rfl
  | cons c p ih =>
      by_cases hc : c = 0
      · simp [sstrlen, cstr, hc]
      · rw [sstrlen, if_neg hc, cstr_cons hc, List.length_cons, ih]

theorem headD_eq_cstr (p : Bytes) : p.headD 0 = (cstr p).headD 0 := by
  cases p with
  | nil => rfl
  | cons c p =>
      by_cases hc : c = 0
      · simp [cstr, hc]
      · simp [cstr_cons hc]

/-- A string and what stands from its terminator on. -/
theorem exists_cstr_append (p : Bytes) : ∃ q, cstr p ++ q = p ∧ q.headD 0 = 0 := by
  refine ⟨p.dropWhile (· ≠ 0), List.takeWhile_append_dropWhile, ?_⟩
  induction p with
  | nil => rfl
  | cons c p ih =>
      by_cases hc : c = 0
      · simp [hc]
      · rw [List.dropWhile_cons_of_pos (by simpa using hc)]
        exact ih

theorem cstr_drop {j : ℕ} {p : Bytes} (h : j ≤ sstrlen p) : cstr (p.drop j) = (cstr p).drop j := by
  induction j generalizing p with
  | zero => rfl
  | succ j ih =>
      cases p with
      | nil => rfl
      | cons c p =>
          rw [sstrlen] at h
          split_ifs at h with hc
          · omega
          · rw [List.drop_succ_cons, ih (by omega), cstr_cons hc, List.drop_succ_cons]

/-- The terminator is the first NUL. -/
theorem headD_drop_eq_zero {j : ℕ} {p : Bytes} (h : j ≤ sstrlen p) :
    (p.drop j).headD 0 = 0 ↔ j = sstrlen p := by
  induction j generalizing p with
  | zero =>
      cases p with
      | nil => simp [sstrlen]
      | cons c p =>
          rw [sstrlen]
          split_ifs with hc
          · simp [hc]
          · simp [hc]
  | succ j ih =>
      cases p with
      | nil => cases h
      | cons c p =>
          rw [sstrlen] at h ⊢
          split_ifs at h ⊢ with hc
          · omega
          · rw [List.drop_succ_cons, ih (by omega)]
            omega

theorem sstrlen_le_length (p : Bytes) : sstrlen p ≤ p.length := by
  obtain ⟨q, hp, -⟩ := exists_cstr_append p
  have := congrArg List.length hp
  rw [List.length_append, ← sstrlen_eq_cstr] at this
  omega

theorem readN_cstr {n : ℕ} {p : Bytes} (h : n ≤ sstrlen p) : readN n p = (cstr p).take n := by
  obtain ⟨q, hp, -⟩ := exists_cstr_append p
  rw [readN_eq_take (h.trans (sstrlen_le_length p))]
  rw [sstrlen_eq_cstr] at h
  nth_rewrite 1 [← hp]
  exact List.take_append_of_le_length h

theorem sstrlen_drop {j : ℕ} {p : Bytes} (h : j ≤ sstrlen p) :
    sstrlen (p.drop j) = sstrlen p - j := by
  rw [sstrlen_eq_cstr, cstr_drop h, List.length_drop, ← sstrlen_eq_cstr]

end Sj3
