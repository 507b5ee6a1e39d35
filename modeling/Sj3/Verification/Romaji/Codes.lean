import Mathlib.Data.List.TakeWhile
import Sj3.Verification.Romaji.Reader
import Sj3.Verification.Romaji.Screen
import Sj3.Verification.Romaji.Table

/-! # The codes of a conversion

A conversion comes to its end, and no code of it means anything to the screen but a kana. -/

namespace Sj3

def maxLlen : ℕ := 64

/-! ## Entries -/

/-- What an entry leaves pending is less than it takes, and none of its codes behind the first
is mistaken for the one that erases. -/
structure RkTabl.Undoable (rk_erase : UInt16) (r : RkTabl) : Prop where
  remainder_lt : r.remainder.length < r.tail.length + 1
  remainder : rk_erase ∉ r.remainder
  yomi : rk_erase ∉ r.k_yomi.tail

def UndoableTable (rk_erase : UInt16) (tbl : RkTable) : Prop :=
  ∀ code, ∀ r ∈ tbl code, r.Undoable rk_erase ∧ 0 ∉ r.tail

theorem zero_not_mem_wstr (s : Wstr) : 0 ∉ wstr s := by
  intro h
  have hne := List.mem_takeWhile_imp h
  exact absurd hne (by decide)

/-- No key of a table has a NUL character behind its first one. -/
theorem nul_tail_entry (d : RkDef) : 0 ∉ d.entry.tail := by
  rw [RkTabl.tail, RkDef.entry, stradd]
  split
  · exact List.not_mem_nil
  · exact zero_not_mem_wstr _

/-- A key without NUL characters is longer than what stays behind of it. -/
theorem remainder_lt_of_nul {file_code : FileCode} {file : Bytes}
    (hnul : ∀ d ∈ rkDefs file_code file, 0 ∉ d.key) (code : UInt8) :
    ∀ r ∈ rkinit file_code file code, r.remainder.length < r.tail.length + 1 := by
  intro r hr
  obtain ⟨d, hd, rfl⟩ := mem_foldl_addDef hr
  have hacc := rkDefs_accepted file_code file d hd
  have hle : d.entry.remainder.length ≤ d.rstr.length := by
    rw [RkTabl.remainder, RkDef.entry]
    dsimp only
    rw [stradd]
    split
    · exact Nat.zero_le _
    · exact (List.takeWhile_prefix _).length_le
  have hlt := hacc.rstr
  rw [RkDef.tail_entry hacc.rkey (hnul d hd), List.length_tail]
  omega

/-- A key that matches is not longer than the result says, which is not beyond the string. -/
theorem rkmatchLoop_bounds (n : ℕ) {s t : Wstr} (ht : 0 ∉ t) (i : ℤ) :
    rkmatchLoop n s t i = rkContinue ∨ rkmatchLoop n s t i = rkNomach ∨
      (i + t.length ≤ rkmatchLoop n s t i ∧ rkmatchLoop n s t i ≤ i + n) := by
  induction n generalizing s t i with
  | zero =>
      rw [rkmatchLoop]
      split
      · exact Or.inl rfl
      · rename_i heq
        have hnil : t = [] := by
          by_contra hne
          exact heq ((headD_ne_zero_iff ht).mpr hne)
        subst hnil
        exact Or.inr (Or.inr ⟨by simp, by simp⟩)
  | succ n ih =>
      rw [rkmatchLoop]
      split
      · exact Or.inr (Or.inl rfl)
      · split
        · split
          · exact Or.inr (Or.inl rfl)
          · rename_i heq
            have hnil : t = [] := by
              by_contra hne
              exact heq ((headD_ne_zero_iff ht).mpr hne)
            subst hnil
            refine Or.inr (Or.inr ⟨by simp, ?_⟩)
            omega
        · rcases ih (s := s.tail) (fun h => ht (List.mem_of_mem_tail h)) (i + 1) with h | h | h
          · exact Or.inl h
          · exact Or.inr (Or.inl h)
          · refine Or.inr (Or.inr ⟨?_, ?_⟩)
            · have htail := List.length_tail (l := t)
              omega
            · omega

theorem rkmatch_bounds {s : Wstr} {r : RkTabl} (hr : 0 ∉ r.tail) {n : ℕ} {rlen : ℤ}
    (h : rkmatch s r.r_key n = rlen) (hcont : rlen ≠ rkContinue) (hno : rlen ≠ rkNomach) :
    r.tail.length + 1 ≤ rlen ∧ rlen ≤ n + 1 := by
  rw [RkTabl.tail] at hr ⊢
  cases hkey : r.r_key with
  | none =>
      rw [hkey, rkmatch] at h
      rw [Option.getD_none, List.length_nil]
      omega
  | some key =>
      rw [hkey, rkmatch] at h
      rw [hkey, Option.getD_some] at hr
      rw [Option.getD_some]
      rcases rkmatchLoop_bounds n (s := s) hr 1 with hbad | hbad | hbounds
      · exact absurd (h ▸ hbad) hcont
      · exact absurd (h ▸ hbad) hno
      · omega

/-! ## Codes -/

theorem toNat_setMojilen {n : ℤ} (hpos : 0 < n) (h : n < 256) :
    (setMojilen n).toNat = n.toNat * 65536 := by
  have hall : ∀ k : Fin 256, (setMojilen (k : ℕ)).toNat = k * 65536 := by decide +kernel
  have hn : ((n.toNat : ℕ) : ℤ) = n := Int.toNat_of_nonneg (by omega)
  rw [← hn, Int.toNat_natCast]
  exact hall ⟨n.toNat, by omega⟩

theorem kana_setMojilen (rk_erase : UInt16) {n : ℤ} (hpos : 0 < n) (h : n < 256) (c : UInt16) :
    Kana rk_erase (setMojilen n + c.toUInt32) := by
  have hlen := toNat_setMojilen hpos h
  have hc := c.toNat_lt
  have hnat : (setMojilen n + c.toUInt32).toNat = n.toNat * 65536 + c.toNat := by
    rw [UInt32.toNat_add, UInt16.toNat_toUInt32, hlen]
    omega
  refine ⟨?_, fun heq => ?_⟩
  · rw [UInt32.lt_iff_toNat_lt, hnat, show rkErrcode.toNat = 2 ^ 31 from rfl]
    omega
  · have herase := rk_erase.toNat_lt
    have hnat' := congrArg UInt32.toNat heq
    rw [hnat, UInt16.toNat_toUInt32] at hnat'
    omega

theorem kana_toUInt32 {rk_erase c : UInt16} (h : c ≠ rk_erase) : Kana rk_erase c.toUInt32 :=
  ⟨toUInt32_lt_rkErrcode c, fun heq => h (UInt16.toUInt32_inj.mp heq)⟩

theorem kana_kanaCodes {rk_erase : UInt16} {n : ℤ} (hpos : 0 < n) (h : n < 256) {yomi : Wstr}
    (hyomi : rk_erase ∉ yomi.tail) : ∀ code ∈ kanaCodes n yomi, Kana rk_erase code := by
  cases yomi with
  | nil => simp [kanaCodes]
  | cons c kp =>
      intro code hcode
      rw [kanaCodes] at hcode
      rcases List.mem_cons.mp hcode with rfl | hmem
      · exact kana_setMojilen rk_erase hpos h c
      · obtain ⟨d, hd, rfl⟩ := List.mem_map.mp hmem
        exact kana_toUInt32 fun heq => hyomi (heq ▸ hd)

theorem length_overlay (s p : Wstr) : (overlay s p).length = s.length := by
  induction s generalizing p with
  | nil => rfl
  | cons c s ih => rw [overlay, List.length_cons, List.length_cons, ih]

/-- The remainder is made of its own characters and pending ones. -/
theorem mem_overlay {s p : Wstr} {c : UInt16} (h : c ∈ overlay s p) : c ∈ s ∨ c ∈ p := by
  induction s generalizing p with
  | nil => exact absurd h (by simp [overlay])
  | cons d s ih =>
      rw [overlay] at h
      rcases List.mem_cons.mp h with rfl | hmem
      · cases p with
        | nil =>
            left
            split
            · rename_i heq
              rw [heq]
              exact List.mem_cons_self
            · exact List.mem_cons_self
        | cons e p =>
            split
            · exact Or.inr List.mem_cons_self
            · exact Or.inl List.mem_cons_self
      · rcases ih hmem with h' | h'
        · exact Or.inl (List.mem_cons_of_mem d h')
        · exact Or.inr (List.mem_of_mem_tail h')

/-! ## Conversions -/

def UndoableList (rk_erase : UInt16) (l : List RkTabl) : Prop :=
  ∀ r ∈ l, r.Undoable rk_erase ∧ 0 ∉ r.tail

/-- What a conversion hands to the screen. -/
structure Rkconv2.Undoable (rk_erase : UInt16) (i : Rkconv2) : Prop where
  kstr : ∀ code ∈ i.kstr, Kana rk_erase code
  wstr : rk_erase ∉ i.wstr
  len : i.len = rkNomach ∨ i.len = i.kstr.length
  position : ∀ p ∈ i.rktblp, UndoableList rk_erase p

section Conversion

variable {env : RkEnv} (htbl : UndoableTable env.rk_erase env.tbl)
include htbl

theorem undoableList_rkHead (w : Wstr) : UndoableList env.rk_erase (rkHead env.tbl w) := htbl _

theorem undoableList_rkHeadNarrow (w : Wstr) :
    UndoableList env.rk_erase (rkHeadNarrow env.tbl w) := by
  rw [rkHeadNarrow]
  split
  · exact fun r hr => absurd hr List.not_mem_nil
  · exact undoableList_rkHead htbl w

/-- A conversion comes to its end, and its codes are kana for the screen. -/
theorem rkconv2Loop_undoable {rktblp : Option (List RkTabl)}
    (hpos : ∀ p ∈ rktblp, UndoableList env.rk_erase p) (turns : ℕ) {rktp : List RkTabl}
    (hrktp : UndoableList env.rk_erase rktp) {w : Wstr} (hne : w ≠ [])
    (hturns : w.length ≤ turns) (hfit : w.length ≤ maxLlen) (hw : env.rk_erase ∉ w)
    {kstr : List UInt32} (hkstr : ∀ code ∈ kstr, Kana env.rk_erase code) :
    ∃ i, rkconv2Loop env rktblp turns rktp w kstr = some i ∧ i.Undoable env.rk_erase := by
  induction turns generalizing rktp w kstr with
  | zero => exact absurd (List.length_eq_zero_iff.mp (Nat.le_zero.mp hturns)) hne
  | succ turns ih =>
      have hwpos := List.length_pos_of_ne_nil hne
      rw [maxLlen] at hfit
      rw [rkconv2Loop]
      cases hsearch : rkSearch w rktp with
      | some found =>
          obtain ⟨rlen, r, rest⟩ := found
          obtain ⟨pre, hl, -, hrlen, hno⟩ := rkSearch_eq_some hsearch
          have hr := hrktp r (by rw [hl]; simp)
          dsimp only
          split
          · -- the entry wants more characters
            refine ⟨_, rfl, hkstr, hw, Or.inr rfl, fun p hp r' hr' => ?_⟩
            rw [Option.mem_some_iff] at hp
            apply hrktp r'
            rw [hl, hp]
            exact List.mem_append_right pre hr'
          · rename_i hcont
            have hbounds := rkmatch_bounds hr.2 hrlen hcont hno
            have hlt := hr.1.remainder_lt
            have hcodes := kana_kanaCodes (n := rlen - r.remainder.length) (by omega) (by omega)
              hr.1.yomi
            have hkana : ∀ code ∈ kstr ++ kanaCodes (rlen - r.remainder.length) r.k_yomi,
                Kana env.rk_erase code := by
              intro code hcode
              rcases List.mem_append.mp hcode with h | h
              · exact hkstr code h
              · exact hcodes code h
            have hover : env.rk_erase ∉ overlay r.remainder
                (w.drop (rlen.toNat - r.remainder.length)) := by
              intro h
              rcases mem_overlay h with h' | h'
              · exact hr.1.remainder h'
              · exact hw (List.mem_of_mem_drop h')
            split
            · rename_i hrest
              have hlen := length_overlay r.remainder
                (w.drop (rlen.toNat - r.remainder.length))
              have hdrop := List.length_drop (i := rlen.toNat) (l := w)
              refine ih (undoableList_rkHead htbl _) ?_ ?_ ?_ ?_ hkana
              · intro hnil
                have hboth := congrArg List.length hnil
                rw [List.length_append, hlen, hdrop, List.length_nil] at hboth
                omega
              · rw [List.length_append, hlen, hdrop]
                omega
              · rw [List.length_append, hlen, hdrop, maxLlen]
                omega
              · intro h
                rcases List.mem_append.mp h with h' | h'
                · exact hover h'
                · exact hw (List.mem_of_mem_drop h')
            · exact ⟨_, rfl, hkana, hover, Or.inr rfl, fun p hp => absurd hp (by simp)⟩
      | none =>
          have hraw := kana_setMojilen env.rk_erase (n := 1) (by decide) (by decide) (w.headD 0)
          have hkana : ∀ code ∈ kstr ++ [setMojilen 1 + (w.headD 0).toUInt32],
              Kana env.rk_erase code := by
            intro code hcode
            rcases List.mem_append.mp hcode with h | h
            · exact hkstr code h
            · rw [List.mem_singleton.mp h]
              exact hraw
          have htail := List.length_tail (l := w)
          dsimp only
          split
          · refine ⟨_, rfl, hkana, List.not_mem_nil, Or.inr ?_, fun p hp => absurd hp (by simp)⟩
            simp
          · rename_i hlen
            split
            · exact ⟨_, rfl, hkstr, hw, Or.inl rfl, hpos⟩
            · refine ih (undoableList_rkHeadNarrow htbl _) ?_ ?_ ?_ ?_ hkana
              · intro hnil
                have hzero := congrArg List.length hnil
                rw [htail, List.length_nil] at hzero
                omega
              · omega
              · rw [maxLlen]
                omega
              · exact fun h => hw (List.mem_of_mem_tail h)

theorem rkconv2_undoable {rktblp : Option (List RkTabl)}
    (hpos : ∀ p ∈ rktblp, UndoableList env.rk_erase p) {w : Wstr} (hne : w ≠ [])
    (hfit : w.length ≤ maxLlen) (hw : env.rk_erase ∉ w) :
    ∃ i, rkconv2 env rktblp w = some i ∧ i.Undoable env.rk_erase := by
  rw [rkconv2]
  refine rkconv2Loop_undoable htbl hpos _ ?_ hne le_rfl hfit hw fun code h =>
    absurd h List.not_mem_nil
  split
  · exact fun r hr => absurd hr List.not_mem_nil
  · cases rktblp with
    | none => exact undoableList_rkHead htbl w
    | some p => exact hpos p rfl

end Conversion

end Sj3
