import Sj3.General.Byte
import Sj3.Model.RkInit

/-! # What the reader of definition files accepts -/

namespace Sj3

/-- The definitions of a file: there is a key and something it is converted to, without
NUL characters in it, and less of a key stays behind than there is. -/
structure RkDef.Accepted (d : RkDef) : Prop where
  rkey : d.rkey ≠ []
  kstr : d.kstr ≠ []
  nul : 0 ∉ d.kstr
  rstr : d.rstr.length < d.rkey.length

/-! ## Characters -/

theorem toUInt8_char2 (c : Char2) : (char2 c).toUInt8 = c.2 := by
  rw [char2, ← UInt8.toNat_inj, UInt16.toNat_toUInt8, UInt16.toNat_add, UInt16.toNat_shiftLeft,
    UInt8.toNat_toUInt16, UInt8.toNat_toUInt16]
  have h1 := c.1.toNat_lt
  have h2 := c.2.toNat_lt
  rw [show (8 : UInt16).toNat % 16 = 8 from rfl, Nat.shiftLeft_eq]
  omega

theorem char2_ne_zero {c : Char2} (h : c.2 ≠ 0) : char2 c ≠ 0 := by
  intro h0
  have hlow := toUInt8_char2 c
  rw [h0] at hlow
  exact h hlow.symm

theorem toUInt16_ne_zero {c : UInt8} (h : c ≠ 0) : c.toUInt16 ≠ 0 := by
  intro h0
  have hnat := congrArg UInt16.toNat h0
  rw [UInt8.toNat_toUInt16] at hnat
  exact h (UInt8.toNat_inj.mp hnat)

theorem or_msb_ne_zero : ∀ c : UInt8, c ||| 0x80 ≠ 0 :=
  Byte.forall_of_fin (by decide +kernel)

theorem ne_zero_of_iseuc : ∀ c : UInt8, iseuc c = true → c ≠ 0 ∧ c &&& 0x7f ≠ 0 :=
  Byte.forall_of_fin (by decide +kernel)

theorem ne_zero_of_iskana2 : ∀ c : UInt8, iskana2 c = true → c ≠ 0 :=
  Byte.forall_of_fin (by decide +kernel)

theorem yomiTurn_ne_zero {file_code : FileCode} {p p' : Bytes} {c : UInt16}
    (h : yomiTurn file_code p = .char c p') : c ≠ 0 := by
  rw [yomiTurn.eq_def] at h
  dsimp only at h
  split at h
  · exact absurd h (by simp)
  · rename_i hend
    have hc : p.headD 0 ≠ 0 := by
      intro h0
      rw [h0] at hend
      exact hend (by decide)
    cases file_code with
    | no =>
        dsimp only at h
        rw [FieldTurn.char.injEq] at h
        rw [← h.1]
        exact toUInt16_ne_zero hc
    | sjis =>
        dsimp only at h
        split at h
        · rw [FieldTurn.char.injEq] at h
          rw [← h.1]
          exact char2_ne_zero (or_msb_ne_zero _)
        · rw [FieldTurn.char.injEq] at h
          rw [← h.1]
          exact toUInt16_ne_zero hc
    | euc =>
        dsimp only at h
        split at h
        · rename_i heuc
          rw [Bool.and_eq_true] at heuc
          rw [FieldTurn.char.injEq] at h
          rw [← h.1]
          exact char2_ne_zero (ne_zero_of_iseuc _ heuc.2).1
        · split at h
          · rename_i hkana
            rw [Bool.and_eq_true] at hkana
            rw [FieldTurn.char.injEq] at h
            rw [← h.1]
            exact toUInt16_ne_zero (ne_zero_of_iskana2 _ hkana.2)
          · split at h
            · rename_i hhojo
              rw [Bool.and_eq_true] at hhojo
              rw [FieldTurn.char.injEq] at h
              rw [← h.1]
              exact char2_ne_zero (ne_zero_of_iseuc _ hhojo.2).2
            · rw [FieldTurn.char.injEq] at h
              rw [← h.1]
              exact toUInt16_ne_zero hc

/-! ## Fields -/

theorem getkey_ne_nil {istr : Bytes} {r : Wstr × Bytes} (h : getkey istr = some r) :
    r.1 ≠ [] := by
  rw [getkey, field] at h
  split at h
  · exact absurd h (by simp)
  · rename_i hno
    intro hnil
    exact hno r.2 (by rw [h, ← hnil])

theorem yomiLoop_nul (room : ℕ) {file_code : FileCode} {p : Bytes} {r : Wstr × Bytes}
    (h : (yomiLoop room file_code p).2 = some r) : 0 ∉ r.1 := by
  induction room generalizing file_code p r with
  | zero =>
      rw [yomiLoop] at h
      dsimp only at h
      split at h
      · rw [Option.some_inj] at h
        rw [← h]
        simp
      · exact absurd h (by simp)
  | succ room ih =>
      rw [yomiLoop] at h
      dsimp only at h
      split at h
      · rw [Option.some_inj] at h
        rw [← h]
        simp
      · rename_i hturn
        rw [Option.map_eq_some_iff] at h
        obtain ⟨r', hr', rfl⟩ := h
        rw [List.mem_cons, not_or]
        exact ⟨Ne.symm (yomiTurn_ne_zero hturn), ih hr'⟩

theorem rkgetyomi_spec {file_code file_code' : FileCode} {istr : Bytes} {r : Wstr × Bytes}
    (h : rkgetyomi file_code istr = (file_code', some r)) : r.1 ≠ [] ∧ 0 ∉ r.1 := by
  rw [rkgetyomi] at h
  split at h
  · exact absurd h (by simp)
  · rename_i hno
    refine ⟨fun hnil => hno file_code' r.2 (by rw [h, ← hnil]), ?_⟩
    have hloop : (yomiLoop maxWlen file_code (istr.dropWhile endmark)).2 = some r := by rw [h]
    exact yomiLoop_nul maxWlen hloop

/-! ## Lines -/

theorem length_of_chkRstr {rstr rkey : Wstr} (h : chkRstr rstr rkey = false) :
    rstr.length < rkey.length := by
  rw [chkRstr] at h
  split at h
  · exact absurd h (by simp)
  · omega

theorem readDef_accepted {file_code : FileCode} {line : Bytes} {d : RkDef}
    (h : d ∈ (readDef file_code line).2) : d.Accepted := by
  rw [readDef] at h
  split at h
  · exact absurd h (by simp)
  · split at h
    · exact absurd h (by simp)
    · split at h
      · exact absurd h (by simp)
      · rename_i rkey p hkey
        have hne : rkey ≠ [] := getkey_ne_nil hkey
        split at h
        · exact absurd h (by simp)
        · rename_i hyomi
          rw [Option.mem_some_iff] at h
          rw [← h]
          have hspec := rkgetyomi_spec hyomi
          refine ⟨hne, hspec.1, hspec.2, ?_⟩
          dsimp only
          split
          · exact List.length_pos_of_ne_nil hne
          · rename_i hchk
            exact length_of_chkRstr (by simpa using hchk)

theorem readDefs_accepted (lines : List Bytes) (file_code : FileCode) :
    ∀ d ∈ readDefs file_code lines, d.Accepted := by
  induction lines generalizing file_code with
  | nil => simp [readDefs]
  | cons line lines ih =>
      intro d hd
      rw [readDefs, List.mem_append] at hd
      rcases hd with hd | hd
      · exact readDef_accepted (Option.mem_toList.mp hd)
      · exact ih _ d hd

theorem rkDefs_accepted (file_code : FileCode) (file : Bytes) :
    ∀ d ∈ rkDefs file_code file, d.Accepted :=
  readDefs_accepted _ _

/-! ## Entries -/

theorem mem_mktable_of {key : Wstr} {len : ℕ} {e r : RkTabl} {l : List RkTabl}
    (h : r ∈ mktable key len e l) : r = e ∨ r ∈ l := by
  induction l with
  | nil => exact Or.inl (List.mem_singleton.mp h)
  | cons r' l ih =>
      rw [mktable] at h
      have hcons : r ∈ r' :: mktable key len e l → r = e ∨ r ∈ r' :: l := by
        intro hmem
        rcases List.mem_cons.mp hmem with heq | hmem
        · exact Or.inr (heq ▸ List.mem_cons_self)
        · exact (ih hmem).imp_right (List.mem_cons_of_mem r')
      split at h
      · split at h
        · exact Or.inr h
        · exact List.mem_cons.mp h
      · dsimp only at h
        split at h
        · exact Or.inr h
        · split at h
          · exact List.mem_cons.mp h
          · exact hcons h

/-- Every entry of the table comes from a definition. -/
theorem mem_foldl_addDef {defs : List RkDef} {code : UInt8} {r : RkTabl}
    (h : r ∈ defs.foldl addDef (fun _ => []) code) : ∃ d ∈ defs, r = d.entry := by
  induction defs using List.reverseRecOn with
  | nil => exact absurd h (by simp)
  | append_singleton defs d ih =>
      rw [List.foldl_append, List.foldl_cons, List.foldl_nil, addDef] at h
      have hold : r ∈ defs.foldl addDef (fun _ => []) code → ∃ d' ∈ defs ++ [d], r = d'.entry := by
        intro hmem
        obtain ⟨d', hd', hr⟩ := ih hmem
        exact ⟨d', List.mem_append_left _ hd', hr⟩
      split at h
      · rcases mem_mktable_of h with hr | hmem
        · exact ⟨d, by simp, hr⟩
        · exact hold hmem
      · exact hold h

end Sj3
