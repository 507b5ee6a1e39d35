import Sj3.General.Transducer
import Sj3.Model.RkConv
import Sj3.Verification.Romaji.Match
import Sj3.Verification.Romaji.Reader
import Sj3.Verification.Romaji.Table

/-! # Resuming the search

The saved position in the table stands for a search from the head of its list as long as no
entry in front of it can match. -/

namespace Sj3

open Transducer

/-! ## Runs -/

inductive RkEvent where
  | typed (c : UInt16)
  | clear
  deriving DecidableEq, Repr

def rkStep (env : RkEnv) (st : RkState) : RkEvent → Option (RkState × List UInt32)
  | .typed c => rkconvc env st c
  | .clear => some (rkclear, [])

/-- The same with the search started from the head of the list in every call. -/
def rkStepRestart (env : RkEnv) (st : RkState) : RkEvent → Option (RkState × List UInt32)
  | .typed c => rkconvc env { st with rktblp := none } c
  | .clear => some (rkclear, [])

/-! ## Positions -/

/-- The position `p` is in the list of the pending string, and no entry in front of it
matches. -/
def Skips (env : RkEnv) (s : Wstr) (p : List RkTabl) : Prop :=
  ∃ pre, rkHead env.tbl s = pre ++ p ∧
    ∀ r ∈ pre, rkmatch s.tail r.r_key (s.length - 1) = rkNomach

theorem skips_iff_drop {env : RkEnv} {s : Wstr} {p : List RkTabl} :
    Skips env s p ↔ ∃ n ∈ List.range ((rkHead env.tbl s).length + 1),
      (rkHead env.tbl s).drop n = p ∧
        ∀ r ∈ (rkHead env.tbl s).take n, rkmatch s.tail r.r_key (s.length - 1) = rkNomach := by
  constructor
  · rintro ⟨pre, hpre, hno⟩
    refine ⟨pre.length, ?_, ?_, ?_⟩
    · rw [List.mem_range, hpre, List.length_append]
      omega
    · rw [hpre, List.drop_left]
    · rw [hpre, List.take_left]
      exact hno
  · rintro ⟨n, -, hp, hno⟩
    exact ⟨_, by rw [← hp, List.take_append_drop], hno⟩

instance (env : RkEnv) (s : Wstr) (p : List RkTabl) : Decidable (Skips env s p) :=
  decidable_of_iff _ skips_iff_drop.symm

theorem rkmatchLoop_append {s : Wstr} (c : UInt16) {t : Wstr} {i : ℤ} (hi : 0 < i)
    (h : rkmatchLoop s.length s t i = rkNomach) :
    rkmatchLoop (s.length + 1) (s ++ [c]) t i = rkNomach := by
  induction s generalizing t i with
  | nil =>
      rw [List.length_nil, rkmatchLoop] at h
      split at h
      · exact absurd h (by decide)
      · rw [rkNomach] at h
        omega
  | cons d s ih =>
      rw [List.length_cons, rkmatchLoop, List.headD_cons, List.tail_cons] at h
      rw [List.cons_append, rkmatchLoop, List.headD_cons, List.tail_cons]
      split
      · rfl
      · rename_i hnarrow
        rw [if_neg hnarrow] at h
        split
        · rename_i hne
          rw [if_pos hne] at h
          exact h
        · rename_i heq
          rw [if_neg heq] at h
          exact ih (by omega) h

/-- An entry that does not match does not match a longer string either. -/
theorem rkmatch_append {s : Wstr} (c : UInt16) {t : Option Wstr}
    (h : rkmatch s t s.length = rkNomach) :
    rkmatch (s ++ [c]) t (s.length + 1) = rkNomach := by
  cases t with
  | none => exact absurd h (show ¬ (1 : ℤ) = -1 by decide)
  | some t => exact rkmatchLoop_append c (by decide) h

theorem Skips.append {env : RkEnv} {s : Wstr} {p : List RkTabl} (hs : s ≠ []) (c : UInt16)
    (h : Skips env s p) : Skips env (s ++ [c]) p := by
  cases s with
  | nil => exact absurd rfl hs
  | cons d s =>
      obtain ⟨pre, hpre, hno⟩ := h
      refine ⟨pre, hpre, fun r hr => ?_⟩
      have hshort := hno r hr
      rw [List.tail_cons, List.length_cons, Nat.add_sub_cancel] at hshort
      rw [List.cons_append, List.tail_cons, List.length_cons, Nat.add_sub_cancel,
        List.length_append]
      exact rkmatch_append c hshort

/-- The search passes the entries that do not match. -/
theorem rkSearch_append {s : Wstr} {pre : List RkTabl} (p : List RkTabl)
    (h : ∀ r ∈ pre, rkmatch s.tail r.r_key (s.length - 1) = rkNomach) :
    rkSearch s (pre ++ p) = rkSearch s p := by
  induction pre with
  | nil => rfl
  | cons r pre ih =>
      rw [List.cons_append, rkSearch, h r List.mem_cons_self, if_pos rfl]
      exact ih fun r' hr' => h r' (List.mem_cons_of_mem r hr')

theorem Skips.trans {env : RkEnv} {s : Wstr} {p : List RkTabl} (h : Skips env s p)
    {rlen : ℤ} {r : RkTabl} {rest : List RkTabl} (hsearch : rkSearch s p = some (rlen, r, rest)) :
    Skips env s (r :: rest) := by
  obtain ⟨pre, hpre, hno⟩ := h
  obtain ⟨pre', hp, hno', -⟩ := rkSearch_eq_some hsearch
  refine ⟨pre ++ pre', by rw [hpre, hp, List.append_assoc], fun r' hr' => ?_⟩
  rcases List.mem_append.mp hr' with hmem | hmem
  · exact hno r' hmem
  · exact hno' r' hmem

/-! ## The conversion of a line -/

/-- What is left when a conversion is over, after `k` codes have been written. -/
structure Resumes (env : RkEnv) (w : Wstr) (k : ℕ) (i : Rkconv2) : Prop where
  /-- A new position is one in the list of what is left. -/
  skips : i.len ≠ rkNomach → ∀ p ∈ i.rktblp, i.wstr ≠ [] ∧ Skips env i.wstr p
  len : i.len ≠ rkNomach → (k : ℤ) ≤ i.len
  /-- Without a code nothing has been taken from the string. -/
  same : i.len = rkContinue → i.wstr = w

def YomiNonempty (tbl : RkTable) : Prop := ∀ code, ∀ r ∈ tbl code, r.k_yomi ≠ []

theorem length_kanaCodes (n : ℤ) (s : Wstr) : (kanaCodes n s).length = s.length := by
  cases s with
  | nil => rfl
  | cons c s => simp [kanaCodes]

theorem skips_rkHead (env : RkEnv) (w : Wstr) : Skips env w (rkHead env.tbl w) :=
  ⟨[], rfl, by simp⟩

theorem rkHeadNarrow_skips (env : RkEnv) (w : Wstr) :
    rkHeadNarrow env.tbl w = [] ∨ Skips env w (rkHeadNarrow env.tbl w) := by
  rw [rkHeadNarrow]
  split
  · exact Or.inl rfl
  · exact Or.inr (skips_rkHead env w)

/-- A search that finds something has started in the list of the string. -/
theorem skips_of_search {env : RkEnv} {w : Wstr} {rktp : List RkTabl}
    (hrktp : rktp = [] ∨ Skips env w rktp) {rlen : ℤ} {r : RkTabl} {rest : List RkTabl}
    (hsearch : rkSearch w rktp = some (rlen, r, rest)) : Skips env w (r :: rest) := by
  rcases hrktp with hnil | hskips
  · rw [hnil] at hsearch
    exact absurd hsearch (by simp [rkSearch])
  · exact hskips.trans hsearch

theorem Skips.mem {env : RkEnv} {w : Wstr} {r : RkTabl} {rest : List RkTabl}
    (h : Skips env w (r :: rest)) : r ∈ rkHead env.tbl w := by
  obtain ⟨pre, hpre, -⟩ := h
  rw [hpre]
  simp

/-- Behind at least one code the string may be another one. -/
theorem Resumes.of_codes {env : RkEnv} {w w' : Wstr} {k k' : ℕ} {i : Rkconv2}
    (h : Resumes env w' k' i) (hk : k < k') : Resumes env w k i := by
  refine ⟨h.skips, fun hno => ?_, fun hcont => ?_⟩
  · have hlen := h.len hno
    omega
  · have hlen := h.len (by rw [hcont]; decide)
    rw [hcont, rkContinue] at hlen
    omega

theorem rkconv2Loop_spec {env : RkEnv} (hyomi : YomiNonempty env.tbl)
    {rktblp : Option (List RkTabl)} (turns : ℕ) {rktp : List RkTabl} {w : Wstr}
    {kstr : List UInt32} (hw : w ≠ []) (hrktp : rktp = [] ∨ Skips env w rktp) {i : Rkconv2}
    (h : rkconv2Loop env rktblp turns rktp w kstr = some i) :
    Resumes env w kstr.length i := by
  induction turns generalizing rktp w kstr with
  | zero => exact absurd h (by simp [rkconv2Loop])
  | succ turns ih =>
      rw [rkconv2Loop] at h
      cases hsearch : rkSearch w rktp with
      | some found =>
          obtain ⟨rlen, r, rest⟩ := found
          have hskips := skips_of_search hrktp hsearch
          rw [hsearch] at h
          dsimp only at h
          split at h
          · -- the entry wants more characters
            rw [Option.some_inj] at h
            subst h
            refine ⟨fun _ p hp => ?_, fun _ => le_rfl, fun _ => rfl⟩
            rw [Option.mem_some_iff] at hp
            rw [← hp]
            exact ⟨hw, hskips⟩
          · have hkana : kstr.length <
                (kstr ++ kanaCodes (rlen - r.remainder.length) r.k_yomi).length := by
              rw [List.length_append, length_kanaCodes]
              have hpos := List.length_pos_of_ne_nil (hyomi _ r hskips.mem)
              omega
            split at h
            · rename_i hlen
              refine (ih ?_ (Or.inr (skips_rkHead env _)) h).of_codes hkana
              intro hnil
              have hdrop := List.append_eq_nil_iff.mp hnil
              rw [List.drop_eq_nil_iff] at hdrop
              have hpos := List.length_pos_of_ne_nil hw
              omega
            · rw [Option.some_inj] at h
              subst h
              refine ⟨fun _ p hp => absurd hp (by simp), fun _ => ?_, fun hcont => ?_⟩
              · dsimp only
                omega
              · rw [rkContinue] at hcont
                dsimp only at hcont
                omega
      | none =>
          rw [hsearch] at h
          dsimp only at h
          split at h
          · rw [Option.some_inj] at h
            subst h
            refine ⟨fun _ p hp => absurd hp (by simp), fun _ => ?_, fun hcont => ?_⟩
            · dsimp only
              omega
            · rw [rkContinue] at hcont
              dsimp only at hcont
              omega
          · rename_i hlen
            split at h
            · rw [Option.some_inj] at h
              subst h
              exact ⟨fun hno => absurd rfl hno, fun hno => absurd rfl hno,
                fun hcont => absurd hcont (show ¬ rkNomach = rkContinue by decide)⟩
            · refine (ih ?_ (rkHeadNarrow_skips env _) h).of_codes ?_
              · intro hnil
                have htail := congrArg List.length hnil
                rw [List.length_tail, List.length_nil] at htail
                omega
              · rw [List.length_append, List.length_singleton]
                omega

/-- The position of a refused character is the one before it; nothing else depends on it. -/
def Rkconv2.withPosition (rktblp : Option (List RkTabl)) (i : Rkconv2) : Rkconv2 :=
  if i.len = rkNomach then { i with rktblp := rktblp } else i

theorem rkconv2Loop_position (env : RkEnv) (rktblp : Option (List RkTabl)) (turns : ℕ)
    (rktp : List RkTabl) (w : Wstr) (kstr : List UInt32) :
    rkconv2Loop env rktblp turns rktp w kstr =
      (rkconv2Loop env none turns rktp w kstr).map (Rkconv2.withPosition rktblp) := by
  induction turns generalizing rktp w kstr with
  | zero => rfl
  | succ turns ih =>
      rw [rkconv2Loop, rkconv2Loop]
      have hkeep : ∀ (n : ℕ) (k : List UInt32) (v : Wstr) (q : Option (List RkTabl)),
          some (⟨n, k, v, q⟩ : Rkconv2) =
            (some ⟨n, k, v, q⟩).map (Rkconv2.withPosition rktblp) := by
        intro n k v q
        rw [Option.map_some, Rkconv2.withPosition, if_neg]
        rw [rkNomach]
        dsimp only
        omega
      cases rkSearch w rktp with
      | some found =>
          obtain ⟨rlen, r, rest⟩ := found
          dsimp only
          split
          · exact hkeep _ _ _ _
          · split
            · exact ih _ _ _
            · exact hkeep _ _ _ _
      | none =>
          dsimp only
          split
          · exact hkeep (kstr.length + 1) _ _ _
          · split
            · rfl
            · exact ih _ _ _

/-- The loops see of a position only what a search from it finds. -/
theorem rkconv2Loop_congr {env : RkEnv} {rktblp : Option (List RkTabl)} (turns : ℕ)
    {l l' : List RkTabl} {w : Wstr} (h : rkSearch w l = rkSearch w l') (kstr : List UInt32) :
    rkconv2Loop env rktblp turns l w kstr = rkconv2Loop env rktblp turns l' w kstr := by
  cases turns with
  | zero => rfl
  | succ turns => rw [rkconv2Loop, rkconv2Loop, h]

/-- A conversion that resumes the search does what one from the head of the list does. -/
theorem rkconv2_resume {env : RkEnv} {w : Wstr} {rktblp : Option (List RkTabl)}
    (h : ∀ p ∈ rktblp, Skips env w p) :
    rkconv2 env rktblp w = (rkconv2 env none w).map (Rkconv2.withPosition rktblp) := by
  rw [rkconv2, rkconv2, rkconv2Loop_position]
  cases rktblp with
  | none => rfl
  | some p =>
      obtain ⟨pre, hpre, hno⟩ := h p rfl
      rw [Option.getD_some, Option.getD_none, hpre]
      congr 1
      apply rkconv2Loop_congr
      split
      · rfl
      · exact (rkSearch_append p hno).symm

/-! ## Typed characters -/

/-- The position is one for the pending characters. -/
def Positioned (env : RkEnv) (st : RkState) : Prop :=
  ∀ p ∈ st.rktblp, st.rline ≠ [] ∧ Skips env st.rline p

/-- Taking back the last of several pending characters leaves the position as it is, so that
the entries in front of it must not match what remains either. -/
def KeepsPosition (env : RkEnv) (st : RkState) : RkEvent → Prop
  | .typed c => c = env.rk_erase → st.rk_cflag ≠ 0 → 2 ≤ st.rline.length →
      ∀ p ∈ st.rktblp, Skips env st.rline.dropLast p
  | .clear => True

instance (env : RkEnv) : ∀ st e, Decidable (KeepsPosition env st e)
  | st, .typed c => inferInstanceAs (Decidable (c = env.rk_erase → st.rk_cflag ≠ 0 →
      2 ≤ st.rline.length → ∀ p ∈ st.rktblp, Skips env st.rline.dropLast p))
  | _, .clear => isTrue trivial

/-- The same state with a search from the head of the list ahead. -/
def Restarted (env : RkEnv) (st st' : RkState) : Prop :=
  { st with rktblp := none } = { st' with rktblp := none } ∧ Positioned env st

theorem restarted_refl {env : RkEnv} {st : RkState} (h : Positioned env st) :
    Restarted env st st := ⟨rfl, h⟩

theorem positioned_none {env : RkEnv} {st : RkState} (h : st.rktblp = none) :
    Positioned env st := by
  intro p hp
  rw [h] at hp
  exact absurd hp (by simp)

theorem agree_rkEraseLast {env : RkEnv} {st : RkState}
    (hkeep : 2 ≤ st.rline.length → ∀ p ∈ st.rktblp, Skips env st.rline.dropLast p) :
    Agree (Restarted env) (some (rkEraseLast env st))
      (some (rkEraseLast env { st with rktblp := none })) := by
  refine .some ⟨⟨rfl, ?_⟩, rfl⟩
  intro p hp
  rw [rkEraseLast] at hp ⊢
  dsimp only at hp ⊢
  split at hp
  · exact absurd hp (by simp)
  · rename_i hlen
    rw [if_neg hlen]
    refine ⟨?_, hkeep (by omega) p hp⟩
    intro hnil
    have hlen' := congrArg List.length hnil
    rw [List.length_dropLast, List.length_nil] at hlen'
    omega

/-- The positions that a typed character leads to. -/
theorem agree_rkconvc {env : RkEnv} (hyomi : YomiNonempty env.tbl) {st : RkState} {c : UInt16}
    (hpos : Positioned env st) (hkeep : KeepsPosition env st (.typed c)) :
    Agree (Restarted env) (rkconvc env st c) (rkconvc env { st with rktblp := none } c) := by
  rw [rkconvc, rkconvc]
  by_cases hc : c = env.rk_erase
  · rw [if_pos hc, if_pos hc]
    dsimp only
    by_cases hflag : st.rk_cflag = 0
    · rw [if_pos hflag, if_pos hflag]
      exact .some ⟨restarted_refl (positioned_none rfl), rfl⟩
    · rw [if_neg hflag, if_neg hflag]
      exact agree_rkEraseLast (hkeep hc hflag)
  · rw [if_neg hc, if_neg hc]
    have hskips : ∀ p ∈ st.rktblp, Skips env (st.rline ++ [c]) p :=
      fun p hp => (hpos p hp).2.append (hpos p hp).1 c
    rw [rkconv2_resume hskips, Option.map_map]
    dsimp only
    cases hconv : rkconv2 env none (st.rline ++ [c]) with
    | none => exact .none
    | some i =>
        have hspec : Resumes env (st.rline ++ [c]) 0 i := by
          rw [rkconv2, Option.getD_none] at hconv
          refine rkconv2Loop_spec hyomi _ (by simp) ?_ hconv
          split
          · exact Or.inl rfl
          · exact Or.inr (skips_rkHead env _)
        refine .some ?_
        rw [Function.comp_apply, Rkconv2.withPosition]
        by_cases hno : i.len = rkNomach
        · -- the character is refused, and the position stays
          have hne : ¬ i.len = rkContinue := by
            rw [hno]
            decide
          rw [if_pos hno]
          dsimp only
          rw [if_neg hne, if_pos hno, if_neg hne, if_pos hno]
          exact ⟨⟨rfl, hpos⟩, rfl⟩
        · rw [if_neg hno]
          dsimp only
          by_cases hcont : i.len = rkContinue
          · rw [if_pos hcont]
            refine ⟨restarted_refl fun p hp => ?_, rfl⟩
            have hres := hspec.skips hno p hp
            rw [hspec.same hcont] at hres
            exact hres
          · rw [if_neg hcont, if_neg hno]
            exact ⟨restarted_refl (hspec.skips hno), rfl⟩

theorem agree_rkStep {env : RkEnv} (hyomi : YomiNonempty env.tbl) (st st' : RkState)
    (e : RkEvent) (h : Restarted env st st') (hkeep : KeepsPosition env st e) :
    Agree (Restarted env) (rkStep env st e) (rkStepRestart env st' e) := by
  cases e with
  | clear => exact .some ⟨restarted_refl (positioned_none rfl), rfl⟩
  | typed c =>
      rw [rkStep, rkStepRestart, ← h.1]
      exact agree_rkconvc hyomi h.2 hkeep

theorem yomiNonempty_rkinit (file_code : FileCode) (file : Bytes) :
    YomiNonempty (rkinit file_code file) := by
  intro code r hr
  obtain ⟨d, hd, rfl⟩ := mem_foldl_addDef hr
  have hacc := rkDefs_accepted file_code file d hd
  rw [RkDef.entry, wstr_eq hacc.nul]
  exact hacc.kstr

/-! ## Definition files -/

def rkFileEnv (file_code : FileCode) (file : Bytes) (rk_erase : UInt16) (rk_errin : Bool) :
    RkEnv := ⟨rkinit file_code file, rk_erase, rk_errin⟩

/-- The output of a run is that of the run which starts every search from the head of its
list, as long as the position is kept when a character is taken back. -/
theorem outputs_rkStep_eq_restart (file_code : FileCode) (file : Bytes) (rk_erase : UInt16)
    (rk_errin : Bool) (es : List RkEvent)
    (hkeep : Along (rkStep (rkFileEnv file_code file rk_erase rk_errin))
      (KeepsPosition (rkFileEnv file_code file rk_erase rk_errin)) rkclear es) :
    outputs (rkStep (rkFileEnv file_code file rk_erase rk_errin)) rkclear es =
      outputs (rkStepRestart (rkFileEnv file_code file rk_erase rk_errin)) rkclear es :=
  outputs_eq_of_agree (agree_rkStep (yomiNonempty_rkinit file_code file))
    (restarted_refl (positioned_none rfl)) hkeep

/-- The lines `KYO x` and `KBA y`. -/
def resumeRkfile : Bytes :=
  [0x4b, 0x59, 0x4f, 0x20, 0x78, 0x0a, 0x4b, 0x42, 0x41, 0x20, 0x79, 0x0a]

/-- `K`, `Y`, a backspace, `B` and `A`. -/
def resumeEvents : List RkEvent :=
  [.typed 0x6b, .typed 0x79, .typed 8, .typed 0x62, .typed 0x61]

theorem outputs_rkStep_eq_restart_sample :
    outputs (rkStep (rkFileEnv .no resumeRkfile 8 false)) rkclear resumeEvents =
      outputs (rkStepRestart (rkFileEnv .no resumeRkfile 8 false)) rkclear resumeEvents :=
  outputs_rkStep_eq_restart .no resumeRkfile 8 false resumeEvents (by decide +kernel)

/-- `K`, `B` and a backspace leave the position behind the entry that a `Y` wants. -/
theorem outputs_rkStep_ne_restart :
    ¬ ∀ (file_code : FileCode) (file : Bytes) (rk_erase : UInt16) (rk_errin : Bool)
      (es : List RkEvent),
      outputs (rkStep (rkFileEnv file_code file rk_erase rk_errin)) rkclear es =
        outputs (rkStepRestart (rkFileEnv file_code file rk_erase rk_errin)) rkclear es := by
  intro h
  have hbad := h .no resumeRkfile 8 false [.typed 0x6b, .typed 0x62, .typed 8, .typed 0x79]
  exact absurd hbad (by decide +kernel)

end Sj3
