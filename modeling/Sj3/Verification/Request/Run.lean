import Sj3.Verification.Clause.Traversal
import Sj3.Model.Execute

/-! # The loops of the requests

Both requests call `nextcl` as long as it returns the whole length of the reading. What they
come across is one list; it is finite, and each loop does its work on it. -/

namespace Sj3

/-! ## The walk ends -/

/-- How far a walk over the candidates can still go. -/
def Work.left (w : Work) : ℕ := w.clt1st.length * 0x100 + (w.kouhotbl.length - w.selectid)

theorem nextrecblk_length {clt1st clptr : List Bunsetu} (h : nextrecblk clt1st = some clptr) :
    clptr.length < clt1st.length := by
  cases clt1st with
  | nil => exact absurd h (by simp [nextrecblk])
  | cons clrec rest =>
      have hsuffix := behindBlk_suffix clrec rest
      cases hbehind : behindBlk clrec rest with
      | nil =>
          rw [nextrecblk_of_nil hbehind] at h
          cases h
      | cons c cs =>
          rw [nextrecblk_of_cons hbehind] at h
          rw [← Option.some_inj.mp h, ← hbehind, List.length_cons]
          exact Nat.lt_succ_of_le hsuffix.length_le

/-- What is found at a block. -/
theorem report_select (env : CnvEnv) (w : Work) (clptr : List Bunsetu) :
    ∃ ref, ((w.select env clptr fun _ => 1).report env).2.1 =
        { w.select env clptr (fun _ => 1) with ref } ∧
      (w.select env clptr fun _ => 1).kouhotbl.length ≤ maxKouhoNumber := by
  obtain ⟨ref, href⟩ := Work.report_eq env (w := w.select env clptr fun _ => 1) one_ne_zero
  refine ⟨ref, by rw [href], ?_⟩
  have hlen := (mkkouho_fresh env.dictlist w.ref clptr).length_le
  rwa [← length_getrank_table env.curstdy] at hlen

/-- A step forward that succeeds leaves less to go. -/
theorem nextcl_left (env : CnvEnv) {w : Work} (h : w.kouhotbl.length ≤ maxKouhoNumber) :
    (nextcl env w 0).1 = 0 ∨
      ((nextcl env w 0).2.1.left < w.left ∧
        (nextcl env w 0).2.1.kouhotbl.length ≤ maxKouhoNumber) := by
  unfold nextcl
  split
  · exact Or.inl rfl
  · split
    · rename_i hlt
      right
      obtain ⟨ref, href⟩ := Work.report_eq env (w := { w with selectid := w.selectid + 1 })
        (Nat.succ_ne_zero _)
      rw [href]
      refine ⟨?_, h⟩
      unfold Work.left
      dsimp only
      omega
    · rw [if_pos (by decide)]
      cases hblk : nextrecblk w.clt1st with
      | none => exact Or.inl rfl
      | some clptr =>
          right
          obtain ⟨ref, href, hlen⟩ := report_select env w clptr
          have hshort := nextrecblk_length hblk
          dsimp only
          rw [href]
          refine ⟨?_, hlen⟩
          have hclt : (w.select env clptr fun _ => 1).clt1st.length = clptr.length := rfl
          have hmax : maxKouhoNumber = 255 := rfl
          unfold Work.left
          dsimp only
          omega

/-- `n` turns are more than the walk from `r` takes. -/
def Enough (n : ℕ) (r : CnvResult) : Prop :=
  0 < n ∧ (r.1 = 0 ∨ (r.2.1.kouhotbl.length ≤ maxKouhoNumber ∧ r.2.1.left + 1 < n))

theorem Enough.nextcl {n : ℕ} {env : CnvEnv} {r : CnvResult} (h : Enough (n + 1) r)
    (hr : r.1 ≠ 0) : Enough n (nextcl env r.2.1 0) := by
  obtain ⟨hlen, hleft⟩ := h.2.resolve_left hr
  refine ⟨by omega, ?_⟩
  apply (nextcl_left env hlen).imp_right
  rintro ⟨hlt, hle⟩
  exact ⟨hle, by omega⟩

theorem enough_turns (env : CnvEnv) (w : Work) (yomi : Bytes) (len : ℤ) :
    Enough (turns (cl2knj env w yomi len)) (cl2knj env w yomi len) := by
  refine ⟨Nat.succ_pos _, ?_⟩
  unfold cl2knj turns
  dsimp only
  split
  · exact Or.inl rfl
  · right
    obtain ⟨ref, href, hlen⟩ := report_select env _ _
    rw [href]
    refine ⟨hlen, ?_⟩
    have hid : ∀ (w : Work) (l : List Bunsetu), (w.select env l fun _ => 1).selectid = 1 :=
      fun _ _ => rfl
    have hmax : maxKouhoNumber = 255 := rfl
    unfold Work.left
    dsimp only
    rw [hid]
    omega

/-! ## The candidates of the whole reading -/

/-- From the result `r` on, `nextcl` returns the length `len` for the results `l`, and then
something else. -/
inductive Run (env : CnvEnv) (len : ℤ) : CnvResult → List CnvResult → Prop
  | stop {r} (h : (r.1 : ℤ) ≠ len) : Run env len r []
  | step {r l} (h : (r.1 : ℤ) = len) (rest : Run env len (nextcl env r.2.1 0) l) :
      Run env len r (r :: l)

theorem exists_run (env : CnvEnv) {len : ℤ} {n : ℕ} {r : CnvResult} (h : Enough n r)
    (hne : r.1 ≠ 0 ∨ len ≠ 0) : ∃ l, Run env len r l ∧ l.length < n := by
  induction n generalizing r with
  | zero => exact absurd h.1 (lt_irrefl 0)
  | succ n ih =>
      by_cases hr : (r.1 : ℤ) = len
      · have hpos : r.1 ≠ 0 := by omega
        obtain ⟨l, hl, hlt⟩ := ih (h.nextcl hpos) (Or.inr (by omega))
        exact ⟨r :: l, .step hr hl, Nat.succ_lt_succ hlt⟩
      · exact ⟨[], .stop hr, Nat.succ_pos n⟩

/-- The candidate has no character that the client's code has not. -/
def usable (conv : CnvResult → Option Strconv) (r : CnvResult) : Bool :=
  (conv r).any fun s => s.useflag = 0

section Loops

variable {env : CnvEnv} {conv : CnvResult → Option Strconv} {len : ℤ} {r : CnvResult}
variable {l : List CnvResult}

theorem Run.cntLoop (h : Run env len r l) {n : ℕ} (hn : l.length < n) (cnt : ℕ) :
    cntLoop env conv len n r cnt =
      some (if ∀ i ∈ l, (conv i).isSome then .normalEnd (cnt + l.countP (usable conv))
        else .cannotCodeConvert) := by
  induction h generalizing n cnt with
  | stop hr =>
      obtain ⟨m, rfl⟩ : ∃ m, n = m + 1 := ⟨n - 1, by rw [List.length_nil] at hn; omega⟩
      rw [Sj3.cntLoop, if_neg hr]
      simp
  | @step r l hr _ ih =>
      obtain ⟨m, rfl⟩ : ∃ m, n = m + 1 := ⟨n - 1, by rw [List.length_cons] at hn; omega⟩
      rw [List.length_cons] at hn
      rw [Sj3.cntLoop, if_pos hr]
      cases hconv : conv r with
      | none => simp [hconv]
      | some s =>
          dsimp only
          rw [ih (by omega)]
          have huse : usable conv r = decide (s.useflag = 0) := by rw [usable, hconv]; rfl
          have hall : (∀ i ∈ r :: l, (conv i).isSome) ↔ ∀ i ∈ l, (conv i).isSome := by
            simp [hconv]
          rw [if_congr hall rfl rfl, List.countP_cons, huse]
          by_cases h0 : s.useflag = 0
          · simp only [h0, decide_true, if_true]
            congr 3
            omega
          · simp only [h0, decide_false, if_false, Bool.false_eq_true, Nat.add_zero]

theorem usable_of_conv {s : Strconv} (hs : conv r = some s) :
    usable conv r = decide (s.useflag = 0) := by
  rw [usable, hs]
  rfl

/-- The inner loop skips candidates that cannot be used; it may fail at the first result
behind those of the whole reading. -/
theorem Run.defuseLoop (h : Run env len r l) (hconv : ∀ i ∈ l, (conv i).isSome) {n : ℕ}
    (hn : l.length < n) {s : Strconv} (hs : conv r = some s) :
    (defuseLoop env conv len n r s = some none ∧ l.countP (usable conv) = 0) ∨
      ∃ r' s' l', defuseLoop env conv len n r s = some (some (r', s')) ∧ Run env len r' l' ∧
        conv r' = some s' ∧ (s'.useflag = 0 ∨ (r'.1 : ℤ) ≠ len) ∧
        l'.countP (usable conv) = l.countP (usable conv) ∧ l'.length ≤ l.length ∧
        ∀ i ∈ l', (conv i).isSome := by
  induction h generalizing n s with
  | @stop r hr =>
      obtain ⟨m, rfl⟩ : ∃ m, n = m + 1 := ⟨n - 1, by rw [List.length_nil] at hn; omega⟩
      right
      refine ⟨r, s, [], ?_, .stop hr, hs, Or.inr hr, rfl, le_rfl, hconv⟩
      rw [Sj3.defuseLoop, if_neg fun hc => hr hc.2]
  | @step r l hr hrest ih =>
      obtain ⟨m, rfl⟩ : ∃ m, n = m + 1 := ⟨n - 1, by rw [List.length_cons] at hn; omega⟩
      rw [List.length_cons] at hn
      have htail : ∀ i ∈ l, (conv i).isSome := fun i hi => hconv i (List.mem_cons_of_mem _ hi)
      rw [Sj3.defuseLoop]
      by_cases h0 : s.useflag = 0
      · right
        rw [if_neg fun hc => hc.1 h0]
        exact ⟨r, s, r :: l, rfl, .step hr hrest, hs, Or.inl h0, rfl, le_rfl, hconv⟩
      · have hskip : (r :: l).countP (usable conv) = l.countP (usable conv) := by
          rw [List.countP_cons_of_neg]
          rw [usable_of_conv hs]
          simpa using h0
        rw [if_pos ⟨h0, hr⟩, hskip]
        dsimp only
        cases hnext : conv (nextcl env r.2.1 0) with
        | none =>
            left
            refine ⟨rfl, ?_⟩
            cases hrest with
            | stop => rfl
            | step hr' hrest' =>
                have := htail _ List.mem_cons_self
                rw [hnext] at this
                exact absurd this (by simp)
        | some s' =>
            rcases ih htail (n := m) (by omega) hnext with hfail | ⟨r', s'', l', hrun⟩
            · exact Or.inl hfail
            · right
              obtain ⟨hloop, hrun', hs', hstop, hcount, hle, hall⟩ := hrun
              exact ⟨r', s'', l', hloop, hrun', hs', hstop, hcount,
                hle.trans (Nat.le_succ _), hall⟩

/-- The outer loop sends the candidates that can be used. -/
theorem Run.allLoop (h : Run env len r l) (hconv : ∀ i ∈ l, (conv i).isSome) {max n : ℕ}
    (hmax : l.length < max) (hn : l.length < n) {s : Strconv} (hs : conv r = some s)
    (hgo : s.useflag = 0 ∨ (r.1 : ℤ) ≠ len) (sent : List Sent) :
    ∃ sent' reply, allLoop env conv len max n r s sent = some (sent', reply) ∧
      sent'.length = sent.length + l.countP (usable conv) := by
  induction n generalizing r l s sent with
  | zero => exact absurd hn (Nat.not_lt_zero _)
  | succ n ih =>
      rw [Sj3.allLoop]
      cases h with
      | stop hr =>
          rw [if_neg hr]
          exact ⟨sent, _, rfl, rfl⟩
      | @step _ l hr hrest =>
          rw [List.length_cons] at hmax hn
          have h0 : s.useflag = 0 := hgo.resolve_right fun hne => hne hr
          have hfirst : (r :: l).countP (usable conv) = l.countP (usable conv) + 1 := by
            rw [List.countP_cons_of_pos]
            rw [usable_of_conv hs]
            simpa using h0
          have htail : ∀ i ∈ l, (conv i).isSome :=
            fun i hi => hconv i (List.mem_cons_of_mem _ hi)
          rw [if_pos hr, hfirst]
          dsimp only
          have hlen : ∀ x : Sent, (sent ++ [x]).length = sent.length + 1 := by simp
          cases hnext : conv (nextcl env r.2.1 0) with
          | none =>
              -- the first result behind those of the whole reading
              cases hrest with
              | stop => exact ⟨_, _, rfl, by rw [hlen]; rfl⟩
              | step hr' hrest' =>
                  have := htail _ List.mem_cons_self
                  rw [hnext] at this
                  exact absurd this (by simp)
          | some s' =>
              dsimp only
              rcases hrest.defuseLoop htail (n := max) (by omega) hnext with
                ⟨hfail, hzero⟩ | ⟨r', s'', l', hloop, hrun', hs', hstop, hcount, hle, hall⟩
              · rw [hfail, hzero]
                exact ⟨_, _, rfl, hlen _⟩
              · rw [hloop]
                dsimp only
                obtain ⟨sent', reply, hsent, hlen'⟩ :=
                  ih hrun' hall (by omega) (by omega) hs' hstop
                    (sent ++ [⟨r.1, r.2.2, s.out⟩])
                refine ⟨sent', reply, hsent, ?_⟩
                rw [hlen', hlen, hcount]
                omega

end Loops

end Sj3
