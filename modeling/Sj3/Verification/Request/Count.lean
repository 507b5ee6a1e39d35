import Sj3.Verification.Request.Run

/-! # The announced number of candidates

The number `exec_cl2knj_cnt` announces against the number `exec_cl2knj_all` sends. -/

namespace Sj3

open Buffer

/-- The candidates both loops deal with after `cl2knj` was called with `len`. -/
theorem exists_run_cl2knj (env : CnvEnv) (w : Work) (yomi : Bytes) {len : ℤ}
    (hne : (cl2knj env w yomi len).1 ≠ 0) :
    ∃ l, Run env len (cl2knj env w yomi len) l ∧
      l.length < turns (cl2knj env w yomi len) :=
  exists_run env (enough_turns env w yomi len) (Or.inl hne)

/-- The list of clauses of a reading, sorted. -/
theorem clauseList_of_codes {P : Bunsetu → Prop} {env : CnvEnv} {codes : Bytes}
    (hP : ∀ c ∈ env.mkbunsetu codes ++ env.wakachi codes, P c.2) :
    ClauseList P (if setclrecs [] (env.mkbunsetu codes) = [] then
      setclrecs [] (env.wakachi codes) else setclrecs [] (env.mkbunsetu codes)) := by
  split
  · exact (clauseList_nil P).setclrecs fun c hc => hP c (List.mem_append_right _ hc)
  · exact (clauseList_nil P).setclrecs fun c hc => hP c (List.mem_append_left _ hc)

/-- What `cl2knj` returns: the bytes of one of the clauses. -/
theorem cl2knj_clause {P : Bunsetu → Prop} {env : CnvEnv} (w : Work) {yomi : Bytes} {len : ℤ}
    (hP : ∀ c ∈ env.mkbunsetu (cl2kana (min len.toNat (maxClInputLen * 2)) yomi).1 ++
      env.wakachi (cl2kana (min len.toNat (maxClInputLen * 2)) yomi).1, P c.2) :
    let n := min len.toNat (maxClInputLen * 2)
    let orgyomi := overwrite w.orgyomi 0 (cstr (readN (cl2kana n yomi).2 yomi) ++ [0])
    let r := cl2knj env w yomi len
    (r.1 = 0 ∧ r.2.2 = none) ∨
      ((cl2kana n yomi).1.headD 0 ≠ 0 ∧ ∃ c : Bunsetu, P c ∧ 0 < c.cllen ∧
        c.cllen ≤ maxClInputLen ∧ r.1 = hzstrlen c.cllen orgyomi) := by
  intro n orgyomi r
  have hr : r = cl2knj env w yomi len := rfl
  unfold cl2knj at hr
  dsimp only at hr
  split at hr
  · left
    rw [hr]
    exact ⟨rfl, rfl⟩
  · rename_i hcodes
    have hlist := clauseList_of_codes hP
    generalize hmax : (if setclrecs [] (env.mkbunsetu (cl2kana n yomi).1) = [] then
      setclrecs [] (env.wakachi (cl2kana n yomi).1)
      else setclrecs [] (env.mkbunsetu (cl2kana n yomi).1)) = maxclptr at hlist
    have hr : r = Work.report env (Work.select env { w with
        hyomi := (cl2kana n yomi).1, orgyomi, kouhotbl := [], maxclptr } maxclptr
        fun _ => 1) := by
      rw [hr, ← hmax]
    cases maxclptr with
    | nil =>
        left
        rw [hr]
        exact ⟨rfl, rfl⟩
    | cons c cs =>
        right
        have hc := hlist.cllen c List.mem_cons_self
        refine ⟨hcodes, c, hlist.all c List.mem_cons_self, hc.1, hc.2, ?_⟩
        rw [hr]
        rfl

/-- What `cl2knj` returns, and where it leaves the work area. -/
theorem cl2knj_cases (env : CnvEnv) (w : Work) (yomi : Bytes) (len : ℤ) :
    let n := min len.toNat (maxClInputLen * 2)
    let orgyomi := overwrite w.orgyomi 0 (cstr (readN (cl2kana n yomi).2 yomi) ++ [0])
    let r := cl2knj env w yomi len
    (r.1 = 0 ∧ r.2.2 = none) ∨
      ((cl2kana n yomi).1.headD 0 ≠ 0 ∧ ∃ c, 0 < c ∧ c ≤ maxClInputLen ∧
        r.1 = hzstrlen c orgyomi) := by
  intro n orgyomi r
  rcases cl2knj_clause (P := fun _ => True) w fun _ _ => trivial with hnone | hclause
  · exact .inl hnone
  · obtain ⟨hcodes, c, -, hc⟩ := hclause
    exact .inr ⟨hcodes, c.cllen, hc⟩

/-- Without a clause there is no text. -/
theorem convert_of_zero (mb_flag : MbFlag) (defChar : Char2) {env : CnvEnv} {w : Work}
    {yomi : Bytes} {len : ℤ} (h : (cl2knj env w yomi len).1 = 0) :
    convert mb_flag defChar (cl2knj env w yomi len) = some ⟨[], 0⟩ := by
  have hnone : (cl2knj env w yomi len).2.2 = none := by
    rcases cl2knj_cases env w yomi len with ⟨-, hnone⟩ | ⟨-, c, hpos, -, hlen⟩
    · exact hnone
    · have := le_hzstrlen c (overwrite w.orgyomi 0 (cstr (readN
        (cl2kana (min len.toNat (maxClInputLen * 2)) yomi).2 yomi) ++ [0]))
      omega
  have htext : CnvResult.text (cl2knj env w yomi len) = [] := by
    rw [CnvResult.text, hnone]
    rfl
  cases mb_flag with
  | sjisProto =>
      rw [convert, htext]
      rfl
  | eucProto =>
      rw [convert, htext]
      rfl

section Handlers

variable {env : CnvEnv} {mb_flag : MbFlag} {defChar : Char2} {w : Work}
variable {buf1 buf2 yomi : Bytes} (hyomi : yomiEuc mb_flag defChar buf1 buf2 = some yomi)
include hyomi

/-- Nothing of the whole length is found: nothing is counted. -/
theorem execCl2knjCnt_zero {len : ℤ} (h : (cl2knj env w yomi len).1 = 0) :
    execCl2knjCnt env mb_flag defChar w buf1 buf2 len = some (.normalEnd 0) := by
  rw [execCl2knjCnt, hyomi]
  dsimp only
  rw [if_neg (by simpa using h)]

theorem execCl2knjCnt_run {len : ℤ} {l : List CnvResult} (h : (cl2knj env w yomi len).1 ≠ 0)
    (hrun : Run env len (cl2knj env w yomi len) l)
    (hlt : l.length < turns (cl2knj env w yomi len)) :
    execCl2knjCnt env mb_flag defChar w buf1 buf2 len =
      some (if ∀ i ∈ l, (convert mb_flag defChar i).isSome then
        .normalEnd (l.countP (usable (convert mb_flag defChar))) else .cannotCodeConvert) := by
  rw [execCl2knjCnt, hyomi]
  dsimp only
  rw [if_pos h, hrun.cntLoop hlt, Nat.zero_add]

/-- The length `exec_cl2knj_all` goes by. -/
def allLen (mb_flag : MbFlag) (yomi : Bytes) (len : ℤ) : ℤ :=
  if mb_flag = .sjisProto then (cstr yomi).length else len

theorem execCl2knjAll_zero {len : ℤ}
    (h : (cl2knj env w yomi (allLen mb_flag yomi len)).1 = 0) :
    ∃ reply, execCl2knjAll env mb_flag defChar w buf1 buf2 len = some ([], reply) := by
  have hlen : (if mb_flag = .sjisProto then ((cstr yomi).length : ℤ) else len) =
      allLen mb_flag yomi len := rfl
  rw [execCl2knjAll, hyomi]
  dsimp only
  rw [hlen, convert_of_zero mb_flag defChar h]
  dsimp only
  rw [if_neg (by decide), if_neg (by simpa using h)]
  exact ⟨_, rfl⟩

theorem execCl2knjAll_run {len : ℤ} {l : List CnvResult}
    (h : (cl2knj env w yomi (allLen mb_flag yomi len)).1 ≠ 0)
    (hrun : Run env (allLen mb_flag yomi len)
      (cl2knj env w yomi (allLen mb_flag yomi len)) l)
    (hlt : l.length < turns (cl2knj env w yomi (allLen mb_flag yomi len)))
    (hconv : ∀ i ∈ l, (convert mb_flag defChar i).isSome) :
    ∃ sent reply, execCl2knjAll env mb_flag defChar w buf1 buf2 len = some (sent, reply) ∧
      sent.length = l.countP (usable (convert mb_flag defChar)) := by
  have hlen : (if mb_flag = .sjisProto then ((cstr yomi).length : ℤ) else len) =
      allLen mb_flag yomi len := rfl
  rw [execCl2knjAll, hyomi]
  dsimp only
  rw [hlen]
  generalize cl2knj env w yomi (allLen mb_flag yomi len) = i at h hrun hlt
  -- what is sent once the first candidate that can be used was found
  have hsend : ∀ (i' : CnvResult) (s : Strconv) (l' : List CnvResult), i'.1 ≠ 0 →
      Run env (allLen mb_flag yomi len) i' l' → l'.length < turns i →
      (∀ i ∈ l', (convert mb_flag defChar i).isSome) → convert mb_flag defChar i' = some s →
      (s.useflag = 0 ∨ (i'.1 : ℤ) ≠ allLen mb_flag yomi len) →
      ∃ sent reply, (if i'.1 ≠ 0 then allLoop env (convert mb_flag defChar)
          (allLen mb_flag yomi len) (turns i) (turns i) i' s [] else
          some ([], Reply.normalEnd 0)) = some (sent, reply) ∧
        sent.length = l'.countP (usable (convert mb_flag defChar)) := by
    intro i' s l' hne hrun' hlt' hconv' hs hgo
    rw [if_pos hne]
    obtain ⟨sent, reply, hloop, hsent⟩ := hrun'.allLoop hconv' hlt' hlt' hs hgo []
    exact ⟨sent, reply, hloop, by rw [hsent, List.length_nil, Nat.zero_add]⟩
  cases hs : convert mb_flag defChar i with
  | none =>
      cases hrun with
      | stop => exact ⟨[], _, rfl, rfl⟩
      | step =>
          have := hconv i List.mem_cons_self
          rw [hs] at this
          exact absurd this (by simp)
  | some s =>
      dsimp only
      by_cases h0 : s.useflag = 0
      · rw [if_neg (not_not.mpr h0)]
        exact hsend i s l h hrun hlt hconv hs (Or.inl h0)
      · rw [if_pos h0]
        rcases hrun.defuseLoop hconv hlt hs with
          ⟨hfail, hzero⟩ | ⟨i', s', l', hloop, hrun', hs', hstop, hcount, hle, hall⟩
        · rw [hfail, hzero]
          exact ⟨[], _, rfl, rfl⟩
        · rw [hloop, ← hcount]
          dsimp only
          split
          · rename_i hgo
            apply hsend i' s' l' _ hrun' (hle.trans_lt hlt) hall hs' hstop
            intro hzero
            -- a length of 0 is not the one the walk started with
            have hlen0 : allLen mb_flag yomi len = 0 := by rw [← hgo.2, hzero]; rfl
            have hi : (i.1 : ℤ) ≠ allLen mb_flag yomi len := by omega
            have hturns : turns i = i.2.1.clt1st.length * 0x100 + 0xff + 1 := rfl
            rw [hturns, defuseLoop, if_neg fun hc => hi hc.2, Option.some_inj,
              Option.some_inj, Prod.mk.injEq] at hloop
            rw [← hloop.1] at hzero
            exact h hzero
          · rename_i hgo
            refine ⟨[], _, rfl, ?_⟩
            cases hrun' with
            | stop => rfl
            | step hr => exact absurd ⟨hstop.resolve_right fun hne => hne hr, hr⟩ hgo

end Handlers

/-! ## Agreement -/

/-- Whenever a number is announced, that many candidates are sent. -/
def Agree (env : CnvEnv) (mb_flag : MbFlag) (defChar : Char2) (w : Work) (buf1 buf2 : Bytes)
    (len : ℤ) : Prop :=
  ∀ n, execCl2knjCnt env mb_flag defChar w buf1 buf2 len = some (.normalEnd n) →
    ∃ sent reply, execCl2knjAll env mb_flag defChar w buf1 buf2 len = some (sent, reply) ∧
      sent.length = n

/-- The bytes up to `len` are whole characters, and no more than a clause can have. -/
def ClauseLen (w : Work) (yomi : Bytes) (len : ℤ) : Prop :=
  let n := min len.toNat (maxClInputLen * 2)
  (cl2kana n yomi).1.headD 0 ≠ 0 ∧ ∃ c, 0 < c ∧ c ≤ maxClInputLen ∧
    (hzstrlen c (overwrite w.orgyomi 0 (cstr (readN (cl2kana n yomi).2 yomi) ++ [0])) : ℤ) =
      len

/-- A length that no clause has gives no candidate. -/
theorem run_of_not_clauseLen (env : CnvEnv) {w : Work} {yomi : Bytes} {len : ℤ}
    (h : ¬ ClauseLen w yomi len) :
    (cl2knj env w yomi len).1 = 0 ∨ Run env len (cl2knj env w yomi len) [] := by
  rcases cl2knj_cases env w yomi len with ⟨hzero, -⟩ | ⟨hcodes, c, hpos, hle, hc⟩
  · exact Or.inl hzero
  · refine Or.inr (.stop fun heq => h ⟨hcodes, c, hpos, hle, ?_⟩)
    rw [← hc]
    exact heq

section Agree

variable {env : CnvEnv} {mb_flag : MbFlag} {defChar : Char2} {w : Work}
variable {buf1 buf2 yomi : Bytes} (hyomi : yomiEuc mb_flag defChar buf1 buf2 = some yomi)
include hyomi

/-- With the same length both requests deal with the same candidates. -/
theorem agree_of_allLen {len : ℤ} (hlen : allLen mb_flag yomi len = len) :
    Agree env mb_flag defChar w buf1 buf2 len := by
  intro n hn
  by_cases h : (cl2knj env w yomi len).1 = 0
  · rw [execCl2knjCnt_zero hyomi h] at hn
    cases hn
    obtain ⟨reply, hall⟩ := execCl2knjAll_zero hyomi (hlen.symm ▸ h)
    exact ⟨[], reply, hall, rfl⟩
  · obtain ⟨l, hrun, hlt⟩ := exists_run_cl2knj env w yomi h
    rw [execCl2knjCnt_run hyomi h hrun hlt] at hn
    by_cases hconv : ∀ i ∈ l, (convert mb_flag defChar i).isSome
    · rw [if_pos hconv] at hn
      cases hn
      apply execCl2knjAll_run hyomi
      · rwa [hlen]
      · rwa [hlen]
      · rwa [hlen]
      · exact hconv
    · rw [if_neg hconv] at hn
      cases hn

theorem cnt_of_not_clauseLen {len : ℤ} (h : ¬ ClauseLen w yomi len) :
    execCl2knjCnt env mb_flag defChar w buf1 buf2 len = some (.normalEnd 0) := by
  by_cases hzero : (cl2knj env w yomi len).1 = 0
  · exact execCl2knjCnt_zero hyomi hzero
  · have hrun := (run_of_not_clauseLen env h).resolve_left hzero
    rw [execCl2knjCnt_run hyomi hzero hrun (Nat.succ_pos _)]
    rfl

theorem all_of_not_clauseLen {len : ℤ} (h : ¬ ClauseLen w yomi (allLen mb_flag yomi len)) :
    ∃ reply, execCl2knjAll env mb_flag defChar w buf1 buf2 len = some ([], reply) := by
  by_cases hzero : (cl2knj env w yomi (allLen mb_flag yomi len)).1 = 0
  · exact execCl2knjAll_zero hyomi hzero
  · have hrun := (run_of_not_clauseLen env h).resolve_left hzero
    obtain ⟨sent, reply, hall, hlen⟩ :=
      execCl2knjAll_run hyomi hzero hrun (Nat.succ_pos _) (by simp)
    rw [List.length_eq_zero_iff.mp hlen] at hall
    exact ⟨reply, hall⟩

end Agree

/-! ## Requests whose lengths differ -/

/-- The clause of `c` codes as it is taken over when there is no word. -/
def plainClause (c : ℕ) : Bunsetu :=
  ⟨0, ⟨1, 0, 0, 0, .wakachi, 0, c, 1, 0, 0⟩, c, false⟩

/-- A conversion that takes the first `c` codes of any reading for a clause, and can write
it in the client's code for the reading `codes` only. -/
def oneEnv (codes : Bytes) (c : ℕ) : CnvEnv where
  dictlist := []
  curstdy := none
  mkbunsetu := fun _ => [(true, plainClause c)]
  wakachi := fun _ => [(true, plainClause c)]
  stbYomiLen := fun _ => 0
  cvtkouho := fun hyomi _ _ => if hyomi = codes then [] else [0x8f, 0xb0, 0xa1]

theorem oneEnv_spec {codes : Bytes} {c : ℕ} (hc : 0 < c ∧ c ≤ maxClInputLen) (w : Work)
    (yomi : Bytes) (len : ℤ)
    (hcodes : (cl2kana (min len.toNat (maxClInputLen * 2)) yomi).1.headD 0 ≠ 0) :
    let n := min len.toNat (maxClInputLen * 2)
    let r := cl2knj (oneEnv codes c) w yomi len
    r.1 = hzstrlen c (overwrite w.orgyomi 0 (cstr (readN (cl2kana n yomi).2 yomi) ++ [0])) ∧
      CnvResult.text r =
        (if (cl2kana n yomi).1 = codes then [] else [0x8f, 0xb0, 0xa1]) ∧
      (nextcl (oneEnv codes c) r.2.1 0).1 = 0 := by
  intro n r
  have hlist : setclrecs [] [(true, plainClause c)] = [plainClause c] := by
    rw [setclrecs, List.foldl_cons, List.foldl_nil, setclrec, if_neg (by simp [plainClause]; omega),
      if_neg (by simp [plainClause]; omega)]
    rfl
  have hr : r = Work.report (oneEnv codes c) (Work.select (oneEnv codes c) { w with
      hyomi := (cl2kana n yomi).1
      orgyomi := overwrite w.orgyomi 0 (cstr (readN (cl2kana n yomi).2 yomi) ++ [0])
      kouhotbl := []
      maxclptr := [plainClause c] } [plainClause c] fun _ => 1) := by
    have hr : r = cl2knj (oneEnv codes c) w yomi len := rfl
    rw [cl2knj] at hr
    dsimp only at hr
    rw [if_neg hcodes] at hr
    rw [hr]
    change Work.report _ (Work.select _ { w with
      hyomi := _
      orgyomi := _
      kouhotbl := []
      maxclptr := if setclrecs [] [(true, plainClause c)] = [] then
        setclrecs [] [(true, plainClause c)] else setclrecs [] [(true, plainClause c)] }
      (if setclrecs [] [(true, plainClause c)] = [] then
        setclrecs [] [(true, plainClause c)] else setclrecs [] [(true, plainClause c)]) _) = _
    rw [hlist]
    rfl
  have htable : ∀ ref, getrank none (mkkouho [] ref [plainClause c]) =
      [{ newKouho (plainClause c) 0 0 with rank := 1 }] := by
    intro ref
    have hblk : recblk [plainClause c] = [plainClause c] := by
      rw [recblk, List.takeWhile_cons_of_pos (by simp)]
      rfl
    rw [mkkouho, hblk]
    rfl
  generalize hw' : Work.select (oneEnv codes c) _ [plainClause c] (fun _ => 1) = w' at hr
  have hk : w'.kouhotbl = [{ newKouho (plainClause c) 0 0 with rank := 1 }] := by
    rw [← hw']
    exact htable _
  have hid : w'.selectid = 1 := by rw [← hw']; rfl
  have hclt : w'.clt1st = [plainClause c] := by rw [← hw']; rfl
  have hyomi : w'.hyomi = (cl2kana n yomi).1 := by rw [← hw']; rfl
  obtain ⟨ref, href⟩ := Work.report_eq (oneEnv codes c) (w := w') (by rw [hid]; exact one_ne_zero)
  rw [href] at hr
  rw [hr]
  refine ⟨?_, ?_, ?_⟩
  · change w'.length = _
    rw [Work.length, hclt, ← hw']
    rfl
  · change ((w'.shown (oneEnv codes c)).map Converted.kanji).getD [] = _
    have hpick : (w'.kouhotbl[cvtclknj w'.kouhotbl 1]?) =
        some { newKouho (plainClause c) 0 0 with rank := 1 } := by
      rw [hk]
      rfl
    rw [Work.shown, Work.cvtclknj, hid]
    rw [if_neg one_ne_zero, hpick]
    change (if w'.hyomi = codes then [] else [0x8f, 0xb0, 0xa1]) = _
    rw [hyomi]
  · rw [nextcl]
    dsimp only
    rw [hk, hid, hclt, if_neg (by simp), if_neg (by simp)]
    rfl

/-- The bytes of the first `k` characters, as they are converted to reading codes. -/
def codesLen : ℕ → Bytes → ℕ
  | 0, _ => 0
  | k + 1, ptr => (sj2cdChr ptr).2 + codesLen k (ptr.drop (sj2cdChr ptr).2)

theorem cl2kana_snd (len : ℕ) (ptr : Bytes) :
    (cl2kana len ptr).2 = codesLen (cl2kana len ptr).1.length ptr := by
  induction len using Nat.strong_induction_on generalizing ptr with
  | _ len ih =>
      cases len with
      | zero => rfl
      | succ len =>
          rw [cl2kana.eq_def]
          dsimp only
          split
          · cases len with
            | zero => rfl
            | succ len =>
                dsimp only
                rw [ih len (by omega), List.length_cons, codesLen]
          · dsimp only
            rw [ih len (by omega), List.length_cons, codesLen]

/-- The clause `oneEnv` makes has the length `len`, and it can be written. -/
def OneClause (codes : Bytes) (c : ℕ) (w : Work) (yomi : Bytes) (len : ℤ) : Prop :=
  let n := min len.toNat (maxClInputLen * 2)
  (cl2kana n yomi).1.headD 0 ≠ 0 ∧ (cl2kana n yomi).1 = codes ∧
    (hzstrlen c (overwrite w.orgyomi 0 (cstr (readN (cl2kana n yomi).2 yomi) ++ [0])) : ℤ) =
      len

open Classical in
/-- The candidates of `oneEnv`: at most one, and one exactly if that is so. -/
theorem oneEnv_run {codes : Bytes} {c : ℕ} (hc : 0 < c ∧ c ≤ maxClInputLen) (defChar : Char2)
    (w : Work) (yomi : Bytes) (len : ℤ) :
    ((cl2knj (oneEnv codes c) w yomi len).1 = 0 ∧ ¬ OneClause codes c w yomi len) ∨
      ∃ l, (cl2knj (oneEnv codes c) w yomi len).1 ≠ 0 ∧
        Run (oneEnv codes c) len (cl2knj (oneEnv codes c) w yomi len) l ∧ l.length ≤ 1 ∧
        (∀ i ∈ l, (convert .sjisProto defChar i).isSome) ∧
        l.countP (usable (convert .sjisProto defChar)) =
          if OneClause codes c w yomi len then 1 else 0 := by
  by_cases hcodes : (cl2kana (min len.toNat (maxClInputLen * 2)) yomi).1.headD 0 = 0
  · left
    refine ⟨?_, fun h => h.1 hcodes⟩
    rw [cl2knj]
    dsimp only
    rw [if_pos hcodes]
  · right
    obtain ⟨hlen, htext, hnext⟩ := @oneEnv_spec codes c hc w yomi len hcodes
    generalize cl2knj (oneEnv codes c) w yomi len = r at hlen htext hnext
    have hpos : r.1 ≠ 0 := by
      have := le_hzstrlen c (overwrite w.orgyomi 0 (cstr (readN
        (cl2kana (min len.toNat (maxClInputLen * 2)) yomi).2 yomi) ++ [0]))
      omega
    by_cases hr : (r.1 : ℤ) = len
    · refine ⟨[r], hpos, .step hr (.stop ?_), le_rfl, ?_, ?_⟩
      · rw [hnext]
        omega
      · intro i hi
        rw [List.mem_singleton.mp hi, convert, htext]
        split <;> rfl
      · by_cases hsame : (cl2kana (min len.toNat (maxClInputLen * 2)) yomi).1 = codes
        · rw [if_pos ⟨hcodes, hsame, by rw [← hlen]; exact hr⟩, List.countP_singleton, usable,
            convert, htext, if_pos hsame]
          rfl
        · rw [if_neg fun h => hsame h.2.1, List.countP_singleton, usable, convert, htext,
            if_neg hsame]
          rfl
    · refine ⟨[], hpos, .stop hr, Nat.zero_le _, by simp, ?_⟩
      rw [if_neg]
      · rfl
      · rintro ⟨-, -, h⟩
        rw [← hlen] at h
        exact hr h

section Differ

variable {defChar : Char2} {w : Work} {buf1 buf2 yomi : Bytes}
variable (hyomi : yomiEuc .sjisProto defChar buf1 buf2 = some yomi)
variable {codes : Bytes} {c : ℕ} (hc : 0 < c ∧ c ≤ maxClInputLen)
include hyomi hc

open Classical in
theorem oneEnv_cnt (len : ℤ) :
    execCl2knjCnt (oneEnv codes c) .sjisProto defChar w buf1 buf2 len =
      some (.normalEnd (if OneClause codes c w yomi len then 1 else 0)) := by
  rcases oneEnv_run hc defChar w yomi len with ⟨hzero, hnot⟩ | ⟨l, hpos, hrun, hle, hconv, hcount⟩
  · rw [execCl2knjCnt_zero hyomi hzero, if_neg hnot]
  · rw [execCl2knjCnt_run hyomi hpos hrun (by rw [turns]; omega), if_pos hconv, hcount]

open Classical in
theorem oneEnv_all (len : ℤ) :
    ∃ sent reply,
      execCl2knjAll (oneEnv codes c) .sjisProto defChar w buf1 buf2 len =
        some (sent, reply) ∧
      sent.length = if OneClause codes c w yomi (cstr yomi).length then 1 else 0 := by
  rcases oneEnv_run hc defChar w yomi (cstr yomi).length with
    ⟨hzero, hnot⟩ | ⟨l, hpos, hrun, hle, hconv, hcount⟩
  · obtain ⟨reply, hall⟩ : ∃ reply, execCl2knjAll (oneEnv codes c) .sjisProto defChar w buf1 buf2
        len = some ([], reply) := execCl2knjAll_zero hyomi hzero
    exact ⟨[], reply, hall, by rw [if_neg hnot]; rfl⟩
  · rw [← hcount]
    exact execCl2knjAll_run hyomi hpos hrun (by rw [turns]; omega) hconv

end Differ

/-- One clause has one length. -/
theorem OneClause.unique {codes : Bytes} {c : ℕ} {w : Work} {yomi : Bytes} {len len' : ℤ}
    (h : OneClause codes c w yomi len) (h' : OneClause codes c w yomi len') : len = len' := by
  obtain ⟨-, hcodes, hlen⟩ := h
  obtain ⟨-, hcodes', hlen'⟩ := h'
  rw [cl2kana_snd, hcodes] at hlen
  rw [cl2kana_snd, hcodes'] at hlen'
  exact hlen.symm.trans hlen'

/-- For every request, whatever is in memory: what is announced is what is sent, in every
state of the dictionaries, exactly if the request is in EUC, or gives the length its reading
has in EUC, or neither of these two lengths is one of a clause. -/
theorem exec_cl2knj_agree_iff (mb_flag : MbFlag) (defChar : Char2) (w : Work)
    (buf1 buf2 : Bytes) (len : ℤ) :
    (∀ env, Agree env mb_flag defChar w buf1 buf2 len) ↔
      ∀ yomi, yomiEuc mb_flag defChar buf1 buf2 = some yomi →
        mb_flag = .eucProto ∨ len = (cstr yomi).length ∨
          (¬ ClauseLen w yomi len ∧ ¬ ClauseLen w yomi (cstr yomi).length) := by
  constructor
  · intro h yomi hyomi
    cases mb_flag with
    | eucProto => exact Or.inl rfl
    | sjisProto =>
        right
        by_contra hcon
        obtain ⟨hne, hclause⟩ := not_or.mp hcon
        -- a reading for which there is a candidate for one of the lengths only
        have hdiffer : ∀ codes c, 0 < c ∧ c ≤ maxClInputLen →
            (OneClause codes c w yomi len ↔ OneClause codes c w yomi (cstr yomi).length) := by
          classical
          intro codes c hc
          have hagree := h (oneEnv codes c)
          obtain ⟨sent, reply, hall, hsent⟩ : ∃ sent reply,
              execCl2knjAll (oneEnv codes c) .sjisProto defChar w buf1 buf2 len =
                some (sent, reply) ∧
              sent.length = if OneClause codes c w yomi (cstr yomi).length then 1 else 0 :=
            oneEnv_all hyomi hc len
          obtain ⟨sent', reply', hall', hsent'⟩ := hagree _ (oneEnv_cnt hyomi hc len)
          rw [hall, Option.some_inj, Prod.mk.injEq] at hall'
          rw [← hall'.1, hsent] at hsent'
          by_cases h1 : OneClause codes c w yomi len <;>
            by_cases h2 : OneClause codes c w yomi (cstr yomi).length <;> simp_all
        rcases not_and_or.mp hclause with h1 | h1
        · obtain ⟨hcodes, c, hpos, hle, hlen⟩ := not_not.mp h1
          have hone : OneClause _ c w yomi len := ⟨hcodes, rfl, hlen⟩
          exact hne (hone.unique ((hdiffer _ c ⟨hpos, hle⟩).mp hone))
        · obtain ⟨hcodes, c, hpos, hle, hlen⟩ := not_not.mp h1
          have hone : OneClause _ c w yomi (cstr yomi).length := ⟨hcodes, rfl, hlen⟩
          exact hne (((hdiffer _ c ⟨hpos, hle⟩).mpr hone).unique hone)
  · intro h env
    cases hyomi : yomiEuc mb_flag defChar buf1 buf2 with
    | none =>
        intro n hn
        rw [execCl2knjCnt, hyomi] at hn
        cases hn
    | some yomi =>
        by_cases hsame : allLen mb_flag yomi len = len
        · exact agree_of_allLen hyomi hsame
        · have hsjis : mb_flag = .sjisProto := by
            cases mb_flag with
            | sjisProto => rfl
            | eucProto => exact absurd rfl hsame
          have hall : allLen mb_flag yomi len = (cstr yomi).length := by
            rw [allLen, if_pos hsjis]
          rcases h yomi hyomi with heuc | hlen | ⟨hcnt, hsend⟩
          · rw [heuc] at hsjis
            cases hsjis
          · exact absurd (hall.trans hlen.symm) hsame
          · intro n hn
            rw [cnt_of_not_clauseLen hyomi hcnt] at hn
            cases hn
            obtain ⟨reply, hreply⟩ : ∃ reply,
                execCl2knjAll env mb_flag defChar w buf1 buf2 len = some ([], reply) :=
              all_of_not_clauseLen hyomi (by rwa [hall])
            exact ⟨[], reply, hreply, rfl⟩

/-- The half-width ア has one byte in SJIS and two in EUC. -/
theorem exec_cl2knj_not_agree :
    ¬ ∀ env mb_flag defChar w buf1 buf2 len, Agree env mb_flag defChar w buf1 buf2 len := by
  intro h
  have hagree := h (oneEnv [yHankaku] 1) .sjisProto (0x81, 0x40) ⟨[], [], [], [], [], 0, ⟨[], []⟩⟩
    [0xb1, 0] [] 1
  obtain ⟨sent, reply, hall, hlen⟩ := hagree 0 (by decide +kernel)
  have hsent : (execCl2knjAll (oneEnv [yHankaku] 1) .sjisProto (0x81, 0x40)
      ⟨[], [], [], [], [], 0, ⟨[], []⟩⟩ [0xb1, 0] [] 1).map (fun r => r.1.length) = some 1 := by
    decide +kernel
  rw [hall, Option.map_some, hlen] at hsent
  cases hsent

end Sj3
