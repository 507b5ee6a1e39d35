import Sj3.General.KeyedTable
import Sj3.Verification.Fuzoku.Clauses
import Sj3.Verification.Fuzoku.Scan

/-! # The table of the particles already found

The search of `srchfzk` against one that has no such table and scans the particles at every
call. -/

namespace Sj3

open KeyedTable

/-! ## Without the table -/

/-- `srchfzk` without its table. The state has the places that were scanned instead. -/
def srchfzkAfresh (g : Grammar) (y : Bytes) (jrec : Jiritu) :
    ℕ → ℕ → UInt8 → ℕ → FzkState ℕ → FzkState ℕ
  | 0, _, _, _, st => st
  | n + 1, yptr, right, level, st =>
      let st := { st with deepest := max st.deepest level }
      match fzkStart g y yptr right level with
      | .stop => st
      | .kugiri => setKugiri y jrec yptr level st
      | .search =>
          fzkScan g y yptr
            (fun fzk len => follow g y jrec (srchfzkAfresh g y jrec n) right level
              (yptr + 1 + len) fzk)
            { st with fzktbl := st.fzktbl ++ [yptr] }

def mkbunsetuAfresh (g : Grammar) (y : Bytes) (words : List Jiritu) (st : FzkState ℕ) :
    FzkState ℕ :=
  mkbunsetuWith g y (fun jrec => srchfzkAfresh g y jrec fzkLevels) words st

def wakachiAfresh (g : Grammar) (y : Bytes) (alloc : ℕ → Bool) (st : FzkState ℕ) :
    FzkState ℕ :=
  wakachiWith g y (fun jrec => srchfzkAfresh g y jrec fzkLevels) alloc st

def mkclausesAfresh (g : Grammar) (y : Bytes) (words : List Jiritu) (alloc : ℕ → Bool)
    (st : FzkState ℕ) : FzkState ℕ :=
  let st := mkbunsetuAfresh g y words st
  if st.maxclptr alloc = [] then wakachiAfresh g y alloc st else st

/-- The state with the table left out. -/
def FzkState.forget {α β : Type} (st : FzkState α) : FzkState β :=
  ⟨[], st.fzkmost, st.deepest, st.fzk_ka_flg, st.gobilen, st.clrecs⟩

/-! ## Agreement -/

/-- The states differ in their tables only, and at the places in `P` the table holds the
particles there if the place was scanned. -/
structure Agrees (g : Grammar) (y : Bytes) (P : ℕ → Prop) (s : FzkState Frec) (s' : FzkState ℕ) :
    Prop where
  deepest : s.deepest = s'.deepest
  fzk_ka_flg : s.fzk_ka_flg = s'.fzk_ka_flg
  gobilen : s.gobilen = s'.gobilen
  clrecs : s.clrecs = s'.clrecs
  table : FilledOn P (fzkMatches g y) (· ∈ s'.fzktbl) s.fzktbl

/-- Nothing was entered for a place in front of `p`. -/
structure Kept (p : ℕ) (s t : FzkState Frec) (s' t' : FzkState ℕ) : Prop where
  row : ∀ q < p, row q t.fzktbl = row q s.fzktbl
  scanned : ∀ q < p, (q ∈ t'.fzktbl ↔ q ∈ s'.fzktbl)

theorem Kept.of_fzktbl_eq {p : ℕ} {s t : FzkState Frec} {s' t' : FzkState ℕ}
    (h : t.fzktbl = s.fzktbl) (h' : t'.fzktbl = s'.fzktbl) : Kept p s t s' t' where
  row q _ := by rw [h]
  scanned q _ := by rw [h']

theorem Kept.trans {p : ℕ} {s t u : FzkState Frec} {s' t' u' : FzkState ℕ}
    (h₁ : Kept p s t s' t') (h₂ : Kept p t u t' u') : Kept p s u s' u' where
  row q hq := (h₂.row q hq).trans (h₁.row q hq)
  scanned q hq := (h₂.scanned q hq).trans (h₁.scanned q hq)

theorem Kept.mono {p p' : ℕ} {s t : FzkState Frec} {s' t' : FzkState ℕ} (hp : p ≤ p')
    (h : Kept p' s t s' t') : Kept p s t s' t' where
  row q hq := h.row q (by omega)
  scanned q hq := h.scanned q (by omega)

theorem Kept.called (s : FzkState Frec) (s' : FzkState ℕ) (p level : ℕ) :
    Kept p s { s with deepest := max s.deepest level } s'
      { s' with deepest := max s'.deepest level, fzktbl := s'.fzktbl ++ [p] } where
  row _ _ := rfl
  scanned q hq := by
    have hqp : q ≠ p := by omega
    simp [hqp]

section Agrees

variable {g : Grammar} {y : Bytes} {P Q : ℕ → Prop} {s t : FzkState Frec} {s' t' : FzkState ℕ}

theorem Agrees.mono (hPQ : ∀ q, P q → Q q) (h : Agrees g y Q s s') : Agrees g y P s s' :=
  { h with table := fun q hq => h.table q (hPQ q hq) }

/-- A later state that agrees from `p` on agrees where the earlier one did. -/
theorem Agrees.of_kept {p : ℕ} (h : Agrees g y P s s') (hkept : Kept p s t s' t')
    (hp : Agrees g y (p ≤ ·) t t') : Agrees g y P t t' := by
  refine { hp with table := fun q hq => ?_ }
  by_cases hqp : p ≤ q
  · exact hp.table q hqp
  · rw [hkept.row q (by omega), h.table q hq]
    simp only [hkept.scanned q (by omega)]

theorem clauseRel_agrees (g : Grammar) (y : Bytes) (P : ℕ → Prop) :
    ClauseRel (Agrees g y P) where
  eq_ka_flg h := h.fzk_ka_flg
  eq_gobilen h := h.gobilen
  eq_clrecs h := h.clrecs
  ka_flg h _ := { h with fzk_ka_flg := rfl }
  gobilen h _ := { h with gobilen := rfl }
  add h c := { h with clrecs := by simp only [h.clrecs] }

theorem Agrees.called (h : Agrees g y P s s') (level : ℕ) :
    Agrees g y P { s with deepest := max s.deepest level }
      { s' with deepest := max s'.deepest level } :=
  { h with deepest := by simp only [h.deepest] }

/-- Entering a place where the table is filled already changes nothing. -/
theorem Agrees.rescan {p : ℕ} (h : Agrees g y P s s') (hp : p ∈ s'.fzktbl) :
    Agrees g y P s { s' with fzktbl := s'.fzktbl ++ [p] } := by
  refine { h with table := fun q hq => ?_ }
  rw [h.table q hq]
  by_cases hqp : q = p
  · simp [hqp, hp]
  · simp [hqp]

/-- Behind a place that is entered now the table is as it was. -/
theorem Agrees.scanned {p : ℕ} (h : Agrees g y (p ≤ ·) s s') :
    Agrees g y (p + 1 ≤ ·) s { s' with fzktbl := s'.fzktbl ++ [p] } := by
  refine { h with table := fun q hq => ?_ }
  rw [h.table q (by omega)]
  have hqp : q ≠ p := by omega
  simp [hqp]

/-! ## The search -/

/-- From states that agree from the place of the call on, `srch` and `srch'` come to such
states again, and they look at nothing in front of it. -/
def Simulates (g : Grammar) (y : Bytes) (srch : ℕ → UInt8 → ℕ → FzkState Frec → FzkState Frec)
    (srch' : ℕ → UInt8 → ℕ → FzkState ℕ → FzkState ℕ) : Prop :=
  ∀ p right level s s', Agrees g y (p ≤ ·) s s' →
    Agrees g y (p ≤ ·) (srch p right level s) (srch' p right level s') ∧
      Kept p s (srch p right level s) s' (srch' p right level s')

variable {srch : ℕ → UInt8 → ℕ → FzkState Frec → FzkState Frec}
  {srch' : ℕ → UInt8 → ℕ → FzkState ℕ → FzkState ℕ} {jrec : Jiritu}

theorem Simulates.behind (hsim : Simulates g y srch srch') (jrec : Jiritu) (right : UInt8)
    (level : ℕ) {p next : ℕ} (hp : p ≤ next) (fzk : Bytes) (h : Agrees g y (p ≤ ·) s s') :
    Agrees g y (p ≤ ·) (follow g y jrec srch right level next fzk s)
        (follow g y jrec srch' right level next fzk s') ∧
      Kept next s (follow g y jrec srch right level next fzk s) s'
        (follow g y jrec srch' right level next fzk s') := by
  cases hcnct : fzkcnct g right (fzkLeft fzk) with
  | false =>
      rw [follow_of_not_cnct hcnct, follow_of_not_cnct hcnct]
      exact ⟨h, .of_fzktbl_eq rfl rfl⟩
  | true =>
      rw [follow_of_cnct hcnct, follow_of_cnct hcnct]
      have hbefore := (clauseRel_agrees g y _).connected h g y jrec level next fzk
      obtain ⟨hagree, hkept⟩ := hsim next (fzkRight fzk) (level + 1) _ _
        (hbefore.mono fun q hq => by omega)
      have hsame : Kept next s (connected g y jrec level next fzk s) s'
          (connected g y jrec level next fzk s') := .of_fzktbl_eq (by simp) (by simp)
      exact ⟨hbefore.of_kept hkept hagree, hsame.trans hkept⟩

/-! ## A place that was scanned before -/

theorem Simulates.again (hsim : Simulates g y srch srch') (jrec : Jiritu) (right : UInt8)
    (level p : ℕ) (found : List Bytes) (h : Agrees g y (p ≤ ·) s s') :
    let go {α : Type} (srch : ℕ → UInt8 → ℕ → FzkState α → FzkState α) (st : FzkState α) :=
      found.foldl (fun st fzk => follow g y jrec srch right level (fzkNext p fzk) fzk st) st
    Agrees g y (p ≤ ·) (go srch s) (go srch' s') ∧ Kept p s (go srch s) s' (go srch' s') := by
  induction found generalizing s s' with
  | nil => exact ⟨h, .of_fzktbl_eq rfl rfl⟩
  | cons fzk found ih =>
      have hnext := lt_fzkNext p fzk
      obtain ⟨hagree, hkept⟩ := hsim.behind jrec right level hnext.le fzk h
      obtain ⟨hagree', hkept'⟩ := ih hagree
      exact ⟨hagree', (hkept.mono hnext.le).trans hkept'⟩

/-! ## A place that is new -/

theorem Agrees.pushFrec {p : ℕ} (h : Agrees g y (p + 1 ≤ ·) s s') (fzk : Bytes) :
    Agrees g y (p + 1 ≤ ·) (pushFrec p fzk s) s' :=
  { h with
    table := fun q hq => by
      rw [← h.table q hq]
      exact row_push_of_ne (by omega) fzk s.fzktbl }

/-- While the particles at `p` are scanned, they are entered one by one. -/
theorem Simulates.scan (hsim : Simulates g y srch srch') (jrec : Jiritu) (right : UInt8)
    (level p : ℕ) (found : List Bytes) (h : Agrees g y (p + 1 ≤ ·) s s') :
    let t := found.foldl (fun st fzk =>
      follow g y jrec srch right level (fzkNext p fzk) fzk (pushFrec p fzk st)) s
    let t' := found.foldl (fun st fzk =>
      follow g y jrec srch' right level (fzkNext p fzk) fzk st) s'
    Agrees g y (p + 1 ≤ ·) t t' ∧ Kept p s t s' t' ∧
      row p t.fzktbl = row p s.fzktbl ++ found ∧ (p ∈ t'.fzktbl ↔ p ∈ s'.fzktbl) := by
  induction found generalizing s s' with
  | nil => exact ⟨h, .of_fzktbl_eq rfl rfl, by simp, Iff.rfl⟩
  | cons fzk found ih =>
      have hnext := lt_fzkNext p fzk
      obtain ⟨hagree, hkept⟩ := hsim.behind jrec right level hnext fzk (h.pushFrec fzk)
      have hpush : Kept p s (pushFrec p fzk s) s' s' :=
        { row := fun q hq => row_push_of_ne (by omega) fzk s.fzktbl
          scanned := fun q _ => Iff.rfl }
      obtain ⟨hagree', hkept', hrow, hscanned⟩ := ih hagree
      refine ⟨hagree', hpush.trans ((hkept.mono hnext.le).trans hkept'), ?_,
        hscanned.trans (hkept.scanned p hnext)⟩
      calc _ = row p (follow g y jrec srch right level (fzkNext p fzk) fzk
              (Sj3.pushFrec p fzk s)).fzktbl ++ found := hrow
        _ = row p (Sj3.pushFrec p fzk s).fzktbl ++ found := by rw [hkept.row p hnext]
        _ = row p s.fzktbl ++ [fzk] ++ found := by
            rw [← row_push_self]
            rfl
        _ = row p s.fzktbl ++ fzk :: found := by simp

/-! ## One call -/

section Call

variable {n p level : ℕ} {right : UInt8} (hstart : fzkStart g y p right level = .search)

include hstart

theorem srchfzkAfresh_search (st : FzkState ℕ) :
    srchfzkAfresh g y jrec (n + 1) p right level st =
      (fzkMatches g y p).foldl
        (fun st fzk =>
          follow g y jrec (srchfzkAfresh g y jrec n) right level (fzkNext p fzk) fzk st)
        { st with deepest := max st.deepest level, fzktbl := st.fzktbl ++ [p] } := by
  simp only [srchfzkAfresh, hstart]
  exact fzkScan_eq_foldl g y p (follow g y jrec (srchfzkAfresh g y jrec n) right level) _

theorem srchfzk_known {st : FzkState Frec} (hknown : row p st.fzktbl ≠ []) :
    srchfzk g y jrec (n + 1) p right level st =
      (row p st.fzktbl).foldl
        (fun st fzk => follow g y jrec (srchfzk g y jrec n) right level (fzkNext p fzk) fzk st)
        { st with deepest := max st.deepest level } := by
  have hnext : ∀ fzk, p + (fzkAskLen fzk + fzkNkrLen fzk + 1) = fzkNext p fzk := by
    intro fzk
    unfold fzkNext
    omega
  rw [← map_filter_eq_row] at hknown ⊢
  simp only [srchfzk, hstart, hnext, List.foldl_map]
  rw [if_pos fun hnil => hknown (by rw [hnil]; rfl)]

theorem srchfzk_new {st : FzkState Frec} (hnew : row p st.fzktbl = []) :
    srchfzk g y jrec (n + 1) p right level st =
      (fzkMatches g y p).foldl
        (fun st fzk => follow g y jrec (srchfzk g y jrec n) right level (fzkNext p fzk) fzk
          (pushFrec p fzk st))
        { st with deepest := max st.deepest level } := by
  rw [← map_filter_eq_row, List.map_eq_nil_iff] at hnew
  simp only [srchfzk, hstart]
  rw [if_neg fun hknown => hknown hnew]
  exact fzkScan_eq_foldl g y p (fun next fzk st =>
    follow g y jrec (srchfzk g y jrec n) right level next fzk (pushFrec p fzk st)) _

end Call

theorem srchfzk_simulates (g : Grammar) (y : Bytes) (jrec : Jiritu) (n : ℕ) :
    Simulates g y (srchfzk g y jrec n) (srchfzkAfresh g y jrec n) := by
  induction n with
  | zero => exact fun p right level s s' h => ⟨h, .of_fzktbl_eq rfl rfl⟩
  | succ n ih =>
      intro p right level s s' h
      have hcalled := h.called level
      cases hstart : fzkStart g y p right level with
      | stop =>
          simp only [srchfzk, srchfzkAfresh, hstart]
          exact ⟨hcalled, .of_fzktbl_eq rfl rfl⟩
      | kugiri =>
          simp only [srchfzk, srchfzkAfresh, hstart]
          exact ⟨(clauseRel_agrees g y _).setKugiri hcalled y jrec p level,
            .of_fzktbl_eq (by simp) (by simp)⟩
      | search =>
          have hat := h.table p le_rfl
          rw [srchfzkAfresh_search hstart]
          by_cases hknown : row p s.fzktbl = []
          · rw [srchfzk_new hstart hknown]
            obtain ⟨hagree, hkept, hrow, hscanned⟩ := ih.scan jrec right level p
              (fzkMatches g y p) hcalled.scanned
            refine ⟨{ hagree with table := fun q hq => ?_ }, (Kept.called s s' p level).trans hkept⟩
            rcases Nat.eq_or_lt_of_le hq with rfl | hlt
            · rw [if_pos (hscanned.mpr (by simp)), hrow]
              simp [hknown]
            · exact hagree.table q hlt
          · have hp : p ∈ s'.fzktbl := by
              by_contra hnot
              rw [if_neg hnot] at hat
              exact hknown hat
            rw [srchfzk_known hstart hknown, hat, if_pos hp]
            obtain ⟨hagree, hkept⟩ := ih.again jrec right level p (fzkMatches g y p)
              (hcalled.rescan hp)
            exact ⟨hagree, (Kept.called s s' p level).trans hkept⟩

end Agrees

/-! ## The clauses -/

theorem srchfzk_agrees (g : Grammar) (y : Bytes) (n : ℕ) (jrec : Jiritu) (p : ℕ) (right : UInt8)
    (s : FzkState Frec) (s' : FzkState ℕ) (h : Agrees g y (fun _ => True) s s') :
    Agrees g y (fun _ => True) (srchfzk g y jrec n p right 0 s)
      (srchfzkAfresh g y jrec n p right 0 s') := by
  obtain ⟨hagree, hkept⟩ := srchfzk_simulates g y jrec n p right 0 s s' (h.mono fun _ _ => trivial)
  exact h.of_kept hkept hagree

theorem mkbunsetu_agrees (g : Grammar) (y : Bytes) (words : List Jiritu) (st : FzkState Frec) :
    Agrees g y (fun _ => True) (mkbunsetu g y words st)
      (mkbunsetuAfresh g y words st.forget) := by
  refine (clauseRel_agrees g y _).words (srchfzk_agrees g y fzkLevels) ?_ words
  exact ⟨rfl, rfl, rfl, rfl, fun q _ => by simp⟩

theorem Agrees.wakachi {g : Grammar} {y : Bytes} {s : FzkState Frec} {s' : FzkState ℕ}
    (h : Agrees g y (fun _ => True) s s') (alloc : ℕ → Bool) :
    Agrees g y (fun _ => True) (wakachi g y alloc s) (wakachiAfresh g y alloc s') :=
  (clauseRel_agrees g y _).wakachiWith (srchfzk_agrees g y fzkLevels) h alloc

/-- The table of the particles already found is not seen in the clauses, neither in those of
`mkbunsetu` nor in those a following `wakachi` adds. -/
theorem clrecs_eq_afresh (g : Grammar) (y : Bytes) (words : List Jiritu) (alloc : ℕ → Bool)
    (st : FzkState Frec) :
    (mkbunsetu g y words st).clrecs = (mkbunsetuAfresh g y words st.forget).clrecs ∧
      (wakachi g y alloc (mkbunsetu g y words st)).clrecs =
        (wakachiAfresh g y alloc (mkbunsetuAfresh g y words st.forget)).clrecs := by
  have h := mkbunsetu_agrees g y words st
  exact ⟨h.clrecs, (h.wakachi alloc).clrecs⟩

end Sj3
