import Sj3.Verification.Clause.Served

/-! # Walking over the candidates

`nextcl` and `prevcl` move through the candidates of all blocks, from the first of the
longest clauses to the last of the shortest, and back. -/

namespace Sj3

open Cursor

/-! ## The table of a block -/

/-- Ranking keeps the number of candidates, whatever the study table is. -/
theorem length_regetrankLoop (nrank nkhcount : ℕ) (tbl : List Kouho) (tmp trank : ℕ) :
    (regetrankLoop nrank nkhcount tbl tmp trank).length = tbl.length := by
  induction tbl generalizing tmp trank with
  | nil => rfl
  | cons kptr rest ih =>
      rw [regetrankLoop]
      repeat' split
      all_goals rw [List.length_cons, ih, List.length_cons]

theorem length_setstynum (s : Option Stdy) (tbl : List Kouho) :
    (setstynum s tbl).kouhotbl.length = tbl.length := by
  apply setstynum_induct s tbl (P := fun dealt r => r.kouhotbl.length = dealt.length)
  · rfl
  · intro dealt rest kptr sptr r _ _ h
    rw [setnspr, List.length_append, List.length_append, List.length_map, h]
    rfl
  · intro dealt rest kptr r _ _ h
    rw [List.length_append, List.length_append, h]

theorem length_getrank_table (s : Option Stdy) (t : KouhoTbl) :
    (getrank s t).length = t.khcount := by
  rw [getrank, regetrank]
  split <;> rw [length_regetrankLoop, length_setstynum, KouhoTbl.khcount]

/-- The ranked candidates of the block at `clt1st`. -/
def table (env : CnvEnv) (clt1st : List Bunsetu) : List Kouho :=
  getrank env.curstdy (mkkouho env.dictlist ⟨[], []⟩ clt1st)

/-- They are these whatever segment was loaded before. -/
theorem getrank_eq_table (env : CnvEnv) (ref : SegRef) {clt1st : List Bunsetu}
    (h : PlainNumerals clt1st) :
    getrank env.curstdy (mkkouho env.dictlist ref clt1st) = table env clt1st :=
  getrank_same (mkkouho_same env.dictlist ref ⟨[], []⟩ h) env.curstdy

theorem table_pos {env : CnvEnv} {clt1st : List Bunsetu} (hne : clt1st ≠ [])
    (h : ∀ c ∈ clt1st, c.jnode.Served env.dictlist) : 0 < (table env clt1st).length := by
  rw [table, length_getrank_table]
  exact mkkouho_pos hne h ⟨[], []⟩

/-! ## The places of the candidates -/

/-- The ranks of a block's candidates. -/
def ranksOf (env : CnvEnv) (clt1st : List Bunsetu) : List ℕ :=
  List.range' 1 (table env clt1st).length

def nextRank (env : CnvEnv) (clt1st : List Bunsetu) (selectid : ℕ) : Option ℕ :=
  if selectid < (table env clt1st).length then some (selectid + 1) else none

def prevRank (selectid : ℕ) : Option ℕ := if selectid > 1 then some (selectid - 1) else none

theorem walk_ranksOf (env : CnvEnv) (clt1st : List Bunsetu) :
    Walk (nextRank env clt1st) prevRank (ranksOf env clt1st) := by
  constructor
  · rw [List.isChain_iff_getElem]
    intro i hi
    have hlt : 1 + i < (table env clt1st).length := by
      have := hi
      rw [ranksOf, List.length_range'] at this
      omega
    simp only [ranksOf, List.getElem_range']
    constructor
    · exact if_pos (by omega)
    · exact if_pos (by omega)
  · intro k hk
    rw [ranksOf, List.getLast?_range'] at hk
    rw [nextRank]
    split at hk
    · exact absurd hk (by simp)
    · have := Option.some_inj.mp hk
      exact if_neg (by omega)
  · intro k hk
    rw [ranksOf, List.head?_range'] at hk
    split at hk
    · exact absurd hk (by simp)
    · have := Option.some_inj.mp hk
      exact if_neg (by omega)

/-- The candidates of all clauses, by their block and their rank, in the order in which they
are shown. -/
def candidates (env : CnvEnv) (maxclptr : List Bunsetu) : List (List Bunsetu × ℕ) :=
  places (ranksOf env) (recblks maxclptr)

abbrev Served (env : CnvEnv) (c : Bunsetu) : Prop := c.jnode.Served env.dictlist

section Candidates

variable {env : CnvEnv} {maxclptr : List Bunsetu} (h : ClauseList (Served env) maxclptr)
include h

theorem served_of_mem_recblks {b : List Bunsetu} (hb : b ∈ recblks maxclptr) :
    ∀ c ∈ b, Served env c :=
  fun c hc => h.all c ((suffix_of_mem_recblks hb).1.subset hc)

theorem walk_candidates :
    Walk (nestNext nextrecblk (nextRank env) (ranksOf env))
      (nestPrev (prevrecblk maxclptr) (fun _ => prevRank) (ranksOf env))
      (candidates env maxclptr) := by
  apply h.longestFirst.walk.nest
  intro b hb
  refine ⟨?_, walk_ranksOf env b⟩
  have hpos := table_pos (suffix_of_mem_recblks hb).2 (served_of_mem_recblks h hb)
  rw [ranksOf, Ne, List.range'_eq_nil_iff]
  omega

omit h in
theorem mem_candidates {p : List Bunsetu × ℕ} :
    p ∈ candidates env maxclptr ↔
      p.1 ∈ recblks maxclptr ∧ 1 ≤ p.2 ∧ p.2 ≤ (table env p.1).length := by
  rw [candidates, mem_places, ranksOf, List.mem_range'_1]
  constructor
  · rintro ⟨hb, hlo, hhi⟩
    exact ⟨hb, hlo, by omega⟩
  · rintro ⟨hb, hlo, hhi⟩
    exact ⟨hb, hlo, by omega⟩

theorem nodup_candidates : (candidates env maxclptr).Nodup := by
  rw [candidates, places, List.nodup_flatMap]
  constructor
  · intro b _
    exact List.Nodup.map (fun a b hab => (Prod.mk.inj hab).2) List.nodup_range'
  · apply h.longestFirst.recblks_pairwise.imp
    intro a b hlt p hpa hpb
    obtain ⟨i, -, rfl⟩ := List.mem_map.mp hpa
    obtain ⟨j, -, hj⟩ := List.mem_map.mp hpb
    rw [(Prod.mk.inj hj).1] at hlt
    exact absurd hlt (lt_irrefl _)

end Candidates

/-! ## Single steps -/

/-- The work area at another candidate. -/
def Work.to (env : CnvEnv) (w : Work) (p : List Bunsetu × ℕ) : Work :=
  { w with clt1st := p.1, kouhotbl := table env p.1, selectid := p.2 }

def Work.place (w : Work) : List Bunsetu × ℕ := (w.clt1st, w.selectid)

/-- What is written for the selected candidate. -/
def Work.shown (env : CnvEnv) (w : Work) : Option Converted := (w.cvtclknj env).2

/-- Every character takes a byte at least. -/
theorem le_hzstrlen (len : ℕ) (ptr : Bytes) : len ≤ hzstrlen len ptr := by
  have hsize : ∀ b : UInt8, 0 < eucCodesize b := by
    intro b
    unfold eucCodesize
    repeat' split
    all_goals decide
  induction len generalizing ptr with
  | zero => exact Nat.zero_le _
  | succ len ih =>
      have := hsize (ptr.headD 0)
      have := ih (ptr.drop (eucCodesize (ptr.headD 0)))
      rw [hzstrlen]
      omega

/-- The work area is at one of the candidates of its clauses. -/
structure Work.Placed (env : CnvEnv) (w : Work) : Prop where
  clauses : ClauseList (Served env) w.maxclptr
  kouhotbl : w.kouhotbl = table env w.clt1st
  mem : w.place ∈ candidates env w.maxclptr

theorem Work.shown_ref (env : CnvEnv) (w : Work) (ref : SegRef) :
    ({ w with ref } : Work).shown env = w.shown env := by
  unfold Work.shown Work.cvtclknj
  dsimp only
  cases w.kouhotbl[Sj3.cvtclknj w.kouhotbl
    (if w.selectid = 0 then w.kouhotbl.length else w.selectid)]? <;> rfl

/-- Converting a candidate that was selected changes the loaded segment at most. -/
theorem Work.cvtclknj_eq (env : CnvEnv) {w : Work} (h : w.selectid ≠ 0) :
    ∃ ref, w.cvtclknj env = ({ w with ref }, w.shown env) := by
  unfold Work.shown Work.cvtclknj
  dsimp only
  rw [if_neg h]
  split
  · exact ⟨_, rfl⟩
  · exact ⟨w.ref, rfl⟩

section Placed

variable {env : CnvEnv} {w : Work} (h : w.Placed env)
include h

theorem Work.Placed.to_place : w.to env w.place = w := by
  unfold Work.to Work.place
  rw [← h.kouhotbl]

theorem Work.Placed.selectid : 1 ≤ w.selectid ∧ w.selectid ≤ w.kouhotbl.length := by
  rw [h.kouhotbl]
  exact (mem_candidates.mp h.mem).2

theorem Work.Placed.to {p : List Bunsetu × ℕ} (hp : p ∈ candidates env w.maxclptr) (ref : SegRef) :
    ({ w.to env p with ref } : Work).Placed env :=
  ⟨h.clauses, rfl, hp⟩

/-- A clause takes at least one byte of the input. -/
theorem Work.Placed.length_pos : 0 < w.length := by
  obtain ⟨hsuffix, hne⟩ := suffix_of_mem_recblks (mem_candidates.mp h.mem).1
  obtain ⟨c, cs, hcs⟩ := List.exists_cons_of_ne_nil hne
  have hc : 0 < c.cllen := (h.clauses.cllen c (hsuffix.subset (by rw [hcs]; simp))).1
  have hcs : w.clt1st = c :: cs := hcs
  rw [Work.length, hcs]
  exact hc.trans_le (le_hzstrlen _ _)

end Placed

/-- `select` goes to a candidate of a block. -/
theorem Work.select_eq {env : CnvEnv} {w : Work}
    (h : ClauseList (Served env) w.maxclptr) {clptr : List Bunsetu}
    (hb : clptr ∈ recblks w.maxclptr)
    (selectid : ℕ → ℕ) :
    ∃ ref, w.select env clptr selectid =
      { w.to env (clptr, selectid (table env clptr).length) with ref } := by
  have hplain := plainNumerals_of_served (served_of_mem_recblks h hb)
  refine ⟨(mkkouho env.dictlist w.ref clptr).ref, ?_⟩
  unfold Work.select Work.to
  dsimp only
  rw [getrank_eq_table env w.ref hplain, ← length_getrank_table env.curstdy,
    getrank_eq_table env w.ref hplain]

theorem Work.report_eq (env : CnvEnv) {w : Work} (h : w.selectid ≠ 0) :
    ∃ ref, w.report env = (w.length, { w with ref }, w.shown env) := by
  obtain ⟨ref, href⟩ := Work.cvtclknj_eq env h
  exact ⟨ref, by rw [Work.report, href]⟩

/-- Where the work area is after a call, what the call returns and what it writes: it is at
`p`, or has stayed where it was. -/
def Moves (env : CnvEnv) (w : Work) (p : Option (List Bunsetu × ℕ))
    (r : ℕ × Work × Option Converted) : Prop :=
  ∃ ref, r =
    match p with
    | some p => ((w.to env p).length, { w.to env p with ref }, (w.to env p).shown env)
    | none => (0, { w with ref }, w.shown env)

theorem moves_report {env : CnvEnv} {w : Work} {p : List Bunsetu × ℕ}
    (hp : p ∈ candidates env w.maxclptr)
    {w' : Work} (ref : SegRef) (hw' : w' = { w.to env p with ref }) :
    Moves env w (some p) (w'.report env) := by
  have hid : w'.selectid ≠ 0 := by
    have := (mem_candidates.mp hp).2.1
    rw [hw']
    exact Nat.one_le_iff_ne_zero.mp this
  obtain ⟨ref', href⟩ := Work.report_eq env hid
  refine ⟨ref', ?_⟩
  rw [href, hw', Work.shown_ref]
  rfl

/-- Going to a block, with candidates from 1 on, at one of them. -/
theorem moves_select {env : CnvEnv} {w : Work} (h : ClauseList (Served env) w.maxclptr)
    {clptr : List Bunsetu} (hb : clptr ∈ recblks w.maxclptr)
    (selectid : ℕ → ℕ) (hid : selectid (table env clptr).length ∈ ranksOf env clptr) :
    Moves env w (some (clptr, selectid (table env clptr).length))
      ((w.select env clptr selectid).report env) := by
  obtain ⟨ref, href⟩ := Work.select_eq h hb selectid
  have hmem : (clptr, selectid (table env clptr).length) ∈ candidates env w.maxclptr :=
    mem_places.mpr ⟨hb, hid⟩
  exact moves_report hmem ref href

section Steps

variable {env : CnvEnv} {w : Work} (h : w.Placed env)
include h

/-- A call that finds no further candidate converts the same one again. -/
theorem Work.Placed.stay : Moves env w none (0, w.cvtclknj env) := by
  obtain ⟨ref, href⟩ := Work.cvtclknj_eq env (Nat.one_le_iff_ne_zero.mp h.selectid.1)
  exact ⟨ref, by rw [href]⟩

theorem Work.Placed.length_ne : w.kouhotbl.length ≠ 0 := by
  have := h.selectid
  omega

theorem Work.Placed.nextrecblk_mem {clptr : List Bunsetu}
    (hnext : nextrecblk w.clt1st = some clptr) : clptr ∈ recblks w.maxclptr :=
  (h.clauses.longestFirst.walk.prev_next (mem_candidates.mp h.mem).1 hnext).1

theorem Work.Placed.prevrecblk_mem {clptr : List Bunsetu}
    (hprev : prevrecblk w.maxclptr w.clt1st = some clptr) : clptr ∈ recblks w.maxclptr :=
  (h.clauses.longestFirst.walk.next_prev (mem_candidates.mp h.mem).1 hprev).1

theorem Work.Placed.ranksOf_eq {clptr : List Bunsetu} (hb : clptr ∈ recblks w.maxclptr) :
    (ranksOf env clptr).head? = some 1 ∧
      (ranksOf env clptr).getLast? = some (table env clptr).length := by
  have hpos := table_pos (suffix_of_mem_recblks hb).2 (served_of_mem_recblks h.clauses hb)
  rw [ranksOf, List.head?_range', List.getLast?_range', if_neg (by omega), if_neg (by omega)]
  exact ⟨rfl, by congr 1; omega⟩

theorem Work.Placed.nextcl :
    Moves env w (nestNext nextrecblk (nextRank env) (ranksOf env) w.place) (nextcl env w 0) := by
  rw [Sj3.nextcl, if_neg h.length_ne]
  have hrank : nextRank env w.place.1 w.place.2 =
      if w.selectid < w.kouhotbl.length then some (w.selectid + 1) else none := by
    rw [h.kouhotbl]
    rfl
  split
  · rename_i hlt
    have hnext : nestNext nextrecblk (nextRank env) (ranksOf env) w.place =
        some (w.clt1st, w.selectid + 1) := by
      apply nextIn_nest
      exact hrank.trans (if_pos hlt.2)
    rw [hnext]
    apply moves_report ((walk_candidates h.clauses).prev_next h.mem hnext).1 w.ref
    rw [Work.to, ← h.kouhotbl]
  · rename_i hge
    have hge : ¬ w.selectid < w.kouhotbl.length := fun hlt => hge ⟨rfl, hlt⟩
    rw [nestNext, hrank, if_neg hge, if_pos (by decide)]
    cases hblk : nextrecblk w.clt1st with
    | none =>
        have hplace : nextrecblk w.place.1 = none := hblk
        rw [hplace]
        exact h.stay
    | some clptr =>
        have hplace : nextrecblk w.place.1 = some clptr := hblk
        have hmem := h.nextrecblk_mem hblk
        rw [hplace]
        dsimp only
        rw [Option.bind_some, (h.ranksOf_eq hmem).1]
        exact moves_select h.clauses hmem (fun _ => 1) (List.mem_of_head? (h.ranksOf_eq hmem).1)

theorem Work.Placed.prevcl :
    Moves env w (nestPrev (prevrecblk w.maxclptr) (fun _ => prevRank) (ranksOf env) w.place)
      (prevcl env w 0) := by
  rw [Sj3.prevcl, if_neg h.length_ne]
  split
  · rename_i hgt
    have hprev : nestPrev (prevrecblk w.maxclptr) (fun _ => prevRank) (ranksOf env) w.place =
        some (w.clt1st, w.selectid - 1) := by
      apply prevIn_nest
      exact if_pos hgt.2
    rw [hprev]
    apply moves_report ((walk_candidates h.clauses).next_prev h.mem hprev).1 w.ref
    rw [Work.to, ← h.kouhotbl]
  · rename_i hle
    have hrank : prevRank w.place.2 = none := if_neg fun hgt => hle ⟨rfl, hgt⟩
    rw [nestPrev, hrank, if_pos (by decide)]
    cases hblk : prevrecblk w.maxclptr w.clt1st with
    | none =>
        have hplace : prevrecblk w.maxclptr w.place.1 = none := hblk
        rw [hplace]
        exact h.stay
    | some clptr =>
        have hplace : prevrecblk w.maxclptr w.place.1 = some clptr := hblk
        have hmem := h.prevrecblk_mem hblk
        rw [hplace]
        dsimp only
        rw [Option.bind_some, (h.ranksOf_eq hmem).2]
        exact moves_select h.clauses hmem id (List.mem_of_getLast? (h.ranksOf_eq hmem).2)

end Steps

end Sj3
