import Sj3.Verification.Clause.Traversal
import Sj3.Verification.Dict.Lookup

/-! # The whole walk

Starting from the first candidate, `nextcl` reaches every candidate once and then stays;
at every candidate reached, a step in one direction is undone by one in the other. -/

namespace Sj3

open Cursor

/-- The results of `cl2knj` and of calls of `nextcl` and `prevcl` after it. -/
inductive Reached (env : CnvEnv) (start : ℕ × Work × Option Converted) :
    ℕ × Work × Option Converted → Prop
  | start : Reached env start start
  | nextcl {r} (mode : ℕ) (h : Reached env start r) : Reached env start (nextcl env r.2.1 mode)
  | prevcl {r} (mode : ℕ) (h : Reached env start r) : Reached env start (prevcl env r.2.1 mode)

/-- The work area after `n` calls of `nextcl`. -/
def nextcls (env : CnvEnv) : ℕ → Work → Work
  | 0, w => w
  | n + 1, w => (nextcl env (nextcls env n w) 0).2.1

/-! ## Every call leads from candidate to candidate -/

/-- A result at a candidate, which is what was written. -/
structure AtCandidate (env : CnvEnv) (maxclptr : List Bunsetu) (r : ℕ × Work × Option Converted) :
    Prop where
  placed : r.2.1.Placed env
  maxclptr : r.2.1.maxclptr = maxclptr
  shown : r.2.2 = r.2.1.shown env

section Moves

variable {env : CnvEnv} {w : Work} (h : w.Placed env)
include h

theorem Moves.at {p : Option (List Bunsetu × ℕ)} {r : ℕ × Work × Option Converted}
    (hr : Moves env w p r) (hp : ∀ q ∈ p, q ∈ candidates env w.maxclptr) :
    AtCandidate env w.maxclptr r := by
  obtain ⟨ref, rfl⟩ := hr
  cases p with
  | none => exact ⟨⟨h.clauses, h.kouhotbl, h.mem⟩, rfl, (Work.shown_ref env w ref).symm⟩
  | some p => exact ⟨h.to (hp p rfl) ref, rfl, (Work.shown_ref env _ ref).symm⟩

theorem Work.Placed.at_nextcl (mode : ℕ) : AtCandidate env w.maxclptr (Sj3.nextcl env w mode) := by
  by_cases hmode : mode = 0
  · subst hmode
    apply h.nextcl.at h
    intro q hq
    exact ((walk_candidates h.clauses).prev_next h.mem hq).1
  · rw [Sj3.nextcl, if_neg h.length_ne, if_neg fun hc => hmode hc.1]
    cases hblk : (if mode < 2 then nextrecblk w.clt1st else none) with
    | none =>
        apply h.stay.at h
        intro q hq
        exact absurd hq (by simp)
    | some clptr =>
        have hnext : nextrecblk w.clt1st = some clptr := by
          split at hblk
          · exact hblk
          · exact absurd hblk (by simp)
        have hmem := h.nextrecblk_mem hnext
        have hfirst := List.mem_of_head? (h.ranksOf_eq hmem).1
        have hmoves := moves_select h.clauses hmem (fun _ => 1) hfirst
        apply hmoves.at h
        intro q hq
        rw [← Option.some_inj.mp hq]
        exact mem_places.mpr ⟨hmem, hfirst⟩

theorem Work.Placed.at_prevcl (mode : ℕ) : AtCandidate env w.maxclptr (Sj3.prevcl env w mode) := by
  by_cases hmode : mode = 0
  · subst hmode
    apply h.prevcl.at h
    intro q hq
    exact ((walk_candidates h.clauses).next_prev h.mem hq).1
  · rw [Sj3.prevcl, if_neg h.length_ne, if_neg fun hc => hmode hc.1]
    cases hblk : (if mode < 2 then prevrecblk w.maxclptr w.clt1st else none) with
    | none =>
        apply h.stay.at h
        intro q hq
        exact absurd hq (by simp)
    | some clptr =>
        have hprev : prevrecblk w.maxclptr w.clt1st = some clptr := by
          split at hblk
          · exact hblk
          · exact absurd hblk (by simp)
        have hmem := h.prevrecblk_mem hprev
        have hlast := List.mem_of_getLast? (h.ranksOf_eq hmem).2
        have hmoves := moves_select h.clauses hmem id hlast
        apply hmoves.at h
        intro q hq
        rw [← Option.some_inj.mp hq]
        exact mem_places.mpr ⟨hmem, hlast⟩

end Moves

theorem Reached.at {env : CnvEnv} {start r : ℕ × Work × Option Converted}
    {maxclptr : List Bunsetu} (hstart : AtCandidate env maxclptr start) (h : Reached env start r) :
    AtCandidate env maxclptr r := by
  induction h with
  | start => exact hstart
  | nextcl mode _ ih => exact ih.maxclptr ▸ ih.placed.at_nextcl mode
  | prevcl mode _ ih => exact ih.maxclptr ▸ ih.placed.at_prevcl mode

/-! ## There and back -/

/-- A call that does not return 0 has found a candidate to go to. -/
theorem Moves.moved {env : CnvEnv} {w : Work} {p : Option (List Bunsetu × ℕ)}
    {r : ℕ × Work × Option Converted} (hr : Moves env w p r) (hne : r.1 ≠ 0) :
    ∃ q ref, p = some q ∧ r.2.1 = { w.to env q with ref } := by
  obtain ⟨ref, rfl⟩ := hr
  cases p with
  | none => exact absurd rfl hne
  | some q => exact ⟨q, ref, rfl, rfl⟩

section Back

variable {env : CnvEnv} {w : Work} (h : w.Placed env)
include h

/-- Going back to where the work area was. -/
theorem Moves.back {q : List Bunsetu × ℕ} {ref : SegRef} {r : ℕ × Work × Option Converted}
    (hr : Moves env { w.to env q with ref } (some w.place) r) :
    ∃ ref, r = (w.length, { w with ref }, w.shown env) := by
  obtain ⟨ref', rfl⟩ := hr
  have hto : ({ w.to env q with ref } : Work).to env w.place = { w with ref } := by
    conv_rhs => rw [← h.to_place]
    rfl
  refine ⟨ref', ?_⟩
  dsimp only
  rw [hto, Work.shown_ref]
  rfl

theorem Work.Placed.prevcl_nextcl (hne : (Sj3.nextcl env w 0).1 ≠ 0) :
    ∃ ref, Sj3.prevcl env (Sj3.nextcl env w 0).2.1 0 =
      (w.length, { w with ref }, w.shown env) := by
  obtain ⟨q, ref, hq, hr⟩ := h.nextcl.moved hne
  obtain ⟨hmem, hback⟩ := (walk_candidates h.clauses).prev_next h.mem hq
  have hmoves := (h.to hmem ref).prevcl
  have hplace : nestPrev (prevrecblk ({ w.to env q with ref } : Work).maxclptr)
      (fun _ => prevRank) (ranksOf env) ({ w.to env q with ref } : Work).place =
        some w.place := hback
  rw [hplace] at hmoves
  rw [hr]
  exact hmoves.back h

theorem Work.Placed.nextcl_prevcl (hne : (Sj3.prevcl env w 0).1 ≠ 0) :
    ∃ ref, Sj3.nextcl env (Sj3.prevcl env w 0).2.1 0 =
      (w.length, { w with ref }, w.shown env) := by
  obtain ⟨q, ref, hq, hr⟩ := h.prevcl.moved hne
  obtain ⟨hmem, hback⟩ := (walk_candidates h.clauses).next_prev h.mem hq
  have hmoves := (h.to hmem ref).nextcl
  have hplace : nestNext nextrecblk (nextRank env) (ranksOf env)
      ({ w.to env q with ref } : Work).place = some w.place := hback
  rw [hplace] at hmoves
  rw [hr]
  exact hmoves.back h

end Back

/-! ## The run -/

section Run

variable {env : CnvEnv} {w : Work} (h : w.Placed env)
variable (hfirst : (candidates env w.maxclptr)[0]? = some w.place)
include h hfirst

/-- After `i` calls the work area is at the candidate with number `i`. -/
theorem nextcls_place {i : ℕ} (hi : i < (candidates env w.maxclptr).length) :
    (nextcls env i w).Placed env ∧ (nextcls env i w).maxclptr = w.maxclptr ∧
      (nextcls env i w).place = (candidates env w.maxclptr)[i] := by
  induction i with
  | zero =>
      refine ⟨h, rfl, ?_⟩
      rw [List.getElem?_eq_getElem hi] at hfirst
      exact (Option.some_inj.mp hfirst).symm
  | succ i ih =>
      obtain ⟨hplaced, hmax, hplace⟩ := ih (by omega)
      have hat := hplaced.at_nextcl 0
      have hstep := (walk_candidates h.clauses).step hi
      rw [← hplace] at hstep
      obtain ⟨ref, href⟩ := hplaced.nextcl
      rw [hstep.1] at href
      refine ⟨hat.placed, hat.maxclptr.trans hmax, ?_⟩
      rw [nextcls, href]
      rfl

/-- In front of the last candidate a further call goes on; there it stays. -/
theorem nextcl_nextcls {i : ℕ} (hi : i < (candidates env w.maxclptr).length) :
    (i + 1 < (candidates env w.maxclptr).length →
        (nextcl env (nextcls env i w) 0).1 ≠ 0) ∧
      (i + 1 = (candidates env w.maxclptr).length →
        ∃ ref, nextcl env (nextcls env i w) 0 =
          (0, { nextcls env i w with ref }, (nextcls env i w).shown env)) := by
  have hwalk := walk_candidates h.clauses
  obtain ⟨hplaced, hmax, hplace⟩ := nextcls_place h hfirst hi
  obtain ⟨ref, href⟩ := hplaced.nextcl
  constructor
  · intro hlt
    have hstep := (hwalk.step hlt).1
    rw [← hplace] at hstep
    rw [href, hstep]
    have hmem : (candidates env w.maxclptr)[i + 1] ∈
        candidates env (nextcls env i w).maxclptr := by
      rw [hmax]
      exact List.getElem_mem hlt
    exact (hplaced.to hmem ref).length_pos.ne'
  · intro hlast
    have hnone : (candidates env w.maxclptr).getLast? = some (nextcls env i w).place := by
      rw [List.getLast?_eq_getElem?, ← hlast, Nat.add_sub_cancel, List.getElem?_eq_getElem hi,
        hplace]
    refine ⟨ref, ?_⟩
    rw [href, hwalk.last _ hnone]

end Run

/-- The first candidate of the longest clauses. -/
theorem head?_candidates {env : CnvEnv} {maxclptr : List Bunsetu} (hne : maxclptr ≠ [])
    (h : ClauseList (Served env) maxclptr) :
    (candidates env maxclptr)[0]? = some (maxclptr, 1) := by
  obtain ⟨c, cs, rfl⟩ := List.exists_cons_of_ne_nil hne
  have hpos : 0 < (table env (c :: cs)).length := table_pos hne h.all
  have hranks : ranksOf env (c :: cs) ≠ [] := by
    rw [ranksOf, Ne, List.range'_eq_nil_iff]
    omega
  rw [← List.head?_eq_getElem?, candidates, recblks_cons, head?_places hranks, ranksOf,
    List.head?_range', if_neg (by omega)]
  rfl

/-- `cl2knj` shows it. -/
theorem cl2knj_at {env : CnvEnv}
    (hserved : ∀ codes, ∀ c ∈ env.mkbunsetu codes ++ env.wakachi codes, Served env c.2)
    {w₀ : Work} {yomi : Bytes} {len : ℤ} (hn : (cl2knj env w₀ yomi len).1 ≠ 0) :
    let r := cl2knj env w₀ yomi len
    AtCandidate env r.2.1.maxclptr r ∧ (candidates env r.2.1.maxclptr)[0]? = some r.2.1.place := by
  intro r
  have hr : r = cl2knj env w₀ yomi len := rfl
  unfold cl2knj at hr hn
  dsimp only at hr hn
  split at hn
  · exact absurd rfl hn
  · rename_i hcodes
    rw [if_neg hcodes] at hr
    generalize (cl2kana (min len.toNat (maxClInputLen * 2)) yomi).1 = codes at hn hr hcodes
    have hnil := clauseList_nil (Served env)
    have hclauses : ClauseList (Served env) (if setclrecs [] (env.mkbunsetu codes) = [] then
        setclrecs [] (env.wakachi codes) else setclrecs [] (env.mkbunsetu codes)) := by
      split
      · exact hnil.setclrecs fun c hc => hserved codes c (List.mem_append_right _ hc)
      · exact hnil.setclrecs fun c hc => hserved codes c (List.mem_append_left _ hc)
    -- without a clause the length is zero
    have hne : (if setclrecs [] (env.mkbunsetu codes) = [] then
        setclrecs [] (env.wakachi codes) else setclrecs [] (env.mkbunsetu codes)) ≠ [] := by
      intro hempty
      rw [hempty] at hn
      exact hn rfl
    clear hn
    generalize (if setclrecs [] (env.mkbunsetu codes) = [] then
      setclrecs [] (env.wakachi codes) else setclrecs [] (env.mkbunsetu codes)) = maxclptr
      at hr hclauses hne
    generalize hw : Work.mk codes _ maxclptr _ [] _ _ = w at hr
    obtain rfl : w.maxclptr = maxclptr := by rw [← hw]
    have hhead := head?_candidates hne hclauses
    have hmem := mem_places.mp (List.mem_of_getElem? hhead)
    obtain ⟨ref, href⟩ := moves_select hclauses hmem.1 (fun _ => 1) hmem.2
    rw [← hr] at href
    rw [href]
    exact ⟨⟨⟨hclauses, rfl, List.mem_of_getElem? hhead⟩, rfl, (Work.shown_ref env _ ref).symm⟩,
      hhead⟩

/-- The candidates of a block are picked once each. -/
theorem cvtclknj_perm {env : CnvEnv} (hs : ∀ t ∈ env.curstdy, ∀ r ∈ t.stdydic, 0 < r.styno)
    (b : List Bunsetu) :
    ((ranksOf env b).map (cvtclknj (table env b))).Perm
      (List.range (table env b).length) := by
  have hfresh := mkkouho_fresh env.dictlist ⟨[], []⟩ b
  have hranked : Recency.Ranked ((table env b).map Kouho.rank) :=
    ranked_getrank (studied_pos hs) hfresh
  have hpick : ∀ k ∈ ranksOf env b, ∃ c, (table env b)[cvtclknj (table env b) k]? = some c ∧
      c.rank = k := by
    intro k hk
    have hk := List.mem_range'_1.mp hk
    obtain ⟨c, hc, hrank, -⟩ := cvtclknj_spec hranked hk.1 (by omega)
    exact ⟨c, hc, hrank⟩
  have hnd : ((ranksOf env b).map (cvtclknj (table env b))).Nodup := by
    apply List.Nodup.map_on _ List.nodup_range'
    intro i hi j hj hij
    obtain ⟨c, hc, rfl⟩ := hpick i hi
    obtain ⟨d, hd, rfl⟩ := hpick j hj
    rw [hij, hd] at hc
    rw [Option.some_inj.mp hc]
  apply (List.Nodup.subperm hnd ?_).perm_of_length_le
  · rw [List.length_map, ranksOf, List.length_range', List.length_range]
  · intro i hi
    obtain ⟨k, hk, rfl⟩ := List.mem_map.mp hi
    obtain ⟨c, hc, -⟩ := hpick k hk
    exact List.mem_range.mpr (List.getElem?_eq_some_iff.mp hc).1

/-! ## Completeness and reversibility -/

/-- For every clause that `cl2knj` accepts: the clauses are dealt with in blocks, one for each
length, longest first, and the candidates of a block are selected once each. Repeated calls
of `nextcl` go through all these candidates in order; after the last one they return 0 and
stay. At every result reached by whatever calls, a call of `nextcl` that succeeds is undone
by `prevcl`, which writes what was written before, and the other way round. -/
theorem cl2knj_traversal (env : CnvEnv)
    (hserved : ∀ codes, ∀ c ∈ env.mkbunsetu codes ++ env.wakachi codes, Served env c.2)
    (w₀ : Work) (yomi : Bytes) (len : ℤ) (hn : (cl2knj env w₀ yomi len).1 ≠ 0) :
    let start := cl2knj env w₀ yomi len
    let w := start.2.1
    let cands := candidates env w.maxclptr
    (recblks w.maxclptr).flatMap recblk = w.maxclptr ∧
      ((recblks w.maxclptr).Pairwise fun a b => cllenAt b < cllenAt a) ∧
      ((∀ t ∈ env.curstdy, ∀ r ∈ t.stdydic, 0 < r.styno) → ∀ b ∈ recblks w.maxclptr,
        ((ranksOf env b).map (cvtclknj (table env b))).Perm
          (List.range (table env b).length)) ∧
      cands.Nodup ∧
      (∀ i (hi : i < cands.length), (nextcls env i w).place = cands[i] ∧
        (i + 1 < cands.length → (nextcl env (nextcls env i w) 0).1 ≠ 0) ∧
        (i + 1 = cands.length → ∃ ref, nextcl env (nextcls env i w) 0 =
          (0, { nextcls env i w with ref }, (nextcls env i w).shown env))) ∧
      ∀ r, Reached env start r →
        ((nextcl env r.2.1 0).1 ≠ 0 → ∃ ref,
          prevcl env (nextcl env r.2.1 0).2.1 0 =
            (r.2.1.length, { r.2.1 with ref }, r.2.2)) ∧
        ((prevcl env r.2.1 0).1 ≠ 0 → ∃ ref,
          nextcl env (prevcl env r.2.1 0).2.1 0 =
            (r.2.1.length, { r.2.1 with ref }, r.2.2)) := by
  intro start w cands
  obtain ⟨hat, hfirst⟩ := cl2knj_at hserved hn
  have hplaced : w.Placed env := hat.placed
  refine ⟨flatMap_recblk _, hplaced.clauses.longestFirst.recblks_pairwise,
    fun hs b _ => cvtclknj_perm hs b, nodup_candidates hplaced.clauses, ?_, ?_⟩
  · intro i hi
    have hstep := nextcl_nextcls hplaced hfirst hi
    exact ⟨(nextcls_place hplaced hfirst hi).2.2, hstep.1, hstep.2⟩
  · intro r hr
    have hr := hr.at hat
    rw [hr.shown]
    exact ⟨hr.placed.prevcl_nextcl, hr.placed.nextcl_prevcl⟩

/-- A word of one code and a word of two, each with the text of its length. -/
def sampleCnv : CnvEnv where
  dictlist := [sampleDict]
  curstdy := none
  mkbunsetu := fun _ =>
    [(true, ⟨0, ⟨1, 0, 5, 0, .dict, 1, 1, 1, 0, 0⟩, 1, false⟩),
      (true, ⟨2, ⟨3, 0, 14, 0, .dict, 1, 2, 1, 0, 0⟩, 2, false⟩)]
  wakachi := fun _ => [(true, ⟨4, ⟨5, 0, 0, 0, .wakachi, 0, 1, 0, 0, 0⟩, 1, false⟩)]
  stbYomiLen := fun _ => 0
  cvtkouho := fun _ orgyomi krec => readN (krec.clrec.cllen * 2) orgyomi

theorem sampleCnv_served :
    ∀ codes, ∀ c ∈ sampleCnv.mkbunsetu codes ++ sampleCnv.wakachi codes,
      Served sampleCnv c.2 := by
  intro codes c hc
  have hdict : ∀ ofs : ℕ, (∃ (h : HinsiBlk) (rest : Bytes),
      sampleSeg.bytes.drop ofs = h.bytes ++ rest) →
      ∀ d ∈ seldict sampleCnv.dictlist 1, ∃ (h : HinsiBlk) (rest : Bytes),
        (d.getdic 0).drop ofs = h.bytes ++ rest := by
    intro ofs h d hd
    obtain rfl : sampleDict = d := Option.some_inj.mp hd
    exact h
  rcases List.mem_append.mp hc with hc | hc
  · rcases List.mem_cons.mp hc with rfl | hc
    · exact ⟨by decide, by simp, fun _ => hdict 5 ⟨sampleSeg.blks[0].hinsi[0], _, rfl⟩⟩
    · rw [List.mem_singleton.mp hc]
      exact ⟨by decide, by simp, fun _ => hdict 14 ⟨sampleSeg.blks[1].hinsi[0], [], rfl⟩⟩
  · rw [List.mem_singleton.mp hc]
    exact ⟨by decide, by simp, fun h => absurd h (by decide)⟩

theorem cl2knj_traversal_sample :
    let start := cl2knj sampleCnv ⟨[], [], [], [], [], 0, ⟨[], []⟩⟩ [0xa4, 0xa2, 0xa4, 0xa4] 4
    (prevcl sampleCnv (nextcl sampleCnv start.2.1 0).2.1 0).2.2 = start.2.2 := by
  intro start
  have h := cl2knj_traversal sampleCnv sampleCnv_served
    ⟨[], [], [], [], [], 0, ⟨[], []⟩⟩ [0xa4, 0xa2, 0xa4, 0xa4] 4 (by decide +kernel)
  obtain ⟨-, -, -, -, -, hback⟩ := h
  obtain ⟨ref, href⟩ := (hback _ .start).1 (by decide +kernel)
  rw [href]

end Sj3
