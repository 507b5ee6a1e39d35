import Sj3.Verification.Reclist.Order

/-! # Reference counts of words

A word counts the clauses that refer to it as long as no clause record is used again: `argclrec`
takes such a record from its word without lowering the count. -/

namespace Sj3.Reclist

open PointerList Recs

theorem Reached.mono {P Q : Lists → Insertion → Prop} (hPQ : ∀ l i, P l i → Q l i) {t : Traced}
    (h : Reached P t) : Reached Q t := by
  induction h with
  | empty => exact .empty
  | exec _ hi hexec ih => exact .exec ih (hPQ _ _ hi) hexec

theorem Regular.sane {l : Lists} {i : Insertion} (h : Regular l i) : Sane l i := h.1

theorem counted_empty : Counted Traced.empty.lists := fun _ hp => absurd hp List.not_mem_nil

section Steps

variable {t t' : Traced} {mem : Malloc} {len : ℤ} {init : List ℕ} {p : ℕ}

/-- A new word has no clauses and counts none. -/
theorem WordStep.counted {rec : Option ℕ} {fill : JrecFill} (hinv : Inv t)
    (hcounted : Counted t.lists) (h : WordStep t t' mem len rec fill init p)
    (hreg : Regular t.lists (.word mem len rec fill)) : Counted t'.lists := by
  have hrefs (q : ℕ) : refs t'.lists q = refs t.lists q := by rw [refs, refs, h.clauses]
  intro q hq
  rw [hrefs]
  rcases h.mem_iff.mp hq with rfl | hq
  · have hnone : refs t.lists q = 0 := by
      rw [refs, List.countP_eq_zero]
      intro c hc
      simpa using h.unreferred hinv hreg.sane hc
    have hcopied : (rec.elim Jrec.zero t.lists.words.val).count = 0 := by
      cases rec with
      | none => rfl
      | some src => exact hreg.2 src rfl
    rw [hnone, h.val, Function.update_self, fill.count_store]
    exact congrArg UInt8.toNat hcopied
  · rw [h.val, Function.update_of_ne (ne_of_mem_of_not_mem hq h.not_mem)]
    exact hcounted q (h.source.subset hq)

variable {jrec : ℕ} {fill : ClrecFill}

/-- The record of a clause is a new one. -/
theorem ClauseStep.init_eq (h : ClauseStep t t' mem len jrec fill init p)
    (hreg : Regular t.lists (.clause mem len jrec fill)) :
    init = t.lists.clauses.list ∧ (t.lists.words.val jrec).count ≠ 255 := by
  rcases hreg.2 with ⟨hmem, hle⟩ | ⟨hmem, hcount⟩
  · cases h.source with
    | new hsome _ => exact absurd (hmem.symm.trans hsome) (by simp)
    | last _ hlist hlt _ => exact absurd (hle p (by rw [hlist]; simp)) (by omega)
  · cases h.source with
    | new _ _ => exact ⟨rfl, hcount⟩
    | last hnone _ _ _ => exact absurd (by rw [hnone]) hmem

/-- One reference more to the word of the new clause. -/
theorem ClauseStep.refs (h : ClauseStep t t' mem len jrec fill init p)
    (hinit : init = t.lists.clauses.list) (q : ℕ) :
    Reclist.refs t'.lists q = Reclist.refs t.lists q + if jrec = q then 1 else 0 := by
  have hold : (init.countP fun c => (t'.lists.clauses.val c).jnode = some q) =
      init.countP fun c => (t.lists.clauses.val c).jnode = some q :=
    List.countP_congr fun c hc => by rw [h.val_of_mem hc]
  rw [Reclist.refs, Reclist.refs, h.list, place_perm.countP_eq, List.countP_cons, hold, hinit,
    h.jnode]
  simp only [Option.some.injEq, decide_eq_true_eq]

theorem ClauseStep.counted (hcounted : Counted t.lists)
    (h : ClauseStep t t' mem len jrec fill init p)
    (hreg : Regular t.lists (.clause mem len jrec fill)) : Counted t'.lists := by
  obtain ⟨hinit, hroom⟩ := h.init_eq hreg
  intro q hq
  rw [h.wordList] at hq
  have hq := hcounted q hq
  rw [h.refs hinit, h.words, val_setVal]
  by_cases heq : jrec = q
  · subst heq
    rw [Function.update_self, if_pos rfl, ← hq]
    have hlt := (t.lists.words.val jrec).count.toNat_lt
    have hne : (t.lists.words.val jrec).count.toNat ≠ 255 := fun h255 =>
      hroom (UInt8.toNat_inj.mp h255)
    rw [UInt8.toNat_add]
    exact Nat.mod_eq_of_lt (by simp only [UInt8.reduceToNat]; omega)
  · rw [Function.update_of_ne (Ne.symm heq), if_neg heq, Nat.add_zero]
    exact hq

end Steps

theorem Counted.step {t t' : Traced} {i : Insertion} (hinv : Inv t) (hcounted : Counted t.lists)
    (hreg : Regular t.lists i) (hexec : t.exec i = some t') : Counted t'.lists := by
  cases i with
  | word mem len rec fill =>
      rcases hinv.word_cases mem len rec fill with ⟨htick, -, -⟩ | ⟨t'', init, p, hexec', hstep⟩
      · rw [← Option.some.inj (htick.symm.trans hexec)]
        exact hcounted
      · rw [← Option.some.inj (hexec'.symm.trans hexec)]
        exact hstep.counted hinv hcounted hreg
  | clause mem len jrec fill =>
      rcases hinv.clause_cases mem len jrec fill with ⟨htick, -, -⟩ | ⟨t'', init, p, hexec', hstep⟩
      · rw [← Option.some.inj (htick.symm.trans hexec)]
        exact hcounted
      · rw [← Option.some.inj (hexec'.symm.trans hexec)]
        exact hstep.counted hcounted hreg

theorem Reached.counted {t : Traced} (h : Reached Regular t) : Counted t.lists := by
  induction h with
  | empty => exact counted_empty
  | exec hrun hi hexec ih =>
      exact ih.step (Reached.inv (hrun.mono fun _ _ => Regular.sane)) hi hexec

/-- The lists stay ordered and drop only the shortest whatever memory there is, and the counts are
right if no clause record is used again. -/
theorem reached_lists (t : Traced) :
    (Reached Sane t → Ordered t ∧
      ∀ i, Sane t.lists i → ∃ t', t.exec i = some t' ∧ DropsShortest t t' i) ∧
    (Reached Regular t → Ordered t ∧ Counted t.lists ∧
      ∀ i, Regular t.lists i → ∃ t', t.exec i = some t' ∧ DropsShortest t t' i) := by
  have hsane (h : Reached Sane t) : Ordered t ∧
      ∀ i, Sane t.lists i → ∃ t', t.exec i = some t' ∧ DropsShortest t t' i := by
    refine ⟨h.inv.ordered, fun i hi => ?_⟩
    obtain ⟨t', hexec, -, hdrops⟩ := h.inv.step hi
    exact ⟨t', hexec, hdrops⟩
  refine ⟨hsane, fun h => ?_⟩
  obtain ⟨hordered, hdrops⟩ := hsane (h.mono fun _ _ => Regular.sane)
  exact ⟨hordered, h.counted, fun i hi => hdrops i hi.sane⟩

/-! ## A clause record used again -/

instance (l : Lists) : DecidablePred (Sane l)
  | .word .. => inferInstanceAs (Decidable (_ ∧ _ ∧ _))
  | .clause .. => inferInstanceAs (Decidable (_ ∧ _ ∧ _))

instance (l : Lists) : DecidablePred (Regular l)
  | .word .. => inferInstanceAs (Decidable (_ ∧ _))
  | .clause .. => inferInstanceAs (Decidable (_ ∧ _))

/-- The insertions one after the other, as long as they meet the condition. -/
def runWhile (P : Lists → Insertion → Prop) [∀ l, DecidablePred (P l)] :
    List Insertion → Traced → Option Traced
  | [], t => some t
  | i :: is, t => if P t.lists i then t.exec i >>= runWhile P is else none

theorem Reached.runWhile {P : Lists → Insertion → Prop} [∀ l, DecidablePred (P l)]
    {is : List Insertion} {t t' : Traced} (h : Reached P t) (hrun : runWhile P is t = some t') :
    Reached P t' := by
  induction is generalizing t with
  | nil => rwa [← Option.some.inj hrun]
  | cons i is ih =>
      rw [Reclist.runWhile] at hrun
      split_ifs at hrun with hi
      obtain ⟨t₁, hexec, hrest⟩ := Option.bind_eq_some_iff.mp hrun
      exact ih (.exec h hi hexec) hrest

def plainWord : JrecFill := ⟨fun r => { r with hinsi := 1 }, fun _ => rfl, fun _ => rfl⟩

def plainClause : ClrecFill := ⟨fun c => { c with kubun := 1 }, fun _ => rfl, fun _ => rfl⟩

/-- A word, a clause of length 1 for it, and one of length 2 that finds no memory. -/
def reuse : List Insertion :=
  [.word ⟨false, true⟩ 2 none plainWord, .clause ⟨false, true⟩ 1 0 plainClause,
    .clause ⟨false, false⟩ 2 0 plainClause]

/-- The word counts two clauses then, and the list has one. -/
theorem not_counted_reuse : ∃ t, Reached Sane t ∧ t.lists.words.list = [0] ∧
    (t.lists.words.val 0).count = 2 ∧ refs t.lists 0 = 1 ∧ ¬ Counted t.lists := by
  have hrun : (runWhile Sane reuse Traced.empty).map (fun t =>
      (t.lists.words.list, (t.lists.words.val 0).count, refs t.lists 0)) = some ([0], 2, 1) := by
    decide +kernel
  obtain ⟨t, ht, hvalues⟩ := Option.map_eq_some_iff.mp hrun
  simp only [Prod.mk.injEq] at hvalues
  obtain ⟨hlist, hcount, hrefs⟩ := hvalues
  refine ⟨t, Reached.empty.runWhile ht, hlist, hcount, hrefs, fun hcounted => ?_⟩
  have := hcounted 0 (by rw [hlist]; exact List.mem_singleton_self 0)
  rw [hcount, hrefs] at this
  exact absurd this (by decide)

/-- Words and clauses in the way of the program: the last word is used again for a longer one,
and a clause finds no memory and is refused. -/
def scarce : List Insertion :=
  [.word ⟨false, true⟩ 2 none plainWord, .word ⟨false, true⟩ 1 none plainWord,
    .word ⟨false, false⟩ 3 (some 0) plainWord, .clause ⟨false, true⟩ 2 0 plainClause,
    .clause ⟨false, true⟩ 3 1 plainClause, .clause ⟨false, false⟩ 2 0 plainClause]

theorem reached_lists_scarce : ∃ t, t.lists.words.list = [1, 0] ∧
    t.lists.clauses.list = [1, 0] ∧ Ordered t ∧ Counted t.lists := by
  have hrun : (runWhile Regular scarce Traced.empty).map (fun t =>
      (t.lists.words.list, t.lists.clauses.list)) = some ([1, 0], [1, 0]) := by
    decide +kernel
  obtain ⟨t, ht, hvalues⟩ := Option.map_eq_some_iff.mp hrun
  simp only [Prod.mk.injEq] at hvalues
  obtain ⟨hordered, hcounted, -⟩ := (reached_lists t).2 (Reached.empty.runWhile ht)
  exact ⟨t, hvalues.1, hvalues.2, hordered, hcounted⟩

end Sj3.Reclist
