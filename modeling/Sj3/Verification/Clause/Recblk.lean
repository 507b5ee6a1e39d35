import Sj3.General.Cursor
import Sj3.Model.Cl2knj
import Mathlib.Data.List.Pairwise

/-! # Clauses by length

The list of clauses is sorted by length, longest first. The clauses of one length stand
together; `nextrecblk` and `prevrecblk` step from one such block to the next. -/

namespace Sj3

/-! ## The order of the list -/

def LongestFirst (clrecs : List Bunsetu) : Prop :=
  clrecs.Pairwise fun a b => b.cllen ≤ a.cllen

theorem mem_insertClrec {clrec c : Bunsetu} {clrecs : List Bunsetu} :
    c ∈ insertClrec clrec clrecs ↔ c = clrec ∨ c ∈ clrecs := by
  induction clrecs with
  | nil => simp [insertClrec]
  | cons ptr rest ih =>
      rw [insertClrec]
      split
      · rw [List.mem_cons]
      · rw [List.mem_cons, ih, List.mem_cons]
        tauto

theorem LongestFirst.insertClrec {clrecs : List Bunsetu} (h : LongestFirst clrecs)
    (clrec : Bunsetu) : LongestFirst (insertClrec clrec clrecs) := by
  induction clrecs with
  | nil => exact List.pairwise_singleton _ _
  | cons ptr rest ih =>
      obtain ⟨hptr, hrest⟩ := List.pairwise_cons.mp h
      rw [Sj3.insertClrec]
      split
      · rename_i hshort
        have hle : ptr.cllen ≤ clrec.cllen := by omega
        apply List.pairwise_cons.mpr
        refine ⟨?_, h⟩
        intro c hc
        rcases List.mem_cons.mp hc with rfl | hc
        · exact hle
        · exact (hptr c hc).trans hle
      · rename_i hlong
        apply List.pairwise_cons.mpr
        refine ⟨?_, ih hrest⟩
        intro c hc
        rcases mem_insertClrec.mp hc with rfl | hc
        · omega
        · exact hptr c hc

/-- What a clause added to the list leaves there. -/
theorem setclrec_cases (alloc : Bool) (maxclptr : List Bunsetu) (clrec : Bunsetu) :
    setclrec alloc maxclptr clrec = maxclptr ∨
      ((0 < clrec.cllen ∧ clrec.cllen ≤ maxClInputLen) ∧
        (setclrec alloc maxclptr clrec = insertClrec clrec maxclptr ∨
          setclrec alloc maxclptr clrec = insertClrec clrec maxclptr.dropLast)) := by
  unfold setclrec argclrec
  split
  · exact Or.inl rfl
  · rename_i hpos
    split
    · exact Or.inl rfl
    · rename_i hle
      have hlen : 0 < clrec.cllen ∧ clrec.cllen ≤ maxClInputLen := by omega
      split
      · exact Or.inr ⟨hlen, Or.inl rfl⟩
      · split
        · exact Or.inl rfl
        · split
          · exact Or.inl rfl
          · exact Or.inr ⟨hlen, Or.inr rfl⟩

/-- A list as `mkbunsetu` builds it, of clauses with property `P`. -/
structure ClauseList (P : Bunsetu → Prop) (clrecs : List Bunsetu) : Prop where
  longestFirst : LongestFirst clrecs
  cllen : ∀ c ∈ clrecs, 0 < c.cllen ∧ c.cllen ≤ maxClInputLen
  all : ∀ c ∈ clrecs, P c

theorem clauseList_nil (P : Bunsetu → Prop) : ClauseList P [] :=
  ⟨List.Pairwise.nil, by simp, by simp⟩

section ClauseList

variable {P : Bunsetu → Prop} {clrecs : List Bunsetu} (h : ClauseList P clrecs)
include h

theorem ClauseList.sublist {clrecs' : List Bunsetu} (hsub : clrecs'.Sublist clrecs) :
    ClauseList P clrecs' :=
  ⟨h.longestFirst.sublist hsub, fun c hc => h.cllen c (hsub.subset hc),
    fun c hc => h.all c (hsub.subset hc)⟩

theorem ClauseList.insertClrec {clrec : Bunsetu}
    (hlen : 0 < clrec.cllen ∧ clrec.cllen ≤ maxClInputLen) (hP : P clrec) :
    ClauseList P (insertClrec clrec clrecs) := by
  refine ⟨h.longestFirst.insertClrec clrec, ?_, ?_⟩
  · intro c hc
    rcases mem_insertClrec.mp hc with rfl | hc
    · exact hlen
    · exact h.cllen c hc
  · intro c hc
    rcases mem_insertClrec.mp hc with rfl | hc
    · exact hP
    · exact h.all c hc

theorem ClauseList.setclrec (alloc : Bool) {clrec : Bunsetu} (hP : P clrec) :
    ClauseList P (setclrec alloc clrecs clrec) := by
  rcases setclrec_cases alloc clrecs clrec with hsame | ⟨hlen, hnew | hnew⟩
  · rwa [hsame]
  · rw [hnew]
    exact h.insertClrec hlen hP
  · rw [hnew]
    exact (h.sublist (List.dropLast_sublist _)).insertClrec hlen hP

theorem ClauseList.setclrecs {new : List (Bool × Bunsetu)} (hP : ∀ c ∈ new, P c.2) :
    ClauseList P (setclrecs clrecs new) := by
  unfold Sj3.setclrecs
  induction new generalizing clrecs with
  | nil => exact h
  | cons c new ih =>
      exact ih (h.setclrec c.1 (hP c List.mem_cons_self))
        fun c' hc' => hP c' (List.mem_cons_of_mem _ hc')

end ClauseList

/-! ## Blocks of one length -/

/-- Where the blocks of one length start. -/
def recblks : List Bunsetu → List (List Bunsetu)
  | [] => []
  | clrec :: clptr =>
      (clrec :: clptr) ::
        if clptr.head?.map Bunsetu.cllen = some clrec.cllen then (recblks clptr).tail
        else recblks clptr

/-- The clauses behind those of the length of the first one. -/
def behindBlk (clrec : Bunsetu) (clptr : List Bunsetu) : List Bunsetu :=
  clptr.dropWhile fun c => c.cllen = clrec.cllen

theorem behindBlk_same {clrec c : Bunsetu} (h : c.cllen = clrec.cllen) (clptr : List Bunsetu) :
    behindBlk clrec (c :: clptr) = behindBlk c clptr := by
  rw [behindBlk, List.dropWhile_cons_of_pos (by simpa using h), behindBlk, h]

theorem behindBlk_other {clrec c : Bunsetu} (h : c.cllen ≠ clrec.cllen) (clptr : List Bunsetu) :
    behindBlk clrec (c :: clptr) = c :: clptr :=
  List.dropWhile_cons_of_neg (by simpa using h)

theorem nextrecblk_of_nil {clrec : Bunsetu} {clptr : List Bunsetu}
    (h : behindBlk clrec clptr = []) :
    nextrecblk (clrec :: clptr) = none := by
  rw [behindBlk] at h
  simp only [nextrecblk, h]

theorem nextrecblk_of_cons {clrec c : Bunsetu} {clptr cs : List Bunsetu}
    (h : behindBlk clrec clptr = c :: cs) : nextrecblk (clrec :: clptr) = some (c :: cs) := by
  rw [behindBlk] at h
  simp only [nextrecblk, h]

theorem behindBlk_suffix (clrec : Bunsetu) (clptr : List Bunsetu) :
    behindBlk clrec clptr <:+ clptr := List.dropWhile_suffix _

theorem recblks_cons (clrec : Bunsetu) (clptr : List Bunsetu) :
    recblks (clrec :: clptr) = (clrec :: clptr) :: recblks (behindBlk clrec clptr) := by
  induction clptr generalizing clrec with
  | nil => rfl
  | cons c clptr ih =>
      rw [recblks]
      by_cases h : c.cllen = clrec.cllen
      · rw [if_pos (by simp [h]), ih c, List.tail_cons, behindBlk_same h]
      · rw [if_neg (by simp [h]), behindBlk_other h]

/-- Induction over the blocks. -/
theorem recblks_induct {motive : List Bunsetu → Prop} (nil : motive [])
    (cons : ∀ clrec clptr, motive (behindBlk clrec clptr) → motive (clrec :: clptr))
    (clrecs : List Bunsetu) : motive clrecs := by
  induction hn : clrecs.length using Nat.strong_induction_on generalizing clrecs with
  | _ n ih =>
      cases clrecs with
      | nil => exact nil
      | cons clrec clptr =>
          apply cons
          apply ih _ _ _ rfl
          have := (behindBlk_suffix clrec clptr).length_le
          rw [← hn, List.length_cons]
          omega

/-- A block starts somewhere in the list. -/
theorem suffix_of_mem_recblks {clrecs b : List Bunsetu} (h : b ∈ recblks clrecs) :
    b <:+ clrecs ∧ b ≠ [] := by
  induction clrecs using recblks_induct with
  | nil => exact absurd h (by simp [recblks])
  | cons clrec clptr ih =>
      rw [recblks_cons] at h
      rcases List.mem_cons.mp h with rfl | h
      · exact ⟨List.suffix_refl _, by simp⟩
      · obtain ⟨hsuffix, hne⟩ := ih h
        exact ⟨(hsuffix.trans (behindBlk_suffix clrec clptr)).trans
          (List.suffix_cons clrec clptr), hne⟩

/-- The blocks are all clauses, in their order. -/
theorem flatMap_recblk (clrecs : List Bunsetu) : (recblks clrecs).flatMap recblk = clrecs := by
  induction clrecs using recblks_induct with
  | nil => rfl
  | cons clrec clptr ih =>
      have hblk : recblk (clrec :: clptr) =
          clrec :: clptr.takeWhile fun c => c.cllen = clrec.cllen := by
        rw [recblk, List.takeWhile_cons_of_pos (by simp)]
        simp
      rw [recblks_cons, List.flatMap_cons, ih, hblk, List.cons_append, behindBlk,
        List.takeWhile_append_dropWhile]

/-- Behind a block all clauses are shorter. -/
theorem lt_of_behindBlk {clrec c : Bunsetu} {clptr : List Bunsetu}
    (h : LongestFirst (clrec :: clptr)) (hc : c ∈ behindBlk clrec clptr) :
    c.cllen < clrec.cllen := by
  induction clptr with
  | nil => exact absurd hc (by simp [behindBlk])
  | cons d clptr ih =>
      obtain ⟨hle, hrest⟩ := List.pairwise_cons.mp h
      by_cases hd : d.cllen = clrec.cllen
      · rw [behindBlk_same hd, behindBlk, hd] at hc
        exact ih (h.sublist (by simp)) hc
      · rw [behindBlk_other hd] at hc
        have hlt : d.cllen < clrec.cllen :=
          lt_of_le_of_ne (hle d List.mem_cons_self) hd
        rcases List.mem_cons.mp hc with rfl | hc
        · exact hlt
        · exact ((List.pairwise_cons.mp hrest).1 c hc).trans_lt hlt

section LongestFirst

variable {clrecs : List Bunsetu} (h : LongestFirst clrecs)
include h

/-- The blocks come longest first, one for each length. -/
theorem LongestFirst.recblks_pairwise :
    (recblks clrecs).Pairwise fun a b => cllenAt b < cllenAt a := by
  induction clrecs using recblks_induct with
  | nil => exact List.Pairwise.nil
  | cons clrec clptr ih =>
      rw [recblks_cons, List.pairwise_cons]
      constructor
      · intro b hb
        obtain ⟨hsuffix, hne⟩ := suffix_of_mem_recblks hb
        obtain ⟨c, cs, rfl⟩ := List.exists_cons_of_ne_nil hne
        exact lt_of_behindBlk h (hsuffix.subset List.mem_cons_self)
      · apply ih
        exact h.sublist ((behindBlk_suffix clrec clptr).sublist.trans
          (List.sublist_cons_self clrec clptr))

/-- `prevrecblk` stops at the block in front of the one it comes from. -/
theorem LongestFirst.prevrecblkLoop_spec {pre post : List (List Bunsetu)} {b : List Bunsetu}
    (hblks : recblks clrecs = pre ++ b :: post) {n : ℕ} (hn : clrecs.length ≤ n)
    (keepptr : List Bunsetu) :
    prevrecblkLoop (cllenAt b) n clrecs keepptr = pre.getLast?.getD keepptr := by
  induction clrecs using recblks_induct generalizing pre n keepptr with
  | nil => exact absurd hblks (by simp [recblks])
  | cons clrec clptr ih =>
      obtain ⟨m, rfl⟩ : ∃ m, n = m + 1 := ⟨n - 1, by rw [List.length_cons] at hn; omega⟩
      have hpair := h.recblks_pairwise
      rw [recblks_cons] at hblks hpair
      rw [prevrecblkLoop]
      cases pre with
      | nil =>
          obtain ⟨rfl, -⟩ := List.cons.inj hblks
          rw [if_neg (by simp [cllenAt])]
          rfl
      | cons a pre =>
          obtain ⟨ha, hrest⟩ := List.cons.inj hblks
          have hlt : cllenAt b < clrec.cllen := by
            apply (List.pairwise_cons.mp hpair).1 b
            rw [hrest]
            simp
          have hdrop : (clrec :: clptr).dropWhile (fun c => c.cllen = clrec.cllen) =
              behindBlk clrec clptr := List.dropWhile_cons_of_pos (by simp)
          have hsuffix := behindBlk_suffix clrec clptr
          have hlen := hsuffix.length_le
          rw [if_pos hlt, hdrop, ih _ hrest, ← ha]
          · cases pre using List.reverseRecOn with
            | nil => rfl
            | append_singleton pre p =>
                rw [List.getLast?_append, ← List.cons_append, List.getLast?_append]
                rfl
          · rw [List.length_cons] at hn
            omega
          · exact h.sublist (hsuffix.sublist.trans (List.sublist_cons_self clrec clptr))

end LongestFirst

/-- `nextrecblk` finds the block behind. -/
theorem nextrecblk_spec {clrecs b : List Bunsetu} {pre post : List (List Bunsetu)}
    (hblks : recblks clrecs = pre ++ b :: post) : nextrecblk b = post.head? := by
  induction clrecs using recblks_induct generalizing pre with
  | nil => exact absurd hblks (by simp [recblks])
  | cons clrec clptr ih =>
      rw [recblks_cons] at hblks
      cases pre with
      | nil =>
          obtain ⟨rfl, hpost⟩ := List.cons.inj hblks
          rw [← hpost]
          cases hbehind : behindBlk clrec clptr with
          | nil => exact nextrecblk_of_nil hbehind
          | cons c cs =>
              rw [nextrecblk_of_cons hbehind, recblks_cons]
              rfl
      | cons a pre => exact ih (List.cons.inj hblks).2

/-- The blocks are walked over in both directions. -/
theorem LongestFirst.walk {clrecs : List Bunsetu} (h : LongestFirst clrecs) :
    Cursor.Walk nextrecblk (prevrecblk clrecs) (recblks clrecs) := by
  have hhead : ∀ b, (recblks clrecs).head? = some b → b = clrecs := by
    intro b hb
    cases clrecs with
    | nil => exact absurd hb (by simp [recblks])
    | cons clrec clptr => simpa [recblks_cons] using hb.symm
  constructor
  · rw [List.isChain_iff_getElem]
    intro i hi
    have hsplit : recblks clrecs =
        (recblks clrecs).take i ++ (recblks clrecs)[i] :: (recblks clrecs).drop (i + 1) := by
      rw [List.getElem_cons_drop, List.take_append_drop]
    have hsplit' : recblks clrecs =
        (recblks clrecs).take (i + 1) ++
          (recblks clrecs)[i + 1] :: (recblks clrecs).drop (i + 1 + 1) := by
      rw [List.getElem_cons_drop, List.take_append_drop]
    constructor
    · rw [nextrecblk_spec hsplit, List.head?_drop, List.getElem?_eq_getElem hi]
    · have hlt : cllenAt (recblks clrecs)[i + 1] < cllenAt clrecs := by
        have h0 : (recblks clrecs)[0] = clrecs := by
          apply hhead
          rw [List.head?_eq_getElem?, List.getElem?_eq_getElem (by omega)]
        have hp := List.pairwise_iff_getElem.mp h.recblks_pairwise 0 (i + 1) (by omega) hi
          (by omega)
        rwa [h0] at hp
      rw [prevrecblk, if_neg (by omega), h.prevrecblkLoop_spec hsplit' le_rfl,
        List.getLast?_take, if_neg (by omega), Nat.add_sub_cancel,
        List.getElem?_eq_getElem (by omega)]
      rfl
  · intro b hb
    cases hl : recblks clrecs using List.reverseRecOn with
    | nil => exact absurd (hl ▸ hb) (by simp)
    | append_singleton pre c =>
        rw [hl, List.getLast?_concat] at hb
        obtain rfl := Option.some_inj.mp hb
        exact nextrecblk_spec hl
  · intro b hb
    rw [hhead b hb, prevrecblk, if_pos rfl]

end Sj3
