import Sj3.Model.Kouho

/-! # Filling the candidate table

What the tables that `mkkouho` builds have in common, and that they do not depend on the
segment that happened to be loaded before. -/

namespace Sj3

/-! ## Candidates before they are ranked -/

/-- What ranking does not change. -/
def Kouho.blank (k : Kouho) : Kouho := { k with styno := 0, rank := 0 }

/-- A plain numeral: its word has no entry in a dictionary. -/
def Kouho.plain (k : Kouho) : Bool := k.mode ≠ 0 && k.offs = 0

@[simp] theorem blank_rank (k : Kouho) (n : ℕ) : { k with rank := n }.blank = k.blank := rfl

theorem studied_of_blank {s : Option Stdy} {k k' : Kouho} (h : k.blank = k'.blank) :
    k.studied s = k'.studied s := by
  have hstudied : ∀ c : Kouho, c.studied s = c.blank.studied s := fun _ => rfl
  rw [hstudied k, hstudied k', h]

/-- A plain numeral is never studied itself. -/
theorem studied_of_plain {s : Option Stdy} {k : Kouho} (h : k.plain) : k.studied s = none := by
  simp only [Kouho.plain, Bool.and_eq_true, decide_eq_true_eq] at h
  cases s with
  | none => rfl
  | some s => simp [Kouho.studied, Stdy.srchstdy, h.2]

/-- The table as `setkouho` leaves it. -/
structure KouhoTbl.Fresh (t : KouhoTbl) : Prop where
  blank : ∀ k ∈ t.kouhotbl, k.blank = k
  length_le : t.khcount ≤ maxKouhoNumber
  nkhcount : t.nkhcount = t.kouhotbl.countP Kouho.plain

theorem KouhoTbl.Fresh.put {t : KouhoTbl} (h : t.Fresh) (hlt : t.khcount < maxKouhoNumber)
    {k : Kouho} (hk : k.blank = k) {mode : ℕ} (hmode : k.mode = mode) :
    (t.put k k.offs mode).Fresh := by
  subst hmode
  constructor
  · intro k' hk'
    rcases List.mem_append.mp hk' with hold | hnew
    · exact h.blank k' hold
    · rw [List.mem_singleton.mp hnew, hk]
  · simpa [KouhoTbl.put, KouhoTbl.khcount] using Nat.succ_le_of_lt hlt
  · simp only [KouhoTbl.put, List.countP_append, List.countP_singleton, Kouho.plain, h.nkhcount]
    by_cases hm : k.mode = 0 <;> by_cases ho : k.offs = 0 <;> simp [hm, ho]

theorem KouhoTbl.Fresh.setkouho {t : KouhoTbl} (h : t.Fresh) (clrec : Bunsetu) (offs : ℕ)
    {mode : ℕ} (hmode : mode < 0x10) : (setkouho t clrec offs mode).Fresh := by
  have hm : mode % 0x10 = mode := Nat.mod_eq_of_lt hmode
  unfold Sj3.setkouho
  split
  · exact h
  · rename_i hlt
    have hlt : t.khcount < maxKouhoNumber := not_le.mp hlt
    split
    · have hfirst := h.put hlt (k := { newKouho clrec offs mode with sttfg := true }) rfl hm
      dsimp only
      split
      · exact hfirst
      · split
        · exact hfirst
        · rename_i hroom
          exact hfirst.put (not_le.mp hroom)
            (k := { newKouho clrec offs mode with sttfg := true, sttkj := true }) rfl hm
    · exact h.put hlt (k := newKouho clrec offs mode) rfl hm

/-- Every form a numeral can be written in has a number that fits its field. -/
theorem selNumFunc_lt (kind : NumClass) : ∀ j ∈ selsjadrs kind, selNumFunc j < 0x10 := by
  have hall : (selsjadrs kind).all (fun j => decide (selNumFunc j < 0x10)) = true := by
    cases kind <;> decide
  intro j hj
  exact of_decide_eq_true (List.all_eq_true.mp hall j hj)

theorem selSjmode_lt (jrec : Jiritu) : selSjmode jrec < 0x10 := by
  unfold selSjmode
  split
  · rename_i kind _
    cases hfind : (selsjadrs kind).find? (chrckNumtbl jrec.flags) with
    | some j => exact selNumFunc_lt kind j (List.mem_of_find?_eq_some hfind)
    | none =>
        cases kind <;> decide
  · decide

theorem setkouhoLoop_fresh (use : KouhoTbl → Bytes → Bool) (clrec : Bunsetu) {mode : ℕ}
    (hmode : mode < 0x10) (n : ℕ) (ptr : Bytes) {t : KouhoTbl} (h : t.Fresh) :
    (setkouhoLoop use clrec mode n ptr t).Fresh := by
  induction n generalizing ptr t with
  | zero => exact h
  | succ n ih =>
      rw [setkouhoLoop]
      split
      · exact h
      · apply ih
        split
        · exact h.setkouho clrec _ hmode
        · exact h

theorem KouhoTbl.Fresh.withRef {t : KouhoTbl} (h : t.Fresh) (ref : SegRef) :
    ({ t with ref } : KouhoTbl).Fresh :=
  ⟨h.blank, h.length_le, h.nkhcount⟩

theorem KouhoTbl.Fresh.clKanji {t : KouhoTbl} (h : t.Fresh) (dictlist : List Dict)
    (jrec : Jiritu) (clrec : Bunsetu) : (clKanji dictlist jrec clrec t).Fresh := by
  unfold Sj3.clKanji
  split
  · exact setkouhoLoop_fresh _ clrec (by decide) _ _ (h.withRef _)
  · exact h.setkouho clrec 1 (by decide)

theorem KouhoTbl.Fresh.clNumcmn {t : KouhoTbl} (h : t.Fresh) (dictlist : List Dict)
    (kind : NumClass) (jrec : Jiritu) (clrec : Bunsetu) :
    (clNumcmn dictlist kind jrec clrec t).Fresh := by
  unfold Sj3.clNumcmn
  split
  · dsimp only
    split
    · exact setkouhoLoop_fresh _ clrec (selSjmode_lt jrec) _ _ (h.withRef _)
    · exact h.setkouho clrec 1 (selSjmode_lt jrec)
  · have hmem : ∀ j ∈ (selsjadrs kind).filter (chrckNumtbl jrec.flags), selNumFunc j < 0x10 :=
      fun j hj => selNumFunc_lt kind j (List.mem_of_mem_filter hj)
    generalize (selsjadrs kind).filter (chrckNumtbl jrec.flags) = forms at hmem
    induction forms generalizing t with
    | nil => exact h
    | cons j forms ih =>
        exact ih (h.setkouho clrec 0 (hmem j List.mem_cons_self))
          fun j' hj' => hmem j' (List.mem_cons_of_mem _ hj')

theorem KouhoTbl.Fresh.getkhtbl {t : KouhoTbl} (h : t.Fresh) (dictlist : List Dict)
    (clrec : Bunsetu) : (getkhtbl dictlist t clrec).Fresh := by
  unfold Sj3.getkhtbl
  dsimp only
  split
  · exact h.clKanji dictlist _ clrec
  · exact h.clNumcmn dictlist _ _ clrec
  · exact h
  · exact h.setkouho clrec 0 (by decide)
  · exact h.setkouho clrec 0 (by decide)

theorem mkkouho_fresh (dictlist : List Dict) (ref : SegRef) (clt1st : List Bunsetu) :
    (mkkouho dictlist ref clt1st).Fresh := by
  have hstart : (⟨[], 0, ref⟩ : KouhoTbl).Fresh := ⟨by simp, Nat.zero_le _, rfl⟩
  unfold mkkouho
  generalize recblk clt1st = clauses
  generalize (⟨[], 0, ref⟩ : KouhoTbl) = t at hstart
  induction clauses generalizing t with
  | nil => exact hstart
  | cons clrec clauses ih => exact ih _ (hstart.getkhtbl dictlist clrec)

/-! ## What was loaded before -/

/-- Numerals have no prefix with two forms: only those of words do. -/
def PlainNumerals (clauses : List Bunsetu) : Prop :=
  ∀ c ∈ clauses, ∀ kind, c.jnode.cls = .num kind →
    ¬ (settouPtr c.jnode.sttofs).any sttHiraKnj

/-- Two tables with the same candidates. -/
def KouhoTbl.Same (t t' : KouhoTbl) : Prop :=
  t.kouhotbl = t'.kouhotbl ∧ t.nkhcount = t'.nkhcount

theorem KouhoTbl.Same.put {t t' : KouhoTbl} (h : t.Same t') (kptr : Kouho) (offs mode : ℕ) :
    (t.put kptr offs mode).Same (t'.put kptr offs mode) := by
  unfold KouhoTbl.put
  exact ⟨by dsimp only; rw [h.1], by dsimp only; rw [h.2]⟩

/-- Only a word inside a segment whose prefix has two forms makes `setkouho` look there. -/
theorem KouhoTbl.Same.setkouho {t t' : KouhoTbl} (h : t.Same t') (clrec : Bunsetu)
    {offs : ℕ} (mode : ℕ)
    (hplain : offs ≤ 1 ∨ ¬ (settouPtr clrec.jnode.sttofs).any sttHiraKnj) :
    (setkouho t clrec offs mode).Same (setkouho t' clrec offs mode) := by
  have hcount : ∀ {u u' : KouhoTbl}, u.Same u' → u.khcount = u'.khcount := by
    intro u u' hu
    rw [KouhoTbl.khcount, KouhoTbl.khcount, hu.1]
  unfold Sj3.setkouho
  rw [hcount h]
  split
  · exact h
  · dsimp only
    split
    · rename_i hforms
      have hofs : ¬ offs > 1 := fun hc => hplain.elim (by omega) fun hp => hp hforms
      have hfirst := h.put { newKouho clrec offs mode with sttfg := true } offs mode
      have hboth : ∀ i : ℕ, ¬ (offs > 1 ∧ (i = 2 ∨ i = 3)) := fun i hc => hofs hc.1
      rw [if_neg (hboth _), if_neg (hboth _), hcount hfirst]
      split
      · exact hfirst
      · exact hfirst.put _ _ _
    · exact h.put _ _ _

theorem setkouho_ref (t : KouhoTbl) (clrec : Bunsetu) (offs mode : ℕ) :
    (setkouho t clrec offs mode).ref = t.ref := by
  unfold setkouho
  split
  · rfl
  · dsimp only
    split
    · split
      · rfl
      · split <;> rfl
    · rfl

theorem KouhoTbl.Same.getkhtbl {t t' : KouhoTbl} (h : t.Same t') (dictlist : List Dict)
    {clrec : Bunsetu} (hnum : ∀ kind, clrec.jnode.cls = .num kind →
      ¬ (settouPtr clrec.jnode.sttofs).any sttHiraKnj) :
    (getkhtbl dictlist t clrec).Same (getkhtbl dictlist t' clrec) := by
  unfold Sj3.getkhtbl
  dsimp only
  split
  · -- the segment of a word is loaded before it is looked at
    unfold Sj3.clKanji
    split
    · have hload : ∀ ref, ({ t with ref } : KouhoTbl) = { t' with ref } := by
        intro ref
        rw [KouhoTbl.mk.injEq]
        exact ⟨h.1, h.2, rfl⟩
      have hcount : t.khcount = t'.khcount := by rw [KouhoTbl.khcount, KouhoTbl.khcount, h.1]
      dsimp only
      rw [hload, hcount]
      exact ⟨rfl, rfl⟩
    · exact h.setkouho clrec 0 (Or.inl (le_refl 1))
  · rename_i kind hcls
    have hplain := hnum kind hcls
    unfold Sj3.clNumcmn
    split
    · dsimp only
      split
      · rename_i d _
        have hloop : ∀ (n : ℕ) (ptr : Bytes) (u u' : KouhoTbl), u.Same u' →
            u.ref.dicbuf = u'.ref.dicbuf →
            (setkouhoLoop (fun _ _ => true) clrec (selSjmode clrec.jnode) n ptr u).Same
              (setkouhoLoop (fun _ _ => true) clrec (selSjmode clrec.jnode) n ptr u') := by
          intro n
          induction n with
          | zero => exact fun _ _ _ hu _ => hu
          | succ n ih =>
              intro ptr u u' hu hbuf
              rw [setkouhoLoop, setkouhoLoop]
              split
              · exact hu
              · rw [if_pos rfl, if_pos rfl, hbuf]
                apply ih
                · exact hu.setkouho clrec _ (Or.inr hplain)
                · rw [setkouho_ref, setkouho_ref, hbuf]
        exact hloop _ _ _ _ h rfl
      · exact h.setkouho clrec _ (Or.inl (le_refl 1))
    · generalize (selsjadrs kind).filter (chrckNumtbl clrec.jnode.flags) = forms
      induction forms generalizing t t' with
      | nil => exact h
      | cons j forms ih => exact ih (h.setkouho clrec _ (Or.inl (Nat.zero_le 1)))
  · exact h
  · exact h.setkouho clrec 0 (Or.inl (Nat.zero_le 1))
  · exact h.setkouho clrec 0 (Or.inl (Nat.zero_le 1))

theorem mkkouho_same (dictlist : List Dict) (ref ref' : SegRef) {clt1st : List Bunsetu}
    (hnum : PlainNumerals clt1st) :
    (mkkouho dictlist ref clt1st).Same (mkkouho dictlist ref' clt1st) := by
  have hstart : (⟨[], 0, ref⟩ : KouhoTbl).Same ⟨[], 0, ref'⟩ := ⟨rfl, rfl⟩
  have hnum : PlainNumerals (recblk clt1st) :=
    fun c hc => hnum c ((List.takeWhile_sublist _).subset hc)
  unfold mkkouho
  generalize recblk clt1st = clauses at hnum
  generalize (⟨[], 0, ref⟩ : KouhoTbl) = t at hstart
  generalize (⟨[], 0, ref'⟩ : KouhoTbl) = t' at hstart
  induction clauses generalizing t t' with
  | nil => exact hstart
  | cons clrec clauses ih =>
      exact ih (fun c hc => hnum c (List.mem_cons_of_mem _ hc)) _ _
        (hstart.getkhtbl dictlist (hnum clrec List.mem_cons_self))

/-- The ranks do not depend on it either. -/
theorem getrank_same {t t' : KouhoTbl} (h : t.Same t') (s : Option Stdy) :
    getrank s t = getrank s t' := by
  rw [getrank, getrank, h.1, h.2]

end Sj3
