import Sj3.General.Macro
import Sj3.Verification.Mkdic.Tables

/-! # Abbreviating a string

The compiler's code string for a kanji string stands for it, and no other one is shorter. -/

namespace Sj3.Mkdic

open Macro

/-! ## Codes -/

/-- The codes of a string. -/
def codesOf : Bytes → List Bytes
  | [] => []
  | c :: k =>
      if codesize c = 1 then [c] :: codesOf k
      else
        match k with
        | [] => [[c]]
        | c' :: k => [c, c'] :: codesOf k

/-- The first byte of a code that is neither the end of the string or of the strings of a grammar
code nor names another string. -/
def IsLiteral (c : UInt8) : Prop :=
  c &&& kanjiModeMask ≠ kanjiStrEnd ∧ c &&& kanjiModeMask ≠ offsetAssyuku ∧
    c &&& kanjiModeMask ≠ kanjiAssyuku ∧ c ≠ hinsiBlkTerm

instance IsLiteral.decidable (c : UInt8) : Decidable (IsLiteral c) :=
  inferInstanceAs (Decidable (_ ∧ _))

theorem IsLiteral.ne_end {c : UInt8} (h : IsLiteral c) : c ≠ kanjiStrEnd := by
  rintro rfl
  exact h.1 (by decide)

/-- A string of codes none of which names another string. -/
inductive IsPlainCodes : Bytes → Prop
  | nil : IsPlainCodes []
  | short {c : UInt8} {k : Bytes} (hs : codesize c = 1) (hl : IsLiteral c)
      (hk : IsPlainCodes k) : IsPlainCodes (c :: k)
  | long {c c' : UInt8} {k : Bytes} (hs : codesize c ≠ 1) (hl : IsLiteral c)
      (hk : IsPlainCodes k) : IsPlainCodes (c :: c' :: k)

theorem IsPlainCodes.isCodes {k : Bytes} (h : IsPlainCodes k) : IsCodes k := by
  induction h with
  | nil => exact .nil
  | short hs hl hk ih => exact .short hl.ne_end hs ih
  | long hs hl hk ih => exact .long hl.ne_end hs ih

theorem IsPlainCodes.append {k l : Bytes} (hk : IsPlainCodes k) (hl : IsPlainCodes l) :
    IsPlainCodes (k ++ l) := by
  induction hk with
  | nil => exact hl
  | short hs hc hk ih => exact .short hs hc ih
  | long hs hc hk ih => exact .long hs hc ih

theorem codesize_cases (c : UInt8) : codesize c = 1 ∨ codesize c = 2 := by
  rw [codesize]
  split
  · exact .inl rfl
  · exact .inr rfl

theorem codesOf_short {c : UInt8} (hs : codesize c = 1) (k : Bytes) :
    codesOf (c :: k) = [c] :: codesOf k := by
  rw [codesOf.eq_def]
  exact if_pos hs

theorem codesOf_long {c : UInt8} (hs : codesize c ≠ 1) (c' : UInt8) (k : Bytes) :
    codesOf (c :: c' :: k) = [c, c'] :: codesOf k := by
  rw [codesOf.eq_def]
  exact if_neg hs

theorem codesOf_append {k : Bytes} (hk : IsCodes k) (l : Bytes) :
    codesOf (k ++ l) = codesOf k ++ codesOf l := by
  induction hk with
  | nil => rfl
  | short h₀ hs hk ih =>
      rw [List.cons_append, codesOf_short hs, codesOf_short hs, ih, List.cons_append]
  | long h₀ hs hk ih =>
      rw [List.cons_append, List.cons_append, codesOf_long hs, codesOf_long hs, ih,
        List.cons_append]

theorem flatten_codesOf {k : Bytes} (hk : IsCodes k) : (codesOf k).flatten = k := by
  induction hk with
  | nil => rfl
  | short h₀ hs hk ih => rw [codesOf_short hs, List.flatten_cons, ih, List.singleton_append]
  | long h₀ hs hk ih =>
      rw [codesOf_long hs, List.flatten_cons, ih, List.cons_append, List.singleton_append]

theorem codesOf_ne_nil {k : Bytes} (hne : k ≠ []) (hk : IsCodes k) : codesOf k ≠ [] := by
  intro h
  apply hne
  rw [← flatten_codesOf hk, h, List.flatten_nil]

/-! ## Codes that name strings -/

private theorem offsetCode_facts : ∀ hi : Fin 16,
    let c := offsetAssyuku ||| UInt8.ofNat hi
    c ≠ kanjiStrEnd ∧ codesize c ≠ 1 ∧ c &&& kanjiModeMask = offsetAssyuku ∧
      (c &&& kanjiCodeMask).toNat = hi ∧ c ≠ hinsiBlkTerm := by
  decide

private theorem askCode_facts : ∀ i : Fin 16,
    let c := kanjiAssyuku ||| UInt8.ofNat i
    c ≠ kanjiStrEnd ∧ codesize c = 1 ∧ c &&& kanjiModeMask = kanjiAssyuku ∧
      (c &&& kanjiCodeMask).toNat = i ∧ c ≠ hinsiBlkTerm := by
  decide

/-- The code of a number that fits is one of two bytes, from which it can be told again. -/
theorem offsetCode_spec {num : ℕ} (h : num < 0x1000) :
    ∃ c c', offsetCode num = [c, c'] ∧ c ≠ kanjiStrEnd ∧ codesize c ≠ 1 ∧
      c &&& kanjiModeMask = offsetAssyuku ∧ offsetOf c c' = num ∧ c ≠ hinsiBlkTerm := by
  have hhi : (num >>> 8) % 0x100 < 16 := by
    rw [Nat.shiftRight_eq_div_pow]
    omega
  obtain ⟨h₀, hs, hm, hn, ht⟩ := offsetCode_facts ⟨_, hhi⟩
  refine ⟨_, _, rfl, h₀, hs, hm, ?_, ht⟩
  have hlow : (UInt8.ofNat num).toNat = num % 256 := UInt8.toNat_ofNat'
  have hdiv : num >>> 8 = num / 2 ^ 8 := Nat.shiftRight_eq_div_pow _ _
  rw [offsetOf, hlow, hn]
  simp only
  omega

theorem askCode_spec {i : ℕ} (h : i < maxKnjAskNumber) :
    ∃ c, askCode i = [c] ∧ c ≠ kanjiStrEnd ∧ codesize c = 1 ∧
      c &&& kanjiModeMask = kanjiAssyuku ∧ (c &&& kanjiCodeMask).toNat = i ∧ c ≠ hinsiBlkTerm :=
  ⟨_, rfl, askCode_facts ⟨i, h⟩⟩

/-- What a code stands for: for itself, for a string of the table of at least three bytes, or for
an association string. -/
inductive CodeFor (ofsrec : List OffsetRec) (askknj : List Bytes) : Bytes → Bytes → Prop
  | short {c : UInt8} (hs : codesize c = 1) (hl : IsLiteral c) : CodeFor ofsrec askknj [c] [c]
  | long {c c' : UInt8} (hs : codesize c ≠ 1) (hl : IsLiteral c) :
      CodeFor ofsrec askknj [c, c'] [c, c']
  | offset {p : OffsetRec} (hp : p ∈ ofsrec) (hlen : 2 < p.kptr.length) :
      CodeFor ofsrec askknj (offsetCode p.offset) p.kptr
  | ask {i : ℕ} {s : Bytes} (hi : askknj[i]? = some s) : CodeFor ofsrec askknj (askCode i) s

/-- The tables the abbreviation of a string is looked up in. -/
structure Abbrevs (ofsrec : List OffsetRec) (askknj : List Bytes) : Prop where
  sorted : SortedBy OffsetRec.kptr ofsrec
  plain : ∀ p ∈ ofsrec, IsPlainCodes p.kptr
  offset_pos : ∀ p ∈ ofsrec, p.offset ≠ 0
  ask_plain : ∀ s ∈ askknj, IsPlainCodes s
  ask_ne : ∀ s ∈ askknj, s ≠ []

variable {ofsrec : List OffsetRec} {askknj : List Bytes} {knj code x k : Bytes} {n : ℕ}

namespace Abbrevs

theorem isPlainCodes (h : Abbrevs ofsrec askknj) (hx : CodeFor ofsrec askknj code x) :
    IsPlainCodes x := by
  cases hx with
  | short hs hl => exact .short hs hl .nil
  | long hs hl => exact .long hs hl .nil
  | offset hp hlen => exact h.plain _ hp
  | ask hi => exact h.ask_plain _ (List.mem_of_getElem? hi)

theorem ne_nil (h : Abbrevs ofsrec askknj) (hx : CodeFor ofsrec askknj code x) : x ≠ [] := by
  cases hx with
  | short hs hl => simp
  | long hs hl => simp
  | offset hp hlen =>
      rintro he
      simp [he] at hlen
  | ask hi => exact h.ask_ne _ (List.mem_of_getElem? hi)

end Abbrevs

theorem CodeFor.length_pos (hx : CodeFor ofsrec askknj code x) : 0 < code.length := by
  cases hx <;> simp [offsetCode, askCode]

/-! ## The ends of codes -/

/-- A plain string ends where one of the codes does that it starts with. -/
theorem mem_codeEnds {x : Bytes} (hx : IsPlainCodes x) (hne : x ≠ []) (i : ℕ) (k : Bytes) :
    i + x.length ∈ codeEnds i (x ++ k) := by
  induction hx generalizing i with
  | nil => exact absurd rfl hne
  | @short c l hs hc hk ih =>
      rw [List.cons_append, codeEnds.eq_def]
      simp only [hs, if_true]
      by_cases hl : l = []
      · simp [hl]
      · have := ih hl (i + 1)
        rw [List.length_cons, Nat.add_comm l.length, ← Nat.add_assoc]
        exact List.mem_cons_of_mem _ this
  | @long c c' l hs hc hk ih =>
      rw [List.cons_append, List.cons_append, codeEnds.eq_def]
      simp only [hs, if_false]
      by_cases hl : l = []
      · simp [hl]
      · have := ih hl (i + 2)
        have he : i + (c :: c' :: l).length = i + 2 + l.length := by
          simp only [List.length_cons]
          omega
        rw [he]
        exact List.mem_cons_of_mem _ this

/-- Behind the end of a code the string is plain again. -/
theorem plain_drop_of_mem_codeEnds {knj : Bytes} (h : IsPlainCodes knj) {i j : ℕ}
    (hj : j ∈ codeEnds i knj) :
    i < j ∧ j - i ≤ knj.length ∧ IsPlainCodes (knj.drop (j - i)) := by
  induction h generalizing i with
  | nil => simp [codeEnds] at hj
  | @short c l hs hc hk ih =>
      rw [codeEnds.eq_def] at hj
      simp only [hs, if_true, List.mem_cons] at hj
      rcases hj with rfl | hj
      · simpa using hk
      · obtain ⟨hlt, hle, hp⟩ := ih hj
        obtain ⟨m, hm⟩ : ∃ m, j - i = m + 1 := ⟨j - i - 1, by omega⟩
        have hm' : j - (i + 1) = m := by omega
        rw [hm'] at hp hle
        rw [hm, List.drop_succ_cons, List.length_cons]
        exact ⟨by omega, by omega, hp⟩
  | @long c c' l hs hc hk ih =>
      rw [codeEnds.eq_def] at hj
      simp only [hs, if_false, List.mem_cons] at hj
      rcases hj with rfl | hj
      · simpa using hk
      · obtain ⟨hlt, hle, hp⟩ := ih hj
        obtain ⟨m, hm⟩ : ∃ m, j - i = m + 2 := ⟨j - i - 2, by omega⟩
        have hm' : j - (i + 2) = m := by omega
        rw [hm'] at hp hle
        rw [hm, List.drop_succ_cons, List.drop_succ_cons, List.length_cons, List.length_cons]
        exact ⟨by omega, by omega, hp⟩

/-! ## Choosing -/

section Choose

variable {α : Type*} {f : DivList → α → DivList} {g : α → DivList} {list : List α}
  {minrec : DivList}

/-- Every turn of a loop keeps what it has, or chooses between that and another choice. -/
theorem foldl_choose {Q : DivList → Prop} (hf : ∀ m, ∀ a ∈ list, f m a = m ∨
    Q (g a) ∧ f m a = m.choose (g a)) (h : Q minrec) : Q (list.foldl f minrec) := by
  induction list generalizing minrec with
  | nil => exact h
  | cons a list ih =>
      apply ih fun m b hb => hf m b (by simp [hb])
      rcases hf minrec a (by simp) with he | ⟨hq, he⟩
      · rw [he]
        exact h
      · rw [he, DivList.choose]
        split
        · exact hq
        · exact h

theorem DivList.choose_le (m t : DivList) :
    (m.choose t).len ≤ m.len ∧ (m.choose t).len ≤ t.len := by
  rw [DivList.choose]
  split
  · exact ⟨by omega, le_rfl⟩
  · exact ⟨le_rfl, by omega⟩

/-- What is chosen is not longer than what there was. -/
theorem foldl_choose_le (hf : ∀ m, ∀ a ∈ list, f m a = m ∨ f m a = m.choose (g a)) :
    (list.foldl f minrec).len ≤ minrec.len := by
  induction list generalizing minrec with
  | nil => exact le_rfl
  | cons a list ih =>
      refine (ih fun m b hb => hf m b (by simp [hb])).trans ?_
      rcases hf minrec a (by simp) with he | he
      · rw [he]
      · rw [he]
        exact (DivList.choose_le _ _).1

/-- Nor is it longer than any of the choices. -/
theorem foldl_choose_le_of_mem (hf : ∀ m, ∀ a ∈ list, f m a = m ∨ f m a = m.choose (g a)) {a : α}
    (ha : a ∈ list) (hg : ∀ m, f m a = m.choose (g a)) : (list.foldl f minrec).len ≤ (g a).len := by
  induction list generalizing minrec with
  | nil => simp at ha
  | cons b list ih =>
      have hf' : ∀ m, ∀ a ∈ list, f m a = m ∨ f m a = m.choose (g a) :=
        fun m c hc => hf m c (by simp [hc])
      rcases List.mem_cons.mp ha with rfl | ha
      · refine (foldl_choose_le hf').trans ?_
        rw [hg]
        exact (DivList.choose_le _ _).2
      · exact ih hf' ha

end Choose

/-! ## The codes that are chosen -/

/-- The choice of a code and of what is found for the string behind the first `j` bytes. -/
def choice (ofsrec : List OffsetRec) (askknj : List Bytes) (n : ℕ) (knj code : Bytes) (j : ℕ) :
    DivList := .cons code (makeDivlist ofsrec askknj n (knj.drop j))

theorem makeDivlist_succ (ofsrec : List OffsetRec) (askknj : List Bytes) (n : ℕ)
    (hlen : 2 ≤ knj.length) :
    makeDivlist ofsrec askknj (n + 1) knj =
      (askknj.zipIdx).foldl (fun minrec p =>
          if p.1.length > knj.length ∨ stringCmp p.1 (knj.take p.1.length) ≠ 0 then minrec
          else minrec.choose (choice ofsrec askknj n knj (askCode p.2) p.1.length))
        ((codeEnds 0 knj).foldl (fun minrec j =>
            if j ≤ 2 ∨ isknjexist ofsrec (knj.take j) = 0 then minrec
            else minrec.choose
              (choice ofsrec askknj n knj (offsetCode (isknjexist ofsrec (knj.take j))) j))
          (choice ofsrec askknj n knj (knj.take (codesize (knj.headD 0)))
            (codesize (knj.headD 0)))) := by
  rw [makeDivlist, if_neg (by omega), if_neg (by omega)]
  rfl

/-- The codes stand for `knj`, and their length is told right. -/
def Divides (ofsrec : List OffsetRec) (askknj : List Bytes) (knj : Bytes) (r : DivList) : Prop :=
  r.len = r.codes.flatten.length ∧ Macro.Spells (CodeFor ofsrec askknj) r.codes knj

theorem Divides.cons {r : DivList} (hx : CodeFor ofsrec askknj code x)
    (h : Divides ofsrec askknj k r) : Divides ofsrec askknj (x ++ k) (.cons code r) := by
  refine ⟨?_, .cons hx h.2⟩
  rw [DivList.cons, h.1, List.flatten_cons, List.length_append, Nat.add_comm]

/-- The first code of a plain string. -/
theorem IsPlainCodes.head (ofsrec : List OffsetRec) (askknj : List Bytes) (h : IsPlainCodes knj)
    (hne : knj ≠ []) :
    CodeFor ofsrec askknj (knj.take (codesize (knj.headD 0))) (knj.take (codesize (knj.headD 0))) ∧
      IsPlainCodes (knj.drop (codesize (knj.headD 0))) := by
  cases h with
  | nil => exact absurd rfl hne
  | @short c l hs hl hk =>
      rw [List.headD_cons, hs]
      exact ⟨.short hs hl, hk⟩
  | @long c c' l hs hl hk =>
      have hs' : codesize c = 2 := (codesize_cases c).resolve_left hs
      rw [List.headD_cons, hs']
      exact ⟨.long hs hl, hk⟩

theorem IsPlainCodes.behind (hx : IsCodes x) (h : IsPlainCodes (x ++ k)) : IsPlainCodes k := by
  induction hx with
  | nil => exact h
  | @short c x h₀ hs hx ih =>
      rw [List.cons_append] at h
      generalize x ++ k = l at h ih
      cases h with
      | short _ _ h => exact ih h
      | long hs' _ _ => exact absurd hs hs'
  | @long c c' x h₀ hs hx ih =>
      rw [List.cons_append, List.cons_append] at h
      generalize x ++ k = l at h ih
      cases h with
      | short hs' _ _ => exact absurd hs' hs
      | long _ _ h => exact ih h

/-- What a turn over the strings of the table finds. -/
theorem Abbrevs.table_step (h : Abbrevs ofsrec askknj) {j : ℕ}
    (hj : ¬ (j ≤ 2 ∨ isknjexist ofsrec (knj.take j) = 0)) (hle : j ≤ knj.length) :
    CodeFor ofsrec askknj (offsetCode (isknjexist ofsrec (knj.take j))) (knj.take j) := by
  rw [not_or] at hj
  obtain ⟨p, hp, hk, ho⟩ := isknjexist_ne_zero h.sorted hj.2
  rw [← ho, ← hk]
  apply CodeFor.offset hp
  rw [hk, List.length_take]
  omega

/-- What a turn over the association strings finds. -/
theorem ask_step (ofsrec : List OffsetRec) {p : Bytes × ℕ} (hp : p ∈ askknj.zipIdx)
    (hj : ¬ (p.1.length > knj.length ∨ stringCmp p.1 (knj.take p.1.length) ≠ 0)) :
    p.1 ∈ askknj ∧ knj.take p.1.length = p.1 ∧ CodeFor ofsrec askknj (askCode p.2) p.1 := by
  rw [not_or, not_not] at hj
  have hi : askknj[p.2]? = some p.1 := List.mem_zipIdx_iff_getElem?.mp hp
  exact ⟨List.mem_of_getElem? hi, ((stringCmp_eq_zero_iff _ _).mp hj.2).symm, .ask hi⟩

/-- The codes `make_divlist` finds stand for the string. -/
theorem Abbrevs.makeDivlist_divides (h : Abbrevs ofsrec askknj) (hknj : IsPlainCodes knj)
    (hn : knj.length ≤ n) : Divides ofsrec askknj knj (makeDivlist ofsrec askknj n knj) := by
  induction n generalizing knj with
  | zero =>
      obtain rfl : knj = [] := List.length_eq_zero_iff.mp (by omega)
      exact ⟨rfl, .nil⟩
  | succ n ih =>
      by_cases hnil : knj = []
      · subst hnil
        exact ⟨rfl, .nil⟩
      by_cases hone : knj.length = 1
      · rw [makeDivlist, if_neg (by omega), if_pos hone]
        obtain ⟨c, rfl⟩ := List.length_eq_one_iff.mp hone
        cases hknj with
        | short hs hl hk =>
            exact Divides.cons (k := []) (r := ⟨0, []⟩) (.short hs hl) ⟨rfl, .nil⟩
      have hpos := List.length_pos_of_ne_nil hnil
      rw [makeDivlist_succ ofsrec askknj n (by omega)]
      -- what is behind a code that takes something is divided already
      have hbehind : ∀ {code : Bytes} {j : ℕ}, 0 < j → CodeFor ofsrec askknj code (knj.take j) →
          IsPlainCodes (knj.drop j) →
          Divides ofsrec askknj knj (choice ofsrec askknj n knj code j) := by
        intro code j hj hcode hdrop
        have hdiv := (ih hdrop (by rw [List.length_drop]; omega)).cons hcode
        rwa [List.take_append_drop] at hdiv
      apply foldl_choose
      · intro m p hp
        by_cases hj : p.1.length > knj.length ∨ stringCmp p.1 (knj.take p.1.length) ≠ 0
        · exact .inl (if_pos hj)
        · obtain ⟨hmem, htake, hcode⟩ := ask_step ofsrec hp hj
          refine .inr ⟨hbehind ?_ (htake.symm ▸ hcode) ?_, if_neg hj⟩
          · exact List.length_pos_of_ne_nil (h.ask_ne _ hmem)
          · apply IsPlainCodes.behind (h.ask_plain _ hmem).isCodes
            rw [← htake, List.length_take_of_le (by omega), List.take_append_drop]
            exact hknj
      · apply foldl_choose
        · intro m j hj
          by_cases hno : j ≤ 2 ∨ isknjexist ofsrec (knj.take j) = 0
          · exact .inl (if_pos hno)
          · obtain ⟨hpos, hle, hdrop⟩ := plain_drop_of_mem_codeEnds hknj hj
            rw [Nat.sub_zero] at hle hdrop
            exact .inr ⟨hbehind hpos (h.table_step hno hle) hdrop, if_neg hno⟩
        · obtain ⟨hcode, hdrop⟩ := hknj.head ofsrec askknj hnil
          refine hbehind ?_ hcode hdrop
          rcases codesize_cases (knj.headD 0) with hs | hs <;> omega

/-! ## The shortest ones -/

/-- A nonempty spelling takes a byte. -/
theorem length_pos_of_spells {s : List Bytes} (h : Macro.Spells (CodeFor ofsrec askknj) s knj)
    (hne : knj ≠ []) : 0 < s.flatten.length := by
  cases h with
  | nil => exact absurd rfl hne
  | cons ha h =>
      have := ha.length_pos
      rw [List.flatten_cons, List.length_append]
      omega

/-- No codes that stand for the string are shorter. -/
theorem Abbrevs.makeDivlist_le (h : Abbrevs ofsrec askknj) {s : List Bytes}
    (hs : Macro.Spells (CodeFor ofsrec askknj) s knj) (hn : knj.length ≤ n) :
    (makeDivlist ofsrec askknj n knj).len ≤ s.flatten.length := by
  induction n generalizing knj s with
  | zero => exact Nat.zero_le _
  | succ n ih =>
      by_cases hnil : knj = []
      · subst hnil
        exact Nat.zero_le _
      by_cases hone : knj.length = 1
      · rw [makeDivlist, if_neg (by omega), if_pos hone]
        exact length_pos_of_spells hs hnil
      have hpos := List.length_pos_of_ne_nil hnil
      rw [makeDivlist_succ ofsrec askknj n (by omega)]
      cases hs with
      | nil => exact absurd rfl hnil
      | @cons code x s k ha hs =>
          have hx : 0 < x.length := List.length_pos_of_ne_nil (h.ne_nil ha)
          have hk : k.length ≤ n := by
            rw [List.length_append] at hn
            omega
          -- the choice that starts with this code is short enough
          have hchoice : (choice ofsrec askknj n (x ++ k) code x.length).len ≤
              ((code :: s).flatten).length := by
            rw [choice, List.drop_left, DivList.cons, List.flatten_cons, List.length_append]
            have := ih hs hk
            simp only
            omega
          have hask : ∀ (m : DivList), ∀ p ∈ askknj.zipIdx,
              (if p.1.length > (x ++ k).length ∨ stringCmp p.1 ((x ++ k).take p.1.length) ≠ 0
                then m
                else m.choose (choice ofsrec askknj n (x ++ k) (askCode p.2) p.1.length)) = m ∨
              (if p.1.length > (x ++ k).length ∨ stringCmp p.1 ((x ++ k).take p.1.length) ≠ 0
                then m
                else m.choose (choice ofsrec askknj n (x ++ k) (askCode p.2) p.1.length)) =
                m.choose (choice ofsrec askknj n (x ++ k) (askCode p.2) p.1.length) :=
            fun m p _ => ite_eq_or_eq _ _ _
          have htable : ∀ (m : DivList), ∀ j ∈ codeEnds 0 (x ++ k),
              (if j ≤ 2 ∨ isknjexist ofsrec ((x ++ k).take j) = 0 then m
                else m.choose (choice ofsrec askknj n (x ++ k)
                  (offsetCode (isknjexist ofsrec ((x ++ k).take j))) j)) = m ∨
              (if j ≤ 2 ∨ isknjexist ofsrec ((x ++ k).take j) = 0 then m
                else m.choose (choice ofsrec askknj n (x ++ k)
                  (offsetCode (isknjexist ofsrec ((x ++ k).take j))) j)) =
                m.choose (choice ofsrec askknj n (x ++ k)
                  (offsetCode (isknjexist ofsrec ((x ++ k).take j))) j) :=
            fun m j _ => ite_eq_or_eq _ _ _
          cases ha with
          | @short c hc hl =>
              refine (foldl_choose_le hask).trans ((foldl_choose_le htable).trans ?_)
              simpa [hc] using hchoice
          | @long c c' hc hl =>
              have hc' : codesize c = 2 := (codesize_cases c).resolve_left hc
              refine (foldl_choose_le hask).trans ((foldl_choose_le htable).trans ?_)
              simpa [hc'] using hchoice
          | @offset p hp hlen =>
              have hnum : isknjexist ofsrec ((p.kptr ++ k).take p.kptr.length) = p.offset := by
                rw [List.take_left]
                exact isknjexist_of_mem h.sorted hp
              have hmem := mem_codeEnds (h.plain p hp) (h.ne_nil (.offset hp hlen)) 0 k
              rw [Nat.zero_add] at hmem
              refine (foldl_choose_le hask).trans
                ((foldl_choose_le_of_mem htable hmem ?_).trans ?_)
              · intro m
                apply if_neg
                rw [not_or, hnum]
                exact ⟨by omega, h.offset_pos p hp⟩
              · rw [hnum]
                exact hchoice
          | @ask i s' hi =>
              have hmem : (x, i) ∈ askknj.zipIdx := List.mem_zipIdx_iff_getElem?.mpr hi
              refine (foldl_choose_le_of_mem hask hmem ?_).trans hchoice
              intro m
              apply if_neg
              rw [not_or, not_not, List.take_left, List.length_append]
              exact ⟨Nat.not_lt.mpr (Nat.le_add_right _ _), (stringCmp_eq_zero_iff _ _).mpr rfl⟩

/-- The abbreviation of a string stands for it, and no other code string that does is shorter. -/
theorem knjcvt_shortest (ofsrec : List OffsetRec) (askknj : List Bytes) (ptr : Bytes)
    (h : Abbrevs ofsrec askknj) (hptr : IsPlainCodes ptr) :
    ∃ s, knjcvt ofsrec askknj ptr = some s.flatten ∧ Macro.Spells (CodeFor ofsrec askknj) s ptr ∧
      ∀ s', Macro.Spells (CodeFor ofsrec askknj) s' ptr → s.flatten.length ≤ s'.flatten.length := by
  obtain ⟨hlen, hs⟩ := h.makeDivlist_divides hptr le_rfl
  refine ⟨_, ?_, hs, fun s' hs' => ?_⟩
  · rw [knjcvt]
    exact if_neg (not_not.mpr hlen)
  · rw [← hlen]
    exact h.makeDivlist_le hs' le_rfl

/-- Two characters that are there already, and a third one that has an association code. -/
def sampleOfsrec : List OffsetRec := [⟨[0x30, 0x21, 0x30, 0x22], 9⟩]

theorem sample_abbrevs : Abbrevs sampleOfsrec [[0x30, 0x23]] where
  sorted := List.pairwise_singleton _ _
  plain := by
    intro p hp
    rw [List.mem_singleton.mp hp]
    exact .long (by decide) (by decide) (.long (by decide) (by decide) .nil)
  offset_pos := by simp [sampleOfsrec]
  ask_plain := by
    intro s hs
    rw [List.mem_singleton.mp hs]
    exact .long (by decide) (by decide) .nil
  ask_ne := by simp

theorem knjcvt_shortest_sample :
    ∃ s : List Bytes, some [0x90, 9, 0xc0] = some s.flatten ∧
      ∀ s', Macro.Spells (CodeFor sampleOfsrec [[0x30, 0x23]]) s'
          [0x30, 0x21, 0x30, 0x22, 0x30, 0x23] → s.flatten.length ≤ s'.flatten.length := by
  have hplain : IsPlainCodes [0x30, 0x21, 0x30, 0x22, 0x30, 0x23] :=
    (sample_abbrevs.plain _ (List.mem_singleton.mpr rfl)).append
      (sample_abbrevs.ask_plain _ (List.mem_singleton.mpr rfl))
  obtain ⟨s, hs, -, hle⟩ := knjcvt_shortest sampleOfsrec [[0x30, 0x23]] _ sample_abbrevs hplain
  have he : knjcvt sampleOfsrec [[0x30, 0x23]] [0x30, 0x21, 0x30, 0x22, 0x30, 0x23] =
      some [0x90, 9, 0xc0] := by decide
  exact ⟨s, he ▸ hs, hle⟩

end Sj3.Mkdic
