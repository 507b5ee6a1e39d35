import Sj3.Verification.Study.Table

/-! # Studying a word

What `study` makes of the study table: the word's record gets number 1, the others keep
their order, and if a new record finds the table full the oldest one leaves. -/

namespace Sj3

open Recency

/-- The record becomes one less recent. -/
def StdyIn.older (r : StdyIn) : StdyIn := { r with styno := r.styno + 1 }

/-- The record becomes one less recent if it is more recent than number `top`. -/
def StdyIn.makeWay (top : ℤ) (r : StdyIn) : StdyIn := if r.styno < top then r.older else r

/-- The record of a word that is studied for the first time. -/
def newStdyIn (outp : StdyOut) : StdyIn :=
  { outp.stdy1 with
    styno := 1
    sttkj := if outp.sttfg then outp.stdy1.sttkj else false
    ka_kj := if outp.ka_fg then outp.stdy1.ka_kj else false }

/-- The record of a word that is studied again. -/
def StdyIn.again (outp : StdyOut) (r : StdyIn) : StdyIn :=
  { r with
    styno := 1
    sttkj := if outp.sttfg then outp.stdy1.sttkj else r.sttkj
    ka_kj := if outp.ka_fg then outp.stdy1.ka_kj else r.ka_kj
    nmflg := outp.stdy1.nmflg }

/-- The word a client has studied. -/
def StdyOut.Of (outp : StdyOut) (r : StdyIn) : Prop :=
  Stdy.IsOf outp.stdy1.seg outp.stdy1.offset outp.stdy1.dicid r

/-- The number of a record. -/
def StdyIn.num (r : StdyIn) : ℕ := r.styno.toNat

/-- The records of a table: in order, and numbered from 1 on. -/
structure StdyRanked (recs : List StdyIn) : Prop extends StdySorted recs where
  pos : ∀ r ∈ recs, 0 < r.styno
  ranked : Ranked (recs.map StdyIn.num)

/-- What one call of `study` does to the records: the word has one already; there is room
for one; or the oldest one leaves. -/
inductive StudyStep (recs : List StdyIn) (outp : StdyOut) : List StdyIn → Prop
  | again {l r : List StdyIn} {old : StdyIn} (hrecs : recs = l ++ old :: r) (hof : outp.Of old) :
      StudyStep recs outp
        (l.map (StdyIn.makeWay old.styno) ++ old.again outp :: r.map (StdyIn.makeWay old.styno))
  | room {l r : List StdyIn} (hrecs : recs = l ++ r) (hof : ∀ x ∈ l ++ r, ¬ outp.Of x)
      (hl : ∀ x ∈ l, x.Le (newStdyIn outp)) (hr : ∀ x ∈ r, (newStdyIn outp).Le x) :
      StudyStep recs outp (l.map StdyIn.older ++ newStdyIn outp :: r.map StdyIn.older)
  | full {l r l' r' : List StdyIn} {old : StdyIn} (hrecs : recs = l' ++ old :: r')
      (hof : ∀ x ∈ recs, ¬ outp.Of x) (hold : ∀ x ∈ l' ++ r', x.styno < old.styno)
      (hkept : l' ++ r' = l ++ r)
      (hl : ∀ x ∈ l, x.Le (newStdyIn outp)) (hr : ∀ x ∈ r, (newStdyIn outp).Le x) :
      StudyStep recs outp (l.map StdyIn.older ++ newStdyIn outp :: r.map StdyIn.older)

namespace Stdy

/-! ## The operations of `study` -/

theorem short_of_le {n : ℤ} (hlow : -0x8000 ≤ n) (hhigh : n < 0x8000) : short n = n := by
  unfold short
  omega

/-- Where the records a condition holds of end. -/
theorem exists_takeWhile (p : StdyIn → Bool) (recs : List StdyIn) :
    ∃ front back, recs = front ++ back ∧ recs.takeWhile p = front ∧ (∀ x ∈ front, p x) ∧
      ∀ a ∈ back.head?, ¬ p a := by
  induction recs with
  | nil => exact ⟨[], [], rfl, rfl, by simp, by simp⟩
  | cons r recs ih =>
      by_cases hr : p r
      · obtain ⟨front, back, rfl, htake, hfront, hback⟩ := ih
        refine ⟨r :: front, back, rfl, ?_, ?_, hback⟩
        · rw [List.takeWhile_cons_of_pos hr, htake]
        · intro x hx
          rcases List.mem_cons.mp hx with rfl | hx
          · exact hr
          · exact hfront x hx
      · exact ⟨[], r :: recs, rfl, List.takeWhile_cons_of_neg hr, by simp, by simpa using hr⟩

/-- In a sorted list it is enough to look at the first record. -/
theorem forall_of_head {recs : List StdyIn} (h : recs.Pairwise StdyIn.Le) {new : StdyIn}
    (hhead : ∀ a ∈ recs.head?, new.Le a) : ∀ x ∈ recs, new.Le x := by
  cases recs with
  | nil => simp
  | cons a recs =>
      have ha := hhead a rfl
      intro x hx
      rcases List.mem_cons.mp hx with rfl | hx
      · exact ha
      · exact ha.trans (List.rel_of_pairwise_cons h hx)

theorem insertRec_spec {recs : List StdyIn} (h : recs.Pairwise StdyIn.Le) (outp : StdyOut) :
    ∃ l r, recs = l ++ r ∧ insertRec recs outp = l ++ newStdyIn outp :: r ∧
      (∀ x ∈ l, x.Le (newStdyIn outp)) ∧ ∀ x ∈ r, (newStdyIn outp).Le x := by
  obtain ⟨below, rest, rfl, hbelow, hlt, hrest⟩ :=
    exists_takeWhile (fun r => r.seg < outp.stdy1.seg) recs
  obtain ⟨same, back, rfl, hsame, hle, hback⟩ :=
    exists_takeWhile (fun r => r.seg = outp.stdy1.seg ∧ ¬ r.offset > outp.stdy1.offset) rest
  have hpos : insertPos (below ++ (same ++ back)) outp.stdy1.seg outp.stdy1.offset =
      (below ++ same).length := by
    rw [insertPos, hbelow, List.drop_left, hsame, List.length_append]
  have hsorted := (List.pairwise_append.mp h).2.1
  have hge : ∀ x ∈ same ++ back, outp.stdy1.seg ≤ x.seg := by
    intro x hx
    cases hhead : same ++ back with
    | nil => simp [hhead] at hx
    | cons a tail =>
        have ha := hrest a (by rw [hhead]; rfl)
        rw [hhead] at hx hsorted
        have ha : outp.stdy1.seg ≤ a.seg := by simpa using ha
        rcases List.mem_cons.mp hx with rfl | hx
        · exact ha
        · exact ha.trans (List.rel_of_pairwise_cons hsorted hx).seg_le
  refine ⟨below ++ same, back, (List.append_assoc _ _ _).symm, ?_, ?_, ?_⟩
  · rw [insertRec, hpos, ← List.append_assoc, List.take_left, List.drop_left]
    rfl
  · intro x hx
    rcases List.mem_append.mp hx with hx | hx
    · exact Or.inl (of_decide_eq_true (hlt x hx))
    · have hle := of_decide_eq_true (hle x hx)
      exact Or.inr ⟨hle.1, not_lt.mp hle.2⟩
  · apply forall_of_head (List.pairwise_append.mp hsorted).2.1
    intro a ha
    have hnot := hback a ha
    have hseg := hge a (List.mem_append_right _ (List.mem_of_mem_head? ha))
    rw [decide_eq_true_eq] at hnot
    unfold StdyIn.Le newStdyIn
    dsimp only
    omega

/-- The ageing loop makes every record one less recent and finds the oldest. -/
theorem age_spec {recs : List StdyIn} (hshort : ∀ r ∈ recs, short (r.styno + 1) = r.styno + 1)
    (i : ℕ) (wi : ℤ) (p2 : Option ℕ) :
    (age recs i wi p2).1 = recs.map StdyIn.older ∧
      (((age recs i wi p2).2 = p2 ∧ ∀ r ∈ recs, r.styno + 1 ≤ wi) ∨
        ∃ l r f, recs = l ++ r :: f ∧ (age recs i wi p2).2 = some (i + l.length) ∧
          wi < r.styno + 1 ∧ ∀ x ∈ l ++ f, x.styno ≤ r.styno) := by
  induction recs generalizing i wi p2 with
  | nil => exact ⟨rfl, Or.inl ⟨rfl, by simp⟩⟩
  | cons r recs ih =>
      have hr := hshort r List.mem_cons_self
      have ih := ih fun x hx => hshort x (List.mem_cons_of_mem _ hx)
      rw [age]
      dsimp only
      rw [hr]
      by_cases hgt : r.styno + 1 > wi
      · rw [if_pos hgt]
        obtain ⟨hmap, hcase⟩ := ih (i + 1) (r.styno + 1) (some i)
        refine ⟨by rw [hmap]; rfl, Or.inr ?_⟩
        rcases hcase with ⟨hsome, hle⟩ | ⟨l, r', f, rfl, hsome, hlt, hle⟩
        · exact ⟨[], r, recs, rfl, by rw [hsome]; rfl, hgt, fun x hx => by
            have := hle x hx; omega⟩
        · refine ⟨r :: l, r', f, rfl, ?_, by omega, ?_⟩
          · rw [hsome, List.length_cons]
            congr 1
            omega
          · intro x hx
            rcases List.mem_cons.mp hx with rfl | hx
            · omega
            · exact hle x hx
      · rw [if_neg hgt]
        obtain ⟨hmap, hcase⟩ := ih (i + 1) wi p2
        refine ⟨by rw [hmap]; rfl, ?_⟩
        rcases hcase with ⟨hnone, hle⟩ | ⟨l, r', f, rfl, hsome, hlt, hle⟩
        · left
          refine ⟨hnone, ?_⟩
          intro x hx
          rcases List.mem_cons.mp hx with rfl | hx
          · omega
          · exact hle x hx
        · right
          refine ⟨r :: l, r', f, rfl, ?_, hlt, ?_⟩
          · rw [hsome, List.length_cons]
            congr 1
            omega
          · intro x hx
            rcases List.mem_cons.mp hx with rfl | hx
            · omega
            · exact hle x hx

theorem modify_middle (l r : List StdyIn) (x : StdyIn) (f : StdyIn → StdyIn) :
    (l ++ x :: r).modify l.length f = l ++ f x :: r := by
  induction l with
  | nil => rfl
  | cons a l ih => rw [List.cons_append, List.length_cons, List.modify_succ_cons, ih]; rfl

theorem eraseIdx_middle (l r : List StdyIn) (x : StdyIn) :
    (l ++ x :: r).eraseIdx l.length = l ++ r := by
  induction l with
  | nil => rfl
  | cons a l ih => rw [List.cons_append, List.length_cons, List.eraseIdx_cons_succ, ih]; rfl

theorem restudy_spec {l r : List StdyIn} {old : StdyIn}
    (hshort : ∀ x ∈ l ++ old :: r, short (x.styno + 1) = x.styno + 1) (outp : StdyOut) :
    restudy (l ++ old :: r) l.length outp =
      l.map (StdyIn.makeWay old.styno) ++ old.again outp :: r.map (StdyIn.makeWay old.styno) := by
  have hget : (l ++ old :: r)[l.length]? = some old := by
    rw [List.getElem?_append_right (le_refl _), Nat.sub_self]
    rfl
  have hmap : ((l ++ old :: r).map fun x =>
      if x.styno < old.styno then { x with styno := short (x.styno + 1) } else x) =
      (l ++ old :: r).map (StdyIn.makeWay old.styno) := by
    apply List.map_congr_left
    intro x hx
    rw [StdyIn.makeWay, StdyIn.older, hshort x hx]
  have hold : old.makeWay old.styno = old := by
    rw [StdyIn.makeWay, if_neg (lt_irrefl _)]
  rw [restudy, hget]
  dsimp only
  rw [hmap, List.map_append, List.map_cons, hold,
    ← List.length_map (f := StdyIn.makeWay old.styno), modify_middle]
  rfl

end Stdy

/-! ## One call -/

open Stdy

theorem StdyRanked.styno_le {recs : List StdyIn} (h : StdyRanked recs) {r : StdyIn}
    (hr : r ∈ recs) : r.styno ≤ recs.length := by
  have hle := h.ranked.le (List.mem_map_of_mem (f := StdyIn.num) hr)
  rw [List.length_map, StdyIn.num] at hle
  omega

theorem not_of_none {s : Stdy} (h : StdySorted s.stdydic) {outp : StdyOut}
    (hnone : s.srchstdy outp.stdy1.seg outp.stdy1.offset outp.stdy1.dicid = none) :
    ∀ x ∈ s.stdydic, ¬ outp.Of x := by
  have hspec := srchstdy_spec h outp.stdy1.seg outp.stdy1.offset outp.stdy1.dicid
  rw [hnone] at hspec
  exact hspec

/-- A new record among records that became less recent. -/
theorem insertRec_older {recs : List StdyIn} (h : recs.Pairwise StdyIn.Le) (outp : StdyOut) :
    ∃ l r, recs = l ++ r ∧ insertRec (recs.map StdyIn.older) outp =
        l.map StdyIn.older ++ newStdyIn outp :: r.map StdyIn.older ∧
      (∀ x ∈ l, x.Le (newStdyIn outp)) ∧ ∀ x ∈ r, (newStdyIn outp).Le x := by
  have holder : (recs.map StdyIn.older).Pairwise StdyIn.Le := List.pairwise_map.mpr h
  obtain ⟨l', r', hsplit, hins, hl, hr⟩ := insertRec_spec holder outp
  obtain ⟨l, r, rfl, rfl, rfl⟩ := List.map_eq_append_iff.mp hsplit
  exact ⟨l, r, rfl, hins, fun x hx => hl x.older (List.mem_map_of_mem hx),
    fun x hx => hr x.older (List.mem_map_of_mem hx)⟩

theorem StdyRanked.styno_ne {l r : List StdyIn} {old : StdyIn}
    (h : StdyRanked (l ++ old :: r)) : ∀ x ∈ l ++ r, x.styno ≠ old.styno := by
  intro x hx heq
  have hranked := h.ranked
  rw [List.map_append, List.map_cons] at hranked
  apply hranked.split.1
  rw [StdyIn.num, ← heq, ← List.map_append]
  exact List.mem_map_of_mem (f := StdyIn.num) hx

/-- Every call that studies a word is one of the three steps, as long as the numbers do not
exceed a `short`. -/
theorem study_step {s : Stdy} (h : StdyRanked s.stdydic) {outp : StdyOut}
    (hofs : outp.stdy1.offset ≠ 0)
    (hmax : s.stdydic.length < 0x7fff) (hzero : 0 < s.stdymax) :
    StudyStep s.stdydic outp (s.study outp).1.stdydic := by
  have hshort : ∀ x ∈ s.stdydic, short (x.styno + 1) = x.styno + 1 := by
    intro x hx
    have := h.styno_le hx
    have := h.pos x hx
    exact short_of_le (by omega) (by omega)
  rw [study, if_neg hofs]
  cases hsrch : s.srchstdy outp.stdy1.seg outp.stdy1.offset outp.stdy1.dicid with
  | some i =>
      have hspec := srchstdy_spec h.toStdySorted outp.stdy1.seg outp.stdy1.offset outp.stdy1.dicid
      rw [hsrch] at hspec
      obtain ⟨old, hget, hof⟩ := hspec
      obtain ⟨hi, hold⟩ := List.getElem?_eq_some_iff.mp hget
      have hsplit : s.stdydic = s.stdydic.take i ++ old :: s.stdydic.drop (i + 1) := by
        rw [← hold, List.getElem_cons_drop, List.take_append_drop]
      have hlen : (s.stdydic.take i).length = i := List.length_take_of_le hi.le
      rw [hsplit] at hshort
      have hre := restudy_spec hshort outp
      rw [hlen, ← hsplit] at hre
      dsimp only
      rw [hre]
      exact .again hsplit hof
  | none =>
      have hof := not_of_none h.toStdySorted hsrch
      dsimp only
      by_cases hfull : s.stdycnt ≥ s.stdymax
      · rw [if_pos hfull]
        obtain ⟨hmap, hcase⟩ := age_spec hshort 0 0 none
        rcases hcase with ⟨-, hle⟩ | ⟨l, old, f, hsplit, hsome, -, hle⟩
        · -- a table without records is not full
          exfalso
          cases hrecs : s.stdydic with
          | nil =>
              rw [stdycnt, hrecs, List.length_nil] at hfull
              omega
          | cons x recs =>
              have hx : x ∈ s.stdydic := by rw [hrecs]; exact List.mem_cons_self
              have := hle x hx
              have := h.pos x hx
              omega
        · rw [Nat.zero_add] at hsome
          have hpair : age s.stdydic 0 0 none = (s.stdydic.map StdyIn.older, some l.length) := by
            rw [← hmap, ← hsome]
          have herase : (s.stdydic.map StdyIn.older).eraseIdx l.length =
              (l ++ f).map StdyIn.older := by
            rw [hsplit, List.map_append, List.map_cons,
              ← List.length_map (f := StdyIn.older), eraseIdx_middle, List.map_append]
          have hlt : ∀ x ∈ l ++ f, x.styno < old.styno :=
            fun x hx => lt_of_le_of_ne (hle x hx) ((hsplit ▸ h).styno_ne x hx)
          have hkept : (l ++ f).Pairwise StdyIn.Le := by
            have := hsplit ▸ h.sorted
            exact this.sublist ((List.sublist_cons_self old f).append_left l)
          obtain ⟨l', r', hlr, hins, hl, hr⟩ := insertRec_older hkept outp
          rw [hpair]
          dsimp only
          rw [herase, hins]
          exact .full hsplit hof hlt hlr hl hr
      · rw [if_neg hfull]
        have hmap : (s.stdydic.map fun r => { r with styno := short (r.styno + 1) }) =
            s.stdydic.map StdyIn.older := by
          apply List.map_congr_left
          intro x hx
          rw [hshort x hx]
          rfl
        obtain ⟨l, r, hlr, hins, hl, hr⟩ := insertRec_older h.sorted outp
        dsimp only
        rw [hmap, hins]
        exact .room hlr (hlr ▸ hof) hl hr

/-! ## What a step keeps -/

theorem num_older {r : StdyIn} (h : 0 < r.styno) : r.older.num = r.num + 1 := by
  unfold StdyIn.older StdyIn.num
  dsimp only
  omega

theorem num_makeWay {r : StdyIn} (h : 0 < r.styno) {top : ℤ} (htop : 0 < top) :
    (r.makeWay top).num = Recency.makeWay top.toNat r.num := by
  unfold StdyIn.makeWay Recency.makeWay StdyIn.num
  by_cases hlt : r.styno < top
  · rw [if_pos hlt, if_pos (by omega)]
    exact num_older h
  · rw [if_neg hlt, if_neg (by omega)]

theorem styno_makeWay_pos {r : StdyIn} (h : 0 < r.styno) (top : ℤ) : 0 < (r.makeWay top).styno := by
  unfold StdyIn.makeWay StdyIn.older
  split
  · dsimp only
    omega
  · exact h

@[simp] theorem key_makeWay (top : ℤ) (r : StdyIn) : (r.makeWay top).key = r.key := by
  unfold StdyIn.makeWay
  split <;> rfl

@[simp] theorem key_older (r : StdyIn) : r.older.key = r.key := rfl

@[simp] theorem key_again (outp : StdyOut) (r : StdyIn) : (r.again outp).key = r.key := rfl

theorem map_num_older {recs : List StdyIn} (h : ∀ r ∈ recs, 0 < r.styno) :
    (recs.map StdyIn.older).map StdyIn.num = (recs.map StdyIn.num).map (· + 1) := by
  rw [List.map_map, List.map_map]
  exact List.map_congr_left fun r hr => num_older (h r hr)

theorem map_num_makeWay {recs : List StdyIn} (h : ∀ r ∈ recs, 0 < r.styno) {top : ℤ}
    (htop : 0 < top) :
    (recs.map (StdyIn.makeWay top)).map StdyIn.num =
      (recs.map StdyIn.num).map (Recency.makeWay top.toNat) := by
  rw [List.map_map, List.map_map]
  exact List.map_congr_left fun r hr => num_makeWay (h r hr) htop

theorem map_key_older (recs : List StdyIn) :
    (recs.map StdyIn.older).map StdyIn.key = recs.map StdyIn.key := by
  rw [List.map_map]
  rfl

theorem map_key_makeWay (top : ℤ) (recs : List StdyIn) :
    (recs.map (StdyIn.makeWay top)).map StdyIn.key = recs.map StdyIn.key := by
  rw [List.map_map]
  exact List.map_congr_left fun r _ => key_makeWay top r

theorem key_eq_iff {outp : StdyOut} {r : StdyIn} : outp.Of r ↔ r.key = (newStdyIn outp).key := by
  unfold StdyOut.Of Stdy.IsOf StdyIn.key newStdyIn
  rw [Prod.mk.injEq, Prod.mk.injEq]

theorem StdyRanked.older {l r : List StdyIn} (h : StdyRanked (l ++ r)) {outp : StdyOut}
    (hofs : outp.stdy1.offset ≠ 0) (hof : ∀ x ∈ l ++ r, ¬ outp.Of x)
    (hl : ∀ x ∈ l, x.Le (newStdyIn outp)) (hr : ∀ x ∈ r, (newStdyIn outp).Le x) :
    StdyRanked (l.map StdyIn.older ++ newStdyIn outp :: r.map StdyIn.older) := by
  have hins := @StdySorted.insert _ _ h.toStdySorted (newStdyIn outp) hofs
    (fun x hx heq => hof x hx (key_eq_iff.mpr heq)) hl hr
  refine ⟨hins.congr ?_, ?_, ?_⟩
  · simp only [List.map_append, List.map_cons, map_key_older]
  · intro x hx
    rw [List.mem_append, List.mem_cons] at hx
    have holder : ∀ y ∈ l ++ r, 0 < y.older.styno := by
      intro y hy
      have := h.pos y hy
      unfold StdyIn.older
      dsimp only
      omega
    rcases hx with hx | rfl | hx
    · obtain ⟨y, hy, rfl⟩ := List.mem_map.mp hx
      exact holder y (List.mem_append_left _ hy)
    · exact Int.one_pos
    · obtain ⟨y, hy, rfl⟩ := List.mem_map.mp hx
      exact holder y (List.mem_append_right _ hy)
  · have hranked := h.ranked
    rw [List.map_append] at hranked
    rw [List.map_append, List.map_cons,
      map_num_older fun y hy => h.pos y (List.mem_append_left _ hy),
      map_num_older fun y hy => h.pos y (List.mem_append_right _ hy)]
    exact hranked.push

theorem StudyStep.ranked {recs recs' : List StdyIn} {outp : StdyOut}
    (hofs : outp.stdy1.offset ≠ 0) (h : StudyStep recs outp recs') (hrecs : StdyRanked recs) :
    StdyRanked recs' := by
  cases h with
  | @again l r old hsplit hof =>
      subst hsplit
      have hold := hrecs.pos old (by simp)
      have hposl : ∀ x ∈ l, 0 < x.styno := fun x hx => hrecs.pos x (List.mem_append_left _ hx)
      have hposr : ∀ x ∈ r, 0 < x.styno :=
        fun x hx => hrecs.pos x (List.mem_append_right _ (List.mem_cons_of_mem _ hx))
      refine ⟨hrecs.toStdySorted.congr ?_, ?_, ?_⟩
      · simp only [List.map_append, List.map_cons, map_key_makeWay, key_again]
      · intro x hx
        rw [List.mem_append, List.mem_cons] at hx
        rcases hx with hx | rfl | hx
        · obtain ⟨y, hy, rfl⟩ := List.mem_map.mp hx
          exact styno_makeWay_pos (hposl y hy) _
        · exact Int.one_pos
        · obtain ⟨y, hy, rfl⟩ := List.mem_map.mp hx
          exact styno_makeWay_pos (hposr y hy) _
      · have hranked := hrecs.ranked
        rw [List.map_append, List.map_cons] at hranked
        rw [List.map_append, List.map_cons, map_num_makeWay hposl hold, map_num_makeWay hposr hold]
        exact hranked.promote
  | @room l r hsplit hof hl hr =>
      subst hsplit
      exact hrecs.older hofs hof hl hr
  | @full l r l' r' old hsplit hof hold hkept hl hr =>
      subst hsplit
      have hsub : (l' ++ r').Sublist (l' ++ old :: r') :=
        (List.sublist_cons_self old r').append_left l'
      have hleft : StdyRanked (l' ++ r') := by
        refine ⟨hrecs.toStdySorted.sublist hsub, fun x hx => hrecs.pos x (hsub.subset hx), ?_⟩
        have hranked := hrecs.ranked
        rw [List.map_append, List.map_cons] at hranked
        rw [List.map_append]
        apply hranked.drop_last
        intro m hm
        rw [← List.map_append] at hm
        obtain ⟨x, hx, rfl⟩ := List.mem_map.mp hm
        have hlt := hold x hx
        have := hrecs.pos x (hsub.subset hx)
        unfold StdyIn.num
        omega
      rw [hkept] at hleft hsub
      exact hleft.older hofs (fun x hx => hof x (hsub.subset hx)) hl hr

/-- The studied word's record becomes number 1. -/
theorem StudyStep.exists_first {recs recs' : List StdyIn} {outp : StdyOut}
    (h : StudyStep recs outp recs') :
    ∃ r ∈ recs', outp.Of r ∧ r.styno = 1 ∧
      ((∃ old ∈ recs, outp.Of old ∧ r = old.again outp) ∨
        (∀ x ∈ recs, ¬ outp.Of x) ∧ r = newStdyIn outp) := by
  cases h with
  | @again l r old hsplit hof =>
      exact ⟨old.again outp, by simp, hof, rfl, Or.inl ⟨old, by simp [hsplit], hof, rfl⟩⟩
  | room hsplit hof =>
      exact ⟨newStdyIn outp, by simp, ⟨rfl, rfl, rfl⟩, rfl, Or.inr ⟨hsplit ▸ hof, rfl⟩⟩
  | full hsplit hof =>
      exact ⟨newStdyIn outp, by simp, ⟨rfl, rfl, rfl⟩, rfl, Or.inr ⟨hof, rfl⟩⟩

theorem StudyStep.length_le {recs recs' : List StdyIn} {outp : StdyOut}
    (h : StudyStep recs outp recs') : recs'.length ≤ recs.length + 1 := by
  cases h with
  | again hsplit => simp [hsplit]
  | room hsplit => simp [hsplit]; omega
  | full hsplit _ _ hkept =>
      have := congrArg List.length hkept
      simp only [List.length_append] at this
      simp [hsplit]
      omega

end Sj3
