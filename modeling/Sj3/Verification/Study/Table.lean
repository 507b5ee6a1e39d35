import Sj3.General.Recency
import Sj3.Model.Study

/-! # The study table

The records of the table in the order of segment and offset, one for a word: the search
finds the record of a word if there is one. -/

namespace Sj3

/-- What a record is the record of. -/
def StdyIn.key (r : StdyIn) : ℤ × ℕ × ℕ := (r.seg, r.offset, r.dicid)

/-- The order of the table. -/
def StdyIn.Le (a b : StdyIn) : Prop := a.seg < b.seg ∨ a.seg = b.seg ∧ a.offset ≤ b.offset

theorem StdyIn.Le.trans {a b c : StdyIn} (hab : a.Le b) (hbc : b.Le c) : a.Le c := by
  unfold StdyIn.Le at *
  omega

theorem StdyIn.Le.seg_le {a b : StdyIn} (h : a.Le b) : a.seg ≤ b.seg := by
  unfold StdyIn.Le at h
  omega

structure StdySorted (recs : List StdyIn) : Prop where
  sorted : recs.Pairwise StdyIn.Le
  nodup : (recs.map StdyIn.key).Nodup
  offset_ne : ∀ r ∈ recs, r.offset ≠ 0

/-- Only the words of the records matter. -/
theorem StdySorted.congr {recs recs' : List StdyIn} (h : StdySorted recs)
    (hkey : recs'.map StdyIn.key = recs.map StdyIn.key) : StdySorted recs' := by
  have hle : ∀ rs : List StdyIn, rs.Pairwise StdyIn.Le ↔
      (rs.map StdyIn.key).Pairwise fun a b => a.1 < b.1 ∨ a.1 = b.1 ∧ a.2.1 ≤ b.2.1 :=
    fun rs => by rw [List.pairwise_map]; rfl
  constructor
  · rw [hle, hkey, ← hle]
    exact h.sorted
  · rw [hkey]
    exact h.nodup
  · intro r hr
    have hmem := List.mem_map_of_mem (f := StdyIn.key) hr
    rw [hkey] at hmem
    obtain ⟨r₀, hr₀, heq⟩ := List.mem_map.mp hmem
    have hofs : r₀.offset = r.offset := congrArg (·.2.1) heq
    rw [← hofs]
    exact h.offset_ne r₀ hr₀

/-- A record for a word that has none, in its place. -/
theorem StdySorted.insert {l r : List StdyIn} (h : StdySorted (l ++ r)) {new : StdyIn}
    (hofs : new.offset ≠ 0) (hnew : ∀ x ∈ l ++ r, x.key ≠ new.key)
    (hl : ∀ x ∈ l, x.Le new) (hr : ∀ x ∈ r, new.Le x) : StdySorted (l ++ new :: r) := by
  have hsorted := List.pairwise_append.mp h.sorted
  constructor
  · rw [List.pairwise_append, List.pairwise_cons]
    refine ⟨hsorted.1, ⟨hr, hsorted.2.1⟩, ?_⟩
    intro a ha b hb
    rcases List.mem_cons.mp hb with rfl | hb
    · exact hl a ha
    · exact hsorted.2.2 a ha b hb
  · rw [List.map_append, List.map_cons, List.nodup_middle, ← List.map_append, List.nodup_cons]
    refine ⟨?_, h.nodup⟩
    intro hmem
    obtain ⟨x, hx, heq⟩ := List.mem_map.mp hmem
    exact hnew x hx heq
  · intro x hx
    rw [List.mem_append, List.mem_cons] at hx
    rcases hx with hx | rfl | hx
    · exact h.offset_ne x (List.mem_append_left _ hx)
    · exact hofs
    · exact h.offset_ne x (List.mem_append_right _ hx)

theorem StdySorted.sublist {recs recs' : List StdyIn} (h : StdySorted recs)
    (hsub : recs'.Sublist recs) : StdySorted recs' :=
  ⟨h.sorted.sublist hsub, (hsub.map _).nodup h.nodup, fun r hr => h.offset_ne r (hsub.subset hr)⟩

namespace Stdy

/-! ## Searching -/

theorem le_of_sorted {recs : List StdyIn} (h : recs.Pairwise StdyIn.Le) {i j : ℕ} (hij : i < j)
    {a b : StdyIn} (ha : recs[i]? = some a) (hb : recs[j]? = some b) : a.Le b := by
  obtain ⟨hi, rfl⟩ := List.getElem?_eq_some_iff.mp ha
  obtain ⟨hj, rfl⟩ := List.getElem?_eq_some_iff.mp hb
  exact List.pairwise_iff_getElem.mp h i j hi hj hij

/-- Between `low` and `high` lie all records of the segment that is sought. -/
structure Within (recs : List StdyIn) (seg low high : ℤ) : Prop where
  low_nonneg : 0 ≤ low
  low_le : low ≤ high
  high_lt : high < recs.length
  below : ∀ (i : ℕ) r, recs[i]? = some r → (i : ℤ) < low → r.seg < seg
  above : ∀ (i : ℕ) r, recs[i]? = some r → high < i → seg < r.seg

/-- The bisection ends at a record of the segment if there is one. -/
theorem bisect_spec {recs : List StdyIn} (h : recs.Pairwise StdyIn.Le) (seg : ℤ) (n : ℕ)
    {low high : ℤ} (hw : Within recs seg low high) (hn : high - low < n) :
    match bisect recs seg n low high with
    | none => ∀ r ∈ recs, r.seg ≠ seg
    | some mid => ∃ r, recs[mid]? = some r ∧ r.seg = seg := by
  induction n generalizing low high with
  | zero =>
      have := hw.low_le
      omega
  | succ n ih =>
      obtain ⟨hlow, hle, hhigh, hbelow, habove⟩ := hw
      have hmid : ((low + high) / 2).toNat < recs.length := by omega
      have hget := List.getElem?_eq_getElem hmid
      rw [bisect]
      simp only [hget]
      by_cases hgt : recs[((low + high) / 2).toNat].seg > seg
      · have habove' : ∀ (i : ℕ) r, recs[i]? = some r → (low + high) / 2 - 1 < i →
            seg < r.seg := by
          intro i r hi hlt
          rcases eq_or_lt_of_le (show ((low + high) / 2).toNat ≤ i by omega) with heq | hlt
          · rw [← heq, hget] at hi
            cases hi
            exact hgt
          · exact lt_of_lt_of_le hgt (le_of_sorted h hlt hget hi).seg_le
        rw [if_pos hgt]
        by_cases hend : low > (low + high) / 2 - 1
        · rw [if_pos hend]
          intro r hr
          obtain ⟨i, hi⟩ := List.mem_iff_getElem?.mp hr
          by_cases hil : (i : ℤ) < low
          · exact (hbelow i r hi hil).ne
          · exact (habove' i r hi (by omega)).ne'
        · rw [if_neg hend]
          exact ih ⟨hlow, by omega, by omega, hbelow, habove'⟩ (by omega)
      · rw [if_neg hgt]
        by_cases hlt : recs[((low + high) / 2).toNat].seg < seg
        · have hbelow' : ∀ (i : ℕ) r, recs[i]? = some r → (i : ℤ) < (low + high) / 2 + 1 →
              r.seg < seg := by
            intro i r hi hil
            rcases eq_or_lt_of_le (show i ≤ ((low + high) / 2).toNat by omega) with heq | hil
            · rw [heq, hget] at hi
              cases hi
              exact hlt
            · exact lt_of_le_of_lt (le_of_sorted h hil hi hget).seg_le hlt
          rw [if_pos hlt]
          by_cases hend : (low + high) / 2 + 1 > high
          · rw [if_pos hend]
            intro r hr
            obtain ⟨i, hi⟩ := List.mem_iff_getElem?.mp hr
            by_cases hih : high < i
            · exact (habove i r hi hih).ne'
            · exact (hbelow' i r hi (by omega)).ne
          · rw [if_neg hend]
            exact ih ⟨by omega, by omega, hhigh, hbelow', habove⟩ (by omega)
        · rw [if_neg hlt]
          exact ⟨_, hget, by omega⟩

/-- The record `r` is that of the word that is sought. -/
def IsOf (seg : ℤ) (ofs dicid : ℕ) (r : StdyIn) : Prop :=
  r.seg = seg ∧ r.offset = ofs ∧ r.dicid = dicid

/-- The walk towards the front finds the word if its record is among those it can meet. -/
theorem walkDown_spec (seg : ℤ) (ofs dicid : ℕ) (front : List StdyIn)
    (h : front.Pairwise fun b a => a.Le b) (hseg : ∀ r ∈ front, r.seg ≤ seg) :
    match walkDown seg ofs dicid front with
    | none => ∀ r ∈ front, ¬ IsOf seg ofs dicid r
    | some i => ∃ l r f, front = l ++ r :: f ∧ f.length = i ∧ IsOf seg ofs dicid r := by
  induction front with
  | nil => simp [walkDown]
  | cons r front ih =>
      obtain ⟨hr, hfront⟩ := List.pairwise_cons.mp h
      rw [walkDown]
      by_cases hne : r.seg ≠ seg
      · rw [if_pos hne]
        intro a ha hof
        have hlt : r.seg < seg := lt_of_le_of_ne (hseg r List.mem_cons_self) hne
        rcases List.mem_cons.mp ha with rfl | ha
        · exact hne hof.1
        · exact absurd ((hr a ha).seg_le.trans_lt hlt) (hof.1 ▸ lt_irrefl _)
      · rw [if_neg hne]
        by_cases hlt : r.offset < ofs
        · rw [if_pos hlt]
          intro a ha hof
          obtain ⟨has, hao, -⟩ := hof
          rcases List.mem_cons.mp ha with rfl | ha
          · omega
          · have := hr a ha
            unfold StdyIn.Le at this
            omega
        · rw [if_neg hlt]
          by_cases hof : r.dicid = dicid ∧ r.offset = ofs
          · rw [if_pos hof]
            exact ⟨[], r, front, rfl, rfl, not_not.mp hne, hof.2, hof.1⟩
          · rw [if_neg hof]
            have ih := ih hfront fun a ha => hseg a (List.mem_cons_of_mem _ ha)
            cases hw : walkDown seg ofs dicid front with
            | none =>
                rw [hw] at ih
                intro a ha hof'
                rcases List.mem_cons.mp ha with rfl | ha
                · exact hof ⟨hof'.2.2, hof'.2.1⟩
                · exact ih a ha hof'
            | some i =>
                rw [hw] at ih
                obtain ⟨l, r', f, rfl, hf, hof'⟩ := ih
                exact ⟨r :: l, r', f, rfl, hf, hof'⟩

/-- The walk towards the end likewise. -/
theorem walkUp_spec (seg : ℤ) (ofs dicid : ℕ) {back : List StdyIn} (h : back.Pairwise StdyIn.Le)
    (hseg : ∀ r ∈ back, seg ≤ r.seg) (i : ℕ) :
    match walkUp seg ofs dicid back i with
    | none => ∀ r ∈ back, ¬ IsOf seg ofs dicid r
    | some j => ∃ l r f, back = l ++ r :: f ∧ i + l.length = j ∧ IsOf seg ofs dicid r := by
  induction back generalizing i with
  | nil => simp [walkUp]
  | cons r back ih =>
      obtain ⟨hr, hback⟩ := List.pairwise_cons.mp h
      rw [walkUp]
      by_cases hne : r.seg ≠ seg
      · rw [if_pos hne]
        intro a ha hof
        have hlt : seg < r.seg := lt_of_le_of_ne (hseg r List.mem_cons_self) hne.symm
        rcases List.mem_cons.mp ha with rfl | ha
        · exact hne hof.1
        · exact absurd (hlt.trans_le (hr a ha).seg_le) (hof.1 ▸ lt_irrefl _)
      · rw [if_neg hne]
        by_cases hgt : r.offset > ofs
        · rw [if_pos hgt]
          intro a ha hof
          obtain ⟨has, hao, -⟩ := hof
          rcases List.mem_cons.mp ha with rfl | ha
          · omega
          · have := hr a ha
            unfold StdyIn.Le at this
            omega
        · rw [if_neg hgt]
          by_cases hof : r.dicid = dicid ∧ r.offset = ofs
          · rw [if_pos hof]
            exact ⟨[], r, back, rfl, rfl, not_not.mp hne, hof.2, hof.1⟩
          · rw [if_neg hof]
            have ih := ih hback (fun a ha => hseg a (List.mem_cons_of_mem _ ha)) (i + 1)
            cases hw : walkUp seg ofs dicid back (i + 1) with
            | none =>
                rw [hw] at ih
                intro a ha hof'
                rcases List.mem_cons.mp ha with rfl | ha
                · exact hof ⟨hof'.2.2, hof'.2.1⟩
                · exact ih a ha hof'
            | some j =>
                rw [hw] at ih
                obtain ⟨l, r', f, rfl, hf, hof'⟩ := ih
                exact ⟨r :: l, r', f, rfl, by rw [List.length_cons]; omega, hof'⟩

/-- The search finds the record of a word if and only if the table has one. -/
theorem srchstdy_spec {s : Stdy} (h : StdySorted s.stdydic) (seg : ℤ) (ofs dicid : ℕ) :
    match s.srchstdy seg ofs dicid with
    | none => ∀ r ∈ s.stdydic, ¬ IsOf seg ofs dicid r
    | some i => ∃ r, s.stdydic[i]? = some r ∧ IsOf seg ofs dicid r := by
  rw [srchstdy]
  by_cases hzero : s.stdycnt = 0 ∨ ofs = 0
  · rw [if_pos hzero]
    intro r hr hof
    rcases hzero with hempty | hofs
    · rw [List.eq_nil_of_length_eq_zero hempty] at hr
      exact List.not_mem_nil hr
    · exact h.offset_ne r hr (hof.2.1.trans hofs)
  · rw [if_neg hzero]
    push Not at hzero
    rw [stdycnt] at hzero ⊢
    have hwithin : Within s.stdydic seg 0 ((s.stdydic.length : ℤ) - 1) := by
      refine ⟨le_refl _, by omega, by omega, by omega, ?_⟩
      intro i r hi hlt
      obtain ⟨hi, -⟩ := List.getElem?_eq_some_iff.mp hi
      omega
    have hb := bisect_spec h.sorted seg (s.stdydic.length + 1) hwithin (by omega)
    cases hmid : bisect s.stdydic seg (s.stdydic.length + 1) 0 ((s.stdydic.length : ℤ) - 1) with
    | none =>
        rw [hmid] at hb
        exact fun r hr hof => hb r hr hof.1
    | some mid =>
        rw [hmid] at hb
        obtain ⟨m, hm, hmseg⟩ := hb
        have hsplit := List.take_append_drop (mid + 1) s.stdydic
        have hsorted := h.sorted
        rw [← hsplit, List.pairwise_append] at hsorted
        obtain ⟨hsfront, hsback, hcross⟩ := hsorted
        have hmfront : m ∈ s.stdydic.take (mid + 1) :=
          List.mem_iff_getElem?.mpr ⟨mid, by rw [List.getElem?_take_of_lt (by omega)]; exact hm⟩
        have hdown := walkDown_spec seg ofs dicid (s.stdydic.take (mid + 1)).reverse
          (List.pairwise_reverse.mpr hsfront) <| by
          intro r hr
          obtain ⟨i, hi⟩ := List.mem_iff_getElem?.mp (List.mem_reverse.mp hr)
          obtain ⟨hil, -⟩ := List.getElem?_eq_some_iff.mp hi
          rw [List.length_take] at hil
          rw [List.getElem?_take_of_lt (by omega)] at hi
          rcases eq_or_lt_of_le (show i ≤ mid by omega) with rfl | hlt
          · rw [hm] at hi
            cases hi
            exact hmseg.le
          · exact hmseg ▸ (le_of_sorted h.sorted hlt hi hm).seg_le
        have hup := walkUp_spec seg ofs dicid hsback
          (fun r hr => hmseg ▸ (hcross m hmfront r hr).seg_le) (mid + 1)
        dsimp only
        cases hwd : walkDown seg ofs dicid (s.stdydic.take (mid + 1)).reverse with
        | some i =>
            rw [hwd] at hdown
            obtain ⟨l, r, f, hf, hlen, hof⟩ := hdown
            have hrev : s.stdydic.take (mid + 1) = f.reverse ++ r :: l.reverse := by
              rw [← List.reverse_reverse (s.stdydic.take (mid + 1)), hf]
              simp
            refine ⟨r, ?_, hof⟩
            rw [← hsplit, hrev, List.append_assoc, List.getElem?_append_right
              (by rw [List.length_reverse, hlen]), List.length_reverse, hlen, Nat.sub_self]
            rfl
        | none =>
            rw [hwd] at hdown
            dsimp only
            cases hwu : walkUp seg ofs dicid (s.stdydic.drop (mid + 1)) (mid + 1) with
            | some j =>
                rw [hwu] at hup
                obtain ⟨l, r, f, hf, hlen, hof⟩ := hup
                refine ⟨r, ?_, hof⟩
                have hget : (s.stdydic.drop (mid + 1))[l.length]? = some r := by
                  rw [hf, List.getElem?_append_right (le_refl _), Nat.sub_self]
                  rfl
                rw [List.getElem?_drop, hlen] at hget
                exact hget
            | none =>
                rw [hwu] at hup
                intro r hr
                rw [← hsplit] at hr
                rcases List.mem_append.mp hr with hr | hr
                · exact hdown r (List.mem_reverse.mpr hr)
                · exact hup r hr

/-- The record of a word. -/
def recordOf (s : Stdy) (seg : ℤ) (ofs dicid : ℕ) : Option StdyIn :=
  (s.srchstdy seg ofs dicid).bind fun i => s.stdydic[i]?

theorem recordOf_eq_some {s : Stdy} (h : StdySorted s.stdydic) {seg : ℤ} {ofs dicid : ℕ}
    {r : StdyIn} :
    s.recordOf seg ofs dicid = some r ↔ r ∈ s.stdydic ∧ IsOf seg ofs dicid r := by
  have hspec := srchstdy_spec h seg ofs dicid
  rw [recordOf]
  cases hs : s.srchstdy seg ofs dicid with
  | none =>
      rw [hs] at hspec
      exact ⟨fun hc => absurd hc (by simp), fun hc => absurd hc.2 (hspec r hc.1)⟩
  | some i =>
      rw [hs] at hspec
      obtain ⟨r', hget, hof⟩ := hspec
      rw [Option.bind_some, hget, Option.some_inj]
      constructor
      · rintro rfl
        exact ⟨List.mem_of_getElem? hget, hof⟩
      · intro hr
        apply List.inj_on_of_nodup_map h.nodup (List.mem_of_getElem? hget) hr.1
        rw [StdyIn.key, StdyIn.key, hof.1, hof.2.1, hof.2.2, hr.2.1, hr.2.2.1, hr.2.2.2]

end Stdy

end Sj3
