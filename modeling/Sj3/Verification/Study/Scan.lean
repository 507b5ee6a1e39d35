import Sj3.Verification.Study.Index

/-! # Searching the clause-study area through its index

The search starts at the first record of one bucket and stops at the first record behind the
reading. It hands on what a scan of the whole area hands on. -/

namespace Sj3

open PrefixFree

/-- The reading `x` starts with the one of the record, and no dependent code follows. -/
def ClRec.Suits (x : Bytes) (r : ClRec) : Prop :=
  r.yomi <+: x ∧ isdpnd (x.getD r.yomi.length 0) = false

instance (x : Bytes) (r : ClRec) : Decidable (r.Suits x) :=
  inferInstanceAs (Decidable (_ ∧ _))

/-- Every record of the area is looked at, from the one at `p` on. -/
def clScan (x : Bytes) : ℕ → Bytes → List Bytes
  | 0, _ => []
  | n + 1, p =>
      if Stdy.iseocl p then []
      else if (Stdy.clYomiPos p).take (Stdy.clYomiLen p) <+: x ∧
          isdpnd (x.getD (Stdy.clYomiLen p) 0) = false then
        p :: clScan x n (Stdy.clNextTag p)
      else clScan x n (Stdy.clNextTag p)

/-- Where in the area the records stand that suit the reading, in their order. -/
def clSuiting (x : Bytes) (free : ℕ) : List ClRec → List Bytes
  | [] => []
  | r :: recs =>
      if r.Suits x then clArea (r :: recs) free :: clSuiting x free recs
      else clSuiting x free recs

theorem clScan_clArea (x : Bytes) (free : ℕ) {recs : List ClRec} {n : ℕ}
    (h : ∀ r ∈ recs, r.Fits) (hn : recs.length ≤ n) :
    clScan x n (clArea recs free) = clSuiting x free recs := by
  induction recs generalizing n with
  | nil =>
      cases n with
      | zero => rfl
      | succ n => exact if_pos (iseocl_zeros free)
  | cons r recs ih =>
      have hr := h r List.mem_cons_self
      have hrest := fun m hm => ih (n := m) (fun t ht => h t (List.mem_cons_of_mem _ ht)) hm
      cases n with
      | zero => exact absurd hn (Nat.not_succ_le_zero _)
      | succ n =>
          rw [clScan, clSuiting, clArea_cons, if_neg (by simp [iseocl_bytes hr]),
            clYomiPos_bytes, clYomiLen_bytes hr, List.take_left, clNextTag_bytes hr,
            hrest n (Nat.le_of_succ_le_succ hn)]
          rfl

/-! ## Where the search stops -/

/-- The three answers of the comparison, for a reading without terminators in front. -/
theorem sstrncmp_spec (x : Bytes) {y : Bytes} (hy : 0 ∉ y) (rest : Bytes) :
    (sstrncmp x (y ++ rest) y.length = .match ∧ y <+: x) ∨
      (sstrncmp x (y ++ rest) y.length = .over ∧ Before x y) ∨
      (sstrncmp x (y ++ rest) y.length ≠ .match ∧ sstrncmp x (y ++ rest) y.length ≠ .over ∧
        ¬ y <+: x) := by
  induction y generalizing x with
  | nil => exact .inl ⟨rfl, List.nil_prefix⟩
  | cons b y ih =>
      simp only [List.mem_cons, not_or] at hy
      cases x with
      | nil =>
          have hpos : (0 : UInt8) < b := UInt8.pos_iff_ne_zero.mpr (Ne.symm hy.1)
          have hpartly : sstrncmp [] (b :: y ++ rest) (b :: y).length = .partly :=
            (if_neg hpos.asymm).trans ((if_pos hpos).trans (if_pos rfl))
          rw [hpartly]
          exact .inr (.inr ⟨by decide, by decide, by simp⟩)
      | cons a x =>
          have hstep : sstrncmp (a :: x) (b :: y ++ rest) (b :: y).length =
              if b < a then .cont
              else if a < b then if a = 0 then .partly else .over
              else sstrncmp x (y ++ rest) y.length := rfl
          rw [hstep]
          rcases lt_trichotomy a b with hlt | rfl | hgt
          · have hno : ¬ b :: y <+: a :: x := fun hp =>
              hlt.ne (List.cons_prefix_cons.mp hp).1.symm
            rw [if_neg hlt.asymm, if_pos hlt]
            by_cases ha : a = 0
            · rw [if_pos ha]
              exact .inr (.inr ⟨by decide, by decide, hno⟩)
            · rw [if_neg ha]
              exact .inr (.inl ⟨rfl, .here hlt⟩)
          · rw [if_neg (lt_irrefl a), if_neg (lt_irrefl a), List.cons_prefix_cons]
            simpa using (ih x hy.2).imp id (Or.imp (fun h => ⟨h.1, Before.there h.2⟩) id)
          · have hno : ¬ b :: y <+: a :: x := fun hp =>
              hgt.ne (List.cons_prefix_cons.mp hp).1
            rw [if_pos hgt]
            exact .inr (.inr ⟨by decide, by decide, hno⟩)

/-- No record suits a reading that one of another place starts. -/
theorem clSuiting_none {x : Bytes} {recs : List ClRec} (free : ℕ)
    (h : ∀ r ∈ recs, ¬ r.Suits x) : clSuiting x free recs = [] := by
  induction recs with
  | nil => rfl
  | cons r recs ih =>
      rw [clSuiting, if_neg (h r List.mem_cons_self),
        ih fun t ht => h t (List.mem_cons_of_mem _ ht)]

theorem clSuiting_append {x : Bytes} {l : List ClRec} (recs : List ClRec) (free : ℕ)
    (h : ∀ r ∈ l, ¬ r.Suits x) : clSuiting x free (l ++ recs) = clSuiting x free recs := by
  induction l with
  | nil => rfl
  | cons r l ih =>
      rw [List.cons_append, clSuiting, if_neg (h r List.mem_cons_self),
        ih fun t ht => h t (List.mem_cons_of_mem _ ht)]

/-- Stopping at the first record behind the reading loses nothing: the records are in
reading order. -/
theorem dicClLoop_clArea (x : Bytes) (free : ℕ) {recs : List ClRec} {n : ℕ}
    (h : ∀ r ∈ recs, r.Fits) (hzero : ∀ r ∈ recs, 0 ∉ r.yomi)
    (hbefore : recs.Pairwise fun r t => Before r.yomi t.yomi) (hn : recs.length ≤ n) :
    Stdy.dicClLoop x n (clArea recs free) = clSuiting x free recs := by
  induction recs generalizing n with
  | nil =>
      cases n with
      | zero => rfl
      | succ n => exact if_pos (iseocl_zeros free)
  | cons r recs ih =>
      have hr := h r List.mem_cons_self
      have hrest := fun m hm => ih (n := m) (fun t ht => h t (List.mem_cons_of_mem _ ht))
        (fun t ht => hzero t (List.mem_cons_of_mem _ ht)) hbefore.of_cons hm
      cases n with
      | zero => exact absurd hn (Nat.not_succ_le_zero _)
      | succ n =>
          rw [Stdy.dicClLoop, clArea_cons, if_neg (by simp [iseocl_bytes hr])]
          simp only [clYomiPos_bytes, clYomiLen_bytes hr, clNextTag_bytes hr,
            hrest n (Nat.le_of_succ_le_succ hn), clSuiting, clArea_cons]
          rcases sstrncmp_spec x (hzero r List.mem_cons_self) (clArea recs free) with
            ⟨heq, hp⟩ | ⟨heq, hb⟩ | ⟨hmatch, hover, hp⟩
          · rw [heq]
            by_cases hd : isdpnd (x.getD r.yomi.length 0) = true
            · have hno : ¬ r.Suits x := fun hs => by rw [hs.2] at hd; cases hd
              simp only [if_pos hd, if_neg hno]
            · have hyes : r.Suits x := ⟨hp, by simpa using hd⟩
              simp only [if_neg hd, if_pos hyes]
          · have hnone : ∀ t ∈ r :: recs, ¬ t.Suits x := by
              intro t ht hs
              have hbt : Before x t.yomi := by
                rcases List.mem_cons.mp ht with rfl | ht
                · exact hb
                · exact hb.trans ((List.pairwise_cons.mp hbefore).1 t ht)
              exact not_related_of_before hbt (.inr hs.1)
            rw [heq, if_neg (hnone r List.mem_cons_self),
              clSuiting_none free fun t ht => hnone t (List.mem_cons_of_mem _ ht)]
          · have hno : ¬ r.Suits x := fun hs => hp hs.1
            rw [if_neg hno]
            split
            · exact absurd ‹_› hmatch
            · exact absurd ‹_› hover
            · rfl

/-! ## Where the search starts -/

/-- A record that suits the reading is in the bucket of its first code. -/
theorem ClRec.Suits.bucket {x : Bytes} {r : ClRec} (hs : r.Suits x) (hne : r.yomi ≠ []) {step : ℕ}
    (hstep : 0 < step) :
    clBucket ((x.headD 0).toNat / step * step) step r = true := by
  have hhead : r.yomi.headD 0 = x.headD 0 := by
    obtain ⟨a, y, hy⟩ := List.exists_cons_of_ne_nil hne
    obtain ⟨t, ht⟩ := hs.1
    rw [← ht, hy]
    rfl
  apply decide_eq_true
  rw [hhead]
  have hdiv := Nat.div_add_mod (x.headD 0).toNat step
  have hmod := Nat.mod_lt (x.headD 0).toNat hstep
  rw [Nat.mul_comm] at hdiv
  omega

/-- The first record with a property splits the area. -/
theorem clFirst_split {p : ClRec → Bool} {recs : List ClRec} {ofs pos : ℕ}
    (h : clFirst p recs ofs = some pos) :
    ∃ l rs, recs = l ++ rs ∧ (∀ r ∈ l, p r = false) ∧ pos = ofs + (clBytes l).length ∧
      rs ≠ [] := by
  induction recs generalizing ofs with
  | nil => cases h
  | cons r recs ih =>
      rw [clFirst] at h
      by_cases hp : p r = true
      · rw [if_pos hp] at h
        cases h
        exact ⟨[], r :: recs, rfl, by simp, rfl, by simp⟩
      · rw [if_neg hp] at h
        obtain ⟨l, rs, rfl, hl, hpos, hne⟩ := ih h
        refine ⟨r :: l, rs, rfl, ?_, ?_, hne⟩
        · intro t ht
          rcases List.mem_cons.mp ht with rfl | ht
          · simpa using hp
          · exact hl t ht
        · rw [hpos, clBytes_cons, List.length_append, Nat.add_assoc]

theorem clFirst_eq_none {p : ClRec → Bool} {recs : List ClRec} {ofs : ℕ}
    (h : clFirst p recs ofs = none) : ∀ r ∈ recs, p r = false := by
  induction recs generalizing ofs with
  | nil => simp
  | cons r recs ih =>
      rw [clFirst] at h
      split at h
      · cases h
      · intro t ht
        rcases List.mem_cons.mp ht with rfl | ht
        · simpa using ‹¬ p t = true›
        · exact ih h t ht

theorem ClStudied.dicCl {s : Stdy} {recs : List ClRec} (h : ClStudied s recs) {free : ℕ}
    (harea : s.clstdydic = clArea recs free) (x : Bytes) :
    Stdy.dicCl (some s) x = clSuiting x free recs := by
  have hfits := h.fits h.count_lt
  have hcount := length_le_length_clBytes recs
  have hhead : (x.headD 0).toNat < 0x100 := UInt8.toNat_lt _
  have hb : (x.headD 0).toNat / s.clstdystep * s.clstdystep < 0x100 :=
    (Nat.div_mul_le_self _ _).trans_lt hhead
  have hsuits : ∀ r ∈ recs, clBucket ((x.headD 0).toNat / s.clstdystep * s.clstdystep)
      s.clstdystep r = false → ¬ r.Suits x := by
    intro r hr hfalse hs
    rw [hs.bucket (h.yomi_ne_nil r hr) h.step_pos] at hfalse
    cases hfalse
  rw [Stdy.dicCl, List.getD_eq_getElem?_getD, h.indexed _ hb, Option.getD_some]
  cases hfirst : clFirst (clBucket ((x.headD 0).toNat / s.clstdystep * s.clstdystep)
      s.clstdystep) recs 0 with
  | none =>
      have hnone := clFirst_eq_none hfirst
      rw [clSuiting_none free fun r hr => hsuits r hr (hnone r hr)]
      rfl
  | some pos =>
      obtain ⟨l, rs, rfl, hl, hpos, hne⟩ := clFirst_split hfirst
      have hlen : (clBytes l).length < 0xffff := by
        have hle := h.length_le
        rw [harea, length_clArea, clBytes_append, List.length_append, maxClLen] at hle
        omega
      have hpos' : pos = (clBytes l).length := by omega
      have hdrop : s.clstdydic.drop pos = clArea rs free := by
        rw [harea, clArea_append, hpos', List.drop_left]
      have hne' : pos ≠ 0xffff := by omega
      simp only [Option.getD_some, if_pos hne', hdrop]
      rw [clSuiting_append rs free fun r hr => hsuits r (List.mem_append_left _ hr) (hl r hr)]
      apply dicClLoop_clArea
      · exact fun t ht => hfits t (List.mem_append_right _ ht)
      · exact fun t ht => h.zero_notMem t (List.mem_append_right _ ht)
      · exact (List.pairwise_append.mp h.before).2.1
      · rw [harea, length_clArea]
        simp only [List.length_append] at hcount ⊢
        omega

/-- With the index `mkclidx` makes, the search hands on the records a scan of the whole area
finds, in the same order: those that start the reading with no dependent code behind. -/
theorem dicCl_eq_clScan {s : Stdy} {recs : List ClRec} {free : ℕ} (h : ClOrdered recs)
    (hfree : 0 < free) (harea : s.clstdydic = clArea recs free)
    (hlen : s.clstdydic.length ≤ maxClLen) (hstep : 0 < s.clstdystep)
    (hidx : s.clstdyidx.length = 0x100) (x : Bytes) :
    Stdy.dicCl (some s.mkclidx) x = clScan x s.clstdydic.length s.clstdydic ∧
      clScan x s.clstdydic.length s.clstdydic = clSuiting x free recs := by
  have hstudied := mkclidx_studied h hfree harea hlen hstep hidx
  have hscan : clScan x s.clstdydic.length s.clstdydic = clSuiting x free recs := by
    have hcount := length_le_length_clBytes recs
    rw [harea]
    apply clScan_clArea x free (h.fits hstudied.count_lt)
    rw [length_clArea]
    omega
  refine ⟨?_, hscan⟩
  rw [hscan]
  exact hstudied.dicCl harea x

/-- Three records in two buckets of 64 codes; the reading starts with the second one. -/
def threeClRecs : List ClRec :=
  [⟨[0x4f, 0x50], 1, 1, 1⟩, ⟨[0x51, 0x52], 1, 1, 3⟩, ⟨[0x91, 0x52], 1, 1, 2⟩]

def threeClStdy : Stdy := ⟨1, [], 64, List.replicate 0x100 0, clArea threeClRecs 4⟩

theorem threeClStdy_dicCl :
    Stdy.dicCl (some threeClStdy.mkclidx) [0x51, 0x52, 0x53] =
        clScan [0x51, 0x52, 0x53] 25 threeClStdy.clstdydic ∧
      clScan [0x51, 0x52, 0x53] 25 threeClStdy.clstdydic =
        clSuiting [0x51, 0x52, 0x53] 4 threeClRecs := by
  have hord : ClOrdered threeClRecs := by
    refine ⟨by decide, by decide, by decide, by decide, ?_,
      List.Perm.cons 1 (List.Perm.swap 2 3 [])⟩
    refine List.pairwise_cons.mpr ⟨?_, List.pairwise_pair.mpr (.here (by decide))⟩
    intro r hr
    rcases List.mem_pair.mp hr with rfl | rfl
    · exact .here (by decide)
    · exact .here (by decide)
  exact dicCl_eq_clScan hord (by decide) rfl (by decide) (by decide) List.length_replicate _

end Sj3
