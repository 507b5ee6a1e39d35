import Sj3.Verification.Study.Clauses

/-! # Making room in the clause-study area

Removing the records related to a reading, removing the oldest ones, and what both leave of
the order of the area. -/

namespace Sj3

open Buffer PrefixFree Recency

/-- The same records with numbers in the same order. -/
def Renumbered (recs recs' : List ClRec) : Prop :=
  ∃ f : ℕ → ℕ, (∀ r ∈ recs, ∀ t ∈ recs, f r.num < f t.num ↔ r.num < t.num) ∧
    recs' = recs.map (ClRec.setNum f)

theorem Renumbered.refl (recs : List ClRec) : Renumbered recs recs :=
  ⟨id, fun _ _ _ _ => Iff.rfl, (List.map_id recs).symm⟩

theorem Renumbered.trans {recs recs' recs'' : List ClRec} (h : Renumbered recs recs')
    (h' : Renumbered recs' recs'') : Renumbered recs recs'' := by
  obtain ⟨f, hf, rfl⟩ := h
  obtain ⟨g, hg, rfl⟩ := h'
  refine ⟨g ∘ f, ?_, by simp [Function.comp_def]⟩
  intro r hr t ht
  exact (hg _ (List.mem_map_of_mem hr) _ (List.mem_map_of_mem ht)).trans (hf r hr t ht)

theorem Renumbered.map_key {recs recs' : List ClRec} (h : Renumbered recs recs') :
    recs'.map ClRec.key = recs.map ClRec.key := by
  obtain ⟨f, -, rfl⟩ := h
  simp

theorem Renumbered.length_clBytes {recs recs' : List ClRec} (h : Renumbered recs recs') :
    (clBytes recs').length = (clBytes recs).length := by
  obtain ⟨f, -, rfl⟩ := h
  exact length_clBytes_map f recs

theorem Renumbered.dropOldest {recs recs' : List ClRec} (h : Renumbered recs recs') (k : ℕ) :
    Renumbered (dropOldest ClRec.num k recs) (dropOldest ClRec.num k recs') := by
  obtain ⟨f, hf, rfl⟩ := h
  refine ⟨f, ?_, dropOldest_map k hf⟩
  intro r hr t ht
  exact hf r (List.mem_filter.mp hr).1 t (List.mem_filter.mp ht).1

/-! ## What keeps the records in order -/

namespace ClOrdered

variable {recs : List ClRec}

theorem fits (h : ClOrdered recs) (hlen : recs.length < 0x10000) : ∀ r ∈ recs, r.Fits := by
  intro r hr
  refine ⟨h.yomi_ne_nil r hr, h.length_lt r hr, ?_⟩
  have hle := h.ranked.le (List.mem_map_of_mem hr)
  rw [List.length_map] at hle
  omega

/-- A part of the records, with numbers that are in order again. -/
theorem sublist {part : List ClRec} (h : ClOrdered recs) (hp : part.Sublist recs) {f : ℕ → ℕ}
    (hr : Ranked ((part.map ClRec.num).map f)) : ClOrdered (part.map (ClRec.setNum f)) where
  yomi_ne_nil := by
    simpa using fun r hr => h.yomi_ne_nil r (hp.subset hr)
  length_lt := by
    simpa using fun r hr => h.length_lt r (hp.subset hr)
  zero_notMem := by
    simpa using fun r hr => h.zero_notMem r (hp.subset hr)
  yomi1Len_le := by
    simpa [ClRec.setNum] using fun r hr => h.yomi1Len_le r (hp.subset hr)
  before := List.pairwise_map.mpr (h.before.sublist hp)
  ranked := by
    rw [List.map_map] at hr ⊢
    exact hr

theorem remove {l rs : List ClRec} {r : ClRec} (h : ClOrdered (l ++ r :: rs)) :
    ClOrdered ((l ++ rs).map (ClRec.setNum (closeUp r.num))) := by
  apply h.sublist ((List.sublist_cons_self r rs).append_left l)
  have hr := h.ranked
  rw [List.map_append, List.map_cons] at hr
  rw [List.map_append]
  exact hr.close

theorem mono_remove {l rs : List ClRec} {r : ClRec} (h : ClOrdered (l ++ r :: rs)) :
    ∀ t ∈ l ++ rs, ∀ u ∈ l ++ rs,
      closeUp r.num t.num < closeUp r.num u.num ↔ t.num < u.num := by
  have hr := h.ranked
  rw [List.map_append, List.map_cons] at hr
  have hne : ∀ t ∈ l ++ rs, t.num ≠ r.num := by
    intro t ht he
    apply hr.split.1
    rw [← List.map_append, ← he]
    exact List.mem_map_of_mem ht
  exact fun t ht u hu => closeUp_lt_closeUp (hne t ht) (hne u hu)

end ClOrdered

/-! ## Removing the related records -/

/-- The records that do not start `y` and are not started by it. -/
def clUnrelated (y : Bytes) (recs : List ClRec) : List ClRec :=
  recs.filter fun r => ¬ Related y r.yomi

theorem clUnrelated_map (y : Bytes) (f : ℕ → ℕ) (recs : List ClRec) :
    clUnrelated y (recs.map (ClRec.setNum f)) = (clUnrelated y recs).map (ClRec.setNum f) := by
  rw [clUnrelated, List.filter_map]
  rfl

theorem Renumbered.of_unrelated {l rs : List ClRec} {f : ℕ → ℕ} (y : Bytes)
    (h : ∀ r ∈ l ++ rs, ∀ t ∈ l ++ rs, f r.num < f t.num ↔ r.num < t.num) :
    Renumbered (l ++ clUnrelated y rs)
      (l.map (ClRec.setNum f) ++ clUnrelated y (rs.map (ClRec.setNum f))) := by
  have hsub : l ++ clUnrelated y rs ⊆ l ++ rs :=
    ((List.Sublist.refl l).append List.filter_sublist).subset
  refine ⟨f, fun r hr t ht => h r (hsub hr) t (hsub ht), ?_⟩
  rw [clUnrelated_map, List.map_append]

theorem Renumbered.not_related {y : Bytes} {recs recs' : List ClRec}
    (h : Renumbered (clUnrelated y recs) recs') : ∀ t ∈ recs', ¬ Related y t.yomi := by
  obtain ⟨f, -, rfl⟩ := h
  intro t ht
  obtain ⟨u, hu, rfl⟩ := List.mem_map.mp ht
  simpa using (List.mem_filter.mp hu).2

theorem delcldata_clArea {y stop : Bytes} (hy : 0 ∉ y) (hstop : stop.headD 0 = 0) (free : ℕ)
    {n : ℕ} {l rs : List ClRec} (h : ClOrdered (l ++ rs)) (hlen : (l ++ rs).length < 0x10000)
    (hn : rs.length ≤ n) :
    ∃ recs free', Renumbered (l ++ clUnrelated y rs) recs ∧ ClOrdered recs ∧
      (clArea recs free').length = (clArea (l ++ rs) free).length ∧ free ≤ free' ∧
      Stdy.delcldata (y ++ stop) n (clArea (l ++ rs) free) (clBytes l).length =
        (clArea recs free', (clBytes recs).length) := by
  induction n generalizing l rs free with
  | zero =>
      obtain rfl : rs = [] := List.length_eq_zero_iff.mp (Nat.le_zero.mp hn)
      refine ⟨l, free, ?_, by simpa using h, by simp, le_rfl, ?_⟩
      · simpa [clUnrelated] using Renumbered.refl l
      · rw [List.append_nil, Stdy.delcldata]
  | succ n ih =>
      cases rs with
      | nil =>
          refine ⟨l, free, ?_, by simpa using h, by simp, le_rfl, ?_⟩
          · simpa [clUnrelated] using Renumbered.refl l
          · have hdrop : (clArea (l ++ []) free).drop (clBytes l).length =
                List.replicate free 0 := by
              rw [List.append_nil, clArea, List.drop_left]
            simp only [Stdy.delcldata]
            rw [hdrop, if_pos (iseocl_zeros free), List.append_nil]
      | cons r rs =>
          have hfits := h.fits hlen
          have hr : r.Fits := hfits r (by simp)
          have h0 : 0 ∉ r.yomi := h.zero_notMem r (by simp)
          have hdrop : (clArea (l ++ r :: rs) free).drop (clBytes l).length =
              clArea (r :: rs) free := by
            rw [clArea_append, List.drop_left]
          have hne : ¬ Stdy.iseocl (clArea (r :: rs) free) = true := by
            rw [clArea_cons, iseocl_bytes hr]
            exact Bool.false_ne_true
          have hmatch := clMatch_related hy h0 (clArea rs free) hstop
          rw [← clYomiPos_bytes, ← clYomiLen_bytes hr (clArea rs free), ← clArea_cons] at hmatch
          rw [Stdy.delcldata, hdrop, if_neg hne]
          by_cases hrel : Related y r.yomi
          · have hdel := delclsub_clArea free hfits
            have hord := h.remove
            have hren := Renumbered.of_unrelated y h.mono_remove
            rw [List.map_append] at hdel hord
            obtain ⟨recs, free', hren', hord', hl, hf, heq⟩ :=
              ih (free + r.bytes.length) hord
                (by
                  simp only [List.length_append, List.length_map, List.length_cons] at hlen ⊢
                  omega)
                (by simpa using hn)
            have hdrops : clUnrelated y (r :: rs) = clUnrelated y rs := by
              simp [clUnrelated, hrel]
            rw [length_clBytes_map] at heq
            refine ⟨recs, free', ?_, hord', ?_, by omega, ?_⟩
            · rw [hdrops]
              exact hren.trans hren'
            · rw [hl]
              simp only [length_clArea, clBytes_append, clBytes_cons, List.length_append,
                length_clBytes_map]
              omega
            · rw [if_pos (hmatch.mpr hrel), hdel, heq]
          · have hkeep : clUnrelated y (r :: rs) = r :: clUnrelated y rs := by
              simp [clUnrelated, hrel]
            have hcons : l ++ r :: rs = (l ++ [r]) ++ rs := by simp
            rw [hcons] at h hlen ⊢
            obtain ⟨recs, free', hren, hord, hl, hf, heq⟩ :=
              ih free h hlen (by simpa using hn)
            refine ⟨recs, free', ?_, hord, hl, hf, ?_⟩
            · rw [hkeep]
              simpa using hren
            · rw [if_neg (mt hmatch.mp hrel), ← heq]
              congr 1
              rw [clArea_cons, clBlkLen_bytes hr]
              simp

/-! ## Removing the oldest records -/

theorem clOldest_younger {recs : List ClRec} {free num n : ℕ} {target : Option Bytes}
    (h : ∀ r ∈ recs, r.Fits) (hlt : ∀ r ∈ recs, r.num < num) (hn : recs.length ≤ n) :
    Stdy.clOldest n (clArea recs free) num target = (target, List.replicate free 0) := by
  induction recs generalizing n with
  | nil =>
      cases n with
      | zero => rfl
      | succ n => exact if_pos (iseocl_zeros free)
  | cons r recs ih =>
      have hr := h r List.mem_cons_self
      obtain ⟨n, rfl⟩ := Nat.exists_eq_add_of_lt (Nat.lt_of_lt_of_le (Nat.succ_pos _) hn)
      rw [Nat.zero_add] at hn ⊢
      rw [Stdy.clOldest, clArea_cons, if_neg (by simp [iseocl_bytes hr]), clGetNum_bytes hr,
        if_neg (hlt r List.mem_cons_self).not_ge, clNextTag_bytes hr]
      exact ih (fun t ht => h t (List.mem_cons_of_mem _ ht))
        (fun t ht => hlt t (List.mem_cons_of_mem _ ht)) (by simpa using hn)

theorem clOldest_spec {l rs : List ClRec} {r : ClRec} {free num n : ℕ} {target : Option Bytes}
    (h : ∀ t ∈ l ++ r :: rs, t.Fits) (hlt : ∀ t ∈ l ++ rs, t.num < r.num) (hnum : num ≤ r.num)
    (hn : (l ++ r :: rs).length ≤ n) :
    Stdy.clOldest n (clArea (l ++ r :: rs) free) num target =
      (some (clArea (r :: rs) free), List.replicate free 0) := by
  induction l generalizing n num target with
  | nil =>
      have hr := h r (by simp)
      obtain ⟨n, rfl⟩ := Nat.exists_eq_add_of_lt (Nat.lt_of_lt_of_le (Nat.succ_pos _) hn)
      rw [Nat.zero_add] at hn ⊢
      rw [List.nil_append, Stdy.clOldest, clArea_cons, if_neg (by simp [iseocl_bytes hr]),
        clGetNum_bytes hr, if_pos hnum, clNextTag_bytes hr]
      exact clOldest_younger (fun t ht => h t (by simp [ht])) (fun t ht => hlt t (by simp [ht]))
        (by simpa using hn)
  | cons u l ih =>
      have hu := h u (by simp)
      have hur := hlt u (by simp)
      obtain ⟨n, rfl⟩ := Nat.exists_eq_add_of_lt (Nat.lt_of_lt_of_le (Nat.succ_pos _) hn)
      rw [Nat.zero_add] at hn ⊢
      have hrec : ∀ num target, num ≤ r.num →
          Stdy.clOldest n (clArea (l ++ r :: rs) free) num target =
            (some (clArea (r :: rs) free), List.replicate free 0) := by
        intro num target hnum
        exact ih (fun t ht => h t (List.mem_cons_of_mem _ ht))
          (fun t ht => hlt t (List.mem_cons_of_mem _ ht)) hnum (by simpa using hn)
      rw [List.cons_append, Stdy.clOldest, clArea_cons, if_neg (by simp [iseocl_bytes hu]),
        clGetNum_bytes hu, clNextTag_bytes hu]
      split
      · exact hrec _ _ hur.le
      · exact hrec _ _ hnum

theorem ClOrdered.dropOldest {recs : List ClRec} (h : ClOrdered recs) (k : ℕ) :
    ClOrdered (dropOldest ClRec.num k recs) := by
  have hmap : (Recency.dropOldest ClRec.num k recs).map (ClRec.setNum id) =
      Recency.dropOldest ClRec.num k recs := List.map_id _
  rw [← hmap]
  apply h.sublist List.filter_sublist
  rw [List.map_id]
  exact ranked_dropOldest k h.ranked

/-- One call of `delclold`: the oldest record goes, and 5 bytes are reported. -/
theorem delclold_clArea (free : ℕ) {recs : List ClRec} (h : ClOrdered recs)
    (hlen : recs.length < 0x10000) (hne : recs ≠ []) :
    ∃ free', Stdy.delclold (clArea recs free) =
        (clArea (dropOldest ClRec.num 1 recs) free', Stdy.clHdLen) ∧ free ≤ free' ∧
      (clArea (dropOldest ClRec.num 1 recs) free').length = (clArea recs free).length := by
  obtain ⟨l, r, rs, rfl, hlt⟩ := exists_oldest hne h.ranked.nodup
  have hfits := h.fits hlen
  have hsame : (l ++ rs).map (ClRec.setNum (closeUp r.num)) = l ++ rs := by
    have hkeep : ∀ t ∈ l ++ rs, t.setNum (closeUp r.num) = id t := by
      intro t ht
      rw [ClRec.setNum, closeUp, if_neg (hlt t ht).not_gt, id]
    rw [List.map_congr_left hkeep, List.map_id]
  have hdrop : dropOldest ClRec.num 1 (l ++ r :: rs) = l ++ rs := by
    rw [dropOldest_succ 0 hlt, dropOldest_zero]
  have hfuel : (l ++ r :: rs).length ≤ (clArea (l ++ r :: rs) free).length + 1 := by
    have := length_le_length_clBytes (l ++ r :: rs)
    rw [length_clArea]
    omega
  have hend : Stdy.clBlkLen (List.replicate free 0) = Stdy.clHdLen := by
    cases free <;> rfl
  refine ⟨free + r.bytes.length, ?_, Nat.le_add_right _ _, ?_⟩
  · rw [Stdy.delclold, clOldest_spec hfits hlt (Nat.zero_le _) hfuel, hdrop]
    simp only [delclsub_clArea free hfits, hsame, hend]
  · rw [hdrop]
    simp only [length_clArea, clBytes_append, clBytes_cons, List.length_append]
    omega

theorem clEvict_enough {alen blen : ℤ} (h : alen ≤ blen) (n : ℕ) (dic : Bytes) :
    Stdy.clEvict alen n dic blen = (dic, blen) := by
  cases n with
  | zero => rfl
  | succ n => exact if_neg h.not_gt

/-- The loop removes the oldest records until every one of them, counted as 5 bytes, makes
up for what is missing, or none is left. -/
theorem clEvict_clArea (alen blen : ℤ) (free : ℕ) {n : ℕ} {recs : List ClRec} (h : ClOrdered recs)
    (hlen : recs.length < 0x10000) (hn : recs.length < n) :
    ∃ j free', j ≤ recs.length ∧
      Stdy.clEvict alen n (clArea recs free) blen =
        (clArea (dropOldest ClRec.num j recs) free', blen + Stdy.clHdLen * j) ∧
      free ≤ free' ∧
      (clArea (dropOldest ClRec.num j recs) free').length = (clArea recs free).length ∧
      (blen + Stdy.clHdLen * j < alen → j = recs.length) ∧
      ∀ i < j, blen + Stdy.clHdLen * i < alen := by
  induction n generalizing recs free blen with
  | zero => omega
  | succ n ih =>
      by_cases henough : alen ≤ blen
      · refine ⟨0, free, Nat.zero_le _, ?_, le_rfl, by simp, ?_, by simp⟩
        · rw [clEvict_enough henough]
          simp
        · intro hlt
          simp only [Nat.cast_zero, mul_zero, add_zero] at hlt
          omega
      · by_cases hne : recs = []
        · subst hne
          have hnone : Stdy.delclold (clArea [] free) = (clArea [] free, 0) := by
            cases free <;> rfl
          refine ⟨0, free, Nat.zero_le _, ?_, le_rfl, by simp, by simp, by simp⟩
          rw [Stdy.clEvict, if_pos (not_le.mp henough)]
          simp only [hnone, if_true]
          simp
        · obtain ⟨free₁, hdel, hfree, hl⟩ := delclold_clArea free h hlen hne
          have hlen₁ := length_dropOldest 1 h.ranked.nodup
          have hpos : 0 < recs.length := List.length_pos_of_ne_nil hne
          obtain ⟨j, free', hj, heq, hf, hl', hend, hmin⟩ :=
            ih (blen + Stdy.clHdLen) free₁ (h.dropOldest 1)
              (by omega) (by omega)
          rw [dropOldest_one j h.ranked.nodup] at heq hl'
          have hsum : ∀ i : ℕ, blen + Stdy.clHdLen + (Stdy.clHdLen * i : ℤ) =
              blen + Stdy.clHdLen * (i + 1 : ℕ) := by
            intro i
            rw [Nat.cast_succ, mul_add, mul_one]
            omega
          refine ⟨j + 1, free', by omega, ?_, by omega, by omega, ?_, ?_⟩
          · rw [Stdy.clEvict, if_pos (not_le.mp henough), hdel]
            rw [if_neg (show Stdy.clHdLen ≠ 0 by decide), heq, hsum]
          · intro hlt
            rw [← hsum] at hlt
            have := hend hlt
            omega
          · intro i hi
            cases i with
            | zero => simpa using henough
            | succ i =>
                rw [← hsum]
                exact hmin i (by omega)

/-- Each record removed frees more than its 5 bytes. -/
theorem length_dropOldest_add_le {recs : List ClRec} (h : (recs.map ClRec.num).Nodup) {j : ℕ}
    (hj : j ≤ recs.length) :
    (clBytes (dropOldest ClRec.num j recs)).length + Stdy.clHdLen * j ≤ (clBytes recs).length := by
  induction j generalizing recs with
  | zero => simp
  | succ j ih =>
      have hne : recs ≠ [] := by
        rintro rfl
        simp at hj
      obtain ⟨l, r, rs, rfl, hlt⟩ := exists_oldest hne h
      have hsub : ((l ++ rs).map ClRec.num).Sublist ((l ++ r :: rs).map ClRec.num) :=
        ((List.sublist_cons_self r rs).append_left l).map ClRec.num
      have hih := ih (hsub.nodup h)
        (by simp only [List.length_append, List.length_cons] at *; omega)
      rw [dropOldest_succ j hlt, Nat.mul_succ]
      simp only [clBytes_append, clBytes_cons, List.length_append, ClRec.length_bytes] at hih ⊢
      omega

end Sj3
