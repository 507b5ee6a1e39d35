import Sj3.General.Recency
import Sj3.Verification.Kouho.Mkkouho

/-! # Ranks

The candidates `mkkouho` collects get the ranks 1, 2, …, each once: the studied ones in the
order of their recency numbers, the plain numerals next to each other. -/

namespace Sj3

open Recency

/-! ## Ranking the studied candidates -/

/-- The ranks that were given to studied candidates. -/
def givenRanks (kouhotbl : List Kouho) : List ℕ :=
  (kouhotbl.map Kouho.rank).filter (· ≠ 0)

/-- What `setstynum` has made of the candidates `dealt` with. -/
structure Ranks.Numbered (s : Option Stdy) (dealt : List Kouho) (r : Ranks) : Prop where
  blank : r.kouhotbl.map Kouho.blank = dealt.map Kouho.blank
  unstudied : ∀ k ∈ r.kouhotbl, k.studied s = none → k.rank = 0 ∧ k.styno = 0
  studied : ∀ k ∈ r.kouhotbl, ∀ sptr ∈ k.studied s, k.rank ≠ 0 ∧ k.styno = sptr.styno
  ranked : Ranked (givenRanks r.kouhotbl)
  trank : r.trank = (givenRanks r.kouhotbl).length + 1
  ordered : ∀ a ∈ r.kouhotbl, ∀ b ∈ r.kouhotbl, a.rank ≠ 0 → b.rank ≠ 0 →
    a.rank < b.rank → a.styno ≤ b.styno
  nrank_pos : 1 ≤ r.nrank
  nrank_le : r.nrank ≤ r.trank

theorem goesFront_mono {kptr a b : Kouho} {sptr : StdyIn} (h : a.styno ≤ b.styno)
    (ha : goesFront kptr sptr a) : goesFront kptr sptr b := by
  unfold goesFront at ha ⊢
  by_cases hb : sptr.styno < b.styno
  · rw [if_pos hb]
  · by_cases ha' : sptr.styno < a.styno
    · omega
    · rw [if_neg ha'] at ha
      rw [if_neg hb]
      split at ha
      · rw [if_pos (by omega)]
        exact ha
      · exact absurd ha (by decide)

theorem styno_le_of_goesFront {kptr a : Kouho} {sptr : StdyIn} (h : goesFront kptr sptr a) :
    sptr.styno ≤ a.styno := by
  unfold goesFront at h
  split at h
  · omega
  · split at h
    · omega
    · exact absurd h (by decide)

theorem le_styno_of_not_goesFront {kptr a : Kouho} {sptr : StdyIn}
    (h : ¬ goesFront kptr sptr a) : a.styno ≤ sptr.styno := by
  unfold goesFront at h
  split at h
  · exact absurd rfl h
  · omega

theorem countP_ranked {p : Kouho → Bool} {tbl : List Kouho}
    (h : ∀ k ∈ tbl, k.rank = 0 → ¬ p k) :
    (tbl.filter (·.rank ≠ 0)).countP p = tbl.countP p := by
  rw [List.countP_filter]
  apply List.countP_congr
  intro k hk
  by_cases hr : k.rank = 0
  · simp [hr, h k hk hr]
  · simp [hr]

theorem givenRanks_eq (tbl : List Kouho) :
    givenRanks tbl = (tbl.filter (·.rank ≠ 0)).map Kouho.rank := by
  rw [givenRanks, List.filter_map]
  rfl

section Setnspr

variable {s : Option Stdy} {dealt : List Kouho} {r : Ranks} (h : r.Numbered s dealt)
variable {kptr : Kouho} {sptr : StdyIn}
include h

theorem Ranks.Numbered.not_goesFront (hpos : 0 < sptr.styno) :
    ∀ k ∈ r.kouhotbl, k.rank = 0 → ¬ goesFront kptr sptr k := by
  intro k hk hr hf
  have hle := styno_le_of_goesFront hf
  cases hs : k.studied s with
  | none =>
      have := (h.unstudied k hk hs).2
      omega
  | some sp => exact (h.studied k hk sp hs).1 hr

theorem Ranks.Numbered.trank_eq :
    r.trank = (r.kouhotbl.filter (·.rank ≠ 0)).length + 1 := by
  have htrank := h.trank
  rwa [givenRanks_eq, List.length_map] at htrank

/-- A new studied candidate goes in front of exactly those from the rank on that it gets. -/
theorem Ranks.Numbered.goesFront_iff (hpos : 0 < sptr.styno) {a : Kouho} (ha : a ∈ r.kouhotbl)
    (hr : a.rank ≠ 0) :
    goesFront kptr sptr a ↔
      r.trank - r.kouhotbl.countP (goesFront kptr sptr) ≤ a.rank := by
  have hmem : a ∈ r.kouhotbl.filter (·.rank ≠ 0) := by simpa [hr] using ha
  have hranked : Ranked ((r.kouhotbl.filter (·.rank ≠ 0)).map Kouho.rank) := by
    simpa [givenRanks_eq] using h.ranked
  have hup : ∀ b ∈ r.kouhotbl.filter (·.rank ≠ 0), ∀ c ∈ r.kouhotbl.filter (·.rank ≠ 0),
      b.rank < c.rank → goesFront kptr sptr b → goesFront kptr sptr c := by
    intro b hb c hc hlt
    obtain ⟨hb, hbr⟩ := List.mem_filter.mp hb
    obtain ⟨hc, hcr⟩ := List.mem_filter.mp hc
    exact goesFront_mono (h.ordered b hb c hc (by simpa using hbr) (by simpa using hcr) hlt)
  rw [hranked.upper hup hmem, countP_ranked (h.not_goesFront hpos), h.trank_eq]

theorem Ranks.Numbered.keepnm_bounds (hpos : 0 < sptr.styno) :
    1 ≤ r.trank - r.kouhotbl.countP (goesFront kptr sptr) := by
  have hcount := countP_ranked (p := goesFront kptr sptr) (h.not_goesFront hpos)
  have hle := List.countP_le_length (p := goesFront kptr sptr)
    (l := r.kouhotbl.filter (·.rank ≠ 0))
  have htrank := h.trank_eq
  omega

theorem Ranks.Numbered.trank_le : r.trank ≤ r.kouhotbl.length + 1 := by
  rw [h.trank_eq]
  exact Nat.succ_le_succ (List.length_filter_le _ _)

theorem Ranks.Numbered.rank_lt {a : Kouho} (ha : a ∈ r.kouhotbl) : a.rank < r.trank := by
  by_cases hr : a.rank = 0
  · rw [h.trank]
    omega
  · have hmem : a.rank ∈ givenRanks r.kouhotbl :=
      List.mem_filter.mpr ⟨List.mem_map_of_mem ha, by simpa using hr⟩
    have := h.ranked.le hmem
    rw [h.trank]
    omega

/-- `setnspr` opens up the ranks at the new one. -/
theorem Ranks.Numbered.rank_eq (hpos : 0 < sptr.styno)
    (hlt : r.kouhotbl.length < maxKouhoNumber) {a : Kouho} (ha : a ∈ r.kouhotbl) :
    (if goesFront kptr sptr a then { a with rank := (a.rank + 1) % 0x100 } else a).rank =
      openUp (r.trank - r.kouhotbl.countP (goesFront kptr sptr)) a.rank := by
  have hkeep : 1 ≤ r.trank - r.kouhotbl.countP (goesFront kptr sptr) := h.keepnm_bounds hpos
  have hrank := h.rank_lt ha
  have htrank := h.trank_le
  rw [maxKouhoNumber] at hlt
  unfold openUp
  by_cases hr : a.rank = 0
  · rw [if_neg (h.not_goesFront hpos a ha hr), if_neg (by omega)]
  · by_cases hf : goesFront kptr sptr a
    · rw [if_pos hf, if_pos ((h.goesFront_iff hpos ha hr).mp hf)]
      exact Nat.mod_eq_of_lt (by omega)
    · rw [if_neg hf, if_neg fun hle => hf ((h.goesFront_iff hpos ha hr).mpr hle)]

theorem Ranks.Numbered.ranks_setnspr (hpos : 0 < sptr.styno)
    (hlt : r.kouhotbl.length < maxKouhoNumber) :
    (setnspr r kptr sptr).kouhotbl.map Kouho.rank =
      (r.kouhotbl.map Kouho.rank).map
        (openUp (r.trank - r.kouhotbl.countP (goesFront kptr sptr))) ++
        [r.trank - r.kouhotbl.countP (goesFront kptr sptr)] := by
  have htrank := h.trank_le
  rw [maxKouhoNumber] at hlt
  rw [setnspr, List.map_append, List.map_map, List.map_map, List.map_singleton,
    Nat.mod_eq_of_lt (by omega)]
  congr 1
  apply List.map_congr_left
  intro a ha
  exact h.rank_eq hpos hlt ha

theorem Ranks.Numbered.givenRanks_setnspr (hpos : 0 < sptr.styno)
    (hlt : r.kouhotbl.length < maxKouhoNumber) :
    givenRanks (setnspr r kptr sptr).kouhotbl =
      (givenRanks r.kouhotbl).map
        (openUp (r.trank - r.kouhotbl.countP (goesFront kptr sptr))) ++
        [r.trank - r.kouhotbl.countP (goesFront kptr sptr)] := by
  have hkeep : 1 ≤ r.trank - r.kouhotbl.countP (goesFront kptr sptr) := h.keepnm_bounds hpos
  rw [givenRanks, h.ranks_setnspr hpos hlt, List.filter_append, List.filter_map]
  congr 1
  · apply congrArg
    apply List.filter_congr
    intro n _
    simp [openUp_eq_zero hkeep]
  · simp
    omega

theorem Ranks.Numbered.setnspr (hpos : 0 < sptr.styno)
    (hlt : r.kouhotbl.length < maxKouhoNumber) (hk : kptr.studied s = some sptr) :
    (setnspr r kptr sptr).Numbered s (dealt ++ [kptr]) := by
  have hkeep : 1 ≤ r.trank - r.kouhotbl.countP (goesFront kptr sptr) := h.keepnm_bounds hpos
  have hlen := h.trank_le
  have hgiven : givenRanks (Sj3.setnspr r kptr sptr).kouhotbl = _ :=
    h.givenRanks_setnspr hpos hlt
  have hsmall : r.trank - r.kouhotbl.countP (goesFront kptr sptr) < 0x100 := by
    rw [maxKouhoNumber] at hlt
    omega
  -- an old candidate keeps everything but its rank
  have hold : ∀ a ∈ r.kouhotbl,
      ∃ n, (if goesFront kptr sptr a then { a with rank := (a.rank + 1) % 0x100 } else a) =
        { a with rank := n } ∧
        n = openUp (r.trank - r.kouhotbl.countP (goesFront kptr sptr)) a.rank := by
    intro a ha
    refine ⟨_, ?_, rfl⟩
    rw [← h.rank_eq hpos hlt ha]
    split <;> rfl
  have hmem : ∀ b ∈ (Sj3.setnspr r kptr sptr).kouhotbl,
      (∃ a ∈ r.kouhotbl, b = { a with
        rank := openUp (r.trank - r.kouhotbl.countP (goesFront kptr sptr)) a.rank }) ∨
      b = { kptr with
        styno := sptr.styno
        rank := r.trank - r.kouhotbl.countP (goesFront kptr sptr) } := by
    intro b hb
    rcases List.mem_append.mp hb with hb | hb
    · obtain ⟨a, ha, rfl⟩ := List.mem_map.mp hb
      obtain ⟨n, hn, rfl⟩ := hold a ha
      exact Or.inl ⟨a, ha, hn⟩
    · right
      rw [List.mem_singleton.mp hb, Nat.mod_eq_of_lt hsmall]
  constructor
  · rw [Sj3.setnspr, List.map_append, List.map_append, ← h.blank, List.map_map]
    congr 1
    apply List.map_congr_left
    intro a ha
    obtain ⟨n, hn, -⟩ := hold a ha
    rw [Function.comp_apply, hn, blank_rank]
  · intro b hb hnone
    rcases hmem b hb with ⟨a, ha, rfl⟩ | rfl
    · obtain ⟨hr, hs⟩ := h.unstudied a ha hnone
      exact ⟨(openUp_eq_zero hkeep).mpr hr, hs⟩
    · exact absurd (hk.symm.trans hnone) (by simp)
  · intro b hb sp hsp
    rcases hmem b hb with ⟨a, ha, rfl⟩ | rfl
    · obtain ⟨hr, hs⟩ := h.studied a ha sp hsp
      exact ⟨fun hz => hr ((openUp_eq_zero hkeep).mp hz), hs⟩
    · have hsp : kptr.studied s = some sp := hsp
      rw [hk, Option.some_inj] at hsp
      subst hsp
      exact ⟨Nat.one_le_iff_ne_zero.mp hkeep, rfl⟩
  · rw [hgiven]
    exact h.ranked.insert hkeep (by rw [← h.trank]; exact Nat.sub_le _ _)
  · rw [hgiven, List.length_append, List.length_map, List.length_singleton, ← h.trank]
    rfl
  · intro a ha b hb har hbr hlt'
    rcases hmem a ha with ⟨a, ha', rfl⟩ | rfl <;> rcases hmem b hb with ⟨b, hb', rfl⟩ | rfl
    · have har' : a.rank ≠ 0 := fun hz => har ((openUp_eq_zero hkeep).mpr hz)
      have hbr' : b.rank ≠ 0 := fun hz => hbr ((openUp_eq_zero hkeep).mpr hz)
      exact h.ordered a ha' b hb' har' hbr' (openUp_lt_openUp.mp hlt')
    · have har' : a.rank ≠ 0 := fun hz => har ((openUp_eq_zero hkeep).mpr hz)
      refine le_styno_of_not_goesFront (show ¬ goesFront kptr sptr a from ?_)
      intro hf
      have hle := (h.goesFront_iff hpos ha' har').mp hf
      dsimp only at hlt'
      rw [openUp, if_pos hle] at hlt'
      omega
    · have hbr' : b.rank ≠ 0 := fun hz => hbr ((openUp_eq_zero hkeep).mpr hz)
      refine styno_le_of_goesFront (show goesFront kptr sptr b from ?_)
      apply (h.goesFront_iff hpos hb' hbr').mpr
      by_contra hle
      dsimp only at hlt'
      rw [openUp, if_neg hle] at hlt'
      omega
    · exact le_refl _
  · have := h.nrank_pos
    rw [Sj3.setnspr]
    dsimp only
    repeat' split
    all_goals omega
  · have := h.nrank_le
    rw [Sj3.setnspr]
    dsimp only
    repeat' split
    all_goals omega

/-- A candidate that was not studied has no rank yet. -/
theorem Ranks.Numbered.skip (hblank : kptr.blank = kptr) (hk : kptr.studied s = none) :
    { r with kouhotbl := r.kouhotbl ++ [kptr] }.Numbered s (dealt ++ [kptr]) := by
  have hrank : kptr.rank = 0 := by rw [← hblank]; rfl
  have hstyno : kptr.styno = 0 := by rw [← hblank]; rfl
  have hgiven : givenRanks (r.kouhotbl ++ [kptr]) = givenRanks r.kouhotbl := by
    simp [givenRanks, hrank]
  constructor
  · rw [List.map_append, List.map_append, h.blank]
  · intro k hk' hnone
    rcases List.mem_append.mp hk' with hk' | hk'
    · exact h.unstudied k hk' hnone
    · rw [List.mem_singleton.mp hk']
      exact ⟨hrank, hstyno⟩
  · intro k hk' sptr hs
    rcases List.mem_append.mp hk' with hk' | hk'
    · exact h.studied k hk' sptr hs
    · rw [List.mem_singleton.mp hk', hk] at hs
      exact absurd hs (by simp)
  · rw [hgiven]
    exact h.ranked
  · rw [hgiven]
    exact h.trank
  · intro a ha b hb har hbr hlt
    rcases List.mem_append.mp ha with ha | ha
    · rcases List.mem_append.mp hb with hb | hb
      · exact h.ordered a ha b hb har hbr hlt
      · rw [List.mem_singleton.mp hb] at hbr
        exact absurd hrank hbr
    · rw [List.mem_singleton.mp ha] at har
      exact absurd hrank har
  · exact h.nrank_pos
  · exact h.nrank_le

end Setnspr

/-- What holds of no candidates and is kept by each one holds when all were dealt with. -/
theorem setstynum_induct (s : Option Stdy) (tbl : List Kouho) {P : List Kouho → Ranks → Prop}
    (hstart : P [] ⟨[], 1, 1⟩)
    (hstudied : ∀ dealt rest kptr sptr r, tbl = dealt ++ kptr :: rest →
      kptr.studied s = some sptr → P dealt r → P (dealt ++ [kptr]) (setnspr r kptr sptr))
    (hskip : ∀ dealt rest kptr r, tbl = dealt ++ kptr :: rest → kptr.studied s = none →
      P dealt r → P (dealt ++ [kptr]) { r with kouhotbl := r.kouhotbl ++ [kptr] }) :
    P tbl (setstynum s tbl) := by
  have hrun : ∀ f : Ranks → Kouho → Ranks,
      (∀ r kptr sptr, kptr.studied s = some sptr → f r kptr = setnspr r kptr sptr) →
      (∀ r kptr, kptr.studied s = none → f r kptr = { r with kouhotbl := r.kouhotbl ++ [kptr] }) →
      ∀ (rest dealt : List Kouho) (r : Ranks), tbl = dealt ++ rest → P dealt r →
        P (dealt ++ rest) (rest.foldl f r) := by
    intro f hf hf' rest
    induction rest with
    | nil =>
        intro dealt r _ h
        rwa [List.append_nil]
    | cons kptr rest ih =>
        intro dealt r htbl h
        rw [List.append_cons]
        apply ih _ _ (by rw [htbl, List.append_cons])
        cases hk : kptr.studied s with
        | some sptr =>
            rw [hf r kptr sptr hk]
            exact hstudied dealt rest kptr sptr r htbl hk h
        | none =>
            rw [hf' r kptr hk]
            exact hskip dealt rest kptr r htbl hk h
  refine hrun _ ?_ ?_ tbl [] _ rfl hstart
  · intro r kptr sptr hk
    simp only [hk]
  · intro r kptr hk
    simp only [hk]

theorem numbered_start (s : Option Stdy) : Ranks.Numbered s [] ⟨[], 1, 1⟩ :=
  ⟨rfl, by simp, by simp, ranked_nil, rfl, by simp, le_refl _, le_refl _⟩

theorem setstynum_numbered {s : Option Stdy}
    (hpos : ∀ k : Kouho, ∀ sptr ∈ k.studied s, 0 < sptr.styno) {tbl : List Kouho}
    (hblank : ∀ k ∈ tbl, k.blank = k) (hlen : tbl.length ≤ maxKouhoNumber) :
    (setstynum s tbl).Numbered s tbl := by
  apply setstynum_induct s tbl (P := fun dealt r => r.Numbered s dealt) (numbered_start s)
  · intro dealt rest kptr sptr r htbl hstudied h
    have hdealt := congrArg List.length h.blank
    rw [List.length_map, List.length_map] at hdealt
    rw [htbl, List.length_append, List.length_cons] at hlen
    exact h.setnspr (hpos kptr sptr hstudied) (by omega) hstudied
  · intro dealt rest kptr r htbl hnone h
    exact h.skip (hblank kptr (by rw [htbl]; simp)) hnone

/-! ## Ranks for the others -/

/-- Making room for the plain numerals. -/
def makeRoom (nrank nkhcount n : ℕ) : ℕ := if n ≥ nrank then n + nkhcount else n

/-- The candidates `regetrank` numbers from `tmp` on. -/
def Kouho.ownRank (tmp : ℕ) (k : Kouho) : Bool := k.rank = 0 && (tmp ≠ 0 && k.plain)

/-- The candidates it numbers from `trank` on. -/
def Kouho.lastRank (tmp : ℕ) (k : Kouho) : Bool := k.rank = 0 && !(tmp ≠ 0 && k.plain)

theorem ownRank_succ {tmp : ℕ} (h : tmp ≠ 0) : Kouho.ownRank (tmp + 1) = Kouho.ownRank tmp := by
  funext k
  simp [Kouho.ownRank, h]

theorem lastRank_succ {tmp : ℕ} (h : tmp ≠ 0) :
    Kouho.lastRank (tmp + 1) = Kouho.lastRank tmp := by
  funext k
  simp [Kouho.lastRank, h]

/-- The ranks `regetrank` gives: the old ones with room for the plain numerals, those of the
plain numerals from `tmp` on, and the rest from `trank` on. -/
theorem regetrankLoop_ranks (nrank nkhcount : ℕ) (tbl : List Kouho) (tmp trank : ℕ)
    (hold : ∀ k ∈ tbl, k.rank + nkhcount < 0x100)
    (hown : tmp + tbl.countP (Kouho.ownRank tmp) ≤ 0x100)
    (hrest : trank + tbl.countP (Kouho.lastRank tmp) ≤ 0x100) :
    ((regetrankLoop nrank nkhcount tbl tmp trank).map Kouho.rank).Perm
      ((givenRanks tbl).map (makeRoom nrank nkhcount) ++
        (List.range' tmp (tbl.countP (Kouho.ownRank tmp)) ++
          List.range' trank (tbl.countP (Kouho.lastRank tmp)))) := by
  induction tbl generalizing tmp trank with
  | nil => exact List.Perm.refl _
  | cons kptr rest ih =>
      have hold' : ∀ k ∈ rest, k.rank + nkhcount < 0x100 :=
        fun k hk => hold k (List.mem_cons_of_mem _ hk)
      have hkptr := hold kptr List.mem_cons_self
      rw [List.countP_cons] at hown hrest
      rw [regetrankLoop, List.countP_cons, List.countP_cons]
      by_cases hr : kptr.rank = 0
      · have hgiven : givenRanks (kptr :: rest) = givenRanks rest := by simp [givenRanks, hr]
        rw [if_pos hr, hgiven]
        by_cases ht : tmp ≠ 0 ∧ kptr.mode ≠ 0 ∧ kptr.offs = 0
        · have ho : kptr.ownRank tmp := by simp [Kouho.ownRank, Kouho.plain, hr, ht]
          have hl : ¬ kptr.lastRank tmp := by simp [Kouho.lastRank, Kouho.plain, ht]
          rw [if_pos ho] at hown
          rw [if_neg hl] at hrest
          rw [if_pos ht, if_pos ho, if_neg hl, List.map_cons, Nat.add_zero, List.range'_succ,
            Nat.mod_eq_of_lt (by omega), List.cons_append]
          have hperm := ih (tmp + 1) trank hold' (by rw [ownRank_succ ht.1]; omega)
            (by rw [lastRank_succ ht.1]; omega)
          rw [ownRank_succ ht.1, lastRank_succ ht.1] at hperm
          exact (hperm.cons tmp).trans List.perm_middle.symm
        · have ho : ¬ kptr.ownRank tmp := by
            simp only [Kouho.ownRank, Kouho.plain, Bool.and_eq_true, decide_eq_true_eq]
            tauto
          have hl : kptr.lastRank tmp := by
            simp only [Kouho.lastRank, Kouho.plain, hr, Bool.and_eq_true, decide_eq_true_eq,
              Bool.not_eq_true', Bool.and_eq_false_iff, decide_eq_false_iff_not]
            tauto
          rw [if_neg ho] at hown
          rw [if_pos hl] at hrest
          rw [if_neg ht, if_neg ho, if_pos hl, List.map_cons, Nat.add_zero, List.range'_succ,
            Nat.mod_eq_of_lt (by omega)]
          have hperm := ih tmp (trank + 1) hold' (by omega) (by omega)
          rw [← List.append_assoc] at hperm ⊢
          exact (hperm.cons trank).trans List.perm_middle.symm
      · have hgiven : givenRanks (kptr :: rest) = kptr.rank :: givenRanks rest := by
          simp [givenRanks, hr]
        have ho : ¬ kptr.ownRank tmp := by simp [Kouho.ownRank, hr]
        have hl : ¬ kptr.lastRank tmp := by simp [Kouho.lastRank, hr]
        rw [if_neg ho] at hown
        rw [if_neg hl] at hrest
        rw [if_neg hr, if_neg ho, if_neg hl, hgiven, List.map_cons, List.cons_append,
          Nat.add_zero, Nat.add_zero, makeRoom]
        have hperm := ih tmp trank hold' (by omega) (by omega)
        by_cases hn : kptr.rank ≥ nrank
        · rw [if_pos hn, if_pos hn, List.map_cons, Nat.mod_eq_of_lt hkptr]
          exact hperm.cons _
        · rw [if_neg hn, if_neg hn, List.map_cons]
          exact hperm.cons _

/-- `regetrank` changes nothing but ranks, and of the ranks of studied candidates only those
behind the plain numerals. -/
theorem regetrankLoop_keeps (nrank nkhcount : ℕ) (tbl : List Kouho) (tmp trank : ℕ)
    (hold : ∀ k ∈ tbl, k.rank + nkhcount < 0x100) :
    List.Forall₂ (fun k k' => k'.blank = k.blank ∧ k'.styno = k.styno ∧
        (k.rank ≠ 0 → k'.rank = makeRoom nrank nkhcount k.rank))
      tbl (regetrankLoop nrank nkhcount tbl tmp trank) := by
  induction tbl generalizing tmp trank with
  | nil => exact List.Forall₂.nil
  | cons kptr rest ih =>
      have ih := fun tmp trank => ih tmp trank fun k hk => hold k (List.mem_cons_of_mem _ hk)
      rw [regetrankLoop]
      by_cases hr : kptr.rank = 0
      · rw [if_pos hr]
        split
        · exact .cons ⟨rfl, rfl, fun h => absurd hr h⟩ (ih _ _)
        · exact .cons ⟨rfl, rfl, fun h => absurd hr h⟩ (ih _ _)
      · rw [if_neg hr]
        split
        · rename_i hn
          refine .cons ⟨rfl, rfl, fun _ => ?_⟩ (ih _ _)
          rw [makeRoom, if_pos hn]
          exact Nat.mod_eq_of_lt (hold kptr List.mem_cons_self)
        · rename_i hn
          refine .cons ⟨rfl, rfl, fun _ => ?_⟩ (ih _ _)
          rw [makeRoom, if_neg hn]

theorem map_blank_of_keeps {R : Kouho → Kouho → Prop} {tbl tbl' : List Kouho}
    (h : List.Forall₂ R tbl tbl') (hR : ∀ k k', R k k' → k'.blank = k.blank) :
    tbl'.map Kouho.blank = tbl.map Kouho.blank := by
  induction h with
  | nil => rfl
  | cons hk _ ih => rw [List.map_cons, List.map_cons, hR _ _ hk, ih]

theorem length_eq_ranks (tmp : ℕ) (tbl : List Kouho) :
    tbl.length = (givenRanks tbl).length + tbl.countP (Kouho.ownRank tmp) +
      tbl.countP (Kouho.lastRank tmp) := by
  induction tbl with
  | nil => rfl
  | cons kptr rest ih =>
      rw [List.length_cons, List.countP_cons, List.countP_cons, ih]
      by_cases hr : kptr.rank = 0
      · by_cases ht : tmp ≠ 0 && kptr.plain
        · simp only [givenRanks, Kouho.ownRank, Kouho.lastRank, hr, ht, List.map_cons]
          simp
          omega
        · simp only [givenRanks, Kouho.ownRank, Kouho.lastRank, hr, ht, List.map_cons]
          simp
          omega
      · simp [givenRanks, Kouho.ownRank, Kouho.lastRank, hr]
        omega

/-- Room for the plain numerals among the ranks 1, 2, …, and the rest behind them. -/
theorem ranked_makeRoom {given : List ℕ} (h : Ranked given) {nrank : ℕ} (hpos : 1 ≤ nrank)
    (hle : nrank ≤ given.length + 1) (own last : ℕ) :
    (given.map (makeRoom nrank own) ++
      (List.range' nrank own ++ List.range' (given.length + 1 + own) last)).Perm
      (List.range' 1 (given.length + own + last)) := by
  have hsplit : List.range' 1 given.length =
      List.range' 1 (nrank - 1) ++ List.range' nrank (given.length + 1 - nrank) := by
    have := List.range'_append_1 (s := 1) (m := nrank - 1) (n := given.length + 1 - nrank)
    rw [show 1 + (nrank - 1) = nrank by omega,
      show nrank - 1 + (given.length + 1 - nrank) = given.length by omega] at this
    exact this.symm
  have hlow : (List.range' 1 (nrank - 1)).map (makeRoom nrank own) =
      List.range' 1 (nrank - 1) := by
    apply List.map_congr_left _ |>.trans (List.map_id _)
    intro n hn
    have := List.mem_range'_1.mp hn
    rw [makeRoom, if_neg (by omega), id]
  have hhigh : (List.range' nrank (given.length + 1 - nrank)).map (makeRoom nrank own) =
      List.range' (nrank + own) (given.length + 1 - nrank) := by
    rw [Nat.add_comm nrank own, ← List.map_add_range']
    apply List.map_congr_left
    intro n hn
    have := List.mem_range'_1.mp hn
    rw [makeRoom, if_pos this.1, Nat.add_comm]
  have hmap := List.Perm.map (makeRoom nrank own) h
  rw [hsplit, List.map_append, hlow, hhigh] at hmap
  have hjoin : List.range' 1 (nrank - 1) ++ (List.range' nrank own ++
      (List.range' (nrank + own) (given.length + 1 - nrank) ++
        List.range' (given.length + 1 + own) last)) =
      List.range' 1 (given.length + own + last) := by
    rw [show given.length + 1 + own = nrank + own + (given.length + 1 - nrank) by omega,
      List.range'_append_1, List.range'_append_1]
    have := List.range'_append_1 (s := 1) (m := nrank - 1)
      (n := own + (given.length + 1 - nrank + last))
    rw [show 1 + (nrank - 1) = nrank by omega] at this
    rw [this]
    congr 1
    omega
  refine (hmap.append_right _).trans ?_
  rw [← hjoin, List.append_assoc]
  apply List.Perm.append_left
  rw [← List.append_assoc, ← List.append_assoc]
  exact List.perm_append_comm.append_right _

/-! ## The whole table -/

section Getrank

variable {s : Option Stdy} (hpos : ∀ k : Kouho, ∀ sptr ∈ k.studied s, 0 < sptr.styno)
variable {t : KouhoTbl} (ht : t.Fresh)
include hpos ht

theorem countP_plain_setstynum :
    (setstynum s t.kouhotbl).kouhotbl.countP Kouho.plain = t.nkhcount := by
  have h := setstynum_numbered hpos ht.blank ht.length_le
  have hplain : ∀ tbl : List Kouho, tbl.countP Kouho.plain =
      (tbl.map Kouho.blank).countP Kouho.plain := by
    intro tbl
    rw [List.countP_map]
    rfl
  rw [hplain, h.blank, ← hplain, ht.nkhcount]

/-- No plain numeral has a rank of its own yet, so those still to be numbered are all. -/
theorem countP_ownRank {tmp : ℕ} (htmp : tmp ≠ 0) :
    (setstynum s t.kouhotbl).kouhotbl.countP (Kouho.ownRank tmp) = t.nkhcount := by
  have h := setstynum_numbered hpos ht.blank ht.length_le
  rw [← countP_plain_setstynum hpos ht]
  apply List.countP_congr
  intro k hk
  constructor
  · intro hown
    simp only [Kouho.ownRank, Bool.and_eq_true] at hown
    exact hown.2.2
  · intro hplain
    have hr := (h.unstudied k hk (studied_of_plain hplain)).1
    simp [Kouho.ownRank, hr, htmp, hplain]

theorem getrank_spec :
    ((getrank s t).map Kouho.rank).Perm (List.range' 1 t.khcount) ∧
      ∃ nkhcount, List.Forall₂ (fun k k' => k'.blank = k.blank ∧ k'.styno = k.styno ∧
          (k.rank ≠ 0 → k'.rank = makeRoom (setstynum s t.kouhotbl).nrank nkhcount k.rank))
        (setstynum s t.kouhotbl).kouhotbl (getrank s t) := by
  have h := setstynum_numbered hpos ht.blank ht.length_le
  have hlen := congrArg List.length h.blank
  rw [List.length_map, List.length_map] at hlen
  have hmax := ht.length_le
  have hn := h.nrank_pos
  have hnt := h.nrank_le
  have htrank := h.trank
  rw [KouhoTbl.khcount, ← hlen, maxKouhoNumber] at hmax
  rw [getrank, regetrank, KouhoTbl.khcount, ← hlen]
  by_cases hlt : (setstynum s t.kouhotbl).nrank < (setstynum s t.kouhotbl).trank
  · rw [if_pos hlt]
    have hall := length_eq_ranks (setstynum s t.kouhotbl).nrank
      (setstynum s t.kouhotbl).kouhotbl
    have hown := countP_ownRank hpos ht (Nat.one_le_iff_ne_zero.mp hn)
    have hold : ∀ k ∈ (setstynum s t.kouhotbl).kouhotbl, k.rank + t.nkhcount < 0x100 := by
      intro k hk
      have := h.rank_lt hk
      omega
    refine ⟨?_, _, regetrankLoop_keeps _ _ _ _ _ hold⟩
    apply (regetrankLoop_ranks _ _ _ _ _ hold (by omega) (by omega)).trans
    rw [hown, hall, hown, htrank]
    exact ranked_makeRoom h.ranked hn (htrank ▸ hnt) _ _
  · rw [if_neg hlt]
    have hall := length_eq_ranks 0 (setstynum s t.kouhotbl).kouhotbl
    have hown : (setstynum s t.kouhotbl).kouhotbl.countP (Kouho.ownRank 0) = 0 := by
      apply List.countP_eq_zero.mpr
      simp [Kouho.ownRank]
    have hold : ∀ k ∈ (setstynum s t.kouhotbl).kouhotbl, k.rank + 0 < 0x100 := by
      intro k hk
      have := h.rank_lt hk
      omega
    refine ⟨?_, _, regetrankLoop_keeps _ _ _ _ _ hold⟩
    apply (regetrankLoop_ranks _ _ _ _ _ hold (by omega) (by omega)).trans
    rw [hown, hall, hown, htrank]
    have hroom := ranked_makeRoom h.ranked hn (htrank ▸ hnt) 0
      ((setstynum s t.kouhotbl).kouhotbl.countP (Kouho.lastRank 0))
    exact hroom

end Getrank

theorem studied_pos {s : Option Stdy} (hs : ∀ t ∈ s, ∀ r ∈ t.stdydic, 0 < r.styno)
    (k : Kouho) : ∀ sptr ∈ k.studied s, 0 < sptr.styno := by
  intro sptr hsptr
  cases s with
  | none => exact absurd hsptr (by simp [Kouho.studied])
  | some t =>
      have hfind : ((t.srchstdy k.clrec.jnode.jseg k.offs k.clrec.jnode.dicid).bind fun i =>
        t.stdydic[i]?) = some sptr := hsptr
      obtain ⟨i, -, hi⟩ := Option.bind_eq_some_iff.mp hfind
      exact hs t rfl sptr (List.mem_of_getElem? hi)

/-- The only candidate with the rank that is asked for is the one `cvtclknj` finds. -/
theorem cvtclknj_spec {tbl : List Kouho} (h : Ranked (tbl.map Kouho.rank)) {selectid : ℕ}
    (hpos : 1 ≤ selectid) (hle : selectid ≤ tbl.length) :
    ∃ k, tbl[cvtclknj tbl selectid]? = some k ∧ k.rank = selectid ∧
      ∀ i k', tbl[i]? = some k' → k'.rank = selectid → i = cvtclknj tbl selectid := by
  have hmem := h.mem_iff.mpr ⟨hpos, by rwa [List.length_map]⟩
  obtain ⟨k, hk, hrank⟩ := List.mem_map.mp hmem
  have hfind : cvtclknj tbl selectid = tbl.findIdx fun krec => krec.rank = selectid := by
    rw [cvtclknj, if_neg (Nat.one_le_iff_ne_zero.mp hpos)]
  have hlt : cvtclknj tbl selectid < tbl.length := by
    rw [hfind, List.findIdx_lt_length]
    exact ⟨k, hk, decide_eq_true hrank⟩
  have hget : tbl[cvtclknj tbl selectid].rank = selectid := by
    have hf := @List.findIdx_getElem _ (fun krec => krec.rank = selectid) tbl (hfind ▸ hlt)
    simp only [hfind]
    simpa using hf
  refine ⟨_, List.getElem?_eq_getElem hlt, hget, ?_⟩
  intro i k' hi hrank'
  obtain ⟨hil, rfl⟩ := List.getElem?_eq_some_iff.mp hi
  have hinj := @List.Nodup.getElem_inj_iff _ _ h.nodup i (by rwa [List.length_map])
    (cvtclknj tbl selectid) (by rwa [List.length_map])
  apply hinj.mp
  rw [List.getElem_map, List.getElem_map, hrank', hget]

section Ranked

variable {s : Option Stdy} (hpos : ∀ k : Kouho, ∀ sptr ∈ k.studied s, 0 < sptr.styno)
variable {t : KouhoTbl} (ht : t.Fresh)
include hpos ht

/-- Ranking keeps the candidates in their places. -/
theorem map_blank_getrank : (getrank s t).map Kouho.blank = t.kouhotbl := by
  obtain ⟨-, nkhcount, hkeeps⟩ := getrank_spec hpos ht
  have h := setstynum_numbered hpos ht.blank ht.length_le
  rw [map_blank_of_keeps hkeeps fun _ _ hk => hk.1, h.blank]
  exact (List.map_congr_left ht.blank).trans (List.map_id _)

theorem length_getrank : (getrank s t).length = t.khcount := by
  rw [← List.length_map (f := Kouho.blank), map_blank_getrank hpos ht]
  rfl

theorem ranked_getrank : Ranked ((getrank s t).map Kouho.rank) := by
  rw [Ranked, List.length_map, length_getrank hpos ht]
  exact (getrank_spec hpos ht).1

end Ranked

/-- For all dictionaries, clauses and study tables with positive recency numbers: the ranks
of the candidates are 1, 2, …, each once; so every selection that can be made picks exactly
one candidate, and the studied ones come in the order of their recency numbers. -/
theorem getrank_ranked (dictlist : List Dict) (ref : SegRef) (clt1st : List Bunsetu)
    {s : Option Stdy} (hs : ∀ t ∈ s, ∀ r ∈ t.stdydic, 0 < r.styno) :
    let t := mkkouho dictlist ref clt1st
    let tbl := getrank s t
    t.khcount ≤ maxKouhoNumber ∧ tbl.map Kouho.blank = t.kouhotbl ∧
      (tbl.map Kouho.rank).Perm (List.range' 1 t.khcount) ∧
      (∀ selectid, 1 ≤ selectid → selectid ≤ t.khcount →
        ∃ k, tbl[cvtclknj tbl selectid]? = some k ∧ k.rank = selectid ∧
          ∀ i k', tbl[i]? = some k' → k'.rank = selectid → i = cvtclknj tbl selectid) ∧
      ∀ a ∈ tbl, ∀ b ∈ tbl, ∀ m ∈ a.studied s, ∀ n ∈ b.studied s,
        m.styno < n.styno → a.rank < b.rank := by
  intro t tbl
  have ht : t.Fresh := mkkouho_fresh dictlist ref clt1st
  have hpos := studied_pos hs
  have h := setstynum_numbered hpos ht.blank ht.length_le
  obtain ⟨hperm, nkhcount, hkeeps⟩ := getrank_spec hpos ht
  have hblank : tbl.map Kouho.blank = t.kouhotbl := map_blank_getrank hpos ht
  have hlen : tbl.length = t.khcount := length_getrank hpos ht
  have hranked : Ranked (tbl.map Kouho.rank) := ranked_getrank hpos ht
  have hfrom : ∀ k' ∈ tbl, ∃ k ∈ (setstynum s t.kouhotbl).kouhotbl, k'.blank = k.blank ∧
      (k.rank ≠ 0 → k'.rank =
        makeRoom (setstynum s t.kouhotbl).nrank nkhcount k.rank) := by
    intro k' hk'
    obtain ⟨i, hi, rfl⟩ := List.getElem_of_mem hk'
    have hi' := hkeeps.length_eq ▸ hi
    have hget := (List.forall₂_iff_get.mp hkeeps).2 i hi' hi
    exact ⟨_, List.getElem_mem hi', hget.1, hget.2.2⟩
  refine ⟨ht.length_le, hblank, hperm, ?_, ?_⟩
  · intro selectid hsel hle
    exact cvtclknj_spec hranked hsel (hlen ▸ hle)
  · intro a' ha' b' hb' m hm n hn hlt
    obtain ⟨a, ha, hab, har⟩ := hfrom a' ha'
    obtain ⟨b, hb, hbb, hbr⟩ := hfrom b' hb'
    rw [studied_of_blank hab] at hm
    rw [studied_of_blank hbb] at hn
    obtain ⟨hra, hsa⟩ := h.studied a ha m hm
    obtain ⟨hrb, hsb⟩ := h.studied b hb n hn
    have hrank : a.rank < b.rank := by
      by_contra hge
      rcases lt_or_eq_of_le (not_lt.mp hge) with hgt | heq
      · have := h.ordered b hb a ha hrb hra hgt
        omega
      · -- two candidates with one rank are the same
        have hmem : ∀ k ∈ (setstynum s t.kouhotbl).kouhotbl, k.rank ≠ 0 →
            k ∈ (setstynum s t.kouhotbl).kouhotbl.filter (·.rank ≠ 0) :=
          fun k hk hr => List.mem_filter.mpr ⟨hk, by simpa using hr⟩
        have hnd := h.ranked.nodup
        rw [givenRanks_eq] at hnd
        have := List.inj_on_of_nodup_map hnd (hmem b hb hrb) (hmem a ha hra) heq
        subst this
        omega
    rw [har hra, hbr hrb]
    unfold makeRoom
    split <;> split <;> omega

/-- A word and a numeral that can be written in two ways. -/
def sampleClauses : List Bunsetu :=
  [⟨0, ⟨1, 0, 5, 0, .dict, 7, 2, 1, 0, 0⟩, 2, false⟩,
    ⟨2, ⟨3, 0, 0, jflagNN0, .num .arabia, 0, 2, 1, 0, 0⟩, 2, false⟩]

/-- The word was studied when one of the numeral's forms was chosen. -/
def sampleStdy : Stdy := ⟨4, [⟨1, 0, 1, 7, false, false, true⟩], 1, [], []⟩

theorem getrank_ranked_sample :
    ((getrank (some sampleStdy) (mkkouho [] ⟨[], []⟩ sampleClauses)).map Kouho.rank).Perm
      [1, 2, 3] := by
  have hs : ∀ t ∈ some sampleStdy, ∀ r ∈ t.stdydic, 0 < r.styno := by decide
  exact (getrank_ranked [] ⟨[], []⟩ sampleClauses hs).2.2.1

end Sj3
