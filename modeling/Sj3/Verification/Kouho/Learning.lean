import Sj3.Verification.Kouho.Getrank
import Sj3.Verification.Study.Recency

/-! # Learning

Which candidate of a clause is shown first after one of them was studied. Candidates of one
word share its record and are told apart by their prefix and か forms only. -/

namespace Sj3

open Recency

/-- The candidates stand for the same word of the same dictionary. -/
def SameWord (k c : Kouho) : Prop :=
  c.offs = k.offs ∧ c.clrec.jnode.jseg = k.clrec.jnode.jseg ∧
    c.clrec.jnode.dicid = k.clrec.jnode.dicid

instance (k c : Kouho) : Decidable (SameWord k c) := by
  unfold SameWord
  infer_instance

/-- The candidate has a prefix or a か, in the form the record remembers. -/
def fitsForm (sttkj ka_kj : Bool) (c : Kouho) : Bool :=
  if c.sttfg && c.ka_fg then sttkj = c.sttkj && ka_kj = c.ka_kj
  else if c.sttfg then sttkj = c.sttkj
  else if c.ka_fg then ka_kj = c.ka_kj
  else false

/-- Of the candidates that share the studied record, the one at `i` is shown first: none
behind it fits the form, and it fits the form itself or is the first of them. -/
def Leads (same : Kouho → Prop) (front : Kouho → Bool) (tbl : List Kouho) (i : ℕ) : Prop :=
  ∃ c, tbl[i]? = some c ∧ same c ∧
    (∀ j d, i < j → tbl[j]? = some d → same d → ¬ front d) ∧
    (front c ∨ ∀ j d, j < i → tbl[j]? = some d → ¬ same d)

section Leads

variable {same : Kouho → Prop} {front : Kouho → Bool} {dealt : List Kouho} {k : Kouho}

theorem getElem?_concat_cases {i : ℕ} {c : Kouho} (h : (dealt ++ [k])[i]? = some c) :
    (i < dealt.length ∧ dealt[i]? = some c) ∨ (i = dealt.length ∧ c = k) := by
  rw [List.getElem?_append] at h
  split at h
  · rename_i hi
    exact Or.inl ⟨hi, h⟩
  · rename_i hi
    right
    rcases Nat.lt_or_ge (i - dealt.length) 1 with hlt | hge
    · have hzero : i - dealt.length = 0 := by omega
      rw [hzero] at h
      exact ⟨by omega, (Option.some_inj.mp h).symm⟩
    · rw [List.getElem?_eq_none (by simpa using hge)] at h
      exact absurd h (by simp)

theorem getElem?_concat_lt {i : ℕ} {c : Kouho} (h : dealt[i]? = some c) :
    (dealt ++ [k])[i]? = some c := by
  obtain ⟨hi, -⟩ := List.getElem?_eq_some_iff.mp h
  rw [List.getElem?_append_left hi, h]

/-- A further candidate that does not fit, or is of another word, changes nothing. -/
theorem leads_behind (hk : same k → ¬ front k)
    (hsome : same k → ∃ (j : ℕ) (d : Kouho), dealt[j]? = some d ∧ same d) (i : ℕ) :
    Leads same front (dealt ++ [k]) i ↔ Leads same front dealt i := by
  constructor
  · rintro ⟨c, hget, hc, hbehind, hfirst⟩
    rcases getElem?_concat_cases hget with ⟨hi, hget⟩ | ⟨rfl, rfl⟩
    · refine ⟨c, hget, hc, fun j d hij hd => hbehind j d hij (getElem?_concat_lt hd), ?_⟩
      exact hfirst.imp_right fun h j d hji hd => h j d hji (getElem?_concat_lt hd)
    · rcases hfirst with hf | hall
      · exact absurd hf (hk hc)
      · obtain ⟨j, d, hd, hsame⟩ := hsome hc
        obtain ⟨hj, -⟩ := List.getElem?_eq_some_iff.mp hd
        exact absurd hsame (hall j d hj (getElem?_concat_lt hd))
  · rintro ⟨c, hget, hc, hbehind, hfirst⟩
    obtain ⟨hi, -⟩ := List.getElem?_eq_some_iff.mp hget
    refine ⟨c, getElem?_concat_lt hget, hc, ?_, ?_⟩
    · intro j d hij hd hsame
      rcases getElem?_concat_cases hd with ⟨-, hd⟩ | ⟨-, rfl⟩
      · exact hbehind j d hij hd hsame
      · exact hk hsame
    · apply hfirst.imp_right
      intro h j d hji hd
      rcases getElem?_concat_cases hd with ⟨-, hd⟩ | ⟨rfl, -⟩
      · exact h j d hji hd
      · omega

/-- A further candidate that fits, or is the first of its word, leads. -/
theorem leads_front (hsame : same k)
    (hk : front k ∨ ∀ (j : ℕ) d, dealt[j]? = some d → ¬ same d) (i : ℕ) :
    Leads same front (dealt ++ [k]) i ↔ i = dealt.length := by
  have hlast : (dealt ++ [k])[dealt.length]? = some k := by
    rw [List.getElem?_append_right (le_refl _), Nat.sub_self]
    rfl
  constructor
  · rintro ⟨c, hget, hc, hbehind, -⟩
    rcases getElem?_concat_cases hget with ⟨hi, hget⟩ | ⟨hi, -⟩
    · rcases hk with hf | hall
      · exact absurd hf (hbehind _ k hi hlast hsame)
      · exact absurd hc (hall i c hget)
    · exact hi
  · rintro rfl
    refine ⟨k, hlast, hsame, ?_, ?_⟩
    · intro j d hij hd _
      rcases getElem?_concat_cases hd with ⟨hj, -⟩ | ⟨hj, -⟩ <;> omega
    · apply hk.imp_right
      intro hall j d hji hd
      rcases getElem?_concat_cases hd with ⟨-, hd⟩ | ⟨hj, -⟩
      · exact hall j d hd
      · omega

end Leads

/-! ## Ranks after learning -/

/-- The study table knows the word of `same` as its most recent one. -/
structure Learned (s : Option Stdy) (same : Kouho → Prop) (new : StdyIn) : Prop where
  styno : new.styno = 1
  nmflg : new.nmflg = false
  word : ∀ c, same c → c.studied s = some new
  others : ∀ c, ¬ same c → ∀ sptr ∈ c.studied s, 2 ≤ sptr.styno
  blank : ∀ c c', c.blank = c'.blank → (same c ↔ same c')

/-- What `setstynum` has made of the candidates dealt with, once one is of the word. -/
structure Ranks.Leading (same : Kouho → Prop) (front : Kouho → Bool) (dealt : List Kouho)
    (r : Ranks) : Prop where
  nrank : 2 ≤ r.nrank
  lead : ∀ (i : ℕ) c, r.kouhotbl[i]? = some c → (c.rank = 1 ↔ Leads same front dealt i)

theorem goesFront_of_eq {kptr ptr : Kouho} {sptr : StdyIn} (h : sptr.styno = ptr.styno) :
    goesFront kptr sptr ptr = fitsForm sptr.sttkj sptr.ka_kj kptr := by
  rw [goesFront, if_neg (by omega), if_pos h]
  rfl

theorem goesFront_of_lt {kptr ptr : Kouho} {sptr : StdyIn} (h : sptr.styno < ptr.styno) :
    goesFront kptr sptr ptr := by
  rw [goesFront, if_pos h]

section Leading

variable {s : Option Stdy} {same : Kouho → Prop} {new : StdyIn} (hl : Learned s same new)
variable {dealt : List Kouho} {r : Ranks} (h : r.Numbered s dealt)
variable {kptr : Kouho} {sptr : StdyIn}

include h in
theorem Ranks.Numbered.length_eq : r.kouhotbl.length = dealt.length := by
  have := congrArg List.length h.blank
  rwa [List.length_map, List.length_map] at this

include h in
theorem Ranks.Numbered.exists_dealt {i : ℕ} {c : Kouho} (hc : r.kouhotbl[i]? = some c) :
    ∃ d, dealt[i]? = some d ∧ c.blank = d.blank := by
  have hmap := congrArg (fun l : List Kouho => l[i]?) h.blank
  simp only [List.getElem?_map, hc, Option.map_some] at hmap
  obtain ⟨d, hd, heq⟩ := Option.map_eq_some_iff.mp hmap.symm
  exact ⟨d, hd, heq.symm⟩

include h in
theorem Ranks.Numbered.exists_ranked {i : ℕ} {d : Kouho} (hd : dealt[i]? = some d) :
    ∃ c, r.kouhotbl[i]? = some c ∧ c.blank = d.blank := by
  have hmap := congrArg (fun l : List Kouho => l[i]?) h.blank
  simp only [List.getElem?_map, hd, Option.map_some] at hmap
  exact Option.map_eq_some_iff.mp hmap

include h in
/-- The new candidate is first if all others have to go behind it. -/
theorem Ranks.Numbered.keepnm_eq_one (hpos : 0 < sptr.styno)
    (hall : ∀ c ∈ r.kouhotbl, c.rank ≠ 0 → goesFront kptr sptr c) :
    r.trank - r.kouhotbl.countP (goesFront kptr sptr) = 1 := by
  rw [← countP_ranked (h.not_goesFront hpos), h.trank_eq, List.countP_eq_length.mpr]
  · omega
  · intro c hc
    obtain ⟨hc, hr⟩ := List.mem_filter.mp hc
    exact hall c hc (by simpa using hr)

include h in
/-- It is not if the first one does not. -/
theorem Ranks.Numbered.two_le_keepnm (hpos : 0 < sptr.styno) {c : Kouho}
    (hc : c ∈ r.kouhotbl) (hrank : c.rank = 1) (hnot : ¬ goesFront kptr sptr c) :
    2 ≤ r.trank - r.kouhotbl.countP (goesFront kptr sptr) := by
  have hiff : goesFront kptr sptr c ↔ _ := h.goesFront_iff hpos hc (by omega)
  rw [hrank] at hiff
  have hle := mt hiff.mpr hnot
  omega

include hl h in
/-- Once a candidate of the word was dealt with, one has rank 1, and it is of the word. -/
theorem Ranks.Leading.exists_first {front : Kouho → Bool} (hlead : r.Leading same front dealt)
    (hsome : ∃ d ∈ dealt, same d) : ∃ c ∈ r.kouhotbl, c.rank = 1 ∧ c.styno = 1 := by
  obtain ⟨d, hd, hsame⟩ := hsome
  obtain ⟨j, hj⟩ := List.mem_iff_getElem?.mp hd
  obtain ⟨e, he, heq⟩ := h.exists_ranked hj
  have hestudied : e.studied s = some new := hl.word e ((hl.blank e d heq).mpr hsame)
  have hemem := List.mem_of_getElem? he
  have herank := (h.studied e hemem new hestudied).1
  have hone : 1 ∈ givenRanks r.kouhotbl := by
    have hmem : e.rank ∈ givenRanks r.kouhotbl :=
      List.mem_filter.mpr ⟨List.mem_map_of_mem hemem, by simpa using herank⟩
    have hlen := List.length_pos_of_mem hmem
    exact h.ranked.mem_iff.mpr ⟨le_refl _, hlen⟩
  obtain ⟨c, hc, hrank⟩ := List.mem_map.mp (List.mem_of_mem_filter hone)
  obtain ⟨i, hi⟩ := List.mem_iff_getElem?.mp hc
  obtain ⟨d', hd', hsame', -⟩ := (hlead.lead i c hi).mp hrank
  obtain ⟨d'', hd'', hblank⟩ := h.exists_dealt hi
  rw [hd'] at hd''
  cases hd''
  have hstudied := hl.word c ((hl.blank c d' hblank).mpr hsame')
  exact ⟨c, hc, hrank, by rw [(h.studied c hc new hstudied).2, hl.styno]⟩

include h in
/-- The ranks `setnspr` leaves, place by place. -/
theorem Ranks.Numbered.rank_setnspr (hpos : 0 < sptr.styno)
    (hlt : r.kouhotbl.length < maxKouhoNumber) {i : ℕ} {c' : Kouho}
    (hc : (Sj3.setnspr r kptr sptr).kouhotbl[i]? = some c') :
    (∃ c, r.kouhotbl[i]? = some c ∧
        c'.rank = openUp (r.trank - r.kouhotbl.countP (goesFront kptr sptr)) c.rank) ∨
      (i = dealt.length ∧
        c'.rank = r.trank - r.kouhotbl.countP (goesFront kptr sptr)) := by
  have hranks : (Sj3.setnspr r kptr sptr).kouhotbl.map Kouho.rank = _ := h.ranks_setnspr hpos hlt
  have hmap := congrArg (fun l : List ℕ => l[i]?) hranks
  simp only [List.getElem?_map, hc, Option.map_some, List.getElem?_append, List.length_map] at hmap
  by_cases hi : i < r.kouhotbl.length
  · left
    rw [if_pos hi, List.getElem?_eq_getElem hi] at hmap
    exact ⟨_, List.getElem?_eq_getElem hi, Option.some_inj.mp hmap⟩
  · right
    rw [if_neg hi] at hmap
    rcases Nat.eq_zero_or_pos (i - r.kouhotbl.length) with hzero | hposi
    · rw [hzero] at hmap
      exact ⟨by rw [← h.length_eq]; omega, Option.some_inj.mp hmap⟩
    · rw [List.getElem?_eq_none (by simpa using Nat.succ_le_of_lt hposi)] at hmap
      exact absurd hmap (by simp)

include h in
/-- A candidate that gets rank 1 leads. -/
theorem Ranks.Numbered.leading_first {front : Kouho → Bool} (hpos : 0 < sptr.styno)
    (hlt : r.kouhotbl.length < maxKouhoNumber) (hn : sptr.nmflg = false) (hsame : same kptr)
    (hall : ∀ c ∈ r.kouhotbl, c.rank ≠ 0 → goesFront kptr sptr c)
    (hlead : front kptr ∨ ∀ (j : ℕ) d, dealt[j]? = some d → ¬ same d) :
    (Sj3.setnspr r kptr sptr).Leading same front (dealt ++ [kptr]) := by
  have hone := h.keepnm_eq_one hpos hall
  constructor
  · have := h.nrank_pos
    rw [Sj3.setnspr, hone, hn]
    dsimp only
    rw [if_neg fun hc => absurd hc.1 (by decide), if_pos (by omega)]
    omega
  · intro i c' hc'
    rw [leads_front hsame hlead]
    rcases h.rank_setnspr hpos hlt hc' with ⟨c, hc, hrank⟩ | ⟨hi, hrank⟩
    · obtain ⟨hi, -⟩ := List.getElem?_eq_some_iff.mp hc
      have := h.length_eq
      rw [hrank, hone, openUp]
      refine iff_of_false ?_ (by omega)
      split <;> omega
    · rw [hrank, hone]
      exact iff_of_true rfl hi

include h in
/-- A candidate that does not get rank 1 leaves the one that leads. -/
theorem Ranks.Leading.behind {front : Kouho → Bool} (hlead : r.Leading same front dealt)
    (hpos : 0 < sptr.styno) (hlt : r.kouhotbl.length < maxKouhoNumber)
    (hkeep : 2 ≤ r.trank - r.kouhotbl.countP (goesFront kptr sptr))
    (hk : same kptr → ¬ front kptr)
    (hsome : same kptr → ∃ (j : ℕ) (d : Kouho), dealt[j]? = some d ∧ same d) :
    (Sj3.setnspr r kptr sptr).Leading same front (dealt ++ [kptr]) := by
  constructor
  · have := hlead.nrank
    rw [Sj3.setnspr]
    dsimp only
    repeat' split
    all_goals omega
  · intro i c' hc'
    rw [leads_behind hk hsome]
    rcases h.rank_setnspr hpos hlt hc' with ⟨c, hc, hrank⟩ | ⟨hi, hrank⟩
    · rw [← hlead.lead i c hc, hrank, openUp]
      split <;> omega
    · rw [hrank]
      refine iff_of_false (by omega) ?_
      rintro ⟨d, hd, -⟩
      obtain ⟨hi', -⟩ := List.getElem?_eq_some_iff.mp hd
      omega

include hl h in
/-- One candidate more. -/
theorem Ranks.Numbered.leading_step (hlt : r.kouhotbl.length < maxKouhoNumber)
    (hlead : (∃ d ∈ dealt, same d) → r.Leading same (fitsForm new.sttkj new.ka_kj) dealt)
    (hpos : 0 < sptr.styno) (hstudied : kptr.studied s = some sptr)
    (hsome : ∃ d ∈ dealt ++ [kptr], same d) :
    (Sj3.setnspr r kptr sptr).Leading same (fitsForm new.sttkj new.ka_kj) (dealt ++ [kptr]) := by
  by_cases hsame : same kptr
  · have hnew : sptr = new := Option.some_inj.mp (hstudied.symm.trans (hl.word kptr hsame))
    subst hnew
    have hone := hl.styno
    by_cases hfit : fitsForm sptr.sttkj sptr.ka_kj kptr
    · apply h.leading_first hpos hlt hl.nmflg hsame _ (Or.inl hfit)
      intro c hc hr
      cases hcs : c.studied s with
      | none => exact absurd (h.unstudied c hc hcs).1 hr
      | some sp =>
          have hstyno := (h.studied c hc sp hcs).2
          by_cases hcsame : same c
          · have heq : sp = sptr := Option.some_inj.mp (hcs.symm.trans (hl.word c hcsame))
            rw [goesFront_of_eq (by rw [hstyno, heq])]
            exact hfit
          · exact goesFront_of_lt (by have := hl.others c hcsame sp hcs; omega)
    · by_cases hprev : ∃ d ∈ dealt, same d
      · have hleading := hlead hprev
        obtain ⟨c, hc, hrank, hcone⟩ := hleading.exists_first hl h hprev
        apply hleading.behind h hpos hlt _ (fun _ => hfit)
        · intro _
          obtain ⟨d, hd, hdsame⟩ := hprev
          obtain ⟨j, hj⟩ := List.mem_iff_getElem?.mp hd
          exact ⟨j, d, hj, hdsame⟩
        · apply h.two_le_keepnm hpos hc hrank
          rw [goesFront_of_eq (by omega)]
          exact hfit
      · apply h.leading_first hpos hlt hl.nmflg hsame
        · intro c hc hr
          obtain ⟨i, hi⟩ := List.mem_iff_getElem?.mp hc
          obtain ⟨d, hd, hblank⟩ := h.exists_dealt hi
          have hcsame : ¬ same c := by
            intro hcs
            exact hprev ⟨d, List.mem_of_getElem? hd, (hl.blank c d hblank).mp hcs⟩
          cases hcs : c.studied s with
          | none => exact absurd (h.unstudied c hc hcs).1 hr
          | some sp =>
              have hstyno := (h.studied c hc sp hcs).2
              exact goesFront_of_lt (by have := hl.others c hcsame sp hcs; omega)
        · right
          intro j d hd hdsame
          exact hprev ⟨d, List.mem_of_getElem? hd, hdsame⟩
  · have hprev : ∃ d ∈ dealt, same d := by
      obtain ⟨d, hd, hdsame⟩ := hsome
      rcases List.mem_append.mp hd with hd | hd
      · exact ⟨d, hd, hdsame⟩
      · rw [List.mem_singleton.mp hd] at hdsame
        exact absurd hdsame hsame
    have hleading := hlead hprev
    obtain ⟨c, hc, hrank, hcone⟩ := hleading.exists_first hl h hprev
    apply hleading.behind h hpos hlt _ (fun hc => absurd hc hsame) (fun hc => absurd hc hsame)
    apply h.two_le_keepnm hpos hc hrank
    intro hf
    have := styno_le_of_goesFront hf
    have := hl.others kptr hsame sptr hstudied
    omega

include hl h in
/-- A candidate that was not studied is none of the word. -/
theorem Ranks.Numbered.leading_skip
    (hlead : (∃ d ∈ dealt, same d) → r.Leading same (fitsForm new.sttkj new.ka_kj) dealt)
    (hblank : kptr.blank = kptr) (hnone : kptr.studied s = none)
    (hsome : ∃ d ∈ dealt ++ [kptr], same d) :
    { r with kouhotbl := r.kouhotbl ++ [kptr] }.Leading same (fitsForm new.sttkj new.ka_kj)
      (dealt ++ [kptr]) := by
  have hsame : ¬ same kptr := by
    intro hc
    rw [hl.word kptr hc] at hnone
    exact absurd hnone (by simp)
  have hprev : ∃ d ∈ dealt, same d := by
    obtain ⟨d, hd, hdsame⟩ := hsome
    rcases List.mem_append.mp hd with hd | hd
    · exact ⟨d, hd, hdsame⟩
    · rw [List.mem_singleton.mp hd] at hdsame
      exact absurd hdsame hsame
  have hleading := hlead hprev
  refine ⟨hleading.nrank, ?_⟩
  intro i c hc
  rw [leads_behind (fun hc => absurd hc hsame) (fun hc => absurd hc hsame)]
  rcases getElem?_concat_cases hc with ⟨-, hc⟩ | ⟨hi, rfl⟩
  · exact hleading.lead i c hc
  · have hrank : c.rank = 0 := by rw [← hblank]; rfl
    refine iff_of_false (by omega) ?_
    rintro ⟨d, hd, -⟩
    obtain ⟨hi', -⟩ := List.getElem?_eq_some_iff.mp hd
    have := h.length_eq
    omega

end Leading

theorem Learned.pos {s : Option Stdy} {same : Kouho → Prop} {new : StdyIn}
    (hl : Learned s same new) (k : Kouho) : ∀ sptr ∈ k.studied s, 0 < sptr.styno := by
  intro sptr hsptr
  by_cases hsame : same k
  · have hnew : sptr = new := Option.some_inj.mp (hsptr.symm.trans (hl.word k hsame))
    rw [hnew, hl.styno]
    exact Int.one_pos
  · have := hl.others k hsame sptr hsptr
    omega

theorem setstynum_leading {s : Option Stdy} {same : Kouho → Prop} {new : StdyIn}
    (hl : Learned s same new) {tbl : List Kouho} (hblank : ∀ k ∈ tbl, k.blank = k)
    (hlen : tbl.length ≤ maxKouhoNumber) (hsome : ∃ d ∈ tbl, same d) :
    (setstynum s tbl).Leading same (fitsForm new.sttkj new.ka_kj) tbl := by
  have hrun := setstynum_induct s tbl (P := fun dealt r => r.Numbered s dealt ∧
    ((∃ d ∈ dealt, same d) → r.Leading same (fitsForm new.sttkj new.ka_kj) dealt))
    ⟨numbered_start s, by simp⟩ ?_ ?_
  · exact hrun.2 hsome
  · intro dealt rest kptr sptr r htbl hstudied h
    have hlt : r.kouhotbl.length < maxKouhoNumber := by
      rw [h.1.length_eq]
      rw [htbl, List.length_append, List.length_cons] at hlen
      omega
    exact ⟨h.1.setnspr (hl.pos kptr sptr hstudied) hlt hstudied,
      h.1.leading_step hl hlt h.2 (hl.pos kptr sptr hstudied) hstudied⟩
  · intro dealt rest kptr r htbl hnone h
    have hk := hblank kptr (by rw [htbl]; simp)
    exact ⟨h.1.skip hk hnone, h.1.leading_skip hl h.2 hk hnone⟩

/-- The candidate with rank 1 is the one that leads. -/
theorem getrank_first {s : Option Stdy} {same : Kouho → Prop} {new : StdyIn}
    (hl : Learned s same new) {t : KouhoTbl} (ht : t.Fresh)
    (hsome : ∃ d ∈ t.kouhotbl, same d) (i : ℕ) :
    cvtclknj (getrank s t) 1 = i ↔
      Leads same (fitsForm new.sttkj new.ka_kj) t.kouhotbl i := by
  have h := setstynum_numbered hl.pos ht.blank ht.length_le
  have hleading := setstynum_leading hl ht.blank ht.length_le hsome
  obtain ⟨-, nkhcount, hkeeps⟩ := getrank_spec hl.pos ht
  have hpos : 1 ≤ (getrank s t).length := by
    obtain ⟨d, hd, -⟩ := hsome
    rw [length_getrank hl.pos ht]
    exact List.length_pos_of_mem hd
  obtain ⟨k, hk, -, huniq⟩ := cvtclknj_spec (ranked_getrank hl.pos ht) (le_refl 1) hpos
  -- rank 1 is in front of the place where plain numerals are put
  have hfirst : ∀ j c, (setstynum s t.kouhotbl).kouhotbl[j]? = some c → c.rank = 1 →
      j = cvtclknj (getrank s t) 1 := by
    intro j c hc hrank
    obtain ⟨hj, rfl⟩ := List.getElem?_eq_some_iff.mp hc
    have hj' : j < (getrank s t).length := hkeeps.length_eq ▸ hj
    have hrel := ((List.forall₂_iff_get.mp hkeeps).2 j hj hj').2.2
    simp only [List.get_eq_getElem] at hrel
    apply huniq j _ (List.getElem?_eq_getElem hj')
    have hnrank := hleading.nrank
    rw [hrel (by omega), hrank, makeRoom, if_neg (by omega)]
  constructor
  · rintro rfl
    obtain ⟨c, hc, hrank, -⟩ := hleading.exists_first hl h hsome
    obtain ⟨j, hj⟩ := List.mem_iff_getElem?.mp hc
    rw [← hfirst j c hj hrank]
    exact (hleading.lead j c hj).mp hrank
  · intro hlead
    obtain ⟨d, hd, -⟩ := id hlead
    obtain ⟨c, hc, -⟩ := h.exists_ranked hd
    exact (hfirst i c hc ((hleading.lead i c hc).mpr hlead)).symm

theorem leads_of_blank {same : Kouho → Prop} {front : Kouho → Bool}
    (hsame : ∀ c, same c ↔ same c.blank) (hfront : ∀ c, front c = front c.blank)
    {tbl tbl' : List Kouho} (h : tbl.map Kouho.blank = tbl') (i : ℕ) :
    Leads same front tbl' i ↔ Leads same front tbl i := by
  subst h
  unfold Leads
  simp only [List.getElem?_map, Option.map_eq_some_iff]
  constructor
  · rintro ⟨-, ⟨c, hc, rfl⟩, hc', hbehind, hfirst⟩
    refine ⟨c, hc, (hsame c).mpr hc', ?_, ?_⟩
    · intro j d hij hd hd'
      rw [hfront]
      exact hbehind j d.blank hij ⟨d, hd, rfl⟩ ((hsame d).mp hd')
    · rw [hfront]
      exact hfirst.imp_right fun hall j d hji hd hd' =>
        hall j d.blank hji ⟨d, hd, rfl⟩ ((hsame d).mp hd')
  · rintro ⟨c, hc, hc', hbehind, hfirst⟩
    refine ⟨c.blank, ⟨c, hc, rfl⟩, (hsame c).mp hc', ?_, ?_⟩
    · rintro j - hij ⟨d, hd, rfl⟩ hd'
      rw [← hfront]
      exact hbehind j d hij hd ((hsame d).mpr hd')
    · rw [← hfront]
      apply hfirst.imp_right
      rintro hall j - hji ⟨d, hd, rfl⟩ hd'
      exact hall j d hji hd ((hsame d).mpr hd')

/-! ## Studying a candidate -/

/-- The forms of the prefix and of か that the word's record remembers once the candidate is
studied. -/
def formAfter (s : Stdy) (k : Kouho) : Bool × Bool :=
  let old := s.recordOf k.clrec.jnode.jseg k.offs k.clrec.jnode.dicid
  (if k.sttfg then k.sttkj else (old.map StdyIn.sttkj).getD false,
    if k.ka_fg then k.ka_kj else (old.map StdyIn.ka_kj).getD false)

theorem setstyrec_word {tbl : List Kouho} {k : Kouho} (hofs : k.offs ≠ 0) :
    (setstyrec tbl k).stdy1 =
      { offset := k.offs
        seg := k.clrec.jnode.jseg
        styno := k.styno
        dicid := k.clrec.jnode.dicid
        sttkj := k.sttkj
        ka_kj := k.ka_kj
        nmflg := false } := by
  simp [setstyrec, hofs]

theorem learned_study {s : Stdy} (h : StdyRanked s.stdydic) (hlen : s.stdydic.length < 0x7fff)
    (hmax : 0 < s.stdymax) (tbl : List Kouho) {k : Kouho} (hofs : k.offs ≠ 0) :
    ∃ new, Learned (some (s.study (setstyrec tbl k)).1) (SameWord k) new ∧
      (new.sttkj, new.ka_kj) = formAfter s k := by
  have hword := @setstyrec_word tbl k hofs
  have hofs' : (setstyrec tbl k).stdy1.offset ≠ 0 := by rwa [hword]
  have hstep := study_step h hofs' hlen hmax
  have hranked := hstep.ranked hofs' h
  obtain ⟨new, hmem, hof, hone, hfrom⟩ := hstep.exists_first
  have hofword : ∀ r, (setstyrec tbl k).Of r ↔
      Stdy.IsOf k.clrec.jnode.jseg k.offs k.clrec.jnode.dicid r := by
    intro r
    rw [StdyOut.Of, hword]
  refine ⟨new, ⟨hone, ?_, ?_, ?_, ?_⟩, ?_⟩
  · rcases hfrom with ⟨old, -, -, rfl⟩ | ⟨-, rfl⟩
    · rw [StdyIn.again, hword]
    · rw [newStdyIn, hword]
  · intro c hc
    have hrec := (Stdy.recordOf_eq_some hranked.toStdySorted).mpr
      ⟨hmem, (hofword new).mp hof⟩
    rw [← hc.1, ← hc.2.1, ← hc.2.2] at hrec
    exact hrec
  · intro c hc sptr hsptr
    have hrec : sptr ∈ (s.study (setstyrec tbl k)).1.stdydic ∧
        Stdy.IsOf c.clrec.jnode.jseg c.offs c.clrec.jnode.dicid sptr :=
      (Stdy.recordOf_eq_some hranked.toStdySorted).mp hsptr
    have hpos := hranked.pos sptr hrec.1
    have hne : sptr.styno ≠ 1 := by
      intro heq
      have hsame : sptr = new := by
        apply List.inj_on_of_nodup_map hranked.ranked.nodup hrec.1 hmem
        rw [StdyIn.num, StdyIn.num, heq, hone]
      subst hsame
      have hk := (hofword sptr).mp hof
      apply hc
      refine ⟨hrec.2.2.1.symm.trans hk.2.1, ?_, hrec.2.2.2.symm.trans hk.2.2⟩
      exact Int.ofNat_inj.mp (hrec.2.1.symm.trans hk.1)
    omega
  · intro c c' hblank
    have hfields : ∀ d : Kouho, SameWord k d ↔ SameWord k d.blank := fun d => Iff.rfl
    rw [hfields c, hfields c', hblank]
  · rw [formAfter]
    rcases hfrom with ⟨old, hold, holdof, rfl⟩ | ⟨hnone, rfl⟩
    · have hrec := (Stdy.recordOf_eq_some h.toStdySorted).mpr ⟨hold, (hofword old).mp holdof⟩
      rw [hrec, StdyIn.again, hword]
      rfl
    · have hrec : s.recordOf k.clrec.jnode.jseg k.offs k.clrec.jnode.dicid = none := by
        cases hr : s.recordOf k.clrec.jnode.jseg k.offs k.clrec.jnode.dicid with
        | none => rfl
        | some r =>
            have hmem := (Stdy.recordOf_eq_some h.toStdySorted).mp hr
            exact absurd ((hofword r).mpr hmem.2) (hnone r hmem.1)
      rw [hrec, newStdyIn, hword]
      rfl

/-- Which candidate is shown first when a clause is converted again after one of its
candidates was studied. -/
theorem study_presents (dictlist : List Dict) (ref ref' : SegRef) {clt1st : List Bunsetu}
    (hnum : PlainNumerals clt1st) {s : Stdy} (h : StdyRanked s.stdydic)
    (hlen : s.stdydic.length < 0x7fff) (hmax : 0 < s.stdymax) {i : ℕ} {k : Kouho}
    (hk : (getrank (some s) (mkkouho dictlist ref clt1st))[i]? = some k) (hofs : k.offs ≠ 0) :
    let tbl := getrank (some s) (mkkouho dictlist ref clt1st)
    let s' := (s.study (setstyrec tbl k)).1
    cvtclknj (getrank (some s') (mkkouho dictlist ref' clt1st)) 1 = i ↔
      Leads (SameWord k) (fitsForm (formAfter s k).1 (formAfter s k).2) tbl i := by
  intro tbl s'
  have ht : (mkkouho dictlist ref clt1st).Fresh := mkkouho_fresh dictlist ref clt1st
  have hpos := studied_pos (s := some s) fun u hu => Option.mem_some_iff.mp hu ▸ h.pos
  have hblank := map_blank_getrank hpos ht
  obtain ⟨new, hl, hform⟩ := learned_study h hlen hmax tbl hofs
  have hsome : ∃ d ∈ (mkkouho dictlist ref clt1st).kouhotbl, SameWord k d := by
    refine ⟨k.blank, ?_, rfl, rfl, rfl⟩
    rw [← hblank]
    exact List.mem_map_of_mem (List.mem_of_getElem? hk)
  rw [← getrank_same (mkkouho_same dictlist ref ref' hnum), getrank_first hl ht hsome i, ← hform]
  exact leads_of_blank (fun _ => Iff.rfl) (fun _ => rfl) hblank i

/-- The block of the counter 円, which is read えん. -/
def yenSeg : Bytes :=
  [0x00, 0x00, 0x0a, 0x02, 0x55, 0xa0, 29, 0x31, 0x5f, 0x00, 0xff, 0xff]

def yenDict : Dict :=
  { dicid := 7
    idxlen := 1
    seglen := 12
    segunit := 1
    maxunit := 4
    idxbuf := [0]
    segs := [yenSeg]
    idxofs := [0] }

/-- What is found for the reading 5まんえん: 5万円 with an Arabic and with a Chinese digit. -/
def yenClauses : List Bunsetu :=
  let flags := jflagN01 ||| jflagNN0 ||| jflagNK4 ||| jflagNK2
  [⟨0, ⟨1, 0, 6, flags, .num .arakura, 7, 5, 30, 0, 0⟩, 5, false⟩,
    ⟨2, ⟨3, 0, 6, flags, .num .kazu, 7, 5, 30, 0, 0⟩, 5, false⟩]

def yenStdy : Stdy := ⟨20, [], 1, [], []⟩

theorem yenStdy_ranked : StdyRanked yenStdy.stdydic :=
  ⟨⟨List.Pairwise.nil, List.nodup_nil, by decide⟩, by decide, ranked_nil⟩

/-- The candidates of 5まんえん. -/
def yenTbl (s : Stdy) : List Kouho :=
  getrank (some s) (mkkouho [yenDict] ⟨[], []⟩ yenClauses)

/-- The candidate at place `i` of them, which is written in the form `mode`. -/
def yenKouho (i mode : ℕ) : Kouho :=
  ⟨yenClauses.getD i ⟨0, ⟨0, 0, 0, 0, .minasi, 0, 0, 0, 0, 0⟩, 0, false⟩, 7, 0, i + 1, false, false,
    false, false, mode⟩

theorem study_presents_yen :
    cvtclknj (yenTbl (yenStdy.study (setstyrec (yenTbl yenStdy) (yenKouho 0 14))).1) 1 = 0 := by
  have hnum : PlainNumerals yenClauses := by
    intro c hc kind _
    rcases List.mem_cons.mp hc with rfl | hc
    · decide
    · rw [List.mem_singleton.mp hc]
      decide
  apply (study_presents [yenDict] ⟨[], []⟩ ⟨[], []⟩ hnum yenStdy_ranked (by decide) (by decide)
    (k := yenKouho 0 14) (by decide +kernel) (by decide)).mpr
  refine ⟨yenKouho 0 14, by decide +kernel, by decide, ?_, Or.inr fun j d hj => by omega⟩
  intro j d _ hd _
  have hforms : ∀ d ∈ yenTbl yenStdy, d.sttfg = false ∧ d.ka_fg = false := by decide +kernel
  obtain ⟨hstt, hka⟩ := hforms d (List.mem_of_getElem? hd)
  simp [fitsForm, hstt, hka]

/-- Studying the second one does not help: the first one has the same record. -/
theorem study_not_presents :
    (yenTbl yenStdy)[1]? = some (yenKouho 1 9) ∧ (yenKouho 1 9).offs ≠ 0 ∧
      cvtclknj (yenTbl (yenStdy.study (setstyrec (yenTbl yenStdy) (yenKouho 1 9))).1) 1 ≠ 1 := by
  decide +kernel

end Sj3
