import Mathlib.Algebra.Order.BigOperators.Group.Finset
import Mathlib.Order.Interval.Finset.Nat
import Sj3.Model.Fzkyomi
import Sj3.Verification.Fuzoku.Afresh

/-! # Room for the particles found

How many entries `fzktbl` comes to have, and how deep `srchfzk` goes. Every place is scanned
once, so that the entries are the particles at the places that a search without the table
looks at. -/

namespace Sj3

variable {g : Grammar} {y : Bytes} {jrec : Jiritu}

/-! ## Levels -/

/-- Punctuation is no code that a particle starts with. -/
theorem isKgu_particle : ∀ n < 0x100, isKgu (UInt8.ofNat n) = true →
    ¬ (yXa.toNat ≤ n ∧ n ≤ yNn.toNat) := by
  decide +kernel

theorem level_lt_of_search {p level : ℕ} {right : UInt8}
    (hstart : fzkStart g y p right level = .search) : level < maxFlvl := by
  by_contra hlevel
  simp only [fzkStart] at hstart
  split_ifs at hstart with hdeep hkgu hcut hend hrange
  have hpunct : isKgu (y.getD p 0) = true := by
    by_contra hnot
    exact hdeep ⟨by omega, hnot⟩
  have hnot := isKgu_particle (y.getD p 0).toNat (UInt8.toNat_lt _)
  rw [UInt8.ofNat_toNat] at hnot
  exact hnot hpunct hrange

theorem srchfzk_succ {n p level : ℕ} {right : UInt8} (hn : 0 < n) (hlevel : maxFlvl < level + n)
    (st : FzkState Frec) :
    srchfzk g y jrec (n + 1) p right level st = srchfzk g y jrec n p right level st := by
  induction n generalizing p level right st with
  | zero => omega
  | succ n ih =>
      have hsame : fzkStart g y p right level = .search →
          follow g y jrec (srchfzk g y jrec (n + 1)) right level =
            follow g y jrec (srchfzk g y jrec n) right level := by
        intro hstart
        have hlt := level_lt_of_search hstart
        funext next fzk t
        cases hcnct : fzkcnct g right (fzkLeft fzk) with
        | false => rw [follow_of_not_cnct hcnct, follow_of_not_cnct hcnct]
        | true =>
            rw [follow_of_cnct hcnct, follow_of_cnct hcnct]
            exact ih (by omega) (by omega) _
      rw [srchfzk, srchfzk]
      cases hstart : fzkStart g y p right level with
      | stop => rfl
      | kugiri => rfl
      | search => rw [hsame hstart]

/-- The levels that are provided for are all that is needed. -/
theorem srchfzk_levels {n : ℕ} (hn : fzkLevels ≤ n) (p : ℕ) (right : UInt8)
    (st : FzkState Frec) :
    srchfzk g y jrec n p right 0 st = srchfzk g y jrec fzkLevels p right 0 st := by
  induction n, hn using Nat.le_induction with
  | base => rfl
  | succ n hn ih =>
      have hlevels : maxFlvl + 1 ≤ n := hn
      rw [srchfzk_succ (by omega) (by omega), ih]

/-! ## What a call keeps -/

/-- A property that entering a particle, reaching a level and noting a clause keep is kept by
the search from level `level` on. -/
theorem srchfzk_keeps {P : FzkState Frec → Prop}
    (hclause : ∀ s, P s → ∀ fzk_ka_flg gobilen clrecs, P { s with fzk_ka_flg, gobilen, clrecs })
    (hcalled : ∀ s level, level ≤ maxFlvl → P s → P { s with deepest := max s.deepest level })
    (hpush : ∀ s p fzk, P s → P (pushFrec p fzk s))
    {n p level : ℕ} {right : UInt8} (hlevel : level ≤ maxFlvl) {s : FzkState Frec} (h : P s) :
    P (srchfzk g y jrec n p right level s) := by
  have hR := ClauseRel.of_pred hclause
  induction n generalizing p level right s with
  | zero => exact h
  | succ n ih =>
      have hnow := hcalled s level hlevel h
      have hfollow : level < maxFlvl → ∀ fzk t, P t →
          P (follow g y jrec (srchfzk g y jrec n) right level (fzkNext p fzk) fzk t) := by
        intro hlt fzk t ht
        cases hcnct : fzkcnct g right (fzkLeft fzk) with
        | false =>
            rw [follow_of_not_cnct hcnct]
            exact ht
        | true =>
            rw [follow_of_cnct hcnct]
            exact ih hlt (hR.connected ⟨rfl, ht⟩ g y jrec level (fzkNext p fzk) fzk).2
      cases hstart : fzkStart g y p right level with
      | stop => simpa only [srchfzk, hstart] using hnow
      | kugiri =>
          simp only [srchfzk, hstart]
          exact (hR.setKugiri ⟨rfl, hnow⟩ y jrec p level).2
      | search =>
          have hlt := level_lt_of_search hstart
          by_cases hknown : KeyedTable.row p s.fzktbl = []
          · rw [srchfzk_new hstart hknown]
            exact List.foldlRecOn _ _ hnow fun t ht fzk _ =>
              hfollow hlt fzk _ (hpush t p fzk ht)
          · rw [srchfzk_known hstart hknown]
            exact List.foldlRecOn _ _ hnow fun t ht fzk _ => hfollow hlt fzk t ht

theorem mkclauses_keeps {P : FzkState Frec → Prop}
    (hclause : ∀ s, P s → ∀ fzk_ka_flg gobilen clrecs, P { s with fzk_ka_flg, gobilen, clrecs })
    (hcalled : ∀ s level, level ≤ maxFlvl → P s → P { s with deepest := max s.deepest level })
    (hpush : ∀ s p fzk, P s → P (pushFrec p fzk s)) (words : List Jiritu) (alloc : ℕ → Bool)
    (st : FzkState Frec)
    (h : P { st with fzktbl := [], fzkmost := 0, deepest := 0, clrecs := [] }) :
    P (mkclauses g y words alloc st) := by
  have hR := ClauseRel.of_pred hclause
  have hsrch : ∀ jrec p right (s s' : FzkState Frec), s = s' ∧ P s →
      srchfzk g y jrec fzkLevels p right 0 s = srchfzk g y jrec fzkLevels p right 0 s' ∧
        P (srchfzk g y jrec fzkLevels p right 0 s) := by
    intro jrec p right s s' hs
    obtain ⟨rfl, hP⟩ := hs
    exact ⟨rfl, srchfzk_keeps hclause hcalled hpush (Nat.zero_le _) hP⟩
  have hmk : P (mkbunsetu g y words st) := (hR.words hsrch ⟨rfl, h⟩ words).2
  unfold mkclauses
  simp only []
  split_ifs
  · exact (hR.wakachiWith hsrch ⟨rfl, hmk⟩ alloc).2
  · exact hmk

theorem mkclauses_deepest (words : List Jiritu) (alloc : ℕ → Bool) (st : FzkState Frec) :
    (mkclauses g y words alloc st).deepest ≤ maxFlvl := by
  refine mkclauses_keeps (P := fun s => s.deepest ≤ maxFlvl) ?_ ?_ ?_ words alloc st
    (Nat.zero_le _)
  · exact fun _ h _ _ _ => h
  · exact fun _ _ hlevel h => max_le h hlevel
  · exact fun _ _ _ h => h

theorem mkclauses_fzkmost (words : List Jiritu) (alloc : ℕ → Bool) (st : FzkState Frec) :
    (mkclauses g y words alloc st).fzkmost = (mkclauses g y words alloc st).fzktbl.length := by
  refine mkclauses_keeps (P := fun s => s.fzkmost = s.fzktbl.length) ?_ ?_ ?_ words alloc st rfl
  · exact fun _ h _ _ _ => h
  · exact fun _ _ _ h => h
  · intro s p fzk h
    simp [pushFrec, h]

/-! ## The entries -/

/-- The places that a search without the table scans for particles. -/
def placesScanned (g : Grammar) (y : Bytes) (words : List Jiritu) (alloc : ℕ → Bool)
    (st : FzkState Frec) : Finset ℕ :=
  (mkclausesAfresh g y words alloc st.forget).fzktbl.toFinset

theorem mkclauses_agrees (words : List Jiritu) (alloc : ℕ → Bool) (st : FzkState Frec) :
    Agrees g y (fun _ => True) (mkclauses g y words alloc st)
      (mkclausesAfresh g y words alloc st.forget) := by
  have h := mkbunsetu_agrees g y words st
  simp only [mkclauses, mkclausesAfresh, (clauseRel_agrees g y _).maxclptr h alloc]
  split_ifs
  · exact h.wakachi alloc
  · exact h

theorem mkclauses_length (words : List Jiritu) (alloc : ℕ → Bool) (st : FzkState Frec) :
    (mkclauses g y words alloc st).fzktbl.length =
      ∑ p ∈ placesScanned g y words alloc st, (fzkMatches g y p).length := by
  refine KeyedTable.FilledOn.length fun p hp => ?_
  rw [(mkclauses_agrees words alloc st).table p hp]
  simp only [placesScanned, List.mem_toFinset]

/-- The levels are never too many. The entries are not too many if and only if the places that
are scanned have at most `maxFrec` particles together. -/
theorem mkclauses_room_iff (words : List Jiritu) (alloc : ℕ → Bool) (st : FzkState Frec) :
    ((mkclauses g y words alloc st).fzkmost ≤ maxFrec ∧
        (mkclauses g y words alloc st).deepest ≤ maxFlvl) ↔
      ∑ p ∈ placesScanned g y words alloc st, (fzkMatches g y p).length ≤ maxFrec := by
  rw [mkclauses_fzkmost, mkclauses_length]
  exact ⟨fun h => h.1, fun h => ⟨h, mkclauses_deepest words alloc st⟩⟩

/-! ## Too many particles -/

theorem mem_fzktbl_foldl_follow {srch : ℕ → UInt8 → ℕ → FzkState ℕ → FzkState ℕ} {p q : ℕ}
    (hsrch : ∀ p right level st, q ∈ st.fzktbl → q ∈ (srch p right level st).fzktbl)
    (right : UInt8) (level : ℕ) (found : List Bytes) {st : FzkState ℕ} (h : q ∈ st.fzktbl) :
    q ∈ (found.foldl
      (fun st fzk => follow g y jrec srch right level (fzkNext p fzk) fzk st) st).fzktbl := by
  induction found generalizing st with
  | nil => exact h
  | cons fzk found ih =>
      refine ih ?_
      simp only []
      cases hcnct : fzkcnct g right (fzkLeft fzk) with
      | false =>
          rw [follow_of_not_cnct hcnct]
          exact h
      | true =>
          rw [follow_of_cnct hcnct]
          exact hsrch _ _ _ _ (by simpa using h)

theorem mem_fzktbl_srchfzkAfresh {n p level q : ℕ} {right : UInt8} {st : FzkState ℕ}
    (h : q ∈ st.fzktbl) : q ∈ (srchfzkAfresh g y jrec n p right level st).fzktbl := by
  induction n generalizing p level right st with
  | zero => exact h
  | succ n ih =>
      cases hstart : fzkStart g y p right level with
      | stop => simpa only [srchfzkAfresh, hstart] using h
      | kugiri => simpa only [srchfzkAfresh, hstart, fzktbl_setKugiri] using h
      | search =>
          rw [srchfzkAfresh_search hstart]
          exact mem_fzktbl_foldl_follow (fun _ _ _ _ => ih) _ _ _ (List.mem_append_left _ h)

theorem mem_fzktbl_of_search {n p level : ℕ} {right : UInt8}
    (hstart : fzkStart g y p right level = .search) (st : FzkState ℕ) :
    p ∈ (srchfzkAfresh g y jrec (n + 1) p right level st).fzktbl := by
  rw [srchfzkAfresh_search hstart]
  exact mem_fzktbl_foldl_follow (fun _ _ _ _ => mem_fzktbl_srchfzkAfresh) _ _ _ (by simp)

/-- The place behind a word is scanned if a particle may start there. -/
theorem mem_placesScanned {words : List Jiritu} {jrec : Jiritu} (hjrec : jrec ∈ words)
    (hstb : jrec.stbofs = 0) (hright : g.connadr jrec.hinsi ≠ 0)
    (hstart : fzkStart g y jrec.jlen (g.connadr jrec.hinsi) 0 = .search) (alloc : ℕ → Bool)
    (st : FzkState Frec) : jrec.jlen ∈ placesScanned g y words alloc st := by
  have hR := ClauseRel.of_pred (P := fun s : FzkState ℕ => jrec.jlen ∈ s.fzktbl)
    fun _ h _ _ _ => h
  have hsrch : ∀ (j : Jiritu) p right (s s' : FzkState ℕ), s = s' ∧ jrec.jlen ∈ s.fzktbl →
      srchfzkAfresh g y j fzkLevels p right 0 s = srchfzkAfresh g y j fzkLevels p right 0 s' ∧
        jrec.jlen ∈ (srchfzkAfresh g y j fzkLevels p right 0 s).fzktbl :=
    fun _ _ _ _ _ hs => ⟨by rw [hs.1], mem_fzktbl_srchfzkAfresh hs.2⟩
  have hmk : jrec.jlen ∈ (mkbunsetuAfresh g y words st.forget).fzktbl := by
    obtain ⟨before, after, rfl⟩ := List.append_of_mem hjrec
    unfold mkbunsetuAfresh mkbunsetuWith
    rw [List.foldl_append, List.foldl_cons]
    refine (hR.words hsrch ⟨rfl, ?_⟩ after).2
    simp only [wordClauses, hstb, ne_eq, not_true_eq_false, if_false, Option.elim_none, hright,
      not_false_eq_true, if_true]
    exact mem_fzktbl_of_search hstart _
  unfold placesScanned mkclausesAfresh
  rw [List.mem_toFinset]
  simp only []
  split_ifs
  · exact (hR.wakachiWith hsrch ⟨rfl, hmk⟩ alloc).2
  · exact hmk

/-- The reading `ni` twelve times, in the dictionaries of which it is a noun at every length. -/
def niReading : Bytes := List.replicate 12 0x78

def niWords : List Jiritu :=
  (List.range 11).map fun i => { wakachiRec (i + 1) meisi1 with cls := .dict }

section Ni

variable (rigtadr : UInt8 → Bytes) (conjadr getstb : UInt8 → Option Bytes)

theorem fzkStart_ni {p : ℕ} (hp : p < 12) :
    fzkStart (fzkGrammar rigtadr conjadr getstb) niReading p (connadr meisi1) 0 = .search := by
  have hstart : ∀ p < 12, fzkStart (fzkGrammar (fun _ => []) (fun _ => none) (fun _ => none))
      niReading p (connadr meisi1) 0 = .search := by
    decide +kernel
  exact hstart p hp

theorem fzkMatches_ni {p : ℕ} (hp : p < 12) :
    (fzkMatches (fzkGrammar rigtadr conjadr getstb) niReading p).length = 3 := by
  have hmatches : ∀ p < 12, (fzkMatches
      (fzkGrammar (fun _ => []) (fun _ => none) (fun _ => none)) niReading p).length = 3 := by
    decide +kernel
  exact hmatches p hp

theorem placesScanned_ni (alloc : ℕ → Bool) (st : FzkState Frec) :
    Finset.Ico 1 12 ⊆
      placesScanned (fzkGrammar rigtadr conjadr getstb) niReading niWords alloc st := by
  intro p hp
  obtain ⟨hpos, hlt⟩ := Finset.mem_Ico.mp hp
  have hword : { wakachiRec (p - 1 + 1) meisi1 with cls := TypeClass.dict } ∈ niWords :=
    List.mem_map.mpr ⟨p - 1, List.mem_range.mpr (by omega), rfl⟩
  rw [Nat.sub_add_cancel hpos] at hword
  have hright : connadr meisi1 ≠ 0 := by decide
  exact mem_placesScanned hword rfl hright (fzkStart_ni rigtadr conjadr getstb hlt) alloc st

/-- Eleven nouns of the reading, each with three particles behind it, are more than there is
room for. -/
theorem mkclauses_no_room (alloc : ℕ → Bool) (st : FzkState Frec) :
    ¬ (mkclauses (fzkGrammar rigtadr conjadr getstb) niReading niWords alloc st).fzkmost ≤
      maxFrec := by
  have hsum : 33 ≤ ∑ p ∈ placesScanned (fzkGrammar rigtadr conjadr getstb) niReading niWords
      alloc st, (fzkMatches (fzkGrammar rigtadr conjadr getstb) niReading p).length := by
    calc 33 = ∑ p ∈ Finset.Ico 1 12, 3 := by simp
      _ = ∑ p ∈ Finset.Ico 1 12,
            (fzkMatches (fzkGrammar rigtadr conjadr getstb) niReading p).length :=
          Finset.sum_congr rfl fun p hp =>
            (fzkMatches_ni rigtadr conjadr getstb (Finset.mem_Ico.mp hp).2).symm
      _ ≤ _ := Finset.sum_le_sum_of_subset (placesScanned_ni rigtadr conjadr getstb alloc st)
  rw [mkclauses_fzkmost, mkclauses_length]
  unfold maxFrec
  omega

end Ni

theorem not_mkclauses_room :
    ¬ ∃ rigtadr conjadr getstb, ∀ y words alloc st, y.length ≤ maxClInputLen →
      (mkclauses (fzkGrammar rigtadr conjadr getstb) y words alloc st).fzkmost ≤ maxFrec ∧
        (mkclauses (fzkGrammar rigtadr conjadr getstb) y words alloc st).deepest ≤ maxFlvl := by
  intro h
  obtain ⟨rigtadr, conjadr, getstb, h⟩ := h
  have hroom := h niReading niWords (fun _ => true) ⟨[], 0, 0, false, 0, []⟩ (by decide)
  exact mkclauses_no_room rigtadr conjadr getstb _ _ hroom.1

end Sj3
