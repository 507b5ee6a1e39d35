import Sj3.Verification.Clause.Recblk
import Sj3.Verification.Kouho.Getrank
import Sj3.Verification.Segment.Grammar

/-! # Clauses with candidates

Every clause `mkbunsetu` can list has a candidate: its word has a kanji string in the
dictionary, or a form it can be written in. -/

namespace Sj3

/-- A word as `setjrec`, `setnumrec`, `setnrec` and `wakachi` record it: in a dictionary it
is a grammar block; prefixes with two forms are those of words in dictionaries, and no
clause that was studied as a whole is among them. -/
structure Jiritu.Served (dictlist : List Dict) (jrec : Jiritu) : Prop where
  ne_bunsetu : jrec.cls ≠ .bunsetu
  plain : ∀ kind, jrec.cls = .num kind → ¬ (settouPtr jrec.sttofs).any sttHiraKnj
  word : jrec.cls = .dict ∨ jrec.jofsst ≠ 0 → ∀ d ∈ seldict dictlist jrec.dicid,
    ∃ (h : HinsiBlk) (rest : Bytes), (d.getdic jrec.jseg).drop jrec.jofsst = h.bytes ++ rest

/-- The kanji strings of a grammar block start with something to use. -/
theorem HinsiBlk.headD_ne {h : HinsiBlk} {dicbuf rest : Bytes} {ofs : ℕ}
    (hblk : dicbuf.drop ofs = h.bytes ++ rest) :
    (dicbuf.drop (ofs + 1)).headD hinsiBlkTerm ≠ hinsiBlkTerm ∧ 0 < dicbuf.length := by
  obtain ⟨k, ks, hks⟩ := List.exists_cons_of_ne_nil h.kanji_ne
  have hdrop : dicbuf.drop (ofs + 1) = knjBytes (k :: ks) ++ hinsiBlkTerm :: rest := by
    rw [← List.tail_drop, hblk, h.bytes_append, hks, List.tail_cons]
  constructor
  · rw [hdrop]
    exact (h.isKnjStr k (hks ▸ List.mem_cons_self)).headD_ne ks _
  · apply List.length_pos_of_ne_nil
    rintro rfl
    rw [List.drop_nil] at hblk
    have := congrArg List.length hblk
    rw [h.bytes_append] at this
    simp at this

/-! ## Every word gives a candidate -/

theorem setkouho_pos (t : KouhoTbl) (clrec : Bunsetu) (offs mode : ℕ) :
    0 < (setkouho t clrec offs mode).khcount := by
  unfold setkouho
  split
  · rename_i hfull
    exact (by decide : 0 < maxKouhoNumber).trans_le hfull
  · dsimp only
    split
    · split
      · simp [KouhoTbl.put, KouhoTbl.khcount]
      · split <;> simp [KouhoTbl.put, KouhoTbl.khcount]
    · simp [KouhoTbl.put, KouhoTbl.khcount]

theorem setkouhoLoop_pos (use : KouhoTbl → Bytes → Bool) (clrec : Bunsetu) (mode n : ℕ)
    (ptr : Bytes) {t : KouhoTbl} (h : 0 < t.khcount) :
    0 < (setkouhoLoop use clrec mode n ptr t).khcount := by
  induction n generalizing ptr t with
  | zero => exact h
  | succ n ih =>
      rw [setkouhoLoop]
      split
      · exact h
      · apply ih
        split
        · exact setkouho_pos t clrec _ mode
        · exact h

/-- The first kanji string is used if it may be. -/
theorem setkouhoLoop_first {use : KouhoTbl → Bytes → Bool} (clrec : Bunsetu) (mode : ℕ) {n : ℕ}
    (hn : 0 < n) {ptr : Bytes} (hptr : ptr.headD hinsiBlkTerm ≠ hinsiBlkTerm) {t : KouhoTbl}
    (huse : use t ptr) : 0 < (setkouhoLoop use clrec mode n ptr t).khcount := by
  obtain ⟨m, rfl⟩ : ∃ m, n = m + 1 := ⟨n - 1, by omega⟩
  rw [setkouhoLoop, if_neg hptr, if_pos huse]
  exact setkouhoLoop_pos use clrec mode m _ (setkouho_pos t clrec _ mode)

/-- Every kind of numeral has a form without a condition. -/
theorem exists_form (kind : NumClass) (flags : UInt16) :
    (selsjadrs kind).filter (chrckNumtbl flags) ≠ [] := by
  have hfree : ∃ j ∈ selsjadrs kind, selNumCond j = 0 := by
    cases kind <;> decide
  obtain ⟨j, hj, hcond⟩ := hfree
  apply List.ne_nil_of_mem (a := j)
  apply List.mem_filter.mpr
  refine ⟨hj, ?_⟩
  unfold chrckNumtbl
  dsimp only
  rw [hcond, if_neg (by simp)]

theorem foldl_setkouho_pos (clrec : Bunsetu) {forms : List UInt16} {t : KouhoTbl}
    (h : 0 < t.khcount ∨ forms ≠ []) :
    0 < (forms.foldl (fun t j => setkouho t clrec 0 (selNumFunc j)) t).khcount := by
  induction forms generalizing t with
  | nil => exact h.resolve_right fun hne => hne rfl
  | cons j forms ih => exact ih (Or.inl (setkouho_pos t clrec 0 _))

/-- A clause more leaves no table empty that had a candidate. -/
theorem getkhtbl_pos (dictlist : List Dict) (clrec : Bunsetu) {t : KouhoTbl}
    (h : 0 < t.khcount) : 0 < (getkhtbl dictlist t clrec).khcount := by
  unfold getkhtbl
  dsimp only
  split
  · unfold clKanji
    split
    · exact setkouhoLoop_pos _ clrec 0 _ _ h
    · exact setkouho_pos t clrec 1 0
  · unfold clNumcmn
    split
    · dsimp only
      split
      · exact setkouhoLoop_pos _ clrec _ _ _ h
      · exact setkouho_pos t clrec 1 _
    · exact foldl_setkouho_pos clrec (Or.inl h)
  · exact h
  · exact setkouho_pos t clrec 0 0
  · exact setkouho_pos t clrec 0 0

theorem Jiritu.Served.getkhtbl_first {dictlist : List Dict} {clrec : Bunsetu}
    (h : clrec.jnode.Served dictlist) (ref : SegRef) :
    0 < (getkhtbl dictlist ⟨[], 0, ref⟩ clrec).khcount := by
  unfold getkhtbl
  dsimp only
  split
  · rename_i hcls
    unfold clKanji
    split
    · rename_i d hd
      obtain ⟨blk, rest, hblk⟩ := h.word (Or.inl hcls) d hd
      obtain ⟨hne, hlen⟩ := blk.headD_ne hblk
      apply setkouhoLoop_first clrec 0 hlen hne
      -- there is no candidate yet that it could be equal to
      unfold diffknj
      split
      · rfl
      · simp [KouhoTbl.khcount]
    · exact setkouho_pos _ clrec 1 0
  · rename_i kind hcls
    unfold clNumcmn
    split
    · rename_i hofs
      dsimp only
      split
      · rename_i d hd
        obtain ⟨blk, rest, hblk⟩ := h.word (Or.inr hofs) d hd
        obtain ⟨hne, hlen⟩ := blk.headD_ne hblk
        exact setkouhoLoop_first clrec _ hlen hne rfl
      · exact setkouho_pos _ clrec 1 _
    · exact foldl_setkouho_pos clrec (Or.inr (exists_form kind clrec.jnode.flags))
  · rename_i hcls
    exact absurd hcls h.ne_bunsetu
  · exact setkouho_pos _ clrec 0 0
  · exact setkouho_pos _ clrec 0 0

/-- A block of clauses has a candidate. -/
theorem mkkouho_pos {dictlist : List Dict} {clt1st : List Bunsetu} (hne : clt1st ≠ [])
    (h : ∀ c ∈ clt1st, c.jnode.Served dictlist) (ref : SegRef) :
    0 < (mkkouho dictlist ref clt1st).khcount := by
  obtain ⟨c, cs, rfl⟩ := List.exists_cons_of_ne_nil hne
  have hblk : recblk (c :: cs) = c :: cs.takeWhile
      (fun b => some b.cllen = (c :: cs).head?.map Bunsetu.cllen) := by
    rw [recblk, List.takeWhile_cons_of_pos (by simp)]
  rw [mkkouho, hblk, List.foldl_cons]
  have hfirst := (h c List.mem_cons_self).getkhtbl_first ref
  generalize getkhtbl dictlist ⟨[], 0, ref⟩ c = t at hfirst
  generalize cs.takeWhile _ = rest
  induction rest generalizing t with
  | nil => exact hfirst
  | cons b rest ih => exact ih _ (getkhtbl_pos dictlist b hfirst)

theorem plainNumerals_of_served {dictlist : List Dict} {clt1st : List Bunsetu}
    (h : ∀ c ∈ clt1st, c.jnode.Served dictlist) : PlainNumerals clt1st :=
  fun c hc => (h c hc).plain

end Sj3
