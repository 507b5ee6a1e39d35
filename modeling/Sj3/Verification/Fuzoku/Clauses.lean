import Sj3.Model.Fuzoku

/-! # Two searches for the same clauses

`mkbunsetu` and `wakachi` with two searches for particles. What they do themselves depends on
the clauses found, never on what the searches remember, so that a relation the searches keep is
kept by all of it. -/

namespace Sj3

variable {α β : Type} {R : FzkState α → FzkState β → Prop}

/-! ## Behind a particle -/

section Follow

variable {g : Grammar} {y : Bytes} {jrec : Jiritu} {right : UInt8} {fzk : Bytes}
  {srch : ℕ → UInt8 → ℕ → FzkState α → FzkState α}

/-- What `follow` does with a particle that connects, in front of the recursive call. -/
def connected (g : Grammar) (y : Bytes) (jrec : Jiritu) (level next : ℕ) (fzk : Bytes)
    (st : FzkState α) : FzkState α :=
  let st := if level = 0 then { st with fzk_ka_flg := fzkStrKa fzk } else st
  if terminate g y (fzkRight fzk) next then st.setclrec jrec next (fzkRight fzk) else st

theorem follow_of_cnct (hcnct : fzkcnct g right (fzkLeft fzk) = true) (level next : ℕ)
    (st : FzkState α) :
    follow g y jrec srch right level next fzk st =
      srch next (fzkRight fzk) (level + 1) (connected g y jrec level next fzk st) := by
  unfold follow
  rw [if_neg (by simp [hcnct])]
  rfl

theorem follow_of_not_cnct (hcnct : fzkcnct g right (fzkLeft fzk) = false) (level next : ℕ)
    (st : FzkState α) : follow g y jrec srch right level next fzk st = st := by
  unfold follow
  rw [if_pos (by simp [hcnct])]

@[simp] theorem fzktbl_setclrec (yptr : ℕ) (st : FzkState α) :
    (st.setclrec jrec yptr right).fzktbl = st.fzktbl := by
  unfold FzkState.setclrec
  split_ifs <;> rfl

@[simp] theorem fzktbl_setKugiri (yptr level : ℕ) (st : FzkState α) :
    (setKugiri y jrec yptr level st).fzktbl = st.fzktbl := by
  unfold setKugiri
  split_ifs <;> simp

@[simp] theorem fzktbl_connected (level next : ℕ) (st : FzkState α) :
    (connected g y jrec level next fzk st).fzktbl = st.fzktbl := by
  unfold connected
  split_ifs <;> simp

end Follow

/-! ## Relations -/

/-- Related states have the same clauses, and the relation is about the rest of the state. -/
structure ClauseRel (R : FzkState α → FzkState β → Prop) : Prop where
  eq_ka_flg : ∀ {s s'}, R s s' → s.fzk_ka_flg = s'.fzk_ka_flg
  eq_gobilen : ∀ {s s'}, R s s' → s.gobilen = s'.gobilen
  eq_clrecs : ∀ {s s'}, R s s' → s.clrecs = s'.clrecs
  ka_flg : ∀ {s s'}, R s s' → ∀ fzk_ka_flg, R { s with fzk_ka_flg } { s' with fzk_ka_flg }
  gobilen : ∀ {s s'}, R s s' → ∀ gobilen, R { s with gobilen } { s' with gobilen }
  add : ∀ {s s'}, R s s' → ∀ c,
    R { s with clrecs := s.clrecs ++ [c] } { s' with clrecs := s'.clrecs ++ [c] }

/-- A property of what a search remembers, as a relation. -/
theorem ClauseRel.of_pred {P : FzkState α → Prop}
    (h : ∀ s, P s → ∀ fzk_ka_flg gobilen clrecs, P { s with fzk_ka_flg, gobilen, clrecs }) :
    ClauseRel fun s s' => s = s' ∧ P s where
  eq_ka_flg hs := by rw [hs.1]
  eq_gobilen hs := by rw [hs.1]
  eq_clrecs hs := by rw [hs.1]
  ka_flg hs _ := ⟨by rw [hs.1], h _ hs.2 _ _ _⟩
  gobilen hs _ := ⟨by rw [hs.1], h _ hs.2 _ _ _⟩
  add hs _ := ⟨by rw [hs.1], h _ hs.2 _ _ _⟩

namespace ClauseRel

variable {s : FzkState α} {s' : FzkState β} (hR : ClauseRel R)

include hR

theorem setclrec (h : R s s') (jrec : Jiritu) (yptr : ℕ) (right : UInt8) :
    R (s.setclrec jrec yptr right) (s'.setclrec jrec yptr right) := by
  unfold FzkState.setclrec
  split_ifs
  · exact h
  · exact h
  · have hnew := hR.add h
      ⟨jrec, yptr, right, s.gobilen, kubun jrec.hinsi s.gobilen right, s.fzk_ka_flg⟩
    rw [← hR.eq_gobilen h, ← hR.eq_ka_flg h] at hnew ⊢
    exact hnew

theorem maxclptr (h : R s s') (alloc : ℕ → Bool) : s.maxclptr alloc = s'.maxclptr alloc := by
  unfold FzkState.maxclptr
  rw [hR.eq_clrecs h]

theorem setKugiri (h : R s s') (y : Bytes) (jrec : Jiritu) (yptr level : ℕ) :
    R (setKugiri y jrec yptr level s) (setKugiri y jrec yptr level s') := by
  unfold Sj3.setKugiri
  split_ifs
  · exact hR.setclrec (hR.ka_flg h false) _ _ _
  · exact hR.setclrec h _ _ _

theorem connected (h : R s s') (g : Grammar) (y : Bytes) (jrec : Jiritu) (level next : ℕ)
    (fzk : Bytes) :
    R (connected g y jrec level next fzk s) (connected g y jrec level next fzk s') := by
  unfold Sj3.connected
  split_ifs
  · exact hR.setclrec (hR.ka_flg h _) _ _ _
  · exact hR.ka_flg h _
  · exact hR.setclrec h _ _ _
  · exact h

theorem wakachiSelf (h : R s s') (y : Bytes) (alloc : ℕ → Bool) (jrec : Jiritu) :
    R (wakachiSelf y alloc jrec s) (wakachiSelf y alloc jrec s') := by
  unfold Sj3.wakachiSelf
  rw [hR.maxclptr h alloc]
  split_ifs
  · exact h
  · exact hR.add h _
  · exact h

/-! ## From the searches to the clauses -/

variable {g : Grammar} {y : Bytes} {srch : Jiritu → ℕ → UInt8 → ℕ → FzkState α → FzkState α}
  {srch' : Jiritu → ℕ → UInt8 → ℕ → FzkState β → FzkState β}
  (hsrch : ∀ jrec p right s s', R s s' → R (srch jrec p right 0 s) (srch' jrec p right 0 s'))

include hsrch

theorem clauseFrom (h : R s s') (jrec : Jiritu) (next : ℕ) (right : UInt8) :
    R (clauseFrom g y srch jrec next right s) (clauseFrom g y srch' jrec next right s') := by
  unfold Sj3.clauseFrom
  split_ifs
  · exact hsrch _ _ _ _ _ (hR.setclrec (hR.ka_flg h false) _ _ _)
  · exact hsrch _ _ _ _ _ h

theorem wordClauses (h : R s s') (jrec : Jiritu) :
    R (wordClauses g y srch jrec s) (wordClauses g y srch' jrec s') := by
  simp only [Sj3.wordClauses]
  generalize (if jrec.stbofs ≠ 0 then g.getstb jrec.hinsi else none).elim jrec.hinsi
    (fun cnj => stbHinsi (cnj.drop (jrec.stbofs - 1))) = hinsi
  split_ifs
  · exact hR.clauseFrom hsrch (hR.gobilen h 0) _ _ _
  · induction (setconj g y hinsi jrec).reverse generalizing s s' with
    | nil => exact h
    | cons c crec ih => exact ih (hR.clauseFrom hsrch (hR.gobilen h c.1) _ _ _)

theorem words (h : R s s') (words : List Jiritu) :
    R (words.foldl (fun st jrec => Sj3.wordClauses g y srch jrec st) s)
      (words.foldl (fun st jrec => Sj3.wordClauses g y srch' jrec st) s') := by
  induction words generalizing s s' with
  | nil => exact h
  | cons jrec words ih => exact ih (hR.wordClauses hsrch h jrec)

/-- What the loops of `wakachi` end with on the two sides. -/
inductive Ends (R : FzkState α → FzkState β → Prop) : WakachiEnd α → WakachiEnd β → Prop
  | next {s : FzkState α} {s' : FzkState β} (h : R s s') : Ends R (.next s) (.next s')
  | number {s : FzkState α} {s' : FzkState β} (h : R s s') : Ends R (.number s) (.number s')

theorem wakachiConj (h : R s s') (jrec : Jiritu) (crec : List (ℕ × UInt8)) :
    Ends R (wakachiConj g y srch jrec crec s) (wakachiConj g y srch' jrec crec s') := by
  induction crec generalizing s s' with
  | nil => exact .next h
  | cons c crec ih =>
      simp only [Sj3.wakachiConj]
      have hset := hR.gobilen h c.1
      split_ifs
      · exact ih (hsrch _ _ _ _ _ (hR.setclrec (hR.ka_flg hset false) _ _ _))
      · exact ih (hsrch _ _ _ _ _ hset)
      · exact .number (hR.setclrec (hR.ka_flg hset false) _ _ _)
      · exact ih (hsrch _ _ _ _ _ hset)

theorem wakachiLoop (h : R s s') (alloc : ℕ → Bool) (maxlen n : ℕ) :
    Ends R (wakachiLoop g y srch alloc maxlen n s).1 (wakachiLoop g y srch' alloc maxlen n s').1 ∧
      (wakachiLoop g y srch alloc maxlen n s).2 = (wakachiLoop g y srch' alloc maxlen n s').2 := by
  induction n generalizing s s' with
  | zero => exact ⟨.next h, rfl⟩
  | succ n ih =>
      have hconj := hR.wakachiConj (g := g) (y := y) hsrch h (wakachiRec (maxlen - (n + 1)) meisi6)
        (setconj g y meisi6 (wakachiRec (maxlen - (n + 1)) meisi6)).reverse
      simp only [Sj3.wakachiLoop]
      revert hconj
      generalize Sj3.wakachiConj g y srch _ _ s = e
      generalize Sj3.wakachiConj g y srch' _ _ s' = e'
      intro hconj
      cases hconj with
      | number hend => exact ⟨.number hend, rfl⟩
      | next hend =>
          simp only [hR.maxclptr hend alloc]
          split_ifs
          · exact ⟨.next hend, rfl⟩
          · exact ih hend

theorem wakachiWith (h : R s s') (alloc : ℕ → Bool) :
    R (wakachiWith g y srch alloc s) (wakachiWith g y srch' alloc s') := by
  simp only [Sj3.wakachiWith]
  split_ifs
  · exact hR.wakachiSelf (hsrch _ _ _ _ _ h) _ _ _
  · exact hR.wakachiSelf h _ _ _
  · obtain ⟨hend, hlen⟩ := hR.wakachiLoop (g := g) (y := y) hsrch h alloc
      (min (sstrlen y) maxClInputLen) (min (sstrlen y) maxClInputLen)
    revert hend hlen
    generalize Sj3.wakachiLoop g y srch alloc _ _ s = e
    generalize Sj3.wakachiLoop g y srch' alloc _ _ s' = e'
    obtain ⟨e, jlen⟩ := e
    obtain ⟨e', jlen'⟩ := e'
    intro hend hlen
    obtain rfl : jlen = jlen' := hlen
    cases hend with
    | number hend => exact hend
    | next hend => exact hR.wakachiSelf hend _ _ _

end ClauseRel

end Sj3
