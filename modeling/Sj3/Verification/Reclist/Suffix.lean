import Sj3.Model.Setubi
import Sj3.Verification.Reclist.Pool

/-! # Suffixes are taken in once

While the loop of `mkjiritu` visits a word, the copies with its suffixes are put in front of it,
so that the loop does not meet them. If there is no memory, a copy takes the place of the last
word, which is not visited any more then. -/

namespace Sj3.Reclist

open PointerList Recs

/-! ## Tables -/

/-- Where the entries of a table start, and its end. -/
inductive Entry (stbtbl : Bytes) : ℕ → Prop where
  | first : Entry stbtbl 0
  | next {stb : ℕ} (h : Entry stbtbl stb) (hne : (stbtbl.drop stb).headD 0 ≠ 0) :
      Entry stbtbl (stb + 2 + stbYomiLen (stbtbl.drop stb) + stbKnjLen (stbtbl.drop stb))

/-- Every suffix has a reading. -/
def HasReadings (stbtbl : Bytes) : Prop :=
  ∀ stb, Entry stbtbl stb → (stbtbl.drop stb).headD 0 ≠ 0 → 0 < stbYomiLen (stbtbl.drop stb)

/-- The entries from `stb` on, of which there are less than `n`, have readings. -/
def readingsFrom (stbtbl : Bytes) : ℕ → ℕ → Bool
  | 0, _ => false
  | n + 1, stb =>
      let p := stbtbl.drop stb
      decide (p.headD 0 = 0) || decide (0 < stbYomiLen p) &&
        readingsFrom stbtbl n (stb + 2 + stbYomiLen p + stbKnjLen p)

theorem hasReadings_of_readingsFrom {stbtbl : Bytes} {n : ℕ}
    (h : readingsFrom stbtbl n 0 = true) : HasReadings stbtbl := by
  have hfrom {stb : ℕ} (hentry : Entry stbtbl stb) : ∃ n, readingsFrom stbtbl n stb = true := by
    induction hentry with
    | first => exact ⟨n, h⟩
    | next _ hne ih =>
        obtain ⟨m, hm⟩ := ih
        cases m with
        | zero => cases hm
        | succ m =>
            simp only [readingsFrom, hne, decide_false, Bool.false_or, Bool.and_eq_true] at hm
            exact ⟨m, hm.2⟩
  intro stb hentry hne
  obtain ⟨m, hm⟩ := hfrom hentry
  cases m with
  | zero => cases hm
  | succ m =>
      simp only [readingsFrom, hne, decide_false, Bool.false_or, Bool.and_eq_true,
        decide_eq_true_eq] at hm
      exact hm.1

theorem hasReadings_stbadr {hinsi : UInt8} {stbtbl : Bytes}
    (h : getstb stbadr hinsi = some stbtbl) : HasReadings stbtbl := by
  have hmem : stbtbl ∈ [meisiStb, sahenStb, humanStb, nameStb, timeiStb, ippanStb] := by
    rw [getstb] at h
    split_ifs at h
    rw [stbadr] at h
    split at h <;> first | (cases h; done) | (rw [← Option.some.inj h]; simp)
  have hall : ∀ stbtbl ∈ [meisiStb, sahenStb, humanStb, nameStb, timeiStb, ippanStb],
      readingsFrom stbtbl 20 0 = true := by decide
  exact hasReadings_of_readingsFrom (hall stbtbl hmem)

/-! ## One suffix -/

section Suffix

variable {mem : ℕ → Malloc} {stbtbl : Bytes} {stb r : ℕ} {e e' : Expansion} {xs fs : List ℕ}

/-- The length a copy gets. -/
def copyLen (stbtbl : Bytes) (stb r : ℕ) (e : Expansion) : ℤ :=
  (e.words.val r).jlen.toNat + stbYomiLen (stbtbl.drop stb)

/-- A copy is refused, or it is put into its place. -/
theorem addSuffix_cases (h : e.words.Holds xs fs) :
    addSuffix mem stbtbl stb r e = some { e with calls := e.calls + 1 } ∨
      ∃ w init fs' p,
        addSuffix mem stbtbl stb r e =
          some { e with words := w, calls := e.calls + 1, copies := e.copies ++ [(r, p)] } ∧
        Source e.words jrecNum (mem e.calls) Jrec.jlen (copyLen stbtbl stb r e) xs init p ∧
        w.Holds (place (shorter e.words (copyLen stbtbl stb r e)) p init) fs' ∧
        ∀ q, q ≠ p → w.val q = e.words.val q := by
  rcases argjrec_spec h (mem e.calls) (copyLen stbtbl stb r e) (some r) with
    ⟨hcall, -, -⟩ | ⟨w', init, fs', p, hcall, hsource, hholds, hval⟩
  · refine .inl ?_
    rw [copyLen] at hcall
    rw [addSuffix, hcall]
    rfl
  · refine .inr ?_
    rw [copyLen] at hcall
    rw [addSuffix, hcall]
    refine ⟨_, init, fs', p, rfl, hsource, hholds.setVal, fun q hq => ?_⟩
    rw [val_setVal, hval, Function.update_idem, Function.update_of_ne hq]

variable (mem stbtbl stb r) in
/-- Any copying leaves a list that ends, and adds to the copies. -/
theorem addSuffix_some (h : e.words.Holds xs fs) : ∃ e' xs' fs',
    addSuffix mem stbtbl stb r e = some e' ∧ e'.words.Holds xs' fs' ∧
      e.copies <+: e'.copies ∧ e'.visited = e.visited ∧ e'.cursor = e.cursor := by
  rcases addSuffix_cases h with hadd | ⟨w, init, fs', p, hadd, -, hholds, -⟩
  · exact ⟨_, xs, fs, hadd, h, List.prefix_rfl, rfl, rfl⟩
  · exact ⟨_, _, fs', hadd, hholds, List.prefix_append .., rfl, rfl⟩

theorem lt_length_of_entry (hne : (stbtbl.drop stb).headD 0 ≠ 0) : stb < stbtbl.length := by
  by_contra hle
  rw [List.drop_eq_nil_of_le (Nat.le_of_not_lt hle)] at hne
  exact hne rfl

/-- A round of `setubi`: it ends, it goes on to the next entry, or it makes a copy before. -/
theorem setubiLoop_cases (mem : ℕ → Malloc) (stbtbl yptr : Bytes) (r n stb : ℕ) (e : Expansion) :
    setubiLoop mem stbtbl yptr r (n + 1) stb e = some e ∨
      (stbtbl.drop stb).headD 0 ≠ 0 ∧ ∃ next,
        next = stb + 2 + stbYomiLen (stbtbl.drop stb) + stbKnjLen (stbtbl.drop stb) ∧
        (setubiLoop mem stbtbl yptr r (n + 1) stb e = setubiLoop mem stbtbl yptr r n next e ∨
          setubiLoop mem stbtbl yptr r (n + 1) stb e =
            addSuffix mem stbtbl stb r e >>= setubiLoop mem stbtbl yptr r n next) := by
  rw [setubiLoop]
  by_cases hne : (stbtbl.drop stb).headD 0 = 0
  · exact .inl (by simp only [hne, if_true])
  simp only [hne, if_false]
  split
  · exact .inl rfl
  · exact .inl rfl
  · split_ifs
    · exact .inr ⟨hne, _, rfl, .inl rfl⟩
    · exact .inr ⟨hne, _, rfl, .inr rfl⟩
  · exact .inr ⟨hne, _, rfl, .inl rfl⟩

/-- `setubi` ends. -/
theorem setubiLoop_some {yptr : Bytes} {n : ℕ} (h : e.words.Holds xs fs) (hpos : 0 < n)
    (hn : stbtbl.length < n + stb) : ∃ e' xs' fs',
    setubiLoop mem stbtbl yptr r n stb e = some e' ∧ e'.words.Holds xs' fs' ∧
      e.copies <+: e'.copies ∧ e'.visited = e.visited ∧ e'.cursor = e.cursor := by
  induction n generalizing stb e xs fs with
  | zero => exact absurd hpos (Nat.lt_irrefl 0)
  | succ n ih =>
      rcases setubiLoop_cases mem stbtbl yptr r n stb e with hend | ⟨hne, next, hnext, hround⟩
      · exact ⟨e, xs, fs, hend, h, List.prefix_rfl, rfl, rfl⟩
      have hlt := lt_length_of_entry hne
      have hpos' : 0 < n := by omega
      have hn' : stbtbl.length < n + next := by omega
      rcases hround with hround | hround
      · rw [hround]
        exact ih h hpos' hn'
      · obtain ⟨e₁, xs₁, fs₁, hadd, hholds, hcopies, hvisited, hcursor⟩ :=
          addSuffix_some mem stbtbl stb r h
        rw [hround, hadd, Option.bind_eq_bind, Option.bind_some]
        obtain ⟨e', xs', fs', hloop, hholds', hcopies', hvisited', hcursor'⟩ := ih hholds hpos' hn'
        exact ⟨e', xs', fs', hloop, hholds', hcopies.trans hcopies', hvisited'.trans hvisited,
          hcursor'.trans hcursor⟩

end Suffix

/-! ## The loop over the words -/

section Words

variable {mem : ℕ → Malloc} {stbtbl : Bytes} {stb r : ℕ} {e e' : Expansion}
  {w : Recs Jrec} {seen rest dropped : List ℕ}

/-- Of the list `w` the loop has come past `seen`, has `rest` before it, and has lost `dropped`.
The copies lie in front of `rest`. -/
structure Progress (w : Recs Jrec) (seen rest dropped : List ℕ) (e : Expansion) : Prop where
  all : w.list = seen ++ (rest ++ dropped)
  list : ∃ pre fs, e.words.Holds (pre ++ rest) fs ∧ ∀ q ∈ seen, q ∈ pre
  val : ∀ q ∈ seen ++ rest, e.words.val q = w.val q
  dropped : ∀ q ∈ dropped, ∃ s, (s, q) ∈ e.copies
  source : ∀ c ∈ e.copies, c.1 ∈ e.visited
  copy : ∀ c ∈ e.copies, c.2 ∉ seen ++ rest

/-- The last of the list is not the word that is visited but a later one. -/
theorem exists_lost {pre init : List ℕ} {p : ℕ} (h : pre ++ r :: rest = init ++ [p])
    (hpr : r ≠ p) : ∃ rest' lost, rest = rest' ++ lost ∧ init = pre ++ r :: rest' ∧
      ∀ q ∈ lost, q = p := by
  rcases List.eq_nil_or_concat' rest with rfl | ⟨rest', q, rfl⟩
  · exact absurd (List.append_inj' h rfl).2 (by simpa using hpr)
  · rw [← List.cons_append, ← List.append_assoc] at h
    obtain ⟨hinit, hq⟩ := List.append_inj' h rfl
    refine ⟨rest', [q], rfl, hinit.symm, fun q' hq' => ?_⟩
    rw [List.mem_singleton.mp hq']
    exact (List.cons.inj hq).1

/-- While a word is visited, and is not used again itself, a copy leaves it at the head of what
is to come, of which the last may be lost. -/
theorem Progress.addSuffix (h : Progress w seen (r :: rest) dropped e) (hr : r ∈ e.visited)
    (hpos : 0 < stbYomiLen (stbtbl.drop stb)) (hadd : addSuffix mem stbtbl stb r e = some e')
    (hself : ∀ c ∈ e'.copies, c.1 ≠ c.2) :
    ∃ rest' dropped', rest'.length ≤ rest.length ∧
      Progress w seen (r :: rest') dropped' e' := by
  obtain ⟨pre, fs, hholds, hseen⟩ := h.list
  rcases addSuffix_cases hholds with hadd' | ⟨w', init, fs', p, hadd', hsource, hholds', hval⟩
  · rw [hadd] at hadd'
    obtain rfl := Option.some.inj hadd'
    exact ⟨rest, dropped, Nat.le_refl _, h.all, h.list, h.val, h.dropped, h.source, h.copy⟩
  rw [hadd] at hadd'
  obtain rfl := Option.some.inj hadd'
  have hshorter : shorter e.words (copyLen stbtbl stb r e) r = true := by
    rw [shorter, copyLen, decide_eq_true_eq]
    omega
  have hpr : r ≠ p := hself (r, p) (List.mem_append_right _ (List.mem_singleton_self _))
  obtain ⟨rest', lost, rfl, rfl, hlost⟩ : ∃ rest' lost, rest = rest' ++ lost ∧
      init = pre ++ r :: rest' ∧ ∀ q ∈ lost, q = p := by
    cases hsource with
    | new _ _ => exact ⟨rest, [], (List.append_nil rest).symm, rfl, by simp⟩
    | last _ hxs _ _ => exact exists_lost hxs hpr
  have hp := hsource.not_mem
  have hinit {q : ℕ} (hq : q ∈ seen ++ r :: rest') : q ∈ pre ++ r :: rest' := by
    rcases List.mem_append.mp hq with hq | hq
    · exact List.mem_append_left _ (hseen q hq)
    · exact List.mem_append_right _ hq
  have hold {q : ℕ} (hq : q ∈ seen ++ r :: rest') : q ∈ seen ++ r :: (rest' ++ lost) := by
    rw [← List.cons_append, ← List.append_assoc]
    exact List.mem_append_left _ hq
  refine ⟨rest', lost ++ dropped, by simp, ?_,
    ⟨_, fs', place_append_cons hshorter ▸ hholds', ?_⟩, ?_, ?_,
    ?_, ?_⟩
  · rw [h.all]
    simp only [List.cons_append, List.append_assoc]
  · exact fun q hq => mem_place.mpr (.inr (hseen q hq))
  · intro q hq
    rw [← h.val q (hold hq)]
    exact hval q (ne_of_mem_of_not_mem (hinit hq) hp)
  · intro q hq
    rcases List.mem_append.mp hq with hq | hq
    · exact ⟨r, by simp [hlost q hq]⟩
    · obtain ⟨s, hs⟩ := h.dropped q hq
      exact ⟨s, List.mem_append_left _ hs⟩
  · intro c hc
    rcases List.mem_append.mp hc with hc | hc
    · exact h.source c hc
    · rw [List.mem_singleton.mp hc]
      exact hr
  · intro c hc
    rcases List.mem_append.mp hc with hc | hc
    · exact fun hmem => h.copy c hc (hold hmem)
    · rw [List.mem_singleton.mp hc]
      exact fun hmem => hp (hinit hmem)

/-- So does all of `setubi`. -/
theorem Progress.setubiLoop {yptr : Bytes} {n : ℕ} (hstb : HasReadings stbtbl)
    (hentry : Entry stbtbl stb) (h : Progress w seen (r :: rest) dropped e) (hr : r ∈ e.visited)
    (hpos : 0 < n) (hn : stbtbl.length < n + stb)
    (hloop : setubiLoop mem stbtbl yptr r n stb e = some e')
    (hself : ∀ c ∈ e'.copies, c.1 ≠ c.2) :
    ∃ rest' dropped', rest'.length ≤ rest.length ∧
      Progress w seen (r :: rest') dropped' e' := by
  induction n generalizing stb e rest dropped with
  | zero => exact absurd hpos (Nat.lt_irrefl 0)
  | succ n ih =>
      rcases setubiLoop_cases mem stbtbl yptr r n stb e with hend | ⟨hne, next, rfl, hround⟩
      · obtain rfl := Option.some.inj (hend.symm.trans hloop)
        exact ⟨rest, dropped, Nat.le_refl _, h⟩
      have hlt := lt_length_of_entry hne
      have hpos' : 0 < n := by omega
      have hn' : stbtbl.length <
          n + (stb + 2 + stbYomiLen (stbtbl.drop stb) + stbKnjLen (stbtbl.drop stb)) := by omega
      rcases hround with hround | hround
      · rw [hround] at hloop
        exact ih (hentry.next hne) h hr hpos' hn' hloop
      · obtain ⟨pre, fs, hholds, -⟩ := h.list
        obtain ⟨e₁, xs₁, fs₁, hadd, hholds₁, -, hvisited, -⟩ :=
          addSuffix_some mem stbtbl stb r hholds
        rw [hround, hadd, Option.bind_eq_bind, Option.bind_some] at hloop
        obtain ⟨e₂, -, -, hloop', -, hcopies, -, -⟩ :=
          @setubiLoop_some mem stbtbl _ r e₁ xs₁ fs₁ yptr n hholds₁ hpos' hn'
        obtain rfl := Option.some.inj (hloop'.symm.trans hloop)
        obtain ⟨rest₁, dropped₁, hle, h₁⟩ := h.addSuffix hr (hstb stb hentry hne) hadd fun c hc =>
          hself c (hcopies.subset hc)
        obtain ⟨rest₂, dropped₂, hle₂, h₂⟩ :=
          ih (hentry.next hne) h₁ (hvisited ▸ hr) hpos' hn' hloop
        exact ⟨rest₂, dropped₂, hle₂.trans hle, h₂⟩

/-- The loop goes on to the next word of the list. -/
theorem Progress.advance (h : Progress w seen (r :: rest) dropped e) :
    e.words.sort r = rest.head? ∧
      Progress w (seen ++ [r]) rest dropped { e with cursor := e.words.sort r } := by
  obtain ⟨pre, fs, hholds, hseen⟩ := h.list
  have hmove (xs : List ℕ) : xs ++ r :: rest = xs ++ [r] ++ rest := by simp
  refine ⟨Chain.eq_head? (Chain.split hholds.chain).2, ?_, ⟨pre ++ [r], fs, ?_, ?_⟩, ?_,
    h.dropped, h.source, ?_⟩
  · rw [h.all]
    simp
  · exact hmove pre ▸ hholds
  · intro q hq
    rcases List.mem_append.mp hq with hq | hq
    · exact List.mem_append_left _ (hseen q hq)
    · exact List.mem_append_right _ hq
  · exact hmove seen ▸ h.val
  · exact hmove seen ▸ h.copy

variable {stbadr : UInt8 → Option Bytes} {y : Bytes}

/-- The words that take suffixes. -/
def takesSuffix (stbadr : UInt8 → Option Bytes) (w : Recs Jrec) (p : ℕ) : Bool :=
  (getstb stbadr (w.val p).hinsi).isSome

variable (mem y) in
/-- One round visits the word at the head of what is to come. -/
theorem Progress.visitWord (hstb : ∀ hinsi stbtbl, getstb stbadr hinsi = some stbtbl →
      HasReadings stbtbl) (h : Progress w seen (r :: rest) dropped e)
    (hvisited : e.visited = seen.filter (takesSuffix stbadr w)) :
    ∃ e₁, visitWord mem stbadr y r e = some e₁ ∧ ((∀ c ∈ e₁.copies, c.1 ≠ c.2) →
      ∃ rest' dropped', rest'.length ≤ rest.length ∧ Progress w seen (r :: rest') dropped' e₁ ∧
        e₁.visited = (seen ++ [r]).filter (takesSuffix stbadr w)) := by
  have hval : e.words.val r = w.val r := h.val r (by simp)
  rw [Reclist.visitWord, hval]
  cases htbl : getstb stbadr (w.val r).hinsi with
  | none =>
      refine ⟨e, rfl, fun _ => ⟨rest, dropped, Nat.le_refl _, h, ?_⟩⟩
      rw [List.filter_append, ← hvisited,
        List.filter_eq_nil_iff.mpr (by simp [takesSuffix, htbl]), List.append_nil]
  | some stbtbl =>
      obtain ⟨pre, fs, hholds, -⟩ := h.list
      let e₀ : Expansion := { e with visited := e.visited ++ [r] }
      have h₀ : Progress w seen (r :: rest) dropped e₀ :=
        ⟨h.all, h.list, h.val, h.dropped,
          fun c hc => List.mem_append_left _ (h.source c hc), h.copy⟩
      have hfuel : stbtbl.length < stbtbl.length + 1 + 0 := by omega
      obtain ⟨e₁, -, -, hloop, -, -, hvisited₁, -⟩ :=
        @setubiLoop_some mem stbtbl 0 r e₀ _ fs (y.drop (e.words.val r).jlen.toNat) _ hholds
          (Nat.succ_pos _) hfuel
      refine ⟨e₁, hloop, fun hself => ?_⟩
      obtain ⟨rest', dropped', hle, h₁⟩ := h₀.setubiLoop (hstb _ _ htbl) .first
        (List.mem_append_right _ (List.mem_singleton_self r)) (Nat.succ_pos _) hfuel hloop hself
      refine ⟨rest', dropped', hle, h₁, ?_⟩
      rw [hvisited₁, List.filter_append, ← hvisited,
        List.filter_eq_self.mpr (by simp [takesSuffix, htbl])]

/-- The loop ends, with nothing more to come. -/
theorem Progress.expandWords (hstb : ∀ hinsi stbtbl, getstb stbadr hinsi = some stbtbl →
      HasReadings stbtbl) {n : ℕ} (h : Progress w seen rest dropped e)
    (hcursor : e.cursor = rest.head?)
    (hvisited : e.visited = seen.filter (takesSuffix stbadr w))
    (hself : ∀ n e', expandWords mem stbadr y n e = some e' → ∀ c ∈ e'.copies, c.1 ≠ c.2)
    (hn : rest.length ≤ n) :
    ∃ e' seen' dropped', expandWords mem stbadr y n e = some e' ∧ e'.cursor = none ∧
      Progress w seen' [] dropped' e' ∧ e'.visited = seen'.filter (takesSuffix stbadr w) := by
  induction n generalizing e seen rest dropped with
  | zero =>
      obtain rfl := List.length_eq_zero_iff.mp (Nat.le_zero.mp hn)
      exact ⟨e, seen, dropped, rfl, hcursor, h, hvisited⟩
  | succ n ih =>
      cases rest with
      | nil =>
          refine ⟨e, seen, dropped, ?_, hcursor, h, hvisited⟩
          rw [Reclist.expandWords, hcursor]
          rfl
      | cons r rest =>
          obtain ⟨e₁, hvisit, hprogress⟩ := h.visitWord mem y hstb hvisited
          have hround (m : ℕ) : Reclist.expandWords mem stbadr y (m + 1) e =
              Reclist.expandWords mem stbadr y m { e₁ with cursor := e₁.words.sort r } := by
            rw [Reclist.expandWords, hcursor, List.head?_cons]
            simp only [hvisit, Option.bind_some]
          have hself₁ : ∀ c ∈ e₁.copies, c.1 ≠ c.2 :=
            hself 1 { e₁ with cursor := e₁.words.sort r } (hround 0)
          obtain ⟨rest', dropped', hle, h₁, hvisited₁⟩ := hprogress hself₁
          obtain ⟨hnext, h₂⟩ := h₁.advance
          have hself' (m : ℕ) (e' : Expansion) (hrun : Reclist.expandWords mem stbadr y m
              { e₁ with cursor := e₁.words.sort r } = some e') :=
            hself (m + 1) e' ((hround m).trans hrun)
          obtain ⟨e', seen', dropped'', hrun, hend⟩ := ih h₂ hnext hvisited₁ hself'
            (hle.trans (Nat.le_of_succ_le_succ hn))
          exact ⟨e', seen', dropped'', (hround n).trans hrun, hend⟩

end Words

/-- The loop ends after as many rounds as the list had words, if no word is used again while it is
visited. Of the words that take suffixes, each one is visited once that was not used again
before, and copies are made of words of the list as they were only. -/
theorem expandWords_once (mem : ℕ → Malloc) (stbadr : UInt8 → Option Bytes) (y : Bytes)
    (w : Recs Jrec) (hlist : ∃ fs, w.Holds w.list fs)
    (hstb : ∀ hinsi stbtbl, getstb stbadr hinsi = some stbtbl → HasReadings stbtbl)
    (hself : ∀ n e, expandWords mem stbadr y n (.start w) = some e → ∀ c ∈ e.copies, c.1 ≠ c.2) :
    ∃ e, expandWords mem stbadr y w.list.length (.start w) = some e ∧ e.cursor = none ∧
      e.visited.Nodup ∧
      (∀ p ∈ w.list, takesSuffix stbadr w p = true →
        (p ∈ e.visited ↔ ∀ s, (s, p) ∉ e.copies)) ∧
      (∀ p ∈ e.visited, p ∈ w.list ∧ takesSuffix stbadr w p = true ∧ e.words.val p = w.val p) ∧
      ∀ c ∈ e.copies, c.1 ∈ e.visited := by
  obtain ⟨fs, hholds⟩ := hlist
  have hstart : Progress w [] w.list [] (.start w) :=
    ⟨by simp, ⟨[], fs, hholds, by simp⟩, fun _ _ => rfl, by simp, by simp [Expansion.start],
      by simp [Expansion.start]⟩
  obtain ⟨e, seen, dropped, hrun, hcursor, hend, hvisited⟩ :=
    hstart.expandWords hstb (Chain.eq_head? hholds.chain) rfl hself (Nat.le_refl _)
  have hall : w.list = seen ++ dropped := hend.all
  have hnodup : (seen ++ dropped).Nodup := hall ▸ hholds.chain.nodup
  have hmem {p : ℕ} (hp : p ∈ e.visited) : p ∈ seen ∧ takesSuffix stbadr w p = true :=
    List.mem_filter.mp (hvisited ▸ hp)
  refine ⟨e, hrun, hcursor, ?_, ?_, ?_, hend.source⟩
  · rw [hvisited]
    exact (List.nodup_append.mp hnodup).1.filter _
  · intro p hp htakes
    constructor
    · intro hpv s hs
      exact hend.copy _ hs (List.mem_append_left _ (hmem hpv).1)
    · intro hnone
      rcases List.mem_append.mp (hall ▸ hp) with hp | hp
      · rw [hvisited]
        exact List.mem_filter.mpr ⟨hp, htakes⟩
      · obtain ⟨s, hs⟩ := hend.dropped p hp
        exact absurd hs (hnone s)
  · intro p hp
    obtain ⟨hseen, htakes⟩ := hmem hp
    exact ⟨hall ▸ List.mem_append_left _ hseen, htakes, hend.val p (List.mem_append_left _ hseen)⟩

theorem expandWords_of_end {mem : ℕ → Malloc} {stbadr : UInt8 → Option Bytes} {y : Bytes}
    {e e' : Expansion} {n : ℕ} (h : expandWords mem stbadr y n e = some e')
    (hcursor : e'.cursor = none) (k : ℕ) : expandWords mem stbadr y (n + k) e = some e' := by
  induction n generalizing e with
  | zero =>
      obtain rfl := Option.some.inj h
      cases k with
      | zero => rfl
      | succ k =>
          rw [Nat.zero_add, expandWords, hcursor]
  | succ n ih =>
      rw [Nat.succ_add, expandWords]
      rw [expandWords] at h
      cases hc : e.cursor with
      | none => rwa [hc] at h
      | some r =>
          simp only [hc] at h ⊢
          obtain ⟨e₁, hvisit, hrest⟩ := Option.bind_eq_some_iff.mp h
          rw [hvisit, Option.bind_some]
          exact ih hrest

/-! ## Names -/

/-- A list of `k` words of one byte. The first two are names. -/
def names (k : ℕ) : Recs Jrec where
  node p := ⟨if p + 1 < k then some (p + 1) else none,
    { Jrec.zero with jlen := 1, hinsi := if p < 2 then 21 else 0 }⟩
  free := none
  brk := k
  top := some 0

/-- One byte and `さん`. -/
def nameSan : Bytes := [0x58, 0x62, 0xa0]

theorem holds_names_two : (names 2).Holds (names 2).list [] where
  chain := ⟨rfl, rfl, rfl⟩
  chain_free := rfl
  disjoint := fun _ _ => List.not_mem_nil
  lt_brk := by decide

theorem holds_names_three : (names 3).Holds (names 3).list [] where
  chain := ⟨rfl, rfl, rfl, rfl⟩
  chain_free := rfl
  disjoint := fun _ _ => List.not_mem_nil
  lt_brk := by decide

/-- Without memory the first name takes the record of the second, which is not visited then. -/
theorem not_all_visited_names : (∃ fs, (names 2).Holds (names 2).list fs) ∧
    ∃ e, expandWords (fun _ => ⟨false, false⟩) stbadr nameSan 2 (.start (names 2)) = some e ∧
      e.cursor = none ∧ 1 ∈ (names 2).list ∧ takesSuffix stbadr (names 2) 1 = true ∧
      1 ∉ e.visited := by
  have hrun : (expandWords (fun _ => ⟨false, false⟩) stbadr nameSan 2 (.start (names 2))).map
      (fun e => (e.cursor, e.visited)) = some (none, [0]) := by decide +kernel
  obtain ⟨e, he, hvalues⟩ := Option.map_eq_some_iff.mp hrun
  simp only [Prod.mk.injEq] at hvalues
  refine ⟨⟨[], holds_names_two⟩, e, he, hvalues.1, by decide, by decide, ?_⟩
  rw [hvalues.2]
  decide

/-- The copy for the first name takes the record of the third word, the one for the second name
finds memory. -/
theorem expandWords_once_names : ∃ e,
    expandWords (fun n => ⟨false, decide (n ≠ 0)⟩) stbadr nameSan 3 (.start (names 3)) = some e ∧
      e.cursor = none ∧ e.visited.Nodup ∧ 1 ∈ e.visited := by
  have hrun : (expandWords (fun n => ⟨false, decide (n ≠ 0)⟩) stbadr nameSan 3
      (.start (names 3))).map (fun e => (e.cursor, e.copies)) = some (none, [(0, 2), (1, 3)]) := by
    decide +kernel
  have hearly : ∀ n < 3, ∀ c ∈ ((expandWords (fun n => ⟨false, decide (n ≠ 0)⟩) stbadr nameSan n
      (.start (names 3))).map Expansion.copies).getD [], c.1 ≠ c.2 := by
    decide +kernel
  obtain ⟨e₃, he₃, hvalues⟩ := Option.map_eq_some_iff.mp hrun
  simp only [Prod.mk.injEq] at hvalues
  have hself (n : ℕ) (e : Expansion) (he : expandWords (fun n => ⟨false, decide (n ≠ 0)⟩) stbadr
      nameSan n (.start (names 3)) = some e) : ∀ c ∈ e.copies, c.1 ≠ c.2 := by
    rcases Nat.lt_or_ge n 3 with hn | hn
    · have := hearly n hn
      rwa [he, Option.map_some, Option.getD_some] at this
    · obtain ⟨k, rfl⟩ := Nat.exists_eq_add_of_le hn
      rw [expandWords_of_end he₃ hvalues.1 k] at he
      rw [← Option.some.inj he, hvalues.2]
      decide
  obtain ⟨e, he, hcursor, hnodup, hvisited, -⟩ :=
    expandWords_once (fun n => ⟨false, decide (n ≠ 0)⟩) stbadr nameSan (names 3)
      ⟨[], holds_names_three⟩ (fun _ _ h => hasReadings_stbadr h) hself
  obtain rfl := Option.some.inj (he₃.symm.trans he)
  refine ⟨_, he, hcursor, hnodup, (hvisited 1 (by decide) (by decide)).mpr fun s hs => ?_⟩
  rw [hvalues.2] at hs
  simp at hs

end Sj3.Reclist
