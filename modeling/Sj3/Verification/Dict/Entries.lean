import Sj3.Verification.Dict.UsrDict

/-! # Entries

The words a dictionary stores, read off its bytes. Bytes that are no segments stand for
nothing: every block has to lie inside its segment and to consist of grammar blocks with at
least one kanji string each. -/

namespace Sj3

/-- A stored word: its reading, the code string of its kanji and its grammar code. -/
structure Entry where
  yomi : Bytes
  kanji : Bytes
  hinsi : UInt8
  deriving DecidableEq, Repr

/-- The kanji strings of a grammar block, and what is behind its terminator. -/
def knjStrs : ℕ → Bytes → Option (List Bytes × Bytes)
  | 0, _ => none
  | n + 1, p =>
      if p.head? = some hinsiBlkTerm then some ([], p.tail)
      else if knjEnd p = [] then none
      else
        (knjStrs n (knjEnd p).tail).map fun r =>
          (p.take (p.length - (knjEnd p).length) :: r.1, r.2)

/-- The words of the grammar blocks that make up `p`. -/
def hinsiEntries (yomi : Bytes) : ℕ → Bytes → Option (List Entry)
  | 0, _ => none
  | _ + 1, [] => some []
  | n + 1, hinsi :: p =>
      match knjStrs (p.length + 1) p with
      | some (k :: ks, q) =>
          (hinsiEntries yomi n q).map fun es => (k :: ks).map (⟨yomi, ·, hinsi⟩) ++ es
      | _ => none

/-- The words of the homophone block at `p`, which has the reading `yomi`. -/
def blkEntries (yomi p : Bytes) : Option (List Entry) :=
  let body := (p.take (getsize p)).drop (douonBlkSizeNumber + getnlen p)
  if getsize p ≤ p.length ∧ body ≠ [] then hinsiEntries yomi (body.length + 1) body else none

/-- The words of two parts, if both stand for words. -/
def joinEntries (a b : Option (List Entry)) : Option (List Entry) :=
  a.bind fun es => b.map (es ++ ·)

@[simp] theorem joinEntries_some (a b : List Entry) :
    joinEntries (some a) (some b) = some (a ++ b) := rfl

/-- The words of the homophone blocks at `p`, behind one with the reading `prev`. -/
def douonEntries : ℕ → Bytes → Bytes → Option (List Entry)
  | 0, _, _ => none
  | n + 1, prev, p =>
      if segend p then some []
      else
        let yomi := prev.take (getplen p) ++ (p.drop douonBlkSizeNumber).take (getnlen p)
        joinEntries (blkEntries yomi p) (douonEntries n yomi (p.drop (getsize p)))

def segEntries (dicbuf : Bytes) : Option (List Entry) :=
  douonEntries (dicbuf.length + 1) [] (segtop dicbuf)

/-- The words of segments in a row. -/
def segsEntries : List Bytes → Option (List Entry)
  | [] => some []
  | dicbuf :: segs => joinEntries (segEntries dicbuf) (segsEntries segs)

/-- The words of a dictionary in the order in which they are stored. -/
def Dict.entries (d : Dict) : Option (List Entry) := segsEntries (d.segs.take d.segunit)

/-! ## What blocks stand for -/

/-- The words of grammar blocks with the reading `yomi`. -/
def wordsOf (yomi : Bytes) (hs : List HinsiBlk) : List Entry :=
  hs.flatMap fun h => h.kanji.map (⟨yomi, ·, h.hinsi⟩)

def DouonBlk.entries (t : DouonBlk) : List Entry := wordsOf t.yomi t.hinsi

/-- The words of homophone blocks. -/
def entriesOf (ts : List DouonBlk) : List Entry := ts.flatMap DouonBlk.entries

@[simp] theorem entriesOf_nil : entriesOf [] = [] := rfl

@[simp] theorem entriesOf_cons (t : DouonBlk) (ts : List DouonBlk) :
    entriesOf (t :: ts) = t.entries ++ entriesOf ts := rfl

theorem entriesOf_append (ts us : List DouonBlk) :
    entriesOf (ts ++ us) = entriesOf ts ++ entriesOf us := List.flatMap_append

theorem knjStrs_knjBytes {ks : List Bytes} (hks : ∀ k ∈ ks, IsKnjStr k) {n : ℕ}
    (hn : ks.length < n) (rest : Bytes) :
    knjStrs n (knjBytes ks ++ hinsiBlkTerm :: rest) = some (ks, rest) := by
  induction ks generalizing n with
  | nil =>
      obtain ⟨n, rfl⟩ : ∃ m, n = m + 1 := ⟨n - 1, by simp at hn; omega⟩
      rfl
  | cons k ks ih =>
      obtain ⟨n, rfl⟩ : ∃ m, n = m + 1 := ⟨n - 1, by simp at hn; omega⟩
      have hk := hks k (by simp)
      have hbytes : knjBytes (k :: ks) ++ hinsiBlkTerm :: rest =
          k ++ kanjiStrEnd :: (knjBytes ks ++ hinsiBlkTerm :: rest) := by
        simp
      have hhead : (k ++ kanjiStrEnd :: (knjBytes ks ++ hinsiBlkTerm :: rest)).head? ≠
          some hinsiBlkTerm := by
        obtain ⟨c, k', rfl⟩ := List.exists_cons_of_ne_nil hk.ne_nil
        have := hk.ne_term
        simpa using this
      have hend := knjEnd_codes hk.codes (knjBytes ks ++ hinsiBlkTerm :: rest)
      rw [hbytes, knjStrs, if_neg hhead, hend, if_neg (by simp), List.tail_cons,
        ih (fun k hk => hks k (by simp [hk])) (by simpa using hn)]
      simp

theorem hinsiEntries_bytes (yomi : Bytes) {hs : List HinsiBlk} {n : ℕ} (hn : hs.length < n) :
    hinsiEntries yomi n (hinsiBytes hs) = some (wordsOf yomi hs) := by
  induction hs generalizing n with
  | nil =>
      obtain ⟨n, rfl⟩ : ∃ m, n = m + 1 := ⟨n - 1, by simp at hn; omega⟩
      rfl
  | cons h hs ih =>
      obtain ⟨n, rfl⟩ : ∃ m, n = m + 1 := ⟨n - 1, by simp at hn; omega⟩
      have hlen : h.kanji.length <
        (knjBytes h.kanji ++ hinsiBlkTerm :: hinsiBytes hs).length + 1 := by
        have := length_le_knjBytes h.kanji
        rw [List.length_append]
        omega
      obtain ⟨k, ks, hk⟩ := List.exists_cons_of_ne_nil h.kanji_ne
      have hstrs := knjStrs_knjBytes h.isKnjStr hlen (hinsiBytes hs)
      rw [hinsiBytes_cons, h.bytes_append, hinsiEntries, hstrs, hk]
      simp only [ih (by simpa using hn), Option.map_some, wordsOf, List.flatMap_cons, hk]

theorem body_ne_nil (t : DouonBlk) : t.body ≠ [] := by
  obtain ⟨h, hs, hh⟩ := List.exists_cons_of_ne_nil t.hinsi_ne
  rw [t.body_eq, hh, hinsiBytes_cons]
  have := h.length_pos
  intro he
  simp only [List.append_eq_nil_iff] at he
  simp [he.1] at this

theorem blkEntries_bytes {prev : Bytes} {t : DouonBlk} (hs : t.size prev ≤ maxDouonBlk)
    (rest : Bytes) : blkEntries t.yomi (t.bytes prev ++ rest) = some t.entries := by
  have hbody : ((t.bytes prev ++ rest).take (t.size prev)).drop
      (douonBlkSizeNumber + t.nlen prev) = t.body := by
    rw [← DouonBlk.length_bytes, List.take_left]
    have h := drop_bytes hs []
    rwa [getnlen_bytes hs, List.append_nil, List.append_nil] at h
  have hlen := length_le_hinsiBytes t.hinsi
  rw [blkEntries, getsize_bytes hs, getnlen_bytes hs, hbody, if_pos ⟨by simp, body_ne_nil t⟩]
  exact hinsiEntries_bytes t.yomi (by rw [t.body_eq]; omega)

/-- Behind well-formed blocks the words of whatever follows are read. -/
theorem douonEntries_append {prev : Bytes} {l : List DouonBlk} (hf : SizesFit prev l) (n : ℕ)
    (rest : Bytes) :
    douonEntries (n + l.length) prev (douonBytes prev l ++ rest) =
      joinEntries (some (entriesOf l)) (douonEntries n (lastYomi prev l) rest) := by
  induction l generalizing prev with
  | nil =>
      cases h : douonEntries n prev rest <;> simp [douonBytes, lastYomi, h, joinEntries]
  | cons t l ih =>
      have hy : prev.take (t.plen prev) ++
          ((t.bytes prev ++ (douonBytes t.yomi l ++ rest)).drop douonBlkSizeNumber).take
            (t.nlen prev) = t.yomi := by
        have hdrop : (t.bytes prev ++ (douonBytes t.yomi l ++ rest)).drop douonBlkSizeNumber =
            t.yomi.drop (t.plen prev) ++ (t.body ++ (douonBytes t.yomi l ++ rest)) := by
          simp [DouonBlk.bytes, setSize, douonBlkSizeNumber]
        have hlen : (t.yomi.drop (t.plen prev)).length = t.nlen prev := List.length_drop
        rw [hdrop, ← hlen, List.take_left]
        rw [show prev.take (t.plen prev) = t.yomi.take (t.plen prev) from
          FrontCoding.take_lcp prev t.yomi, List.take_append_drop]
      have hskip : (t.bytes prev ++ (douonBytes t.yomi l ++ rest)).drop (t.size prev) =
          douonBytes t.yomi l ++ rest := by
        rw [← DouonBlk.length_bytes, List.drop_left]
      rw [List.length_cons, ← Nat.add_assoc, douonBytes, List.append_assoc, douonEntries,
        segend_bytes hf.1, if_neg (by simp)]
      simp only [getplen_bytes hf.1, getnlen_bytes hf.1, getsize_bytes hf.1, hy, hskip,
        blkEntries_bytes hf.1, ih hf.2]
      cases h : douonEntries n (lastYomi t.yomi l) rest <;> simp [lastYomi, h, joinEntries]

theorem segEntries_segBytes {l : List DouonBlk} {tail : Bytes} (hf : SizesFit [] l)
    (htail : IsTail tail) : segEntries (segBytes l tail) = some (entriesOf l) := by
  have hlen := length_douonBytes_le [] l
  obtain ⟨n, hn⟩ : ∃ n, (segBytes l tail).length + 1 = (n + 1) + l.length :=
    ⟨(segBytes l tail).length - l.length, by rw [length_segBytes, blkOfs]; omega⟩
  rw [segEntries, segtop_segBytes, hn, douonEntries_append hf, douonEntries, htail.segend,
    if_pos rfl, joinEntries_some, List.append_nil]

theorem segsEntries_bytes {segs : List Seg} (hf : ∀ s ∈ segs, SizesFit [] s.blks) :
    segsEntries (segs.map Seg.bytes) = some (entriesOf (blocks segs)) := by
  induction segs with
  | nil => rfl
  | cons s segs ih =>
      rw [List.map_cons, segsEntries, ih fun t ht => hf t (by simp [ht]), Seg.bytes,
        segEntries_segBytes (hf s (by simp)) s.isTail, joinEntries_some, blocks_cons,
        entriesOf_append]

/-- The words of a well-formed dictionary. -/
theorem UsrDict.entries {d : Dict} {segs : List Seg} {free : ℕ} (h : UsrDict d segs free) :
    d.entries = some (entriesOf (blocks segs)) := by
  rw [Dict.entries, h.segunit, h.bytes, ← List.length_map (f := Seg.bytes), List.take_length]
  exact segsEntries_bytes h.fit

/-! ## The words of a new block -/

theorem wordsOf_addTo (w : Word) (yomi : Bytes) (hs : List HinsiBlk) :
    (wordsOf yomi (w.addTo hs)).Perm (⟨yomi, w.kanji, w.hinsi⟩ :: wordsOf yomi hs) := by
  induction hs with
  | nil => simp [wordsOf, Word.addTo, Word.hinsiBlk]
  | cons h hs ih =>
      rw [Word.addTo]
      split
      · rename_i hh
        simp only [wordsOf, List.flatMap_cons, HinsiBlk.add, List.map_append, List.map_cons,
          List.map_nil, hh, List.append_assoc, List.singleton_append]
        exact List.perm_middle
      · simp only [wordsOf, List.flatMap_cons] at ih ⊢
        refine (ih.append_left _).trans ?_
        exact List.perm_middle

/-- The word's own entry. -/
def Word.entry (w : Word) : Entry := ⟨w.yomi, w.kanji, w.hinsi⟩

theorem entries_into {w : Word} {old : Option DouonBlk} (hold : ∀ t ∈ old, t.yomi = w.yomi) :
    (w.into old).entries.Perm (w.entry :: entriesOf old.toList) := by
  cases old with
  | none => exact wordsOf_addTo w w.yomi []
  | some t =>
      have ht : t.yomi = w.yomi := hold t rfl
      have h := wordsOf_addTo w t.yomi t.hinsi
      have hnil : entriesOf (some t).toList = wordsOf t.yomi t.hinsi := List.append_nil _
      rw [Word.entry, ← ht, hnil]
      exact h

/-- Putting the word into its block adds its entry. -/
theorem entriesOf_into {w : Word} {l r : List DouonBlk} {old : Option DouonBlk}
    (hold : ∀ t ∈ old, t.yomi = w.yomi) :
    (entriesOf (l ++ w.into old :: r)).Perm (w.entry :: entriesOf (l ++ (old.toList ++ r))) := by
  rw [entriesOf_append, entriesOf_cons, entriesOf_append, entriesOf_append]
  have h := ((entries_into hold).append_right (entriesOf r)).append_left (entriesOf l)
  exact h.trans List.perm_middle

end Sj3
