import Sj3.Verification.Segment.Grammar
import Sj3.Verification.Segment.Search
import Sj3.Model.Addel

/-! # Words

A word to register, and the homophone block it makes of the one there is for its reading. -/

namespace Sj3

open FrontCoding

/-- A word: its reading, the code string of its kanji and its grammar code. -/
structure Word where
  yomi : Bytes
  kanji : Bytes
  hinsi : UInt8
  isYomi : IsYomi yomi
  isKnjStr : IsUsrKnjStr kanji
  hinsi_ne : hinsi ≠ hinsiBlkTerm
  length_le : kanji.length ≤ maxWdKanjiLen

/-- The grammar block with one more kanji string at its end. -/
def HinsiBlk.add (h : HinsiBlk) (w : Word) : HinsiBlk where
  hinsi := h.hinsi
  kanji := h.kanji ++ [w.kanji]
  hinsi_ne := h.hinsi_ne
  kanji_ne := by simp
  isKnjStr := by
    intro k hk
    rcases List.mem_append.mp hk with hk | hk
    · exact h.isKnjStr k hk
    · rw [List.mem_singleton.mp hk]
      exact w.isKnjStr.toIsKnjStr

namespace Word

/-- The grammar block of a word on its own. -/
def hinsiBlk (w : Word) : HinsiBlk where
  hinsi := w.hinsi
  kanji := [w.kanji]
  hinsi_ne := w.hinsi_ne
  kanji_ne := by simp
  isKnjStr := by simpa using w.isKnjStr.toIsKnjStr

/-- The grammar blocks with the word in the one of its code, or in one of its own. -/
def addTo (w : Word) : List HinsiBlk → List HinsiBlk
  | [] => [w.hinsiBlk]
  | h :: hs => if h.hinsi = w.hinsi then h.add w :: hs else h :: w.addTo hs

theorem addTo_ne_nil (w : Word) (hs : List HinsiBlk) : w.addTo hs ≠ [] := by
  cases hs with
  | nil => simp [addTo]
  | cons h hs =>
      rw [addTo]
      split <;> simp

/-- The block of the word's reading, if there is one, with the word in it. -/
def into (w : Word) : Option DouonBlk → DouonBlk
  | none => ⟨w.yomi, w.addTo [], w.isYomi, w.addTo_ne_nil _⟩
  | some t => ⟨t.yomi, w.addTo t.hinsi, t.isYomi, w.addTo_ne_nil _⟩

variable {w : Word}

theorem into_yomi {old : Option DouonBlk} (h : ∀ t ∈ old, t.yomi = w.yomi) :
    (w.into old).yomi = w.yomi := by
  cases old with
  | none => rfl
  | some t => exact h t rfl

theorem addTo_of_ne {hs : List HinsiBlk} (h : ∀ b ∈ hs, b.hinsi ≠ w.hinsi) :
    w.addTo hs = hs ++ [w.hinsiBlk] := by
  induction hs with
  | nil => rfl
  | cons b hs ih =>
      rw [addTo, if_neg (h b (by simp)), ih fun b' hb' => h b' (by simp [hb'])]
      rfl

theorem addTo_append {l r : List HinsiBlk} {b : HinsiBlk} (h : ∀ b' ∈ l, b'.hinsi ≠ w.hinsi)
    (hb : b.hinsi = w.hinsi) : w.addTo (l ++ b :: r) = l ++ b.add w :: r := by
  induction l with
  | nil => rw [List.nil_append, addTo, if_pos hb]; rfl
  | cons b' l ih =>
      rw [List.cons_append, addTo, if_neg (h b' (by simp)), ih fun c hc => h c (by simp [hc])]
      rfl

/-- The first grammar block of the word's code is there, or none is. -/
theorem split_hinsi (w : Word) (hs : List HinsiBlk) :
    (∀ b ∈ hs, b.hinsi ≠ w.hinsi) ∨
      ∃ l b r, hs = l ++ b :: r ∧ (∀ b' ∈ l, b'.hinsi ≠ w.hinsi) ∧ b.hinsi = w.hinsi := by
  induction hs with
  | nil => exact .inl (by simp)
  | cons b hs ih =>
      by_cases hb : b.hinsi = w.hinsi
      · exact .inr ⟨[], b, hs, rfl, by simp, hb⟩
      · rcases ih with h | ⟨l, b', r, rfl, hl, hb'⟩
        · exact .inl (by simpa using ⟨hb, h⟩)
        · exact .inr ⟨b :: l, b', r, rfl, by simpa using ⟨hb, hl⟩, hb'⟩

theorem isUsr_addTo {hs : List HinsiBlk} (h : ∀ b ∈ hs, b.IsUsr) :
    ∀ b ∈ w.addTo hs, b.IsUsr := by
  have hnew : w.hinsiBlk.IsUsr := by
    intro k hk
    rw [List.mem_singleton.mp hk]
    exact w.isKnjStr
  rcases w.split_hinsi hs with hne | ⟨l, b, r, rfl, hl, hb⟩
  · rw [addTo_of_ne hne]
    intro b hb
    rcases List.mem_append.mp hb with hb | hb
    · exact h b hb
    · rw [List.mem_singleton.mp hb]
      exact hnew
  · rw [addTo_append hl hb]
    intro c hc
    rcases List.mem_append.mp hc with hc | hc
    · exact h c (by simp [hc])
    · rcases List.mem_cons.mp hc with rfl | hc
      · intro k hk
        rcases List.mem_append.mp hk with hk | hk
        · exact h b (by simp) k hk
        · rw [List.mem_singleton.mp hk]
          exact w.isKnjStr
      · exact h c (by simp [hc])

theorem nodup_addTo {hs : List HinsiBlk} (h : (hs.map HinsiBlk.hinsi).Nodup) :
    ((w.addTo hs).map HinsiBlk.hinsi).Nodup := by
  rcases w.split_hinsi hs with hne | ⟨l, b, r, rfl, hl, hb⟩
  · rw [addTo_of_ne hne, List.map_append, List.nodup_append]
    refine ⟨h, by simp, ?_⟩
    intro a ha b hb
    obtain ⟨c, hc, rfl⟩ := List.mem_map.mp ha
    rw [List.map_singleton, List.mem_singleton] at hb
    rw [hb]
    exact hne c hc
  · rw [addTo_append hl hb]
    simpa [HinsiBlk.add] using h

theorem isUsr_into {old : Option DouonBlk} (h : ∀ t ∈ old, t.IsUsr) : (w.into old).IsUsr := by
  cases old with
  | none => exact ⟨isUsr_addTo (by simp), nodup_addTo (by simp)⟩
  | some t => exact ⟨isUsr_addTo (h t rfl).hinsi, nodup_addTo (h t rfl).nodup⟩

/-! ## The bytes of a word -/

/-- The bytes of the word in a grammar block of its own. -/
theorem bytes_hinsiBlk (w : Word) :
    w.hinsiBlk.bytes = w.hinsi :: (w.kanji ++ [kanjiStrEnd] ++ [hinsiBlkTerm]) := by
  simp [HinsiBlk.bytes, hinsiBlk]

theorem bytes_add (b : HinsiBlk) :
    (b.add w).bytes =
      b.hinsi :: (knjBytes b.kanji ++ (w.kanji ++ [kanjiStrEnd] ++ [hinsiBlkTerm])) := by
  simp [HinsiBlk.bytes, HinsiBlk.add, knjBytes_append]

theorem length_bytes_add (b : HinsiBlk) :
    (b.add w).bytes.length = b.bytes.length + (w.kanji.length + 1) := by
  rw [bytes_add]
  simp only [HinsiBlk.bytes, List.length_append, List.length_cons, List.length_nil]
  omega

theorem length_addTo (hs : List HinsiBlk) :
    (hinsiBytes hs).length ≤ (hinsiBytes (w.addTo hs)).length := by
  induction hs with
  | nil => simp
  | cons b hs ih =>
      rw [addTo]
      split
      · simp only [hinsiBytes_cons, List.length_append, length_bytes_add]
        omega
      · simp only [hinsiBytes_cons, List.length_append]
        omega

/-- A word on its own is far smaller than a segment. -/
theorem size_into_none_le (w : Word) (prev : Bytes) :
    (w.into none).size prev ≤ 101 := by
  have hn := (w.into none).nlen_le_max prev
  have hk := w.length_le
  have hbody : (w.into none).body.length = w.kanji.length + 3 := by
    rw [DouonBlk.body_eq]
    simp only [into, addTo, hinsiBytes_cons, hinsiBytes_nil, List.append_nil, bytes_hinsiBlk,
      List.length_cons, List.length_append, List.length_nil]
  simp only [maxWdYomiLen, maxWdKanjiLen] at hn hk
  simp only [DouonBlk.size, douonBlkSizeNumber, hbody]
  omega

end Word

/-! ## Sizes and offsets in a segment -/

theorem length_douonBytes_cons (prev : Bytes) (t : DouonBlk) (ts : List DouonBlk) :
    (douonBytes prev (t :: ts)).length = t.size prev + (douonBytes t.yomi ts).length := by
  simp [douonBytes]

theorem plen_mono {x prev : Bytes} {u : DouonBlk} (hpx : prev ≤ x) (hxu : x ≤ u.yomi) :
    u.plen prev ≤ u.plen x := by
  rw [DouonBlk.plen, DouonBlk.plen, lcp_eq_min hpx hxu]
  exact min_le_right _ _

theorem size_add_plen (u : DouonBlk) (prev x : Bytes) :
    u.size prev + u.plen prev = u.size x + u.plen x := by
  have h₁ := u.plen_add_nlen prev
  have h₂ := u.plen_add_nlen x
  simp only [DouonBlk.size]
  omega

theorem lastYomi_le {x : Bytes} {l : List DouonBlk} (h : ∀ t ∈ l, t.yomi < x) :
    lastYomi [] l ≤ x := by
  rcases lastYomi_mem_or [] l with ⟨-, he⟩ | ⟨u, hu, he⟩
  · rw [he]
    exact nil_le x
  · rw [he]
    exact (h u hu).le


/-- The offset behind the blocks `l` of a segment. -/
def blkOfs (l : List DouonBlk) : ℕ := (douonBytes [] l).length + 1

theorem blkOfs_append (l r : List DouonBlk) :
    blkOfs (l ++ r) = blkOfs l + (douonBytes (lastYomi [] l) r).length := by
  rw [blkOfs, douonBytes_append, List.length_append, blkOfs]
  omega

theorem blkOfs_concat (l : List DouonBlk) (t : DouonBlk) :
    blkOfs (l ++ [t]) = blkOfs l + t.size (lastYomi [] l) := by
  rw [blkOfs_append]
  simp [douonBytes]

theorem blkOfs_pos (l : List DouonBlk) : 0 < blkOfs l := Nat.succ_pos _

/-- A segment is what is in front of a place and what is behind it. -/
theorem segBytes_append (l r : List DouonBlk) (tail : Bytes) :
    segBytes (l ++ r) tail = segBytes l [] ++ (douonBytes (lastYomi [] l) r ++ tail) := by
  simp [segBytes, douonBytes_append]

@[simp] theorem length_segBytes (l : List DouonBlk) (tail : Bytes) :
    (segBytes l tail).length = blkOfs l + tail.length := by
  simp only [segBytes, List.length_cons, List.length_append, blkOfs]
  omega

theorem length_segFront (l : List DouonBlk) : (segBytes l []).length = blkOfs l := by simp

theorem ofsOf_append (x p : Bytes) : ofsOf (x ++ p) p = x.length := by
  simp [ofsOf]

theorem ofsOf_segtop (l : List DouonBlk) (tail : Bytes) :
    ofsOf (segBytes l tail) (segtop (segBytes l tail)) = 1 := ofsOf_append [0] _

/-- The offset of a place is that behind the blocks in front of it. -/
theorem ofsOf_segBytes (l r : List DouonBlk) (tail : Bytes) :
    ofsOf (segBytes (l ++ r) tail) (douonBytes (lastYomi [] l) r ++ tail) = blkOfs l := by
  rw [segBytes_append, ofsOf_append]
  simp

theorem drop_segBytes (l r : List DouonBlk) (tail : Bytes) :
    (segBytes (l ++ r) tail).drop (blkOfs l) = douonBytes (lastYomi [] l) r ++ tail := by
  have hlen : (segBytes l []).length = blkOfs l := by simp
  rw [segBytes_append, ← hlen, List.drop_left]

theorem lastYomi_append (prev : Bytes) (l r : List DouonBlk) :
    lastYomi prev (l ++ r) = lastYomi (lastYomi prev l) r := by
  induction l generalizing prev with
  | nil => rfl
  | cons t l ih => exact ih t.yomi

@[simp] theorem lastYomi_concat (prev : Bytes) (l : List DouonBlk) (t : DouonBlk) :
    lastYomi prev (l ++ [t]) = t.yomi := by
  rw [lastYomi_append]
  rfl

/-- A reading is not longer than the bytes of the blocks up to it. -/
theorem length_lastYomi_le (prev : Bytes) (l : List DouonBlk) :
    (lastYomi prev l).length ≤ prev.length + (douonBytes prev l).length := by
  induction l generalizing prev with
  | nil => simp [lastYomi]
  | cons t l ih =>
      have h₁ := ih t.yomi
      have h₂ := t.plen_add_nlen prev
      have h₃ : t.plen prev ≤ prev.length := lcp_le_left _ _
      simp only [lastYomi, length_douonBytes_cons, DouonBlk.size] at *
      omega

theorem plen_lt_blkOfs (l : List DouonBlk) (u : DouonBlk) :
    u.plen (lastYomi [] l) < blkOfs l := by
  have h₁ := length_lastYomi_le [] l
  have h₂ : u.plen (lastYomi [] l) ≤ (lastYomi [] l).length := lcp_le_left _ _
  simp only [List.length_nil] at h₁
  simp only [blkOfs]
  omega

/-- At the front of a segment a block is stored with its whole reading. -/
theorem size_nil (prev : Bytes) (u : DouonBlk) : u.size [] = u.size prev + u.plen prev := by
  have h := size_add_plen u prev []
  simpa [DouonBlk.plen] using h.symm

theorem blkOfs_cons (u : DouonBlk) (r : List DouonBlk) :
    blkOfs (u :: r) = 1 + (u.size [] + (douonBytes u.yomi r).length) := by
  rw [blkOfs, length_douonBytes_cons]
  omega

end Sj3
