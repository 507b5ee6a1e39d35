import Sj3.General.FrontCoding
import Sj3.Verification.Kanji.Codes
import Sj3.Verification.Reading.Accepted

/-! # Blocks of a segment

What the bytes of a segment stand for: homophone blocks with a reading each, of which the
bytes only hold what the reading in front does not share, and grammar blocks in them. -/

namespace Sj3

open FrontCoding

/-! ## Headers -/

private theorem header_byte0 : ∀ (hi : Fin 16) (n p : Bool),
    let b := UInt8.ofNat hi ||| (if n then nokoriYomiTop else 0) |||
      (if p then assyukuYomiTop else 0)
    (b &&& 0x0f).toNat = hi ∧ (b &&& nokoriYomiTop ≠ 0 ↔ n) ∧
      (b &&& assyukuYomiTop ≠ 0 ↔ p) ∧ b ≠ dicSegTerm := by
  decide +kernel

private theorem header_byte2 : ∀ n p : Fin 16,
    let b := UInt8.ofNat (n.val ||| (p.val <<< 4))
    (b &&& 0x0f).toNat = n ∧ (b >>> 4).toNat = p := by
  decide +kernel

private theorem length_flag : ∀ n : Fin 32,
    (if n.val &&& 0x10 ≠ 0 then 0x10 else 0) + (n.val &&& 0x0f) = n.val := by
  decide

/-- The two lengths and the size of a block can be read back from its header. -/
theorem setSize_spec {size plen nlen : ℕ} (hs : size ≤ maxDouonBlk) (hp : plen ≤ maxWdYomiLen)
    (hn : nlen ≤ maxWdYomiLen) (rest : Bytes) :
    getsize (setSize size plen nlen ++ rest) = size ∧
      getplen (setSize size plen nlen ++ rest) = plen ∧
      getnlen (setSize size plen nlen ++ rest) = nlen ∧
      segend (setSize size plen nlen ++ rest) = false := by
  simp only [maxDouonBlk, maxWdYomiLen] at hs hp hn
  have hhi : size >>> 8 < 16 := by
    rw [Nat.shiftRight_eq_div_pow]
    omega
  have hand : ∀ m : ℕ, m &&& 0x0f < 16 := fun m => by
    have := Nat.and_le_right (n := m) (m := 0x0f)
    omega
  obtain ⟨h1, h2, h3, h4⟩ := header_byte0 ⟨size >>> 8, hhi⟩ (nlen &&& 0x10 ≠ 0) (plen &&& 0x10 ≠ 0)
  obtain ⟨h5, h6⟩ := header_byte2 ⟨nlen &&& 0x0f, hand _⟩ ⟨plen &&& 0x0f, hand _⟩
  have h7 := length_flag ⟨nlen, by omega⟩
  have h8 := length_flag ⟨plen, by omega⟩
  simp only [decide_eq_true_eq] at h1 h2 h3 h4
  refine ⟨?_, ?_, ?_, ?_⟩
  · have : size >>> 8 * 0x100 + size % 256 = size := by
      rw [Nat.shiftRight_eq_div_pow]
      omega
    have hlow : (UInt8.ofNat size).toNat = size % 256 := UInt8.toNat_ofNat'
    simp only [getsize, setSize, List.cons_append, List.headD_cons, List.getD_cons_succ,
      List.getD_cons_zero, h1, hlow]
    exact this
  · simp only [getplen, setSize, List.cons_append, List.headD_cons, h3,
      List.getD_cons_succ, List.getD_cons_zero, h6]
    exact h8
  · simp only [getnlen, setSize, List.cons_append, List.headD_cons, h2,
      List.getD_cons_succ, List.getD_cons_zero, h5]
    exact h7
  · simpa [segend, setSize] using h4

@[simp] theorem length_setSize (size plen nlen : ℕ) :
    (setSize size plen nlen).length = douonBlkSizeNumber := rfl

/-! ## Grammar blocks and homophone blocks -/

/-- A grammar block: the kanji strings of one reading with one grammar code. -/
structure HinsiBlk where
  hinsi : UInt8
  kanji : List Bytes
  hinsi_ne : hinsi ≠ hinsiBlkTerm
  kanji_ne : kanji ≠ []
  isKnjStr : ∀ k ∈ kanji, IsKnjStr k

/-- Kanji strings with their terminators. -/
def knjBytes (kanji : List Bytes) : Bytes := kanji.flatMap (· ++ [kanjiStrEnd])

def HinsiBlk.bytes (h : HinsiBlk) : Bytes := h.hinsi :: (knjBytes h.kanji ++ [hinsiBlkTerm])

/-- A homophone block: the grammar blocks of one reading. -/
structure DouonBlk where
  yomi : Bytes
  hinsi : List HinsiBlk
  isYomi : IsYomi yomi
  hinsi_ne : hinsi ≠ []

namespace DouonBlk

def body (t : DouonBlk) : Bytes := t.hinsi.flatMap HinsiBlk.bytes

/-- How much of its reading the block leaves to the one in front, of reading `prev`. -/
def plen (prev : Bytes) (t : DouonBlk) : ℕ := lcp prev t.yomi

def nlen (prev : Bytes) (t : DouonBlk) : ℕ := t.yomi.length - t.plen prev

def size (prev : Bytes) (t : DouonBlk) : ℕ :=
  douonBlkSizeNumber + t.nlen prev + t.body.length

def bytes (prev : Bytes) (t : DouonBlk) : Bytes :=
  setSize (t.size prev) (t.plen prev) (t.nlen prev) ++ (t.yomi.drop (t.plen prev) ++ t.body)

theorem plen_le (prev : Bytes) (t : DouonBlk) : t.plen prev ≤ t.yomi.length := lcp_le_right _ _

theorem plen_le_max (prev : Bytes) (t : DouonBlk) : t.plen prev ≤ maxWdYomiLen :=
  (t.plen_le prev).trans t.isYomi.length_le

theorem nlen_le_max (prev : Bytes) (t : DouonBlk) : t.nlen prev ≤ maxWdYomiLen :=
  (Nat.sub_le _ _).trans t.isYomi.length_le

theorem plen_add_nlen (prev : Bytes) (t : DouonBlk) :
    t.plen prev + t.nlen prev = t.yomi.length :=
  Nat.add_sub_cancel' (t.plen_le prev)

@[simp] theorem length_bytes (prev : Bytes) (t : DouonBlk) :
    (t.bytes prev).length = t.size prev := by
  simp [bytes, size, nlen, Nat.add_assoc]

/-- A block behind a smaller reading stores something of its own. -/
theorem nlen_pos {prev : Bytes} {t : DouonBlk} (h : prev < t.yomi) : 0 < t.nlen prev := by
  have hne : t.plen prev ≠ t.yomi.length := by
    intro he
    have := prefix_le (lcp_eq_length_iff.mp he)
    exact absurd h (not_lt.mpr this)
  have := t.plen_le prev
  simp only [nlen]
  omega

end DouonBlk

/-- Homophone blocks in a row, behind a block of reading `prev`. -/
def douonBytes : Bytes → List DouonBlk → Bytes
  | _, [] => []
  | prev, t :: ts => t.bytes prev ++ douonBytes t.yomi ts

/-- The reading of the last of some blocks, if there is one, otherwise the given one. -/
def lastYomi : Bytes → List DouonBlk → Bytes
  | prev, [] => prev
  | _, t :: ts => lastYomi t.yomi ts

theorem douonBytes_append (prev : Bytes) (ts us : List DouonBlk) :
    douonBytes prev (ts ++ us) = douonBytes prev ts ++ douonBytes (lastYomi prev ts) us := by
  induction ts generalizing prev with
  | nil => rfl
  | cons t ts ih => simp [douonBytes, lastYomi, ih]

/-- Behind the blocks of a segment comes its end mark or the end of the segment. -/
def IsTail (tail : Bytes) : Prop := tail.headD dicSegTerm = dicSegTerm

theorem IsTail.segend {tail : Bytes} (h : IsTail tail) : segend tail = true := by
  rw [Sj3.segend, h]
  rfl

/-- The size fields of these blocks hold the sizes. -/
def SizesFit : Bytes → List DouonBlk → Prop
  | _, [] => True
  | prev, t :: ts => t.size prev ≤ maxDouonBlk ∧ SizesFit t.yomi ts

section Header

variable {prev : Bytes} {t : DouonBlk}

theorem getsize_bytes (h : t.size prev ≤ maxDouonBlk) (rest : Bytes) :
    getsize (t.bytes prev ++ rest) = t.size prev := by
  rw [DouonBlk.bytes, List.append_assoc]
  exact (setSize_spec h (t.plen_le_max prev) (t.nlen_le_max prev) _).1

theorem getplen_bytes (h : t.size prev ≤ maxDouonBlk) (rest : Bytes) :
    getplen (t.bytes prev ++ rest) = t.plen prev := by
  rw [DouonBlk.bytes, List.append_assoc]
  exact (setSize_spec h (t.plen_le_max prev) (t.nlen_le_max prev) _).2.1

theorem getnlen_bytes (h : t.size prev ≤ maxDouonBlk) (rest : Bytes) :
    getnlen (t.bytes prev ++ rest) = t.nlen prev := by
  rw [DouonBlk.bytes, List.append_assoc]
  exact (setSize_spec h (t.plen_le_max prev) (t.nlen_le_max prev) _).2.2.1

theorem segend_bytes (h : t.size prev ≤ maxDouonBlk) (rest : Bytes) :
    segend (t.bytes prev ++ rest) = false := by
  rw [DouonBlk.bytes, List.append_assoc]
  exact (setSize_spec h (t.plen_le_max prev) (t.nlen_le_max prev) _).2.2.2

theorem getntag_bytes (h : t.size prev ≤ maxDouonBlk) (rest : Bytes) :
    getntag (t.bytes prev ++ rest) = rest := by
  have hs := segend_bytes h rest
  simp only [segend, decide_eq_false_iff_not] at hs
  rw [getntag, if_neg hs, getsize_bytes h, ← DouonBlk.length_bytes, List.drop_left]

theorem getntag_tail {tail : Bytes} (h : IsTail tail) : getntag tail = tail := if_pos h

end Header

end Sj3
