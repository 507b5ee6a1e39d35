import Sj3.General.Byte
import Sj3.General.PrefixFree
import Sj3.General.Recency
import Sj3.Model.Clstudy
import Sj3.Model.Makedict

/-! # The clause-study area

What the area is when it is in order: records one behind another, each with its length,
grammar code, length of the first clause and recency number in front of its reading, and
zeros behind the last one. -/

namespace Sj3

open Buffer PrefixFree Recency

structure ClRec where
  yomi : Bytes
  gram : UInt8
  yomi1Len : UInt8
  num : ℕ
  deriving DecidableEq, Repr

namespace ClRec

/-- What a record says, apart from its number. -/
def key (r : ClRec) : Bytes × UInt8 × UInt8 := (r.yomi, r.gram, r.yomi1Len)

def head (r : ClRec) : Bytes :=
  [UInt8.ofNat r.yomi.length, r.gram, r.yomi1Len, UInt8.ofNat (r.num >>> 8), UInt8.ofNat r.num]

def bytes (r : ClRec) : Bytes := r.head ++ r.yomi

def setNum (f : ℕ → ℕ) (r : ClRec) : ClRec := { r with num := f r.num }

/-- The lengths and the number are ones the header has room for. -/
structure Fits (r : ClRec) : Prop where
  pos : r.yomi ≠ []
  length_lt : r.yomi.length < 0x100
  num_lt : r.num < 0x10000

@[simp] theorem setNum_yomi (f : ℕ → ℕ) (r : ClRec) : (r.setNum f).yomi = r.yomi := rfl

@[simp] theorem setNum_num (f : ℕ → ℕ) (r : ClRec) : (r.setNum f).num = f r.num := rfl

@[simp] theorem setNum_key (f : ℕ → ℕ) (r : ClRec) : (r.setNum f).key = r.key := rfl

@[simp] theorem setNum_id (r : ClRec) : r.setNum id = r := rfl

@[simp] theorem setNum_setNum (f g : ℕ → ℕ) (r : ClRec) :
    (r.setNum f).setNum g = r.setNum (g ∘ f) := rfl

@[simp] theorem length_head (r : ClRec) : r.head.length = Stdy.clHdLen := rfl

@[simp] theorem length_bytes (r : ClRec) : r.bytes.length = r.yomi.length + Stdy.clHdLen := by
  rw [bytes, List.length_append, length_head, Nat.add_comm]

theorem Fits.setNum {r : ClRec} (h : r.Fits) {f : ℕ → ℕ} (hf : f r.num < 0x10000) :
    (r.setNum f).Fits := ⟨h.pos, h.length_lt, hf⟩

end ClRec

/-- The records, one behind another. -/
def clBytes (recs : List ClRec) : Bytes := recs.flatMap ClRec.bytes

/-- An area with `free` bytes behind the records. -/
def clArea (recs : List ClRec) (free : ℕ) : Bytes := clBytes recs ++ List.replicate free 0

/-- The offset of the first record that has the property `p`. -/
def clFirst (p : ClRec → Bool) : List ClRec → ℕ → Option ℕ
  | [], _ => none
  | r :: recs, ofs => if p r then some ofs else clFirst p recs (ofs + r.bytes.length)

/-- The records of one bucket of the index: those whose first code is in it. -/
def clBucket (st step : ℕ) (r : ClRec) : Bool :=
  st ≤ (r.yomi.headD 0).toNat ∧ (r.yomi.headD 0).toNat < st + step

/-- The records of the area are in order. -/
structure ClOrdered (recs : List ClRec) : Prop where
  yomi_ne_nil : ∀ r ∈ recs, r.yomi ≠ []
  length_lt : ∀ r ∈ recs, r.yomi.length < 0x100
  zero_notMem : ∀ r ∈ recs, 0 ∉ r.yomi
  yomi1Len_le : ∀ r ∈ recs, r.yomi1Len.toNat ≤ r.yomi.length
  before : recs.Pairwise fun r t => Before r.yomi t.yomi
  ranked : Ranked (recs.map ClRec.num)

/-- The index says where the first record of every bucket is, 0xffff where there is none. -/
def ClIndexed (step : ℕ) (idx : List ℕ) (recs : List ClRec) : Prop :=
  ∀ b, b * step < 0x100 →
    idx[b]? = some ((clFirst (clBucket (b * step) step) recs 0).getD 0xffff)

/-- A clause-study area with the records `recs`, of a size and bucket width `makestdy`
allows. -/
structure ClStudied (s : Stdy) (recs : List ClRec) : Prop extends ClOrdered recs where
  area_eq : ∃ free, 0 < free ∧ s.clstdydic = clArea recs free
  length_le : s.clstdydic.length ≤ maxClLen
  step_pos : 0 < s.clstdystep
  length_idx : s.clstdyidx.length = 0x100
  indexed : ClIndexed s.clstdystep s.clstdyidx recs

/-! ## Reading a record -/

section Record

variable {r : ClRec} (h : r.Fits) (rest : Bytes)
include h

theorem iseocl_bytes : Stdy.iseocl (r.bytes ++ rest) = false := by
  have hpos : 0 < r.yomi.length := List.length_pos_of_ne_nil h.pos
  have hne : UInt8.ofNat r.yomi.length ≠ 0 := by
    intro h0
    have := congrArg UInt8.toNat h0
    rw [UInt8.toNat_ofNat_of_lt' h.length_lt] at this
    exact hpos.ne' this
  exact decide_eq_false hne

theorem clYomiLen_bytes : Stdy.clYomiLen (r.bytes ++ rest) = r.yomi.length :=
  UInt8.toNat_ofNat_of_lt' h.length_lt

theorem clBlkLen_bytes : Stdy.clBlkLen (r.bytes ++ rest) = r.bytes.length := by
  rw [Stdy.clBlkLen, clYomiLen_bytes h, ClRec.length_bytes]

theorem clGetNum_bytes : Stdy.clGetNum (r.bytes ++ rest) = r.num := by
  have hnum := h.num_lt
  have hhigh : (UInt8.ofNat (r.num >>> 8)).toNat = r.num >>> 8 :=
    UInt8.toNat_ofNat_of_lt' (by rw [Nat.shiftRight_eq_div_pow, UInt8.size]; omega)
  have hlow : (UInt8.ofNat r.num).toNat = r.num % 0x100 := UInt8.toNat_ofNat' ..
  show (UInt8.ofNat (r.num >>> 8)).toNat * 0x100 + (UInt8.ofNat r.num).toNat = r.num
  rw [hhigh, hlow, Nat.shiftRight_eq_div_pow]
  omega

theorem clNextTag_bytes : Stdy.clNextTag (r.bytes ++ rest) = rest := by
  rw [Stdy.clNextTag, clBlkLen_bytes h, List.drop_left]

omit h in
theorem clYomiPos_bytes : Stdy.clYomiPos (r.bytes ++ rest) = r.yomi ++ rest := by
  rw [Stdy.clYomiPos, ClRec.bytes, List.append_assoc, ← ClRec.length_head r, List.drop_left]

end Record

theorem iseocl_zeros (n : ℕ) : Stdy.iseocl (List.replicate n 0) = true := by
  cases n <;> rfl

@[simp] theorem clBytes_nil : clBytes [] = [] := rfl

@[simp] theorem clBytes_cons (r : ClRec) (recs : List ClRec) :
    clBytes (r :: recs) = r.bytes ++ clBytes recs := rfl

@[simp] theorem clBytes_append (l r : List ClRec) : clBytes (l ++ r) = clBytes l ++ clBytes r :=
  List.flatMap_append

theorem clArea_append (l r : List ClRec) (free : ℕ) :
    clArea (l ++ r) free = clBytes l ++ clArea r free := by
  rw [clArea, clBytes_append, List.append_assoc, clArea]

theorem clArea_cons (r : ClRec) (recs : List ClRec) (free : ℕ) :
    clArea (r :: recs) free = r.bytes ++ clArea recs free := by
  rw [clArea, clBytes_cons, List.append_assoc, clArea]

@[simp] theorem length_clArea (recs : List ClRec) (free : ℕ) :
    (clArea recs free).length = (clBytes recs).length + free := by
  simp [clArea]

theorem length_le_length_clBytes (recs : List ClRec) : recs.length ≤ (clBytes recs).length := by
  induction recs with
  | nil => rfl
  | cons r recs ih =>
      rw [clBytes_cons, List.length_append, ClRec.length_bytes, Stdy.clHdLen, List.length_cons]
      omega

@[simp] theorem length_clBytes_map (f : ℕ → ℕ) (recs : List ClRec) :
    (clBytes (recs.map (ClRec.setNum f))).length = (clBytes recs).length := by
  induction recs with
  | nil => rfl
  | cons r recs ih => simp [ih]

/-- Setting the number of a record in place. -/
theorem setNum_bytes {r : ClRec} (h : r.Fits) (f : ℕ → ℕ) (rest : Bytes) :
    let p := r.bytes ++ rest
    p.take 3 ++ [UInt8.ofNat (f r.num >>> 8), UInt8.ofNat (f r.num)] ++
      (Stdy.clYomiPos p).take (Stdy.clYomiLen p) = (r.setNum f).bytes := by
  intro p
  rw [clYomiPos_bytes, clYomiLen_bytes h, List.take_left]
  rfl

/-! ## What records an area holds -/

/-- The area holds `recs` and zeros behind them. -/
structure ClHolds (s : Stdy) (recs : List ClRec) : Prop where
  fits : ∀ r ∈ recs, r.Fits
  area_eq : ∃ free, s.clstdydic = clArea recs free

/-- The first record of an area is the one whose bytes are at its front. -/
theorem exists_first {recs : List ClRec} {free : ℕ} {p : Bytes} (h : ∀ r ∈ recs, r.Fits)
    (hp : p = clArea recs free) (hne : Stdy.iseocl p = false) :
    ∃ r rs, recs = r :: rs ∧ p = r.bytes ++ clArea rs free := by
  subst hp
  cases recs with
  | nil => exact absurd ((iseocl_zeros free).symm.trans hne) (by decide)
  | cons r rs => exact ⟨r, rs, rfl, clArea_cons r rs free⟩

theorem ClRec.Fits.eq_of_bytes {r t : ClRec} (hr : r.Fits) (ht : t.Fits) {p q : Bytes}
    (h : r.bytes ++ p = t.bytes ++ q) : r = t := by
  have hlen : r.yomi.length = t.yomi.length := by
    rw [← clYomiLen_bytes hr p, h, clYomiLen_bytes ht]
  have hnum : r.num = t.num := by
    rw [← clGetNum_bytes hr p, h, clGetNum_bytes ht]
  have hpos : r.yomi ++ p = t.yomi ++ q := by
    rw [← clYomiPos_bytes, h, clYomiPos_bytes]
  have hgram : r.gram = t.gram := congrArg (fun b : Bytes => b.getD 1 0) h
  have hlen1 : r.yomi1Len = t.yomi1Len := congrArg (fun b : Bytes => b.getD 2 0) h
  cases r
  cases t
  simp only at hlen hnum hpos hgram hlen1
  rw [hgram, hlen1, hnum, (List.append_inj hpos hlen).1]

/-- An area that starts with the bytes of some records holds these records first. -/
theorem clArea_prefix {front recs : List ClRec} {free : ℕ} {p : Bytes}
    (hf : ∀ r ∈ front, r.Fits) (h : ∀ r ∈ recs, r.Fits)
    (heq : clBytes front ++ p = clArea recs free) :
    ∃ rest, recs = front ++ rest ∧ p = clArea rest free := by
  induction front generalizing recs with
  | nil => exact ⟨recs, rfl, heq⟩
  | cons r front ih =>
      have hr := hf r List.mem_cons_self
      rw [clBytes_cons, List.append_assoc] at heq
      obtain ⟨t, ts, rfl, hcons⟩ := exists_first h heq (iseocl_bytes hr _)
      obtain rfl : r = t := hr.eq_of_bytes (h t List.mem_cons_self) hcons
      obtain ⟨rest, rfl, hrest⟩ := ih (fun t ht => hf t (List.mem_cons_of_mem _ ht))
        (fun t ht => h t (List.mem_cons_of_mem _ ht)) (List.append_cancel_left hcons)
      exact ⟨rest, rfl, hrest⟩

theorem ClHolds.unique {s : Stdy} {recs recs' : List ClRec} (h : ClHolds s recs)
    (h' : ClHolds s recs') : recs = recs' := by
  obtain ⟨free, harea⟩ := h.area_eq
  obtain ⟨free', harea'⟩ := h'.area_eq
  obtain ⟨rest, rfl, hrest⟩ := clArea_prefix h.fits h'.fits (harea.symm.trans harea')
  cases rest with
  | nil => rw [List.append_nil]
  | cons r rest =>
      have hr := h'.fits r (by simp)
      have hzero := iseocl_zeros free
      rw [hrest, clArea_cons, iseocl_bytes hr] at hzero
      exact absurd hzero Bool.false_ne_true

/-! ## Removing a record -/

theorem clRenum_clBytes (num : ℕ) {n : ℕ} {recs : List ClRec} {free : ℕ}
    (h : ∀ r ∈ recs, r.Fits) (hn : recs.length ≤ n) :
    Stdy.clRenum num n (clArea recs free) =
      clArea (recs.map (ClRec.setNum (closeUp num))) free := by
  induction recs generalizing n with
  | nil =>
      cases n with
      | zero => rfl
      | succ n => rw [Stdy.clRenum, if_pos]; exacts [rfl, iseocl_zeros free]
  | cons r recs ih =>
      have hr := h r List.mem_cons_self
      obtain ⟨n, rfl⟩ := Nat.exists_eq_add_of_lt (Nat.lt_of_lt_of_le (Nat.succ_pos _) hn)
      rw [Nat.zero_add, Stdy.clRenum, clArea_cons, List.map_cons, clArea_cons,
        if_neg (by simp [iseocl_bytes hr]), clNextTag_bytes hr,
        ih (fun r hr => h r (List.mem_cons_of_mem _ hr)) (by simpa using hn),
        ← setNum_bytes hr (closeUp num) (clArea recs free), clGetNum_bytes hr]
      by_cases hgt : r.num > num
      · simp only [closeUp, if_pos hgt, List.append_assoc]
      · have hhead : (r.bytes ++ clArea recs free).take Stdy.clHdLen =
            (r.bytes ++ clArea recs free).take 3 ++
              [UInt8.ofNat (r.num >>> 8), UInt8.ofNat r.num] := rfl
        simp only [closeUp, if_neg hgt, hhead, List.append_assoc]

theorem delclsub_clArea {l rs : List ClRec} {r : ClRec} (free : ℕ)
    (h : ∀ t ∈ l ++ r :: rs, t.Fits) :
    Stdy.delclsub (clArea (l ++ r :: rs) free) (clArea (r :: rs) free) =
      clArea ((l ++ rs).map (ClRec.setNum (closeUp r.num))) (free + r.bytes.length) := by
  have hr : r.Fits := h r (by simp)
  have harea : clArea (l ++ r :: rs) free = clBytes l ++ (r.bytes ++ clArea rs free) := by
    rw [clArea_append, clArea_cons]
  have hofs : (clArea (l ++ r :: rs) free).length - (clArea (r :: rs) free).length =
      (clBytes l).length := by
    rw [clArea_append, List.length_append, Nat.add_sub_cancel]
  have hrest : (clArea (l ++ r :: rs) free).length - ((clBytes l).length + r.bytes.length) =
      (clArea rs free).length := by
    rw [harea]
    simp only [List.length_append]
    omega
  have hend : (clArea (l ++ r :: rs) free).length - r.bytes.length =
      (clBytes l).length + (clArea rs free).length := by
    rw [harea]
    simp only [List.length_append]
    omega
  have hmove := overwrite_copyAsc_close (clBytes l) r.bytes (clArea rs free)
    (List.replicate r.bytes.length 0) List.length_replicate
  have hclosed : clBytes l ++ (clArea rs free ++ List.replicate r.bytes.length 0) =
      clArea (l ++ rs) (free + r.bytes.length) := by
    rw [clArea_append, clArea, clArea, List.replicate_add]
    simp only [List.append_assoc]
  simp only [Stdy.delclsub, clArea_cons r rs, clGetNum_bytes hr, clBlkLen_bytes hr]
  rw [← clArea_cons r rs, hofs, hrest, hend, harea, hmove, hclosed]
  apply clRenum_clBytes
  · intro t ht
    apply h t
    simp only [List.mem_append, List.mem_cons] at ht ⊢
    tauto
  · have hlen := length_le_length_clBytes (l ++ rs)
    simp only [length_clArea, clBytes_append, List.length_append] at hlen ⊢
    omega

/-! ## Comparing readings -/

/-- How a reading compares with the one of a record. -/
theorem clMatch_spec {y x : Bytes} (hy : 0 ∉ y) (hx : 0 ∉ x) (stop rest : Bytes)
    (hstop : stop.headD 0 = 0) :
    let r := Stdy.clMatch (y ++ stop) (x ++ rest) x.length
    (Related y x ∧ (r.1.headD 0 = 0 ∨ r.2.2 = 0)) ∨
      (Before y x ∧ r.1.headD 0 ≠ 0 ∧ r.2.2 ≠ 0 ∧ r.1.headD 0 < r.2.1.headD 0) ∨
      (Before x y ∧ r.1.headD 0 ≠ 0 ∧ r.2.2 ≠ 0 ∧ ¬ r.1.headD 0 < r.2.1.headD 0) := by
  induction y generalizing x with
  | nil =>
      refine .inl ⟨.inl List.nil_prefix, ?_⟩
      cases x with
      | nil => exact .inr rfl
      | cons b x =>
          rw [List.nil_append, List.length_cons, Stdy.clMatch, if_pos hstop]
          exact .inl hstop
  | cons a y ih =>
      cases x with
      | nil => exact .inl ⟨.inr List.nil_prefix, .inr rfl⟩
      | cons b x =>
          simp only [List.mem_cons, not_or] at hy hx
          have ha : ((a :: y) ++ stop).headD 0 ≠ 0 := Ne.symm hy.1
          rw [List.length_cons, Stdy.clMatch, if_neg ha]
          rcases lt_trichotomy a b with hlt | rfl | hgt
          · have hne : ((a :: y) ++ stop).headD 0 ≠ ((b :: x) ++ rest).headD 0 := hlt.ne
            rw [if_pos hne]
            exact .inr (.inl ⟨.here hlt, ha, Nat.succ_ne_zero _, hlt⟩)
          · rw [if_neg (by simp)]
            exact (ih hy.2 hx.2).imp (fun h => ⟨related_cons.mpr h.1, h.2⟩)
              (fun h => h.imp (fun h => ⟨.there h.1, h.2⟩) fun h => ⟨.there h.1, h.2⟩)
          · have hne : ((a :: y) ++ stop).headD 0 ≠ ((b :: x) ++ rest).headD 0 := hgt.ne'
            rw [if_pos hne]
            exact .inr (.inr ⟨.here hgt, ha, Nat.succ_ne_zero _, hgt.le.not_gt⟩)

theorem clMatch_related {y x : Bytes} (hy : 0 ∉ y) (hx : 0 ∉ x) {stop : Bytes} (rest : Bytes)
    (hstop : stop.headD 0 = 0) :
    ((Stdy.clMatch (y ++ stop) (x ++ rest) x.length).1.headD 0 = 0 ∨
      (Stdy.clMatch (y ++ stop) (x ++ rest) x.length).2.2 = 0) ↔ Related y x := by
  rcases clMatch_spec hy hx stop rest hstop with ⟨h, hm⟩ | ⟨h, h1, h2, -⟩ | ⟨h, h1, h2, -⟩
  · exact iff_of_true hm h
  · exact iff_of_false (not_or.mpr ⟨h1, h2⟩) (not_related_of_before h)
  · exact iff_of_false (not_or.mpr ⟨h1, h2⟩) fun hr => not_related_of_before h hr.symm

theorem clMatch_before {y x : Bytes} (hy : 0 ∉ y) (hx : 0 ∉ x) {stop : Bytes} (rest : Bytes)
    (hstop : stop.headD 0 = 0) (hb : Before y x) :
    let r := Stdy.clMatch (y ++ stop) (x ++ rest) x.length
    r.2.2 ≠ 0 ∧ r.1.headD 0 < r.2.1.headD 0 := by
  rcases clMatch_spec hy hx stop rest hstop with ⟨h, -⟩ | ⟨-, h⟩ | ⟨h, -⟩
  · exact absurd h (not_related_of_before hb)
  · exact h.2
  · exact absurd h hb.asymm

theorem clMatch_after {y x : Bytes} (hy : 0 ∉ y) (hx : 0 ∉ x) {stop : Bytes} (rest : Bytes)
    (hstop : stop.headD 0 = 0) (hb : Before x y) :
    let r := Stdy.clMatch (y ++ stop) (x ++ rest) x.length
    ¬ (r.2.2 ≠ 0 ∧ (r.1.headD 0 = 0 ∨ r.1.headD 0 < r.2.1.headD 0)) := by
  rcases clMatch_spec hy hx stop rest hstop with ⟨h, -⟩ | ⟨h, -⟩ | ⟨-, h1, -, h2⟩
  · exact absurd h.symm (not_related_of_before hb)
  · exact absurd h hb.asymm
  · exact fun hc => not_or.mpr ⟨h1, h2⟩ hc.2

end Sj3
