import Sj3.Model.Reply

/-! # The reply to the conversion of a reading

What `sj3_ikkatu_henkan` makes of a well-formed reply that arrives in any pieces: the
clauses that fit into the destination, and a stream that is left at the end of the reply. -/

namespace Sj3

open ChunkedReader Memory

namespace In

variable {r : In} {s : Bytes}

theorem getByte_holds {c : UInt8} (h : Holds r (c :: s)) :
    ∃ r', getByte r = (c, r') ∧ Holds r' s := by
  obtain ⟨r', hnext, hr'⟩ := h.next
  exact ⟨r', by rw [getByte, hnext]; rfl, hr'⟩

theorem turns_holds (h : Holds r s) : r.turns = s.length + 1 := by
  rw [turns, h.stream_eq]

theorem getInt_holds {i0 i1 i2 i3 : UInt8} (h : Holds r (i0 :: i1 :: i2 :: i3 :: s)) :
    ∃ r', getInt r = (Sj3.getInt i0 i1 i2 i3, r') ∧ Holds r' s := by
  obtain ⟨r0, h0, hr0⟩ := getByte_holds h
  obtain ⟨r1, h1, hr1⟩ := getByte_holds hr0
  obtain ⟨r2, h2, hr2⟩ := getByte_holds hr1
  obtain ⟨r3, h3, hr3⟩ := getByte_holds hr2
  exact ⟨r3, by simp only [getInt, h0, h1, h2, h3], hr3⟩

theorem getNdata_holds (m : Mem) (p : ℕ) (cs : Bytes) (h : Holds r (cs ++ s)) :
    ∃ r', getNdata m p cs.length r = (write m p cs, r') ∧ Holds r' s := by
  induction cs generalizing m p r with
  | nil => exact ⟨r, rfl, h⟩
  | cons c cs ih =>
      obtain ⟨r₁, hbyte, hr₁⟩ := getByte_holds h
      obtain ⟨r', hrest, hr'⟩ := ih (Function.update m p c) (p + 1) hr₁
      refine ⟨r', ?_, hr'⟩
      rw [List.length_cons, getNdata]
      simp only [hbyte]
      exact hrest

theorem skipNdata_holds (cs : Bytes) (h : Holds r (cs ++ s)) :
    Holds (skipNdata cs.length r) s := by
  induction cs generalizing r with
  | nil => exact h
  | cons c cs ih =>
      obtain ⟨r₁, hbyte, hr₁⟩ := getByte_holds h
      rw [List.length_cons, skipNdata, hbyte]
      exact ih hr₁

theorem skipString_holds {n : ℕ} {cs : Bytes} (hcs : 0 ∉ cs) (h : Holds r (cs ++ 0 :: s))
    (hn : cs.length < n) : Holds (skipString n r) s := by
  induction cs generalizing n r with
  | nil =>
      obtain ⟨r₁, hbyte, hr₁⟩ := getByte_holds h
      cases n with
      | zero => cases hn
      | succ n =>
          rw [skipString, hbyte]
          exact hr₁
  | cons c cs ih =>
      obtain ⟨r₁, hbyte, hr₁⟩ := getByte_holds h
      rw [List.mem_cons, not_or] at hcs
      cases n with
      | zero => cases hn
      | succ n =>
          rw [skipString, hbyte]
          exact (if_pos (Ne.symm hcs.1)).symm ▸ ih hcs.2 hr₁ (Nat.lt_of_succ_lt_succ hn)

end In

/-! ## Well-formed replies -/

/-- What the reply says about one clause. -/
structure IkkatuClause where
  len : UInt8
  stdy : Bytes
  text : Bytes
  deriving DecidableEq, Repr

namespace IkkatuClause

structure WellFormed (stysiz : ℕ) (e : IkkatuClause) : Prop where
  len_ne_zero : e.len ≠ 0
  length_stdy : e.stdy.length = stysiz
  zero_notMem : 0 ∉ e.text

def bytes (e : IkkatuClause) : Bytes := e.len :: (e.stdy ++ (e.text ++ [0]))

theorem length_bytes (e : IkkatuClause) :
    e.bytes.length = 1 + e.stdy.length + e.text.length + 1 := by
  simp only [bytes, List.length_cons, List.length_append, List.length_nil]
  omega

end IkkatuClause

def clauseBytes (es : List IkkatuClause) : Bytes := es.flatMap IkkatuClause.bytes

@[simp] theorem clauseBytes_cons (e : IkkatuClause) (es : List IkkatuClause) :
    clauseBytes (e :: es) = e.bytes ++ clauseBytes es := rfl

theorem length_le_clauseBytes (es : List IkkatuClause) : es.length ≤ (clauseBytes es).length := by
  induction es with
  | nil => rfl
  | cons e es ih =>
      rw [clauseBytes_cons, List.length_append, IkkatuClause.length_bytes, List.length_cons]
      omega

/-- The reply without an error: two numbers, the clauses and a zero byte. -/
def ikkatuBytes (n0 n1 n2 n3 : UInt8) (es : List IkkatuClause) : Bytes :=
  0 :: 0 :: 0 :: 0 :: n0 :: n1 :: n2 :: n3 :: (clauseBytes es ++ [0])

/-- The first `k` clauses and a zero byte fit into `dstsiz` bytes, and no more clauses do. -/
structure MostFit (dstsiz : ℤ) (es : List IkkatuClause) (k : ℕ) : Prop where
  le : k ≤ es.length
  fits : ((clauseBytes (es.take k)).length : ℤ) + 1 ≤ dstsiz
  most : ∀ j, k < j → j ≤ es.length → dstsiz < (clauseBytes (es.take j)).length + 1

theorem MostFit.nil {dstsiz : ℤ} (h : 1 ≤ dstsiz) : MostFit dstsiz [] 0 :=
  ⟨Nat.le_refl 0, by simpa [clauseBytes] using h,
    fun j hj hle => absurd (hj.trans_le hle) (Nat.lt_irrefl 0)⟩

/-- Not even the first clause fits. -/
theorem MostFit.zero {dstsiz : ℤ} {e : IkkatuClause} (es : List IkkatuClause) (h : 1 ≤ dstsiz)
    (hlong : dstsiz < e.bytes.length + 1) : MostFit dstsiz (e :: es) 0 := by
  refine ⟨Nat.zero_le _, by simpa [clauseBytes] using h, ?_⟩
  intro j hj _
  cases j with
  | zero => cases hj
  | succ j =>
      rw [List.take_succ_cons, clauseBytes_cons, List.length_append]
      omega

theorem MostFit.succ {dstsiz : ℤ} {e : IkkatuClause} {es : List IkkatuClause} {k : ℕ}
    (h : MostFit (dstsiz - e.bytes.length) es k) : MostFit dstsiz (e :: es) (k + 1) := by
  constructor
  · exact Nat.succ_le_succ h.le
  · have := h.fits
    rw [List.take_succ_cons, clauseBytes_cons, List.length_append]
    omega
  · intro j hj hle
    cases j with
    | zero => cases hj
    | succ j =>
        have := h.most j (Nat.lt_of_succ_lt_succ hj) (Nat.le_of_succ_le_succ hle)
        rw [List.take_succ_cons, clauseBytes_cons, List.length_append]
        omega

/-! ## One clause -/

/-- The text of a clause with at least two bytes of room: all of it is copied if it fits,
and otherwise as much of it as leaves two bytes. -/
theorem ikkatuText_holds (m : Mem) (dst : ℕ) (dstsiz : ℤ) (hsiz : 2 ≤ dstsiz) {n : ℕ} {r : In}
    {t s : Bytes} (ht : 0 ∉ t) (h : Holds r (t ++ 0 :: s)) (hn : t.length < n) :
    (t.length + 2 ≤ dstsiz ∧ ∃ r', Holds r' s ∧
      ikkatuText m dst dstsiz n r = .done (write m dst t) (dst + t.length) (dstsiz - t.length) r') ∨
    (dstsiz < t.length + 2 ∧ ∃ u c v r', t = u ++ c :: v ∧ (u.length : ℤ) + 2 ≤ dstsiz ∧
      Holds r' (v ++ 0 :: s) ∧ ikkatuText m dst dstsiz n r = .error2 (write m dst u) r') := by
  induction t generalizing m dst dstsiz n r with
  | nil =>
      obtain ⟨r', hbyte, hr'⟩ := In.getByte_holds h
      cases n with
      | zero => cases hn
      | succ n =>
          refine .inl ⟨by simpa using hsiz, r', hr', ?_⟩
          rw [ikkatuText]
          simp only [hbyte, if_pos, write, List.length_nil, Nat.add_zero, Nat.cast_zero, sub_zero]
  | cons c t ih =>
      obtain ⟨r₁, hbyte, hr₁⟩ := In.getByte_holds h
      rw [List.mem_cons, not_or] at ht
      cases n with
      | zero => cases hn
      | succ n =>
          have hlen : ((c :: t).length : ℤ) = t.length + 1 := by simp
          rw [ikkatuText]
          simp only [hbyte, if_neg (Ne.symm ht.1)]
          by_cases hfull : dstsiz < 3
          · refine .inr ⟨by omega, [], c, t, r₁, rfl, by simpa using hsiz, hr₁, ?_⟩
            rw [if_pos hfull]
            rfl
          · rw [if_neg hfull]
            rcases ih (Function.update m dst c) (dst + 1) (dstsiz - 1) (by omega) ht.2 hr₁
              (Nat.lt_of_succ_lt_succ hn) with
              ⟨hfit, r', hr', heq⟩ | ⟨hno, u, a, v, r', rfl, hu, hr', heq⟩
            · refine .inl ⟨by omega, r', hr', ?_⟩
              rw [heq, write, hlen, List.length_cons, Nat.add_assoc, Nat.add_comm 1,
                sub_sub, add_comm (1 : ℤ)]
            · refine .inr ⟨by omega, c :: u, a, v, r', rfl, ?_, hr', heq⟩
              rw [List.length_cons]
              push_cast
              omega

/-- The rest of a reply is read to its end. -/
theorem ikkatuError2_holds {stysiz : ℕ} {n : ℕ} {r : In} {v s : Bytes} {es : List IkkatuClause}
    (hv : 0 ∉ v) (hes : ∀ e ∈ es, e.WellFormed stysiz)
    (h : Holds r (v ++ 0 :: (clauseBytes es ++ 0 :: s))) (hn : es.length < n) :
    Holds (ikkatuError2 stysiz n r) s := by
  induction es generalizing n r v with
  | nil =>
      cases n with
      | zero => cases hn
      | succ n =>
          have hskip := In.skipString_holds hv h (n := r.turns) (by
            rw [In.turns_holds h, List.length_append]
            omega)
          obtain ⟨r', hbyte, hr'⟩ := In.getByte_holds hskip
          rw [ikkatuError2, hbyte]
          exact hr'
  | cons e es ih =>
      cases n with
      | zero => cases hn
      | succ n =>
          have he := hes e List.mem_cons_self
          have hskip := In.skipString_holds hv h (n := r.turns) (by
            rw [In.turns_holds h, List.length_append]
            omega)
          have hentry : clauseBytes (e :: es) ++ 0 :: s =
              e.len :: (e.stdy ++ (e.text ++ 0 :: (clauseBytes es ++ 0 :: s))) := by
            simp [IkkatuClause.bytes]
          rw [hentry] at hskip
          obtain ⟨r₁, hbyte, hr₁⟩ := In.getByte_holds hskip
          have hstdy := In.skipNdata_holds e.stdy hr₁
          rw [he.length_stdy] at hstdy
          rw [ikkatuError2, hbyte]
          simp only [if_pos he.len_ne_zero]
          exact ih he.zero_notMem (fun t ht => hes t (List.mem_cons_of_mem _ ht)) hstdy
            (Nat.lt_of_succ_lt_succ hn)

/-! ## The whole reply -/

/-- `bs` is stored from `dst` on, and only the `dstsiz` bytes there are written. -/
structure PutsBytes (m : Mem) (dst : ℕ) (dstsiz : ℤ) (bs : Bytes) (m' : Mem) : Prop where
  stored : cells m' dst bs.length = bs
  outside : ∀ i : ℕ, i < dst ∨ dst + dstsiz ≤ i → m' i = m i

/-- Whatever was written into the destination, a zero byte is put at its front. -/
theorem putsBytes_zero (m : Mem) (dst : ℕ) {dstsiz : ℤ} (bs : Bytes) (hpos : 1 ≤ dstsiz)
    (h : (bs.length : ℤ) ≤ dstsiz) :
    PutsBytes m dst dstsiz [0] (Function.update (write m dst bs) dst 0) := by
  constructor
  · rw [List.length_singleton, cells, cells, Function.update_self]
  · intro i hi
    rw [Function.update_of_ne (by omega)]
    rcases hi with hi | hi
    · exact write_below m bs hi
    · exact write_above m bs (by omega)

/-- One clause in front of what is stored behind it. -/
theorem PutsBytes.cons {m m' : Mem} {dst : ℕ} {dstsiz : ℤ} {cs bs : Bytes}
    (h : PutsBytes (write m dst cs) (dst + cs.length) (dstsiz - cs.length) bs m')
    (hfit : (cs.length : ℤ) ≤ dstsiz) : PutsBytes m dst dstsiz (cs ++ bs) m' := by
  constructor
  · have hfront : cells m' dst cs.length = cs :=
      (cells_congr fun i _ hi => h.outside i (.inl hi)).trans (cells_write m dst cs)
    rw [List.length_append, cells_add, hfront, h.stored]
  · intro i hi
    rcases hi with hi | hi
    · rw [h.outside i (.inl (by omega)), write_below m cs hi]
    · rw [h.outside i (.inr (by push_cast; omega)), write_above m cs (by omega)]

def lenSum (es : List IkkatuClause) : ℤ := (es.map fun e => (e.len.toNat : ℤ)).sum

theorem ikkatuLoop_holds {stysiz : ℕ} (m : Mem) (dst : ℕ) (dstsiz : ℤ) (result : ℤ) {n : ℕ}
    {r : In} {s : Bytes} {es : List IkkatuClause} (hsiz : 1 ≤ dstsiz)
    (hes : ∀ e ∈ es, e.WellFormed stysiz) (h : Holds r (clauseBytes es ++ 0 :: s))
    (hn : es.length < n) :
    ∃ k m' r', ikkatuLoop stysiz m dst dstsiz result n r = (result + lenSum (es.take k), m', r') ∧
      Holds r' s ∧ MostFit dstsiz es k ∧
      PutsBytes m dst dstsiz (clauseBytes (es.take k) ++ [0]) m' := by
  induction es generalizing m dst dstsiz result n r with
  | nil =>
      obtain ⟨r', hbyte, hr'⟩ := In.getByte_holds h
      cases n with
      | zero => cases hn
      | succ n =>
          refine ⟨0, _, r', ?_, hr', MostFit.nil hsiz,
            putsBytes_zero m dst [] hsiz (by simp; omega)⟩
          rw [ikkatuLoop]
          simp only [hbyte, if_pos]
          simp [lenSum, write]
  | cons e es ih =>
      have he := hes e List.mem_cons_self
      have hrest : ∀ t ∈ es, t.WellFormed stysiz := fun t ht => hes t (List.mem_cons_of_mem _ ht)
      have hentry : clauseBytes (e :: es) ++ 0 :: s =
          e.len :: (e.stdy ++ (e.text ++ 0 :: (clauseBytes es ++ 0 :: s))) := by
        simp [IkkatuClause.bytes]
      have hlen := e.length_bytes
      rw [he.length_stdy] at hlen
      have hcount : ∀ {r : In} {v : Bytes}, Holds r (v ++ 0 :: (clauseBytes es ++ 0 :: s)) →
          es.length < r.turns := by
        intro r v hr
        have := length_le_clauseBytes es
        rw [In.turns_holds hr]
        simp only [List.length_append, List.length_cons]
        omega
      rw [hentry] at h
      obtain ⟨r₁, hbyte, hr₁⟩ := In.getByte_holds h
      cases n with
      | zero => cases hn
      | succ n =>
          rw [ikkatuLoop]
          simp only [hbyte, if_neg he.len_ne_zero]
          by_cases hshort : dstsiz < 1 + stysiz + 1 + 1
          · -- there is no room for the record of the clause
            rw [if_pos hshort]
            have hskip := In.skipNdata_holds e.stdy hr₁
            rw [he.length_stdy] at hskip
            refine ⟨0, _, _, by simp [lenSum]; rfl, ikkatuError2_holds he.zero_notMem hrest hskip
              (hcount hskip), MostFit.zero es hsiz (by omega), ?_⟩
            exact putsBytes_zero m dst [] hsiz (by simp; omega)
          · rw [if_neg hshort]
            obtain ⟨r₂, hdata, hr₂⟩ :=
              In.getNdata_holds (Function.update m dst e.len) (dst + 1) e.stdy hr₁
            rw [he.length_stdy] at hdata
            have hturns : e.text.length < r₂.turns := by
              rw [In.turns_holds hr₂, List.length_append]
              omega
            have hhead : write (Function.update m dst e.len) (dst + 1) e.stdy =
                write m dst (e.len :: e.stdy) := rfl
            have hdst : dst + 1 + stysiz = dst + (e.len :: e.stdy).length := by
              rw [List.length_cons, he.length_stdy]
              omega
            simp only [hdata]
            rcases ikkatuText_holds (write m dst (e.len :: e.stdy)) (dst + 1 + stysiz)
              (dstsiz - (stysiz + 1)) (by omega) he.zero_notMem hr₂ hturns with
              ⟨hfit, r₃, hr₃, heq⟩ | ⟨hno, u, c, v, r₃, htext, hu, hr₃, heq⟩
            · rw [hhead, heq]
              have hmem : Function.update (write (write m dst (e.len :: e.stdy))
                  (dst + 1 + stysiz) e.text) (dst + 1 + stysiz + e.text.length) 0 =
                  write m dst e.bytes := by
                have hcat : e.bytes = (e.len :: e.stdy) ++ (e.text ++ [0]) := rfl
                rw [hcat, write_append, write_append, ← hdst]
                rfl
              have hpos : dst + 1 + stysiz + e.text.length + 1 = dst + e.bytes.length := by omega
              have hroom : dstsiz - (stysiz + 1) - e.text.length - 1 = dstsiz - e.bytes.length := by
                omega
              simp only [hmem, hpos, hroom]
              obtain ⟨k, m', r', hloop, hr', hk, hst⟩ := ih (write m dst e.bytes)
                (dst + e.bytes.length) (dstsiz - e.bytes.length) (result + e.len.toNat)
                (by omega) hrest hr₃ (Nat.lt_of_succ_lt_succ hn)
              refine ⟨k + 1, m', r', ?_, hr', hk.succ, ?_⟩
              · rw [hloop, List.take_succ_cons, lenSum, lenSum, List.map_cons, List.sum_cons,
                  add_assoc]
              · rw [List.take_succ_cons, clauseBytes_cons, List.append_assoc]
                exact hst.cons (by omega)
            · rw [hhead, heq]
              have hmem : write (write m dst (e.len :: e.stdy)) (dst + 1 + stysiz) u =
                  write m dst (e.len :: e.stdy ++ u) := by
                rw [hdst, write_append]
              have hv : 0 ∉ v := fun hv => he.zero_notMem (htext ▸ by simp [hv])
              refine ⟨0, _, _, by simp [lenSum]; rfl, ikkatuError2_holds hv hrest hr₃ (hcount hr₃),
                MostFit.zero es hsiz (by omega), ?_⟩
              rw [hmem]
              apply putsBytes_zero m dst _ hsiz
              simp only [List.length_append, List.length_cons, he.length_stdy]
              push_cast
              omega

/-- However a well-formed reply is cut into reads, the call stores the most clauses that fit
and a zero byte in the first `dstsiz` bytes of its destination, writes nothing else, and
leaves the input at what follows the reply. -/
theorem ikkatuReply_stores {stysiz : ℕ} {es : List IkkatuClause} {n0 n1 n2 n3 : UInt8}
    {reads : List Bytes} {s : Bytes} (m : Mem) (dst : ℕ) {dstsiz : ℤ} (hsiz : 1 ≤ dstsiz)
    (hes : ∀ e ∈ es, e.WellFormed stysiz) (hreads : ∀ piece ∈ reads, piece ≠ [])
    (hreply : reads.flatten = ikkatuBytes n0 n1 n2 n3 es ++ s) :
    let r := ikkatuReply stysiz m dst dstsiz reads
    Holds r.input s ∧ ∃ k, MostFit dstsiz es k ∧
      PutsBytes m dst dstsiz (clauseBytes (es.take k) ++ [0]) r.mem ∧
        r.ret = lenSum (es.take k) := by
  have hstart := holds_flatten hreads
  have hbytes : ikkatuBytes n0 n1 n2 n3 es ++ s =
      0 :: 0 :: 0 :: 0 :: n0 :: n1 :: n2 :: n3 :: (clauseBytes es ++ 0 :: s) := by
    simp [ikkatuBytes]
  rw [hreply, hbytes] at hstart
  obtain ⟨r₁, herr, hr₁⟩ := In.getInt_holds hstart
  obtain ⟨r₂, hint, hr₂⟩ := In.getInt_holds hr₁
  have hzero : Sj3.getInt 0 0 0 0 = 0 := by decide
  have hturns : es.length < r₂.turns := by
    have := length_le_clauseBytes es
    rw [In.turns_holds hr₂, List.length_append]
    omega
  obtain ⟨k, m', r', hloop, hr', hk, hst⟩ := ikkatuLoop_holds m dst dstsiz 0 hsiz hes hr₂ hturns
  have heq : ikkatuReply stysiz m dst dstsiz reads = ⟨lenSum (es.take k), 0, m', r'⟩ := by
    simp only [ikkatuReply, herr, hzero, hint, hloop, hr'.not_failed]
    simp
  rw [heq]
  exact ⟨hr', k, hk, hst, rfl⟩

/-- Two clauses with records of two bytes, the second of which does not fit. -/
def twoClauses : List IkkatuClause := [⟨3, [0, 7], [0x88, 0x9f]⟩, ⟨1, [0, 0], [0x41]⟩]

/-- The reply to them in three pieces, with the first byte of what follows in the last. -/
def twoClausesReads : List Bytes :=
  [[0, 0, 0], [0, 0, 0, 0, 4, 3, 0, 7, 0x88], [0x9f, 0, 1, 0, 0, 0x41, 0, 0, 9]]

theorem twoClauses_stores :
    let r := ikkatuReply 2 (fun _ => 0) 100 10 twoClausesReads
    Holds r.input [9] ∧ ∃ k, MostFit 10 twoClauses k ∧
      PutsBytes (fun _ => 0) 100 10 (clauseBytes (twoClauses.take k) ++ [0]) r.mem ∧
      r.ret = lenSum (twoClauses.take k) := by
  have hes : ∀ e ∈ twoClauses, e.WellFormed 2 := by
    intro e he
    rcases List.mem_pair.mp he with rfl | rfl
    · exact ⟨by decide, rfl, by decide⟩
    · exact ⟨by decide, rfl, by decide⟩
  exact @ikkatuReply_stores 2 twoClauses 0 0 0 4 twoClausesReads [9] _ 100 10 (by decide) hes
    (by decide) rfl

end Sj3
