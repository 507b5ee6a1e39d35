import Sj3.Model.Getkan
import Sj3.Verification.Request.Ikkatu
import Sj3.Verification.Text

/-! # The pieces of a converted reading

A reply is received where the result goes, and the texts are moved to its front. The texts
are never ahead of what is still to be read. -/

namespace Sj3

open ChunkedReader Memory

/-! ## Memory -/

theorem cells_cons {m : Mem} {p : ℕ} {c : UInt8} {cs : Bytes} {n : ℕ}
    (h : cells m p (n + 1) = c :: cs) : m p = c ∧ cells m (p + 1) n = cs :=
  List.cons.inj h

theorem cells_append {m : Mem} {p : ℕ} {a b : Bytes}
    (h : cells m p (a ++ b).length = a ++ b) :
    cells m p a.length = a ∧ cells m (p + a.length) b.length = b := by
  rw [List.length_append, cells_add] at h
  exact List.append_inj h (length_cells m p a.length)

theorem memStrlen_text {m : Mem} {p n : ℕ} {text : Bytes} (htext : 0 ∉ text)
    (hm : cells m p (text ++ [0]).length = text ++ [0]) (hn : text.length < n) :
    memStrlen m n p = some text.length := by
  induction text generalizing p n with
  | nil =>
      cases n with
      | zero => cases hn
      | succ n => rw [memStrlen, if_pos (cells_cons hm).1]; rfl
  | cons c text ih =>
      cases n with
      | zero => cases hn
      | succ n =>
          rw [List.mem_cons, not_or] at htext
          obtain ⟨hhead, htail⟩ := cells_cons hm
          rw [memStrlen, hhead, if_neg (Ne.symm htext.1),
            ih htext.2 htail (Nat.lt_of_succ_lt_succ hn)]
          rfl

/-- A text is moved down: no byte is written before it was read. -/
theorem copyText_text {m : Mem} {src knj n : ℕ} {text : Bytes} (htext : 0 ∉ text)
    (hm : cells m src (text ++ [0]).length = text ++ [0]) (hsrc : knj ≤ src)
    (hn : text.length < n) :
    copyText n m src knj = some (write m knj text, src + text.length, knj + text.length) := by
  induction text generalizing m src knj n with
  | nil =>
      cases n with
      | zero => cases hn
      | succ n => rw [copyText, if_pos (cells_cons hm).1]; rfl
  | cons c text ih =>
      cases n with
      | zero => cases hn
      | succ n =>
          rw [List.mem_cons, not_or] at htext
          obtain ⟨hhead, htail⟩ := cells_cons hm
          have hkeep : cells (Function.update m knj c) (src + 1) (text ++ [0]).length =
              text ++ [0] := by
            refine Eq.trans (cells_congr fun i hi _ => ?_) htail
            exact Function.update_of_ne (by omega) _ _
          rw [copyText, hhead, if_neg (Ne.symm htext.1),
            ih htext.2 hkeep (by omega) (Nat.lt_of_succ_lt_succ hn), write, List.length_cons,
            Nat.add_right_comm src, Nat.add_right_comm knj, Nat.add_assoc, Nat.add_assoc]

/-! ## The entries for clauses -/

/-- The entries for clauses, from where the reading and the text of the first one begin. -/
def bunsetus : ℕ → ℕ → List IkkatuClause → List Sj3Bunsetu
  | _, _, [] => []
  | yomi, knj, e :: es =>
      ⟨e.len.toNat, e.text.length, yomi, some knj, e.stdy⟩ ::
        bunsetus (yomi + e.len.toNat) (knj + e.text.length) es

def texts (es : List IkkatuClause) : Bytes := es.flatMap IkkatuClause.text

def lens (es : List IkkatuClause) : ℕ := (es.map fun e => e.len.toNat).sum

theorem getkanClauses_clauses {stysiz turns n src : ℕ} {s : GetkanState} {es : List IkkatuClause}
    (hes : ∀ e ∈ es, e.WellFormed stysiz)
    (hm : cells s.mem src (clauseBytes es ++ [0]).length = clauseBytes es ++ [0])
    (hsrc : s.knj ≤ src) (hturns : ∀ e ∈ es, e.text.length < turns) (hn : es.length < n) :
    getkanClauses stysiz turns n src s =
      some ⟨write s.mem s.knj (texts es ++ [0]), s.yomi + lens es, s.knj + (texts es).length,
        s.knjsiz - (texts es).length, s.bun ++ bunsetus s.yomi s.knj es⟩ := by
  induction es generalizing src s n with
  | nil =>
      cases n with
      | zero => cases hn
      | succ n =>
          rw [getkanClauses, if_pos (cells_cons hm).1]
          simp [texts, lens, bunsetus, write]
  | cons e es ih =>
      cases n with
      | zero => cases hn
      | succ n =>
          rw [List.forall_mem_cons] at hes hturns
          have hbytes : clauseBytes (e :: es) ++ [0] =
              e.len :: (e.stdy ++ (e.text ++ [0] ++ (clauseBytes es ++ [0]))) := by
            simp [IkkatuClause.bytes]
          rw [hbytes] at hm
          obtain ⟨hlen, hm⟩ := cells_cons hm
          obtain ⟨hstdy, hm⟩ := cells_append hm
          obtain ⟨htext, hm⟩ := cells_append hm
          rw [hes.1.length_stdy] at hstdy htext hm
          have hcopy := copyText_text hes.1.zero_notMem htext
            (show s.knj ≤ src + 1 + stysiz by omega) hturns.1
          have hkeep : cells (write s.mem s.knj e.text) (src + 1 + stysiz + e.text.length + 1)
              (clauseBytes es ++ [0]).length = clauseBytes es ++ [0] := by
            rw [List.length_append] at hm
            refine Eq.trans (cells_congr fun i hi _ => ?_) hm
            exact write_above _ _ (by omega)
          have hstrlen := memStrlen_text hes.1.zero_notMem htext hturns.1
          rw [getkanClauses, hlen, if_neg hes.1.len_ne_zero]
          simp only [hstrlen, hcopy, hstdy]
          rw [ih hes.2 hkeep (by simp only []; omega) hturns.2 (Nat.lt_of_succ_lt_succ hn)]
          have hwrite : write s.mem s.knj (texts (e :: es) ++ [0]) =
              write (write s.mem s.knj e.text) (s.knj + e.text.length) (texts es ++ [0]) := by
            rw [← write_append, texts, List.flatMap_cons, List.append_assoc]
            rfl
          have hcount : (texts (e :: es)).length = e.text.length + (texts es).length := by
            rw [texts, List.flatMap_cons, List.length_append]
            rfl
          have hlens : lens (e :: es) = e.len.toNat + lens es := rfl
          rw [hwrite, hcount, hlens, bunsetus, List.append_assoc, Nat.add_assoc, Nat.add_assoc,
            Nat.cast_add, sub_sub]
          rfl

theorem lenSum_eq (es : List IkkatuClause) : lenSum es = lens es := by
  induction es with
  | nil => rfl
  | cons e es ih =>
      have hlens : lens (e :: es) = e.len.toNat + lens es := rfl
      rw [lenSum, List.map_cons, List.sum_cons, ← lenSum, ih, hlens, Nat.cast_add]

theorem lens_append (es es' : List IkkatuClause) : lens (es ++ es') = lens es + lens es' := by
  rw [lens, List.map_append, List.sum_append, lens, lens]

theorem texts_append (es es' : List IkkatuClause) : texts (es ++ es') = texts es ++ texts es' :=
  List.flatMap_append

theorem bunsetus_append (yomi knj : ℕ) (es es' : List IkkatuClause) :
    bunsetus yomi knj (es ++ es') =
      bunsetus yomi knj es ++ bunsetus (yomi + lens es) (knj + (texts es).length) es' := by
  induction es generalizing yomi knj with
  | nil => rfl
  | cons e es ih =>
      have hlens : lens (e :: es) = e.len.toNat + lens es := rfl
      have htexts : texts (e :: es) = e.text ++ texts es := rfl
      rw [List.cons_append, bunsetus, ih, bunsetus, List.cons_append, hlens, htexts,
        List.length_append, Nat.add_assoc, Nat.add_assoc]

theorem texts_le_clauseBytes (es : List IkkatuClause) :
    (texts es).length ≤ (clauseBytes es).length := by
  induction es with
  | nil => exact Nat.le_refl 0
  | cons e es ih =>
      have htexts : texts (e :: es) = e.text ++ texts es := rfl
      rw [htexts, clauseBytes_cons, List.length_append, List.length_append, e.length_bytes]
      omega

theorem text_lt_clauseBytes {es : List IkkatuClause} {e : IkkatuClause} (he : e ∈ es) :
    e.text.length < (clauseBytes es).length := by
  induction es with
  | nil => cases he
  | cons a es ih =>
      rw [clauseBytes_cons, List.length_append, a.length_bytes]
      rcases List.mem_cons.mp he with rfl | he
      · omega
      · have := ih he
        omega

/-! ## The server -/

/-- The clauses cut a reading into pieces with the property `Q`; a rest may be left. -/
def Cuts (Q : Bytes → IkkatuClause → Prop) : Bytes → List IkkatuClause → Prop
  | _, [] => True
  | reading, e :: es =>
      e.len.toNat ≤ reading.length ∧ Q (reading.take e.len.toNat) e ∧
        Cuts Q (reading.drop e.len.toNat) es

theorem Cuts.append {Q : Bytes → IkkatuClause → Prop} {reading : Bytes}
    {es es' : List IkkatuClause} (h : Cuts Q reading es)
    (h' : Cuts Q (reading.drop (lens es)) es') :
    Cuts Q reading (es ++ es') := by
  induction es generalizing reading with
  | nil => exact h'
  | cons e es ih =>
      have hlens : lens (e :: es) = e.len.toNat + lens es := rfl
      rw [hlens, ← List.drop_drop] at h'
      exact ⟨h.1, h.2.1, ih h.2.2 h'⟩

theorem Cuts.take {Q : Bytes → IkkatuClause → Prop} {reading : Bytes} {es : List IkkatuClause}
    (h : Cuts Q reading es) (k : ℕ) : Cuts Q reading (es.take k) := by
  induction es generalizing reading k with
  | nil => rw [List.take_nil]; exact h
  | cons e es ih =>
      cases k with
      | zero => exact trivial
      | succ k => exact ⟨h.1, h.2.1, ih h.2.2 k⟩

theorem Cuts.lens_le {Q : Bytes → IkkatuClause → Prop} {reading : Bytes} {es : List IkkatuClause}
    (h : Cuts Q reading es) : lens es ≤ reading.length := by
  induction es generalizing reading with
  | nil => exact Nat.zero_le _
  | cons e es ih =>
      have hlens : lens (e :: es) = e.len.toNat + lens es := rfl
      have := ih h.2.2
      rw [List.length_drop] at this
      have := h.1
      omega

/-- Lengths that add up to no more than the reading cut it. -/
theorem cuts_of_lens_le {reading : Bytes} {es : List IkkatuClause} (h : lens es ≤ reading.length) :
    Cuts (fun _ _ => True) reading es := by
  induction es generalizing reading with
  | nil => exact trivial
  | cons e es ih =>
      have hlens : lens (e :: es) = e.len.toNat + lens es := rfl
      refine ⟨by omega, trivial, ih ?_⟩
      rw [List.length_drop]
      omega

/-- A server whose replies have no error, arrive in any pieces, and cut the reading sent. -/
def Serves (stysiz : ℕ) (Q : Bytes → IkkatuClause → Prop) (server : IkkatuServer) : Prop :=
  ∀ i reading, ∃ (es : List IkkatuClause) (n0 n1 n2 n3 : UInt8),
    (∀ e ∈ es, e.WellFormed stysiz) ∧ Cuts Q reading es ∧
      (∀ piece ∈ server i reading, piece ≠ []) ∧
      (server i reading).flatten = ikkatuBytes n0 n1 n2 n3 es

theorem lens_pos {stysiz : ℕ} {es : List IkkatuClause} (hes : ∀ e ∈ es, e.WellFormed stysiz)
    (h : es ≠ []) : 0 < lens es := by
  obtain ⟨e, es, rfl⟩ := List.exists_cons_of_ne_nil h
  have hlens : lens (e :: es) = e.len.toNat + lens es := rfl
  have hne := (hes e List.mem_cons_self).len_ne_zero
  have : e.len.toNat ≠ 0 := fun hzero => hne (UInt8.toNat_inj.mp hzero)
  omega

/-! ## The requests -/

/-- What the loop leaves in the memory: the texts at `knj` with a zero byte behind them, and
nothing changed outside of the buffer. -/
structure LeavesTexts (m : Mem) (knj : ℕ) (knjsiz : ℤ) (bs : Bytes) (m' : Mem) : Prop where
  fits : (bs.length : ℤ) + 1 ≤ knjsiz
  text : cells m' knj bs.length = bs
  outside : ∀ i : ℕ, i < knj ∨ knj + knjsiz ≤ i → m' i = m i

/-- The state after clauses were taken, with the memory `m`. -/
def GetkanState.take (s : GetkanState) (es : List IkkatuClause) (m : Mem) : GetkanState :=
  ⟨m, s.yomi + lens es, s.knj + (texts es).length, s.knjsiz - (texts es).length,
    s.bun ++ bunsetus s.yomi s.knj es⟩

theorem GetkanState.take_nil (s : GetkanState) (m : Mem) : s.take [] m = { s with mem := m } := by
  simp [GetkanState.take, lens, texts, bunsetus]

theorem GetkanState.take_take (s : GetkanState) (es es' : List IkkatuClause) (m m' : Mem) :
    (s.take es m).take es' m' = s.take (es ++ es') m' := by
  simp only [GetkanState.take, lens_append, texts_append, bunsetus_append, List.length_append,
    Nat.cast_add, Nat.add_assoc, List.append_assoc, sub_sub]

/-- A further text behind one that is left. -/
theorem LeavesTexts.append {m m' m'' : Mem} {knj : ℕ} {knjsiz : ℤ} {bs bs' : Bytes}
    (h : LeavesTexts m knj knjsiz bs m')
    (h' : LeavesTexts m' (knj + bs.length) (knjsiz - bs.length) bs' m'') :
    LeavesTexts m knj knjsiz (bs ++ bs') m'' := by
  refine ⟨?_, ?_, fun i hi => ?_⟩
  · have := h'.fits
    rw [List.length_append, Nat.cast_add]
    omega
  · have hfront : cells m'' knj bs.length = bs :=
      (cells_congr fun i _ hi => h'.outside i (.inl hi)).trans h.text
    rw [List.length_append, cells_add, hfront, h'.text]
  · rw [h'.outside i (by omega), h.outside i (by omega)]

/-- A text and a zero byte written into the buffer. -/
theorem leavesTexts_write {m m' : Mem} {knj : ℕ} {knjsiz : ℤ} {bs : Bytes}
    (hfit : (bs.length : ℤ) + 1 ≤ knjsiz)
    (hout : ∀ i : ℕ, i < knj ∨ knj + knjsiz ≤ i → m' i = m i) :
    LeavesTexts m knj knjsiz bs (write m' knj (bs ++ [0])) ∧
      write m' knj (bs ++ [0]) (knj + bs.length) = 0 := by
  have hstored := cells_append (cells_write m' knj (bs ++ [0]))
  refine ⟨⟨hfit, hstored.1, fun i hi => ?_⟩, (cells_cons hstored.2).1⟩
  rw [← hout i hi]
  rcases hi with hi | hi
  · exact write_below m' _ hi
  · refine write_above m' _ ?_
    rw [List.length_append, List.length_singleton]
    omega

section Requests

variable {stysiz : ℕ} {Q : Bytes → IkkatuClause → Prop} {server : IkkatuServer}
  (hserver : Serves stysiz Q server) (yomi : Bytes) {turns : ℕ}
include hserver

/-- What a request for a reading stores. -/
theorem exists_taken (i : ℕ) (reading : Bytes) (m : Mem) (knj : ℕ) {knjsiz : ℤ}
    (hsiz : 1 ≤ knjsiz) :
    ∃ taken r, ikkatuReply stysiz m knj knjsiz (server i reading) = r ∧ r.ret = lens taken ∧
      (∀ e ∈ taken, e.WellFormed stysiz) ∧ Cuts Q reading taken ∧
      ((clauseBytes taken).length : ℤ) + 1 ≤ knjsiz ∧
      PutsBytes m knj knjsiz (clauseBytes taken ++ [0]) r.mem := by
  obtain ⟨es, n0, n1, n2, n3, hes, hcuts, hreads, hreply⟩ := hserver i reading
  obtain ⟨-, k, hfit, hput, hret⟩ := ikkatuReply_stores m knj hsiz hes hreads
    (show _ = _ ++ [] by rw [hreply, List.append_nil])
  exact ⟨es.take k, _, rfl, hret.trans (lenSum_eq _), fun e he => hes e (List.mem_of_mem_take he),
    hcuts.take k, hfit.fits, hput⟩

/-- One request: as many clauses as fit are taken, and the loop ends if there is none. -/
theorem getkanLoop_request (n i : ℕ) {s : GetkanState} (hsiz : 1 ≤ s.knjsiz)
    (hturns : s.knjsiz < turns) (hyomi : s.yomi < sstrlen yomi) :
    ∃ es m, (∀ e ∈ es, e.WellFormed stysiz) ∧ Cuts Q ((cstr yomi).drop s.yomi) es ∧
      LeavesTexts s.mem s.knj s.knjsiz (texts es) m ∧ m (s.knj + (texts es).length) = 0 ∧
      getkanLoop stysiz turns server yomi (n + 1) i s =
        if es = [] then some (.done (s.take es m))
        else getkanLoop stysiz turns server yomi n (i + 1) (s.take es m) := by
  have hhead : ¬ (yomi.drop s.yomi).headD 0 = 0 := by
    rw [headD_drop_eq_zero (Nat.le_of_lt hyomi)]
    omega
  obtain ⟨taken, r, hr, hret, hes, hcuts, hle, hput⟩ :=
    exists_taken hserver i (cstr (yomi.drop s.yomi)) s.mem s.knj hsiz
  rw [cstr_drop (Nat.le_of_lt hyomi)] at hcuts
  rw [getkanLoop, if_neg hhead]
  simp only [hr, hret]
  rw [if_neg (by omega)]
  have hpos := lens_pos hes
  have htexts := texts_le_clauseBytes taken
  by_cases hnone : taken = []
  · -- nothing was converted, and the reply is a zero byte
    subst hnone
    have hzero := (cells_cons hput.stored).1
    refine ⟨[], r.mem, hes, trivial, ⟨by simpa [texts] using hsiz, rfl, hput.outside⟩, hzero, ?_⟩
    rw [if_pos rfl, if_pos (by rfl), GetkanState.take_nil]
  · have hgo := hpos hnone
    have hmove := @getkanClauses_clauses stysiz turns turns s.knj { s with mem := r.mem } taken hes
      hput.stored (Nat.le_refl _)
      (fun e he => by have := text_lt_clauseBytes he; omega)
      (by have := length_le_clauseBytes taken; omega)
    obtain ⟨hleaves, hzero⟩ :=
      @leavesTexts_write s.mem r.mem s.knj s.knjsiz (texts taken) (by omega) hput.outside
    refine ⟨taken, _, hes, hcuts, hleaves, hzero, ?_⟩
    rw [if_neg hnone, if_neg (by omega)]
    simp only [hmove]
    rfl

/-- All requests: the loop ends, and what it leaves was cut from the reading. -/
theorem getkanLoop_serves {n : ℕ} (i : ℕ) {s : GetkanState} (hsiz : 1 ≤ s.knjsiz)
    (hturns : s.knjsiz < turns) (hyomi : s.yomi ≤ sstrlen yomi) (hn : sstrlen yomi - s.yomi < n) :
    ∃ es m, (∀ e ∈ es, e.WellFormed stysiz) ∧ Cuts Q ((cstr yomi).drop s.yomi) es ∧
      getkanLoop stysiz turns server yomi n i s = some (.done (s.take es m)) ∧
      LeavesTexts s.mem s.knj s.knjsiz (texts es) m ∧
      (s.yomi < sstrlen yomi → m (s.knj + (texts es).length) = 0) ∧
      (s.yomi = sstrlen yomi → es = [] ∧ m = s.mem) := by
  induction n generalizing i s with
  | zero => cases hn
  | succ n ih =>
      by_cases hend : s.yomi < sstrlen yomi
      · obtain ⟨es, m, hes, hcuts, hleaves, hzero, hturn⟩ :=
          getkanLoop_request hserver yomi n i hsiz hturns hend
        by_cases hnone : es = []
        · exact ⟨es, m, hes, hcuts, by rw [hturn, if_pos hnone], hleaves, fun _ => hzero, by omega⟩
        · have hgo := lens_pos hes hnone
          have hlens := hcuts.lens_le
          rw [List.length_drop, ← sstrlen_eq_cstr] at hlens
          have hfits := hleaves.fits
          obtain ⟨es', m', hes', hcuts', hrest, hleaves', hzero', hlast⟩ :=
            @ih (i + 1) (s.take es m) (by simp only [GetkanState.take]; omega)
              (by simp only [GetkanState.take]; omega) (by simp only [GetkanState.take]; omega)
              (by simp only [GetkanState.take]; omega)
          rw [if_neg hnone, hrest, GetkanState.take_take] at hturn
          refine ⟨es ++ es', m', List.forall_mem_append.mpr ⟨hes, hes'⟩, ?_, hturn, ?_, fun _ => ?_,
            by omega⟩
          · exact hcuts.append (by rwa [List.drop_drop])
          · rw [texts_append]
            exact hleaves.append hleaves'
          · rw [texts_append, List.length_append, ← Nat.add_assoc]
            by_cases hmore : s.yomi + lens es < sstrlen yomi
            · exact hzero' hmore
            · obtain ⟨rfl, rfl⟩ := hlast (by simp only [GetkanState.take]; omega)
              exact hzero
      · have hhead : (yomi.drop s.yomi).headD 0 = 0 := (headD_drop_eq_zero hyomi).mpr (by omega)
        refine ⟨[], s.mem, fun e he => (by cases he), trivial, ?_,
          ⟨by simpa [texts] using hsiz, rfl, fun _ _ => rfl⟩, by omega, fun _ => ⟨rfl, rfl⟩⟩
        rw [getkanLoop, if_pos hhead, GetkanState.take_nil]

end Requests

/-! ## The pieces -/

namespace Sj3Bunsetu

/-- The piece of the reading that an entry is for. -/
def source (yomi : Bytes) (b : Sj3Bunsetu) : Bytes := readN b.srclen.toNat (yomi.drop b.srcstr)

/-- What it has become. -/
def result (m : Mem) (b : Sj3Bunsetu) : Bytes :=
  match b.deststr with
  | some p => cells m p b.destlen.toNat
  | none => []

end Sj3Bunsetu

/-- The entries are a partition of the reading `yomi` and of the text that is left in the buffer
of `knjsiz` bytes at `knj`; a rest that was not converted is the last one. -/
structure Partition (yomi : Bytes) (m : Mem) (knj : ℕ) (knjsiz : ℤ) (r : GetkanRet) : Prop where
  source : (r.bun.map (Sj3Bunsetu.source yomi)).flatten = cstr yomi
  result : ∃ text, (r.bun.map (Sj3Bunsetu.result r.mem)).flatten = text ∧ 0 ∉ text ∧
    cells r.mem knj (text.length + 1) = text ++ [0] ∧ (text.length : ℤ) + 1 ≤ knjsiz
  outside : ∀ i : ℕ, i < knj ∨ knj + knjsiz ≤ i → r.mem i = m i
  ret : r.ret = r.bun.length
  rest : ∃ conv rest, r.bun = conv ++ rest ∧ (∀ b ∈ conv, b.deststr.isSome) ∧
    (rest = [] ∨ ∃ b, rest = [b] ∧ b.source yomi ≠ [] ∧ b.deststr = none ∧ b.destlen = 0)

theorem bunsetus_source {Q : Bytes → IkkatuClause → Prop} {es : List IkkatuClause} {yomi : Bytes}
    {ofs : ℕ} (hofs : ofs ≤ sstrlen yomi) (knj : ℕ) (hcuts : Cuts Q ((cstr yomi).drop ofs) es) :
    ((bunsetus ofs knj es).map (Sj3Bunsetu.source yomi)).flatten =
      ((cstr yomi).drop ofs).take (lens es) := by
  induction es generalizing ofs knj with
  | nil => rfl
  | cons e es ih =>
      have hlens : lens (e :: es) = e.len.toNat + lens es := rfl
      have hlen := hcuts.1
      rw [List.length_drop, ← sstrlen_eq_cstr] at hlen
      have hrest : Cuts Q ((cstr yomi).drop (ofs + e.len.toNat)) es := by
        rw [← List.drop_drop]
        exact hcuts.2.2
      have hpiece : readN e.len.toNat (yomi.drop ofs) =
        ((cstr yomi).drop ofs).take e.len.toNat := by
        rw [readN_cstr (by rw [sstrlen_drop hofs]; exact hlen), cstr_drop hofs]
      rw [bunsetus, List.map_cons, List.flatten_cons, ih (by omega) _ hrest, hlens, List.take_add,
        List.drop_drop, ← hpiece]
      rfl

theorem bunsetus_result {es : List IkkatuClause} {m : Mem} (yomi knj : ℕ)
    (hm : cells m knj (texts es).length = texts es) :
    ((bunsetus yomi knj es).map (Sj3Bunsetu.result m)).flatten = texts es := by
  induction es generalizing yomi knj with
  | nil => rfl
  | cons e es ih =>
      have htexts : texts (e :: es) = e.text ++ texts es := rfl
      rw [htexts] at hm ⊢
      obtain ⟨htext, hrest⟩ := cells_append hm
      rw [bunsetus, List.map_cons, List.flatten_cons, ih _ _ hrest]
      exact congrArg (· ++ texts es) htext

theorem bunsetus_isSome (es : List IkkatuClause) (yomi knj : ℕ) :
    ∀ b ∈ bunsetus yomi knj es, b.deststr.isSome := by
  induction es generalizing yomi knj with
  | nil => exact fun b hb => by cases hb
  | cons e es ih => exact List.forall_mem_cons.mpr ⟨rfl, ih _ _⟩

theorem texts_zero_notMem {stysiz : ℕ} {es : List IkkatuClause}
    (hes : ∀ e ∈ es, e.WellFormed stysiz) : 0 ∉ texts es := by
  intro hzero
  obtain ⟨e, he, hmem⟩ := List.mem_flatMap.mp hzero
  exact (hes e he).zero_notMem hmem

/-- The entry for what is left of a reading from `ofs` on, if there is anything. -/
def restBunsetus (yomi : Bytes) (ofs : ℕ) : List Sj3Bunsetu :=
  if ofs < sstrlen yomi then
    [⟨sstrlen (yomi.drop ofs), 0, ofs, none, List.replicate sj3WordIdSize 0⟩]
  else []

theorem getkanRest_eq {yomi : Bytes} {s : GetkanState} (hyomi : s.yomi ≤ sstrlen yomi) :
    getkanRest yomi s = ⟨(s.bun ++ restBunsetus yomi s.yomi).length,
      s.bun ++ restBunsetus yomi s.yomi, s.mem⟩ := by
  have hhead := headD_drop_eq_zero hyomi
  by_cases hend : s.yomi < sstrlen yomi
  · have hne : (yomi.drop s.yomi).headD 0 ≠ 0 := fun h => (Nat.ne_of_lt hend) (hhead.mp h)
    simp only [getkanRest, restBunsetus, hne, ne_eq, not_false_eq_true, if_true, hend]
  · have hzero : (yomi.drop s.yomi).headD 0 = 0 := hhead.mpr (by omega)
    simp only [getkanRest, restBunsetus, hzero, ne_eq, not_true_eq_false, if_false, hend,
      List.append_nil]

theorem restBunsetus_source {yomi : Bytes} {ofs : ℕ} (hofs : ofs ≤ sstrlen yomi) :
    ((restBunsetus yomi ofs).map (Sj3Bunsetu.source yomi)).flatten = (cstr yomi).drop ofs := by
  rw [restBunsetus]
  split_ifs with hend
  · have hsource : readN (sstrlen (yomi.drop ofs)) (yomi.drop ofs) = (cstr yomi).drop ofs := by
      rw [readN_cstr (Nat.le_refl _), sstrlen_eq_cstr, List.take_length, cstr_drop hofs]
    simp only [List.map_cons, List.map_nil, List.flatten_cons, List.flatten_nil, List.append_nil]
    exact hsource
  · rw [List.drop_eq_nil_of_le (by rw [← sstrlen_eq_cstr]; omega)]
    rfl

theorem restBunsetus_result (m : Mem) (yomi : Bytes) (ofs : ℕ) :
    ((restBunsetus yomi ofs).map (Sj3Bunsetu.result m)).flatten = [] := by
  rw [restBunsetus]
  split_ifs
  · rfl
  · rfl

theorem restBunsetus_cases (yomi : Bytes) (ofs : ℕ) : restBunsetus yomi ofs = [] ∨
    ∃ b, restBunsetus yomi ofs = [b] ∧ b.source yomi ≠ [] ∧ b.deststr = none ∧ b.destlen = 0 := by
  by_cases hend : ofs < sstrlen yomi
  · refine .inr ⟨_, if_pos hend, fun hnil => ?_, rfl, rfl⟩
    have hlen : sstrlen (yomi.drop ofs) = sstrlen yomi - ofs := sstrlen_drop (Nat.le_of_lt hend)
    have := congrArg List.length hnil
    rw [Sj3Bunsetu.source, length_readN, Int.toNat_natCast, List.length_nil] at this
    omega
  · exact .inl (if_neg hend)

/-- With a buffer for at least the zero byte and a server that cuts what it is sent, the entries
for a reading that is not empty are a partition. -/
theorem getkanHenkan_partition {stysiz : ℕ} {server : IkkatuServer}
    (hserver : Serves stysiz (fun _ _ => True) server) {yomi : Bytes} (m : Mem) (knj : ℕ)
    {knjsiz : ℤ}
    (hyomi : 0 < sstrlen yomi) (hsiz : 1 ≤ knjsiz) :
    ∃ r, getkanHenkan stysiz server yomi m knj knjsiz = some r ∧ Partition yomi m knj knjsiz r := by
  have hlen := sstrlen_le_length yomi
  obtain ⟨es, m', hes, hcuts, hloop, hleaves, hzero, -⟩ :=
    @getkanLoop_serves stysiz _ server hserver yomi (knjsiz.toNat + 1) (yomi.length + 1) 0
      ⟨m, 0, knj, knjsiz, []⟩ hsiz (by simp only []; omega) (Nat.zero_le _)
      (by simp only []; omega)
  have hlens := hcuts.lens_le
  rw [List.drop_zero, ← sstrlen_eq_cstr] at hlens
  have hrest := @getkanRest_eq yomi (GetkanState.take ⟨m, 0, knj, knjsiz, []⟩ es m')
    (by simp only [GetkanState.take]; omega)
  rw [getkanHenkan, hloop]
  simp only [hrest]
  simp only [GetkanState.take, List.nil_append, Nat.zero_add]
  refine ⟨_, rfl, ?_, ⟨texts es, ?_, texts_zero_notMem hes, ?_, hleaves.fits⟩, hleaves.outside, rfl,
    _, _, rfl, bunsetus_isSome es 0 knj, restBunsetus_cases yomi _⟩
  · rw [List.map_append, List.flatten_append, bunsetus_source (Nat.zero_le _) knj hcuts,
      restBunsetus_source hlens, List.drop_zero, List.take_append_drop]
  · rw [List.map_append, List.flatten_append, bunsetus_result 0 knj hleaves.text,
      restBunsetus_result, List.append_nil]
  · rw [cells_add, hleaves.text]
    exact congrArg (fun c => texts es ++ [c]) (hzero hyomi)

/-- What the functions of the library do with a reading: it is left alone if it is too long or
empty, and its entries are a partition otherwise. -/
theorem sj3Getkan_partition {stysiz : ℕ} {server : IkkatuServer}
    (hserver : Serves stysiz (fun _ _ => True) server) (yomi : Bytes) (m : Mem) (knj : ℕ)
    (knjsiz : ℤ) :
    sj3GetkanEuc stysiz server none yomi m knj knjsiz = sj3Getkan stysiz server yomi m knj knjsiz ∧
      (sstrlen yomi = 0 ∨ sj3IkkatuYomi < sstrlen yomi →
        sj3Getkan stysiz server yomi m knj knjsiz = some ⟨0, [], m⟩) ∧
      (0 < sstrlen yomi → sstrlen yomi ≤ sj3IkkatuYomi → 1 ≤ knjsiz →
        ∃ r, sj3Getkan stysiz server yomi m knj knjsiz = some r ∧
          Partition yomi m knj knjsiz r) := by
  refine ⟨rfl, ?_, fun hpos hle hsiz => ?_⟩
  · rintro (hempty | hlong)
    · have hhead : (yomi.drop 0).headD 0 = 0 :=
        (headD_drop_eq_zero (Nat.zero_le _)).mpr hempty.symm
      rw [sj3Getkan, if_neg (by omega), getkanHenkan, getkanLoop, if_pos hhead]
      simp only [getkanRest, hhead, ne_eq, not_true_eq_false, if_false]
      rfl
    · rw [sj3Getkan, if_pos hlong]
  · rw [sj3Getkan, if_neg (Nat.not_lt.mpr hle)]
    exact getkanHenkan_partition hserver m knj hpos hsiz

/-- A server that makes a letter of every two bytes, for at most four bytes of a reading. -/
def pairServer : IkkatuServer := fun _ reading =>
  [ikkatuBytes 0 0 0 1 (List.replicate (min 2 (reading.length / 2)) ⟨2, [0, 0], [0x41]⟩)]

theorem pairServer_serves : Serves 2 (fun _ _ => True) pairServer := by
  have hlens : ∀ k, lens (List.replicate k ⟨2, [0, 0], [0x41]⟩) = 2 * k := by
    intro k
    induction k with
    | zero => rfl
    | succ k ih =>
        rw [List.replicate_succ]
        change 2 + lens _ = _
        omega
  intro i reading
  refine ⟨_, 0, 0, 0, 1, fun e he => ?_, cuts_of_lens_le ?_, by simp [pairServer, ikkatuBytes],
    List.append_nil _⟩
  · rw [List.eq_of_mem_replicate he]
    exact ⟨by decide, rfl, show (0 : UInt8) ∉ [0x41] by decide⟩
  · rw [hlens]
    omega

/-- Two clauses of the first request, one of the second, and a byte that is left. -/
theorem sj3Getkan_partition_pairs :
    ∃ r, sj3Getkan 2 pairServer [0x82, 0xa0, 0x82, 0xa2, 0x82, 0xa4, 0x61, 0] (fun _ => 7) 100 8 =
        some r ∧
      Partition [0x82, 0xa0, 0x82, 0xa2, 0x82, 0xa4, 0x61, 0] (fun _ => 7) 100 8 r ∧
      r.ret = 4 := by
  obtain ⟨r, hr, hpart⟩ := (sj3Getkan_partition pairServer_serves
    [0x82, 0xa0, 0x82, 0xa2, 0x82, 0xa4, 0x61, 0] (fun _ => 7) 100 8).2.2 (by decide) (by decide)
    (by decide)
  have hret : ∀ r ∈ sj3Getkan 2 pairServer [0x82, 0xa0, 0x82, 0xa2, 0x82, 0xa4, 0x61, 0]
      (fun _ => 7) 100 8, r.ret = 4 := by decide +kernel
  exact ⟨r, hr, hpart, hret r hr⟩

/-- The entries for a reading that is too long are none. -/
theorem not_sj3Getkan_partition :
    ¬ ∀ (stysiz : ℕ) (server : IkkatuServer), Serves stysiz (fun _ _ => True) server →
      ∀ (yomi : Bytes) (m : Mem) (knj : ℕ) (knjsiz : ℤ),
        ∃ r, sj3Getkan stysiz server yomi m knj knjsiz = some r ∧
          Partition yomi m knj knjsiz r := by
  intro h
  have hlong : (0 : UInt8) ∉ List.replicate 513 0x61 := by
    intro hmem
    exact absurd (List.eq_of_mem_replicate hmem) (by decide)
  obtain ⟨r, hr, hpart⟩ := h 2 pairServer pairServer_serves (List.replicate 513 0x61)
    (fun _ => 7) 100 1000
  rw [sj3Getkan, sstrlen_eq_length hlong, List.length_replicate, if_pos (by decide)] at hr
  obtain rfl := Option.some.inj hr
  have hlen := congrArg List.length hpart.source
  rw [← sstrlen_eq_cstr, sstrlen_eq_length hlong, List.length_replicate] at hlen
  exact absurd hlen (by decide)

end Sj3
