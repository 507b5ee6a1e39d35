import Sj3.Verification.Study.Clstudy
import Sj3.Verification.Study.Registration

/-! # The clause-study area over whole runs -/

namespace Sj3

open PrefixFree Recency

/-! ## The area stays in order -/

/-- What reaches the clause-study area: the requests of the clients, on any dictionaries. -/
inductive ClCall where
  | clstudy (stack : ℕ → UInt8) (yomi1 yomi2 : Bytes) (stdy : Option ClStdyOut)
  | adddic (env : Env) (dictlist : List Dict) (d : Dict) (yomi kanji : Bytes) (hinsi : UInt8)

namespace ClCall

def run : ClCall → Option Stdy → Option Stdy
  | clstudy stack yomi1 yomi2 stdy, s => (Sj3.clstudy stack s yomi1 yomi2 stdy).1
  | adddic env dictlist d yomi kanji hinsi, s =>
      (Sj3.adddic env dictlist d s yomi kanji hinsi).stdy

/-- The state after some calls. -/
def runs (calls : List ClCall) (s : Option Stdy) : Option Stdy :=
  calls.foldl (fun s c => c.run s) s

/-- A request that stores a clause pair does not say more codes of the second reading than
there are, or is refused because it is too long for an area of `cllen` bytes. -/
def LenOk (cllen : ℕ) : ClCall → Prop
  | clstudy _ yomi1 yomi2 stdy => ∀ out ∈ stdy, ∀ y1 y2, ClRequest yomi1 yomi2 y1 y2 →
      out.len.toNat ≤ y2.length ∨ y1.length + out.len.toNat + Stdy.clHdLen + 1 ≥ cllen
  | adddic .. => True

end ClCall

/-- Forgetting the pairs of a reading. -/
theorem ClStudied.forgetPairs {s : Stdy} {recs : List ClRec} (h : ClStudied s recs) {y : Bytes}
    (hy : 0 ∉ y) :
    ClKept s { s with
      clstdydic := (Stdy.delcldata y (s.clstdydic.length + 1) s.clstdydic 0).1 }.mkclidx := by
  obtain ⟨free, hfree, harea⟩ := h.area_eq
  have hn : recs.length ≤ s.clstdydic.length + 1 := by
    have := length_le_length_clBytes recs
    rw [harea, length_clArea]
    omega
  obtain ⟨recs', free', -, hord, hlen, hle, hdel⟩ :=
    delcldata_clArea hy List.headD_nil free (l := []) h.toClOrdered h.count_lt hn
  have hdel' : Stdy.delcldata y (s.clstdydic.length + 1) s.clstdydic 0 =
      (clArea recs' free', (clBytes recs').length) := by
    rw [List.append_nil, List.nil_append, ← harea] at hdel
    exact hdel
  rw [hdel']
  exact h.kept_refresh hord (by omega) (hlen.trans (by rw [List.nil_append, harea]))

/-- A request either is refused, forgets, or stores. -/
theorem ClStudied.clstudy {s : Stdy} {recs : List ClRec} (h : ClStudied s recs)
    {stack : ℕ → UInt8} {yomi1 yomi2 : Bytes} {stdy : Option ClStdyOut}
    (hok : (ClCall.clstudy stack yomi1 yomi2 stdy).LenOk s.clstdydic.length) :
    ∃ t, (Sj3.clstudy stack (some s) yomi1 yomi2 stdy).1 = some t ∧ ClKept s t := by
  have hsame : ∀ ret : ClStudyRet, ∃ t, (some s, ret).1 = some t ∧ ClKept s t :=
    fun _ => ⟨s, rfl, recs, h, rfl⟩
  by_cases h1 : yomi1.headD 0 = 0
  · rw [Sj3.clstudy, if_pos h1]
    exact hsame _
  by_cases h2 : yomi2.headD 0 = 0
  · have heq : Sj3.clstudy stack (some s) yomi1 yomi2 stdy =
        if ¬ (sj2cdStr yomi1 clStdyTmpLen).2 then (some s, .yomiErr)
        else (some { s with clstdydic := (Stdy.delcldata (sj2cdStr yomi1 clStdyTmpLen).1
          (s.clstdydic.length + 1) s.clstdydic 0).1 }.mkclidx, .normEnd) := by
      rw [Sj3.clstudy, if_neg h1, if_pos h2]
    rw [heq]
    split
    · exact hsame _
    · exact ⟨_, rfl, h.forgetPairs (zero_notMem_sj2cdStr yomi1 clStdyTmpLen)⟩
  cases stdy with
  | none =>
      rw [Sj3.clstudy, if_neg h1, if_neg h2]
      exact hsame _
  | some out =>
      by_cases hc1 : (sj2cdStr yomi1 clStdyTmpLen).2 = true
      · by_cases hc2 : (sj2cdStr yomi2
            (clStdyTmpLen - (sj2cdStr yomi1 clStdyTmpLen).1.length)).2 = true
        · have hr : ClRequest yomi1 yomi2 _ _ :=
            ⟨h1, h2, Prod.ext rfl hc1, Prod.ext rfl hc2⟩
          have hlen := hok out rfl _ _ hr
          rw [hr.clstudy_eq]
          split
          · exact hsame _
          · rename_i hshort
            exact ⟨_, rfl, h.insert hr stack (hlen.resolve_right hshort)⟩
        · have hlen1 := sstrlen_eq_length (zero_notMem_sj2cdStr yomi1 clStdyTmpLen)
          simp only [Sj3.clstudy, if_neg h1, if_neg h2, hc1, hlen1, hc2, not_true, if_false]
          exact hsame _
      · simp only [Sj3.clstudy, if_neg h1, if_neg h2, if_pos hc1]
        exact hsame .yomiErr

theorem ClCall.run_studied {c : ClCall} {s : Stdy} {recs : List ClRec} (h : ClStudied s recs)
    (hok : c.LenOk s.clstdydic.length) :
    ∃ t, c.run (some s) = some t ∧ ClKept s t := by
  cases c with
  | clstudy stack yomi1 yomi2 stdy => exact h.clstudy hok
  | adddic env dictlist d yomi kanji hinsi => exact h.adddic env dictlist d yomi kanji hinsi

/-- The clause-study area stays well formed over every run in which no request says more
codes of its second reading than there are. -/
theorem clauseArea_wellFormed (calls : List ClCall) {s : Stdy} {recs : List ClRec}
    (h : ClStudied s recs) (hok : ∀ c ∈ calls, c.LenOk s.clstdydic.length) :
    ∃ t recs', ClCall.runs calls (some s) = some t ∧ ClStudied t recs' := by
  induction calls generalizing s recs with
  | nil => exact ⟨s, recs, rfl, h⟩
  | cons c calls ih =>
      obtain ⟨t, ht, recs', h', hlen⟩ := ClCall.run_studied h (hok c List.mem_cons_self)
      have hrest := ih h' fun c hc => hlen ▸ hok c (List.mem_cons_of_mem _ hc)
      rw [ClCall.runs, List.foldl_cons, ht]
      exact hrest

/-- An area of 512 bytes without records. -/
def emptyClStdy : Stdy :=
  { stdymax := minStyNum
    stdydic := []
    clstdystep := 1
    clstdyidx := List.replicate 0x100 0xffff
    clstdydic := List.replicate minClLen 0 }

theorem emptyClStdy_studied : ClStudied emptyClStdy [] where
  yomi_ne_nil := by simp
  length_lt := by simp
  zero_notMem := by simp
  yomi1Len_le := by simp
  before := List.Pairwise.nil
  ranked := ranked_nil
  area_eq := ⟨minClLen, by decide, rfl⟩
  length_le := List.length_replicate.trans_le (by decide)
  step_pos := by decide
  length_idx := List.length_replicate
  indexed := by
    intro b hb
    have hb' : b < 0x100 := (Nat.mul_one b).symm.trans_lt hb
    exact List.getElem?_replicate_of_lt hb'

/-- The pair あ and い, with two codes of the second reading, which has one. -/
def overlongCall : ClCall := .clstudy (fun _ => 0) [0xa4, 0xa2] [0xa4, 0xa4] (some ⟨1, 2⟩)

theorem clauseArea_wellFormed_stored :
    ∃ t recs', ClCall.runs [.clstudy (fun _ => 0) [0xa4, 0xa2] [0xa4, 0xa4] (some ⟨1, 1⟩)]
      (some emptyClStdy) = some t ∧ ClStudied t recs' :=
  clauseArea_wellFormed _ emptyClStdy_studied (by
    intro c hc
    obtain rfl := List.mem_singleton.mp hc
    rintro out hout y1 y2 hr
    obtain rfl : out = ⟨1, 1⟩ := by simpa using hout.symm
    have h1 : sj2cdStr [0xa4, 0xa2] clStdyTmpLen = ([0x4f], true) := by decide
    obtain rfl : y1 = [0x4f] := congrArg Prod.fst (hr.codes1.symm.trans h1)
    have h2 : sj2cdStr [0xa4, 0xa4] (clStdyTmpLen - 1) = ([0x51], true) := by decide
    obtain rfl : y2 = [0x51] := congrArg Prod.fst (hr.codes2.symm.trans h2)
    exact .inl le_rfl)

/-- The record has the terminator of the second reading in its own. -/
theorem clauseArea_not_wellFormed :
    ¬ ∀ calls s recs, ClStudied s recs →
      ∃ t recs', ClCall.runs calls (some s) = some t ∧ ClStudied t recs' := by
  intro hall
  obtain ⟨t, recs, ht, h⟩ := hall [overlongCall] emptyClStdy [] emptyClStdy_studied
  have hbytes : ((ClCall.runs [overlongCall] (some emptyClStdy)).map fun t => t.clstdydic.take 8) =
      some [3, 1, 1, 0, 1, 0x4f, 0x51, 0] := by decide +kernel
  rw [ht, Option.map_some, Option.some_inj] at hbytes
  obtain ⟨free, -, harea⟩ := h.area_eq
  have hfront : [3, 1, 1, 0, 1, 0x4f, 0x51, 0] ++ t.clstdydic.drop 8 = clArea recs free := by
    rw [← hbytes, List.take_append_drop, harea]
  obtain ⟨r, rs, rfl, heq⟩ := exists_first (h.fits h.count_lt) hfront rfl
  have hfits := h.fits h.count_lt r List.mem_cons_self
  have hlen : 3 = r.yomi.length := by
    rw [← clYomiLen_bytes hfits (clArea rs free), ← heq]
    rfl
  have hyomi : [0x4f, 0x51, 0] ++ t.clstdydic.drop 8 = r.yomi ++ clArea rs free := by
    rw [← clYomiPos_bytes, ← heq]
    rfl
  apply h.zero_notMem r List.mem_cons_self
  rw [← (List.append_inj hyomi hlen).1]
  decide

end Sj3
