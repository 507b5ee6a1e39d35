import Sj3.Verification.Mkdic.Makeseg
import Sj3.Verification.Segment.Grammar

/-! # Reading a compiled segment

The association strings of a segment are where the compiler counts on them, so the server reads
every string of a compiled segment as the one in the record. -/

namespace Sj3.Mkdic

open FrontCoding Macro

variable {askknj as : List Bytes} {seg rest : Bytes}

/-! ## Association strings -/

/-- Association strings the server can find. -/
def IsAsk (as : List Bytes) : Prop := ∀ s ∈ as, IsCodes s ∧ s ≠ []

theorem AskOk.isAsk (h : AskOk askknj) : IsAsk askknj :=
  fun s hs => ⟨(h.plain s hs).isCodes, h.ne_nil s hs⟩

/-- The walk over the association strings comes by each of them. -/
theorem getAskknjLoop_spec {n : ℕ} {q : Bytes} (has : IsAsk as) (hq : q.length = rest.length + 1)
    (hn : as.length ≤ n) {i : ℕ} {s : Bytes} (hi : as[i]? = some s) :
    ∃ r, (Dict.getAskknjLoop n (knjBytes as ++ rest) q).getD i [] = s ++ kanjiStrEnd :: r := by
  induction as generalizing n i with
  | nil => simp at hi
  | cons a as ih =>
      obtain ⟨n, rfl⟩ : ∃ m, n = m + 1 := ⟨n - 1, by simp at hn; omega⟩
      have ha := has a (by simp)
      have hbytes : knjBytes (a :: as) ++ rest = a ++ kanjiStrEnd :: (knjBytes as ++ rest) := by
        simp [knjBytes]
      have hlong : (knjBytes (a :: as) ++ rest).length > q.length := by
        have := List.length_pos_of_ne_nil ha.2
        rw [hbytes]
        simp only [List.length_append, List.length_cons]
        omega
      rw [Dict.getAskknjLoop, if_pos hlong]
      cases i with
      | zero =>
          obtain rfl : a = s := by simpa using hi
          exact ⟨_, hbytes⟩
      | succ i =>
          rw [List.getD_cons_succ, hbytes, skipkstr_codes ha.1 ha.2]
          apply ih (fun s hs => has s (by simp [hs])) (by simpa using hn)
          simpa using hi

/-- The association strings of a segment, as the server finds them. -/
theorem getAskknj_spec (has : IsAsk as) (hlt : (knjBytes as).length < 0x100) {i : ℕ} {s : Bytes}
    (hi : as[i]? = some s) :
    ∃ r, (Dict.getAskknj (UInt8.ofNat (knjBytes as).length :: (knjBytes as ++ rest))).getD i [] =
      s ++ kanjiStrEnd :: r := by
  have hnum : (UInt8.ofNat (knjBytes as).length).toNat = (knjBytes as).length := by
    rw [UInt8.toNat_ofNat']
    exact Nat.mod_eq_of_lt hlt
  have hcount := length_le_knjBytes as
  rw [Dict.getAskknj, List.headD_cons, List.tail_cons, hnum]
  apply getAskknjLoop_spec has
  · simp only [List.length_drop, List.length_cons, List.length_append]
    omega
  · simp only [List.length_cons, List.length_append]
    omega
  · exact hi

/-! ## Strings -/

/-- The segment has these association strings in front. -/
structure HasAsk (askknj : List Bytes) (seg : Bytes) : Prop where
  isAsk : IsAsk askknj
  lt : (knjBytes askknj).length < 0x100
  front : ∃ rest, seg = UInt8.ofNat (knjBytes askknj).length :: (knjBytes askknj ++ rest)

/-- What the compiler refers to, the server finds. -/
theorem HasAsk.body (h : HasAsk askknj seg) {code : Bytes} {b : List Bytes}
    (hb : Body (refAt askknj seg) code b) : Body (Dict.segRef seg) code b := by
  cases hb with
  | offset hs hm hb ht => exact .offset hs hm hb ht
  | @ask c b rest hs hm hb ht =>
      obtain ⟨tail, rfl⟩ := h.front
      rw [refAt, List.getD_eq_getElem?_getD, List.getElem?_map] at ht
      cases hi : askknj[(c &&& kanjiCodeMask).toNat]? with
      | none =>
          rw [hi] at ht
          simp at ht
      | some s =>
          rw [hi] at ht
          have hs' : s ++ [kanjiStrEnd] = b ++ kanjiStrEnd :: rest := ht
          obtain ⟨r, hr⟩ := @getAskknj_spec askknj tail h.isAsk h.lt _ _ hi
          refine .ask hs hm hb (?_ : _ = _ ++ kanjiStrEnd :: (rest ++ r))
          calc _ = s ++ kanjiStrEnd :: r := hr
            _ = (s ++ [kanjiStrEnd]) ++ r := by simp
            _ = b ++ kanjiStrEnd :: (rest ++ r) := by rw [hs']; simp

theorem HasAsk.means (h : HasAsk askknj seg) (hlen : seg.length = mainSegmentLength) {s k : Bytes}
    (ha : Abbr askknj seg (mainSegmentLength * mainSegmentLength) s k) : Means seg s k := by
  apply means_of_expands ha.isKnjStr.codes ha.isKnjStr.ne_nil ha.plain
    (ha.expands.weaken fun _ _ hb => h.body hb)
  rw [hlen]
  exact Nat.mul_le_mul (Nat.le_succ _) (Nat.le_succ _)

/-! ## Segments -/

/-- The grammar block is read as the record says. -/
def HinsiRec.ReadAs (dicbuf : Bytes) (hrec : HinsiRec) (b : HinsiBlk) : Prop :=
  b.hinsi = UInt8.ofNat hrec.hinsi ∧
    List.Forall₂ (fun (k : KanjiRec) s => Means dicbuf s k.kptr) hrec.krec b.kanji

def DouonRec.ReadAs (dicbuf : Bytes) (drec : DouonRec) (t : DouonBlk) : Prop :=
  t.yomi = drec.yptr ∧ List.Forall₂ (HinsiRec.ReadAs dicbuf) drec.hrec t.hinsi

theorem HasAsk.readAs (h : HasAsk askknj seg) (hlen : seg.length = mainSegmentLength)
    {drec : DouonRec} {t : DouonBlk} (hc : DCompiles askknj seg drec t) : drec.ReadAs seg t :=
  ⟨hc.1, hc.2.imp fun _ _ hb => ⟨hb.1, hb.2.imp fun _ _ ha => h.means hlen ha⟩⟩

/-- The server finds a block for each record in a compiled segment, and reads in it what the
record has. -/
theorem segImage_readAs (hask : AskOk askknj) {douon : List DouonRec} (hrecs : SegRecs douon)
    (hok : ∀ drec ∈ douon, drec.Ok) (h : segImage askknj douon = some seg) :
    ∃ s : DicSeg, s.bytes = seg ∧ seg.length = mainSegmentLength ∧
      List.Forall₂ (DouonRec.ReadAs seg) douon s.blks := by
  obtain ⟨s, hbytes, hs, hlen, hc⟩ := segImage_dicSeg hask hrecs hok h
  have hhas : HasAsk askknj seg := by
    refine ⟨hask.isAsk, hs ▸ s.ask_lt, ?_⟩
    rw [← hbytes, DicSeg.bytes, hs]
    exact ⟨_, rfl⟩
  exact ⟨s, hbytes, hlen, hc.imp fun _ _ hd => hhas.readAs hlen hd⟩

end Sj3.Mkdic
