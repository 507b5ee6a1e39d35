import Sj3.Verification.Delete.Segment
import Sj3.Verification.Dict.UsrDict

/-! # Which way deletion takes

What `deldic` does once it has the segment a reading belongs to, told from the blocks of the
segment. -/

namespace Sj3

open Buffer FrontCoding

/-- Where the kanji string behind `kl` starts, in the grammar block behind `hl`. -/
def knjOfs (l : List DouonBlk) (t : DouonBlk) (hl : List HinsiBlk) (kl : List Bytes) : ℕ :=
  bodyOfs l t + ((hinsiBytes hl).length + 1 + (knjBytes kl).length)

theorem douonBytes_cons_append (prev : Bytes) (t : DouonBlk) (r : List DouonBlk) (tail : Bytes) :
    douonBytes prev (t :: r) ++ tail = t.bytes prev ++ (douonBytes t.yomi r ++ tail) := by
  rw [douonBytes, List.append_assoc]

section

variable {d : Dict} {w : Word} {l r : List DouonBlk} {t : DouonBlk} {tail : Bytes} {seg : ℕ}

/-! ## Words that are not there -/

theorem delWord_noMidasi (env : Env) (st : Option Stdy)
    (hget : d.getdic seg = segBytes (l ++ r) tail) (hc : Coded [] (l ++ r))
    (hlt : ∀ u ∈ l, u.yomi < w.yomi) (hgt : ∀ u ∈ r, w.yomi < u.yomi) (htail : IsTail tail) :
    delWord env d st seg w.yomi w.kanji w.hinsi = ⟨some adNoMidasi, d, st⟩ := by
  have hk := srchkana_notFound env.prevIdx w.isYomi.ne_zero hc hlt hgt htail
  simp only [delWord, hget, hk, if_true]

section Old

variable (hget : d.getdic seg = segBytes (l ++ t :: r) tail) (hc : Coded [] (l ++ t :: r))
  (hlt : ∀ u ∈ l, u.yomi < w.yomi) (ht : t.yomi = w.yomi) (hu : t.IsUsr) (htail : IsTail tail)

include hget hc hlt ht hu htail

theorem delWord_noHinsi (env : Env) (st : Option Stdy) (hne : ∀ b ∈ t.hinsi, b.hinsi ≠ w.hinsi) :
    delWord env d st seg w.yomi w.kanji w.hinsi = ⟨some adNoHinsi, d, st⟩ := by
  have hk := srchkana_found env.prevIdx w.isYomi.ne_zero hc hlt ht htail
  have hs := (coded_append.mp hc).2.2.1
  have hg := srchgram_notFound hs hu hne (douonBytes t.yomi r ++ tail)
  rw [← douonBytes_cons_append] at hg
  have hblks : (l ++ t :: r).length ≠ 0 := by simp
  simp only [delWord, hget, hk, if_neg hblks, hg, if_true]

theorem delWord_noKanji (env : Env) (st : Option Stdy) {hl hr : List HinsiBlk} {b : HinsiBlk}
    (hsplit : t.hinsi = hl ++ b :: hr) (hb : b.hinsi = w.hinsi)
    (hne : ∀ k ∈ b.kanji, ¬ w.kanji <+: k) :
    delWord env d st seg w.yomi w.kanji w.hinsi = ⟨some adNoKanji, d, st⟩ := by
  have hk := srchkana_found env.prevIdx w.isYomi.ne_zero hc hlt ht htail
  have hs := (coded_append.mp hc).2.2.1
  have hg := srchgram_found hs hu hsplit hb (douonBytes t.yomi r ++ tail)
  have hf := srchkanji_notFound w.isKnjStr.end_notMem hne
    (hinsiBytes hr ++ (douonBytes t.yomi r ++ tail))
  rw [← douonBytes_cons_append, hinsiBytes_cons, List.append_assoc] at hg
  have hblks : (l ++ t :: r).length ≠ 0 := by simp
  have hgrams : t.hinsi.length ≠ 0 := by simp [hsplit]
  simp only [delWord, hget, hk, if_neg hblks, hg, if_neg hgrams, hf, List.headD_cons, if_true]

/-! ## The word that goes -/

/-- Which of the four ways deletion takes depends on what else there is beside the word. -/
theorem delWord_hit (env : Env) (st : Option Stdy) {hl hr : List HinsiBlk} {b : HinsiBlk}
    {kl kr : List Bytes} {k : Bytes} (h : Hit t w hl b hr kl k kr) :
    delWord env d st seg w.yomi w.kanji w.hinsi =
      if kl ++ kr = [] then
        if hl ++ hr = [] then
          if l ++ r = [] then delSegment env d st seg
          else delDouon d st seg (douonBytes (lastYomi [] l) (t :: r) ++ tail) (knjOfs l t hl kl)
        else delBytes d st seg (douonBytes (lastYomi [] l) (t :: r) ++ tail)
          (b.bytes ++ (hinsiBytes hr ++ (douonBytes t.yomi r ++ tail)))
          (hinsiBytes hr ++ (douonBytes t.yomi r ++ tail)) (knjOfs l t hl kl)
      else delBytes d st seg (douonBytes (lastYomi [] l) (t :: r) ++ tail)
        ((k ++ [kanjiStrEnd]) ++ ((knjBytes kr ++ hinsiBlkTerm :: hinsiBytes hr) ++
          (douonBytes t.yomi r ++ tail)))
        ((knjBytes kr ++ hinsiBlkTerm :: hinsiBytes hr) ++ (douonBytes t.yomi r ++ tail))
        (knjOfs l t hl kl) := by
  have hk := srchkana_found env.prevIdx w.isYomi.ne_zero hc hlt ht htail
  have hs := (coded_append.mp hc).2.2.1
  obtain ⟨R, hR⟩ : ∃ R, R = douonBytes t.yomi r ++ tail := ⟨_, rfl⟩
  have hg := srchgram_found hs hu h.hinsi_eq h.code R
  have hf := srchkanji_found w.isKnjStr.end_notMem h.kanji_eq h.pre h.last (hinsiBytes hr ++ R)
  have hdou : douonBytes (lastYomi [] l) (t :: r) ++ tail = t.bytes (lastYomi [] l) ++ R := by
    rw [hR, douonBytes_cons_append]
  rw [← hdou, hinsiBytes_cons, List.append_assoc] at hg
  have hblks : (l ++ t :: r).length ≠ 0 := by simp
  have hgrams : t.hinsi.length ≠ 0 := by simp [h.hinsi_eq]
  have hhead := h.isKnjStr.headD_ne kr (hinsiBlkTerm :: (hinsiBytes hr ++ R))
  have hskip : skipkstr (knjBytes (k :: kr) ++ hinsiBlkTerm :: (hinsiBytes hr ++ R)) =
      knjBytes kr ++ hinsiBlkTerm :: (hinsiBytes hr ++ R) := by
    rw [knjBytes_cons, List.append_assoc, List.cons_append]
    exact skipkstr_codes h.isKnjStr.codes h.isKnjStr.ne_nil _
  have hofs : ofsOf (segBytes (l ++ t :: r) tail)
      (knjBytes (k :: kr) ++ hinsiBlkTerm :: (hinsiBytes hr ++ R)) = knjOfs l t hl kl := by
    have hlen := length_segBytes (l ++ t :: r) tail
    simp only [blkOfs_append, length_douonBytes_cons, DouonBlk.size, DouonBlk.body_eq, h.hinsi_eq,
      hinsiBytes_append, hinsiBytes_cons, HinsiBlk.bytes, h.kanji_eq, knjBytes_append,
      List.length_append, List.length_cons, List.length_nil] at hlen
    rw [ofsOf, hR]
    simp only [hlen, knjOfs, bodyOfs, List.length_append, List.length_cons]
    omega
  have hone : ∀ {α : Type} (a : List α) (x : α) (c : List α),
      (a ++ x :: c).length = 1 ↔ a ++ c = [] := by
    intro α a x c
    rw [← List.length_eq_zero_iff]
    simp only [List.length_append, List.length_cons]
    omega
  rw [delWord]
  simp only [hget, hk, if_neg hblks, hg, if_neg hgrams, hf, if_neg hhead, hskip, hofs, ← hR]
  rw [h.kanji_eq, h.hinsi_eq]
  simp only [hone]
  by_cases hkn : kl ++ kr = []
  · rw [if_pos hkn, if_pos hkn]
    obtain ⟨rfl, rfl⟩ := List.append_eq_nil_iff.mp hkn
    rfl
  · rw [if_neg hkn, if_neg hkn]
    simp only [knjBytes_cons, List.append_assoc, List.cons_append, List.nil_append]

end Old

end

end Sj3
