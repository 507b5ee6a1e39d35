import Sj3.Model.Deldic
import Sj3.Verification.Dict.Entries
import Sj3.Verification.Segment.Store

/-! # Cutting a word out of its block

The kanji string `deldic` takes for the word, what is left of the block it stands in, and the
bytes of the segment afterwards. -/

namespace Sj3

open Buffer FrontCoding

/-! ## The string that goes -/

/-- The block `t` has the string `k` in its grammar block `b`, which has the code of the word,
and `k` is the last string there that starts with the code string of the word. -/
structure Hit (t : DouonBlk) (w : Word) (hl : List HinsiBlk) (b : HinsiBlk) (hr : List HinsiBlk)
    (kl : List Bytes) (k : Bytes) (kr : List Bytes) : Prop where
  hinsi_eq : t.hinsi = hl ++ b :: hr
  kanji_eq : b.kanji = kl ++ k :: kr
  code : b.hinsi = w.hinsi
  pre : w.kanji <+: k
  last : ∀ k' ∈ kr, ¬ w.kanji <+: k'

theorem DouonBlk.Shadows.exists_hit {t : DouonBlk} {w : Word} (h : t.Shadows w) :
    ∃ hl b hr kl k kr, Hit t w hl b hr kl k kr := by
  obtain ⟨b, hb, hcode, hex⟩ := h
  obtain ⟨hl, hr, hsplit⟩ := List.append_of_mem hb
  obtain ⟨kl, k, kr, hk, hpre, hlast⟩ := exists_last_prefix hex
  exact ⟨hl, b, hr, kl, k, kr, hsplit, hk, hcode, hpre, hlast⟩

/-- The grammar block with only some of its strings. -/
def HinsiBlk.keep (b : HinsiBlk) (ks : List Bytes) (hne : ks ≠ []) (hsub : ∀ k ∈ ks, k ∈ b.kanji) :
    HinsiBlk :=
  ⟨b.hinsi, ks, b.hinsi_ne, hne, fun k hk => b.isKnjStr k (hsub k hk)⟩

/-- The homophone block with other grammar blocks. -/
def DouonBlk.keep (t : DouonBlk) (hs : List HinsiBlk) (hne : hs ≠ []) : DouonBlk :=
  ⟨t.yomi, hs, t.isYomi, hne⟩

/-- `rest` is what is left of the block `t` without its entry of the string `k`. -/
structure Cut (t : DouonBlk) (w : Word) (k : Bytes) (rest : Option DouonBlk) : Prop where
  yomi : ∀ t' ∈ rest, t'.yomi = t.yomi
  isUsr : ∀ t' ∈ rest, t'.IsUsr
  length_le : ∀ t' ∈ rest, t'.body.length ≤ t.body.length
  entries : ∃ x y, t.entries = x ++ ⟨t.yomi, k, w.hinsi⟩ :: y ∧ entriesOf rest.toList = x ++ y ∧
    ∀ e ∈ y, e.hinsi = w.hinsi → ¬ w.kanji <+: e.kanji

theorem wordsOf_append (yomi : Bytes) (hs hs' : List HinsiBlk) :
    wordsOf yomi (hs ++ hs') = wordsOf yomi hs ++ wordsOf yomi hs' := List.flatMap_append

theorem wordsOf_cons (yomi : Bytes) (b : HinsiBlk) (hs : List HinsiBlk) :
    wordsOf yomi (b :: hs) = b.kanji.map (⟨yomi, ·, b.hinsi⟩) ++ wordsOf yomi hs := rfl

theorem hinsi_of_mem_wordsOf {yomi : Bytes} {hs : List HinsiBlk} {e : Entry}
    (h : e ∈ wordsOf yomi hs) : ∃ b ∈ hs, e.hinsi = b.hinsi ∧ e.kanji ∈ b.kanji := by
  obtain ⟨b, hb, he⟩ := List.mem_flatMap.mp h
  obtain ⟨k, hk, rfl⟩ := List.mem_map.mp he
  exact ⟨b, hb, rfl, hk⟩

namespace Hit

variable {t : DouonBlk} {w : Word} {hl hr : List HinsiBlk} {b : HinsiBlk} {kl kr : List Bytes}
  {k : Bytes}

theorem isKnjStr (h : Hit t w hl b hr kl k kr) : IsKnjStr k := b.isKnjStr k (by simp [h.kanji_eq])

/-- The entries of the block, the one of the string in the middle. -/
theorem entries_eq (h : Hit t w hl b hr kl k kr) :
    t.entries = (wordsOf t.yomi hl ++ kl.map (⟨t.yomi, ·, w.hinsi⟩)) ++ ⟨t.yomi, k, w.hinsi⟩ ::
      (kr.map (⟨t.yomi, ·, w.hinsi⟩) ++ wordsOf t.yomi hr) := by
  rw [DouonBlk.entries, h.hinsi_eq, wordsOf_append, wordsOf_cons, h.kanji_eq, h.code]
  simp

theorem entries_last (h : Hit t w hl b hr kl k kr) (hu : t.IsUsr) :
    ∀ e ∈ kr.map (⟨t.yomi, ·, w.hinsi⟩) ++ wordsOf t.yomi hr,
      e.hinsi = w.hinsi → ¬ w.kanji <+: e.kanji := by
  intro e he hcode
  rcases List.mem_append.mp he with he | he
  · obtain ⟨k', hk', rfl⟩ := List.mem_map.mp he
    exact h.last k' hk'
  · obtain ⟨c, hc, heq, -⟩ := hinsi_of_mem_wordsOf he
    exact absurd ((heq.symm.trans hcode).trans h.code.symm) ((hu.ne_of_split h.hinsi_eq).2 c hc)

theorem kanji_sub (h : Hit t w hl b hr kl k kr) : ∀ x ∈ kl ++ kr, x ∈ b.kanji := by
  intro x hx
  rw [h.kanji_eq]
  rcases List.mem_append.mp hx with hx | hx <;> simp [hx]

theorem hinsi_sub (h : Hit t w hl b hr kl k kr) : ∀ x ∈ hl ++ hr, x ∈ t.hinsi := by
  intro x hx
  rw [h.hinsi_eq]
  rcases List.mem_append.mp hx with hx | hx <;> simp [hx]

/-! ## What is left of the block -/

/-- The grammar block has further strings. -/
theorem cut_kanji (h : Hit t w hl b hr kl k kr) (hu : t.IsUsr) (hne : kl ++ kr ≠ []) :
    Cut t w k (some (t.keep (hl ++ b.keep (kl ++ kr) hne h.kanji_sub :: hr) (by simp))) where
  yomi := by
    intro t' ht
    rw [← Option.some.inj ht]
    rfl
  isUsr := by
    intro t' ht
    rw [← Option.some.inj ht]
    refine ⟨?_, ?_⟩
    · intro c hc
      rcases List.mem_append.mp hc with hc | hc
      · exact hu.hinsi c (by simp [h.hinsi_eq, hc])
      · rcases List.mem_cons.mp hc with rfl | hc
        · exact fun x hx => hu.hinsi b (by simp [h.hinsi_eq]) x (h.kanji_sub x hx)
        · exact hu.hinsi c (by simp [h.hinsi_eq, hc])
    · have hnd := hu.nodup
      rw [h.hinsi_eq, List.map_append, List.map_cons] at hnd
      simpa [DouonBlk.keep, HinsiBlk.keep] using hnd
  length_le := by
    intro t' ht
    rw [← Option.some.inj ht]
    simp only [DouonBlk.body_eq, DouonBlk.keep, h.hinsi_eq, hinsiBytes_append, hinsiBytes_cons,
      HinsiBlk.bytes, HinsiBlk.keep, h.kanji_eq, knjBytes_append, knjBytes_cons, List.length_append,
      List.length_cons]
    omega
  entries := by
    refine ⟨_, _, h.entries_eq, ?_, h.entries_last hu⟩
    rw [Option.toList_some, entriesOf_cons, entriesOf_nil, List.append_nil, DouonBlk.entries,
      DouonBlk.keep, wordsOf_append, wordsOf_cons]
    simp [HinsiBlk.keep, h.code]

/-- The string was the only one of its grammar block, which is not the only one. -/
theorem cut_hinsi (h : Hit t w hl b hr [] k []) (hu : t.IsUsr) (hne : hl ++ hr ≠ []) :
    Cut t w k (some (t.keep (hl ++ hr) hne)) where
  yomi := by
    intro t' ht
    rw [← Option.some.inj ht]
    rfl
  isUsr := by
    intro t' ht
    rw [← Option.some.inj ht]
    refine ⟨fun c hc => hu.hinsi c (h.hinsi_sub c hc), ?_⟩
    have hnd := hu.nodup
    rw [h.hinsi_eq] at hnd
    exact hnd.sublist ((List.Sublist.append_left (List.sublist_cons_self b hr) hl).map _)
  length_le := by
    intro t' ht
    rw [← Option.some.inj ht]
    simp only [DouonBlk.body_eq, DouonBlk.keep, h.hinsi_eq, hinsiBytes_append, hinsiBytes_cons,
      List.length_append]
    omega
  entries := by
    refine ⟨_, _, h.entries_eq, ?_, h.entries_last hu⟩
    rw [Option.toList_some, entriesOf_cons, entriesOf_nil, List.append_nil, DouonBlk.entries,
      DouonBlk.keep, wordsOf_append]
    simp

/-- The string was the only one of the block. -/
theorem cut_douon (h : Hit t w [] b [] [] k []) : Cut t w k none where
  yomi := by simp
  isUsr := by simp
  length_le := by simp
  entries := ⟨[], [], by simpa [wordsOf] using h.entries_eq, rfl, by simp⟩

end Hit

end Sj3
