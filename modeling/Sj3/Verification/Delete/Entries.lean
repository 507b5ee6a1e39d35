import Sj3.Verification.Add.Registered
import Sj3.Verification.Delete.Dict
import Sj3.Verification.Dict.Words

/-! # What deletion does to the words of a dictionary

Deletion as an operation on the words a dictionary stores, and that `deldic` is this
operation. -/

namespace Sj3

open FrontCoding

/-! ## The operation -/

/-- The stored word `x` may be taken for the word `e` to delete: its code string need only start
with the one asked for. -/
def Entry.Matches (e x : Entry) : Prop :=
  x.yomi = e.yomi ∧ x.hinsi = e.hinsi ∧ e.kanji <+: x.kanji

/-- What deletion of `e` returns, and what it makes of the stored words `es`. The last word that
may be taken for `e` goes. There may not be room for the reading of the next word in the index,
which has `free` unused bytes. -/
inductive Deletes (free : ℕ) (e : Entry) (es : List Entry) : ℕ → List Entry → Prop
  | noMidasi (h : ∀ x ∈ es, x.yomi ≠ e.yomi) : Deletes free e es adNoMidasi es
  | noHinsi (hy : ∃ x ∈ es, x.yomi = e.yomi)
      (h : ∀ x ∈ es, x.yomi = e.yomi → x.hinsi ≠ e.hinsi) : Deletes free e es adNoHinsi es
  | noKanji (hh : ∃ x ∈ es, x.yomi = e.yomi ∧ x.hinsi = e.hinsi)
      (h : ∀ x ∈ es, ¬ e.Matches x) : Deletes free e es adNoKanji es
  | noRoom {a b : List Entry} {x u : Entry} (hes : es = a ++ x :: u :: b) (hx : e.Matches x)
      (honly : ∀ y ∈ a ++ u :: b, y.yomi ≠ e.yomi)
      (hlen : free + e.yomi.length < u.yomi.length) : Deletes free e es adOvflwIndex es
  | done {a b : List Entry} {x : Entry} (hes : es = a ++ x :: b) (hx : e.Matches x)
      (hlast : ∀ y ∈ b, ¬ e.Matches y) : Deletes free e es adDone (a ++ b)

/-- A word no other stored word may be taken for goes, and no other. -/
theorem Deletes.eq_of_unique {free : ℕ} {e : Entry} {a b es' : List Entry}
    (h : Deletes free e (a ++ e :: b) adDone es') (hno : ∀ x ∈ a ++ b, ¬ e.Matches x) :
    es' = a ++ b := by
  generalize hes : a ++ e :: b = es at h
  generalize hret : adDone = ret at h
  cases h with
  | noMidasi h => exact absurd hret (by decide)
  | noHinsi hy h => exact absurd hret (by decide)
  | noKanji hh h => exact absurd hret (by decide)
  | noRoom he hx honly hlen => exact absurd hret (by decide)
  | @done a' b' x he hx hlast =>
      rw [he] at hes
      have hself : e.Matches e := ⟨rfl, rfl, List.prefix_refl _⟩
      rcases List.append_eq_append_iff.mp hes with ⟨c, rfl, hc⟩ | ⟨c, rfl, hc⟩
      · cases c with
        | nil =>
            rw [List.nil_append, List.cons.injEq] at hc
            rw [List.append_nil, hc.2]
        | cons y c =>
            rw [List.cons_append, List.cons.injEq] at hc
            exact absurd hx (hno x (by rw [hc.2]; simp))
      · cases c with
        | nil =>
            rw [List.nil_append, List.cons.injEq] at hc
            rw [List.append_nil, hc.2]
        | cons y c =>
            rw [List.cons_append, List.cons.injEq] at hc
            exact absurd hx (hno x (by rw [hc.1]; simp))

/-- A stored word can be deleted, if the index has room for every reading. -/
theorem Deletes.ret_eq {free ret : ℕ} {e : Entry} {es es' : List Entry}
    (h : Deletes free e es ret es') (hmem : e ∈ es)
    (hroom : ∀ x ∈ es, x.yomi.length ≤ free + e.yomi.length) : ret = adDone := by
  cases h with
  | noMidasi h => exact absurd rfl (h e hmem)
  | noHinsi hy h => exact absurd rfl (h e hmem rfl)
  | noKanji hh h => exact absurd ⟨rfl, rfl, List.prefix_refl _⟩ (h e hmem)
  | @noRoom a b x u hes hx honly hlen =>
      have := hroom u (by simp [hes])
      omega
  | done hes hx hlast => rfl

/-! ## The words of a block -/

theorem mem_entriesOf {ts : List DouonBlk} {e : Entry} :
    e ∈ entriesOf ts ↔ ∃ t ∈ ts, e ∈ t.entries := List.mem_flatMap

theorem DouonBlk.exists_mem (t : DouonBlk) : ∃ e, e ∈ t.entries := by
  obtain ⟨b, hb⟩ := List.exists_mem_of_ne_nil _ t.hinsi_ne
  obtain ⟨k, hk⟩ := List.exists_mem_of_ne_nil _ b.kanji_ne
  exact ⟨_, List.mem_flatMap.mpr ⟨b, hb, List.mem_map.mpr ⟨k, hk, rfl⟩⟩⟩

theorem yomi_ne_of_mem {ts : List DouonBlk} {x : Bytes} (h : ∀ t ∈ ts, t.yomi ≠ x) :
    ∀ e ∈ entriesOf ts, e.yomi ≠ x := by
  intro e he
  obtain ⟨t, ht, het⟩ := mem_entriesOf.mp he
  rw [DouonBlk.yomi_of_mem het]
  exact h t ht

namespace Spot

variable {segs pre post : List Seg} {s : Seg} {w : Word} {l r : List DouonBlk}
  {old : Option DouonBlk} {t : DouonBlk}

theorem entries_eq {x : Bytes} (h : Spot segs x pre s post l old r) :
    entriesOf (blocks segs) = entriesOf (blocks pre ++ l) ++
      (entriesOf old.toList ++ entriesOf (r ++ blocks post)) := by
  rw [h.blocks_eq, entriesOf_append, entriesOf_append old.toList]

theorem yomi_ne_front {x : Bytes} (h : Spot segs x pre s post l old r) :
    ∀ e ∈ entriesOf (blocks pre ++ l), e.yomi ≠ x :=
  yomi_ne_of_mem fun t ht => (h.before t ht).ne

theorem yomi_ne_back {x : Bytes} (h : Spot segs x pre s post l old r) :
    ∀ e ∈ entriesOf (r ++ blocks post), e.yomi ≠ x :=
  yomi_ne_of_mem fun t ht => (h.after t ht).ne'

/-- The words of a reading are those of its block. -/
theorem mem_entries_iff {x : Bytes} (h : Spot segs x pre s post l old r) {e : Entry}
    (he : e.yomi = x) : e ∈ entriesOf (blocks segs) ↔ ∃ t ∈ old, e ∈ t.entries := by
  rw [h.entries_eq, List.mem_append, List.mem_append]
  constructor
  · rintro (hf | ho | hb)
    · exact absurd he (h.yomi_ne_front e hf)
    · obtain ⟨t, ht, het⟩ := mem_entriesOf.mp ho
      exact ⟨t, Option.mem_toList.mp ht, het⟩
    · exact absurd he (h.yomi_ne_back e hb)
  · rintro ⟨t, ht, het⟩
    exact .inr (.inl (mem_entriesOf.mpr ⟨t, Option.mem_toList.mpr ht, het⟩))

/-- Beside the only block of a segment there is none. -/
theorem only_of {x : Bytes} (h : Spot segs x pre s post l (some t) r) (hs : s.blks = [t]) :
    l ++ r = [] := by
  have hlen := congrArg List.length (h.blks_eq.symm.trans hs)
  simp only [Option.toList_some, List.length_append, List.length_cons, List.length_nil] at hlen
  exact List.length_eq_zero_iff.mp (by rw [List.length_append]; omega)

end Spot

/-! ## Deletion in a well-formed dictionary -/

section

variable {d : Dict} {segs pre post : List Seg} {free : ℕ} {s : Seg} {w : Word}
  {l r : List DouonBlk} {t : DouonBlk} {k : Bytes} {st : Option Stdy} {env : Env} {res : Result}

/-- The words of a block, the one that goes in the middle. -/
theorem Cut.matches {rest : Option DouonBlk} (h : Cut t w k rest) (ht : t.yomi = w.yomi)
    (hpre : w.kanji <+: k) :
    ∃ a x b, t.entries = a ++ x :: b ∧ entriesOf rest.toList = a ++ b ∧ w.entry.Matches x ∧
      ∀ y ∈ b, ¬ w.entry.Matches y := by
  obtain ⟨a, b, hes, hrest, hlast⟩ := h.entries
  exact ⟨a, _, b, hes, hrest, ⟨ht, rfl, hpre⟩, fun y hy hm => hlast y hy hm.2.1 hm.2.2⟩

/-- What deletion reports and leaves in the terms of the stored words. -/
structure Refines (free : ℕ) (e : Entry) (d : Dict) (st : Option Stdy) (res : Result) : Prop where
  deletes : ∃ ret es es', res.ret = some ret ∧ d.entries = some es ∧ res.dict.entries = some es' ∧
    Deletes free e es ret es'
  unchanged : res.ret ≠ some adDone → res.dict = d ∧ res.stdy = st
  holds : ∃ segs free, UsrDict res.dict segs free

theorem refines_unchanged (h : UsrDict d segs free) (st : Option Stdy) {e : Entry} {ret : ℕ}
    (hdel : Deletes free e (entriesOf (blocks segs)) ret (entriesOf (blocks segs))) :
    Refines free e d st ⟨some ret, d, st⟩ :=
  ⟨⟨ret, _, _, rfl, h.entries, h.entries, hdel⟩, fun _ => ⟨rfl, rfl⟩, segs, free, h⟩

theorem Removal.refines {ofs : ℕ} (h : UsrDict d segs free)
    (hsp : Spot segs w.yomi pre s post l (some t) r) (hpre : w.kanji <+: k)
    (hrem : Removal env d st pre s post free l t r w k ofs res) :
    Refines free w.entry d st res := by
  have ht : t.yomi = w.yomi := hsp.old_yomi t rfl
  have hold : entriesOf (some t).toList = t.entries := List.append_nil _
  have hes := hsp.entries_eq
  rw [hold] at hes
  -- the words that are left, told from what is left of the block
  have hdone : ∀ {rest : Option DouonBlk} {d' : Dict} {segs' : List Seg} {free' : ℕ}
      {st' : Option Stdy}, Cut t w k rest → UsrDict d' segs' free' →
      blocks segs' = (blocks pre ++ l) ++ (rest.toList ++ (r ++ blocks post)) →
      Refines free w.entry d st ⟨some adDone, d', st'⟩ := by
    intro rest d' segs' free' st' hcut hd hb
    obtain ⟨a, x, b, hta, hrest, hx, hlast⟩ := hcut.matches ht hpre
    refine ⟨⟨adDone, _, _, rfl, h.entries, hd.entries, ?_⟩, fun hne => absurd rfl hne, _, _, hd⟩
    have hes' : entriesOf (blocks segs') = (entriesOf (blocks pre ++ l) ++ a) ++
        (b ++ entriesOf (r ++ blocks post)) := by
      rw [hb, entriesOf_append, entriesOf_append rest.toList, hrest]
      simp only [List.append_assoc]
    rw [hes']
    refine .done (x := x) ?_ hx ?_
    · rw [hes, hta]
      simp only [List.append_assoc, List.cons_append]
    · intro y hy hm
      rcases List.mem_append.mp hy with hy | hy
      · exact hlast y hy hm
      · exact hsp.yomi_ne_back y hy hm.1
  cases hrem with
  | @overflow u r' hl hr hcut hlen =>
      obtain ⟨a, x, b, hta, hrest, hx, hlast⟩ := hcut.matches ht hpre
      obtain ⟨rfl, rfl⟩ := List.append_eq_nil_iff.mp hrest.symm
      obtain ⟨v, hv⟩ := u.exists_mem
      obtain ⟨ua, ub, hua⟩ := List.append_of_mem hv
      refine refines_unchanged h st ?_
      have hs : s.idx = w.yomi := by
        rw [h.idx s (by simp [hsp.segs_eq]), hsp.blks_eq, hl]
        exact ht
      obtain ⟨y, ys, hys⟩ := List.exists_cons_of_ne_nil (List.ne_nil_of_mem hv)
      have hback : entriesOf (r ++ blocks post) = y :: (ys ++ entriesOf (r' ++ blocks post)) := by
        rw [hr, List.cons_append, entriesOf_cons, hys, List.cons_append]
      have hsplit : entriesOf (blocks segs) = entriesOf (blocks pre ++ l) ++
          x :: y :: (ys ++ entriesOf (r' ++ blocks post)) := by
        rw [hes, hta, hback]
        rfl
      refine .noRoom hsplit hx ?_ ?_
      · rw [← hback]
        intro z hz
        rcases List.mem_append.mp hz with hz | hz
        · exact hsp.yomi_ne_front z hz
        · exact hsp.yomi_ne_back z hz
      · rw [DouonBlk.yomi_of_mem (show y ∈ u.entries by simp [hys])]
        rw [hs] at hlen
        exact hlen
  | @inside d' s' free' n rest hcut hblks hn hd =>
      refine hdone hcut hd ?_
      rw [blocks_append, blocks_cons, hblks]
      simp only [List.append_assoc]
  | @segment d' free' hcut hblks hd =>
      obtain ⟨rfl, rfl⟩ := List.append_eq_nil_iff.mp (hsp.only_of hblks)
      refine hdone hcut hd ?_
      rw [blocks_append]
      simp
  | @last d' free' hcut hblks hone hd =>
      obtain ⟨rfl, rfl⟩ := List.append_eq_nil_iff.mp (hsp.only_of hblks)
      refine hdone hcut hd ?_
      rw [hone.1, hone.2]
      simp [emptySeg]

/-- Deletion of the word from the segment its reading belongs to. -/
theorem UsrDict.delWord_refines (h : UsrDict d segs free) (env : Env) (st : Option Stdy)
    {old : Option DouonBlk} (hsp : Spot segs w.yomi pre s post l old r) (htail : s.tail ≠ [])
    (hseg : d.seglen ≤ maxDouonBlk) (hidx : w.yomi.length ≤ free + 2) :
    Refines free w.entry d st (delWord env d st pre.length w.yomi w.kanji w.hinsi) := by
  have h' : UsrDict d (pre ++ s :: post) free := hsp.segs_eq ▸ h
  have hget := h'.getdic
  have hcoded := h'.coded
  rw [Seg.bytes, hsp.blks_eq] at hget
  rw [hsp.blks_eq] at hcoded
  cases old with
  | none =>
      rw [delWord_noMidasi env st hget hcoded hsp.lt hsp.gt s.isTail]
      refine refines_unchanged h st (.noMidasi ?_)
      intro x hx hxy
      obtain ⟨t, ht, -⟩ := (hsp.mem_entries_iff hxy).mp hx
      simp at ht
  | some t =>
      have ht : t.yomi = w.yomi := hsp.old_yomi t rfl
      have hu : t.IsUsr := h.isUsr t (hsp.old_mem t rfl)
      -- a word of the reading is one of the block
      have hmem : ∀ {x : Entry}, x ∈ entriesOf (blocks segs) → x.yomi = w.yomi →
          ∃ b ∈ t.hinsi, x.hinsi = b.hinsi ∧ x.kanji ∈ b.kanji := by
        intro x hx hxy
        obtain ⟨t', ht', hxt⟩ := (hsp.mem_entries_iff hxy).mp hx
        obtain rfl : t = t' := Option.some.inj ht'
        exact hinsi_of_mem_wordsOf hxt
      have hstored : ∀ {b : HinsiBlk}, b ∈ t.hinsi →
          ∃ x ∈ entriesOf (blocks segs), x.yomi = w.yomi ∧ x.hinsi = b.hinsi := by
        intro b hb
        obtain ⟨k, hk⟩ := List.exists_mem_of_ne_nil _ b.kanji_ne
        refine ⟨⟨t.yomi, k, b.hinsi⟩, (hsp.mem_entries_iff ht).mpr ⟨t, rfl, ?_⟩, ht, rfl⟩
        exact List.mem_flatMap.mpr ⟨b, hb, List.mem_map.mpr ⟨k, hk, rfl⟩⟩
      rcases w.split_hinsi t.hinsi with hno | ⟨hl, b, hr, hsplit, hhl, hb⟩
      · rw [delWord_noHinsi hget hcoded hsp.lt ht hu s.isTail env st hno]
        refine refines_unchanged h st (.noHinsi ?_ ?_)
        · obtain ⟨b, hb⟩ := List.exists_mem_of_ne_nil _ t.hinsi_ne
          obtain ⟨x, hx, hxy, -⟩ := hstored hb
          exact ⟨x, hx, hxy⟩
        · intro x hx hxy
          obtain ⟨b, hb, he, -⟩ := hmem hx hxy
          rw [he]
          exact hno b hb
      by_cases hsh : t.Shadows w
      · obtain ⟨hl', b', hr', kl, k, kr, hhit⟩ := hsh.exists_hit
        exact (h'.delWord_removal hsp.blks_eq env st hsp.lt ht htail hseg (ht ▸ hidx) hhit).refines
          h hsp hhit.pre
      · have hbu : b ∈ t.hinsi := by simp [hsplit]
        have hne : ∀ k ∈ b.kanji, ¬ w.kanji <+: k := fun k hk hp => hsh ⟨b, hbu, hb, k, hk, hp⟩
        rw [delWord_noKanji hget hcoded hsp.lt ht hu s.isTail env st hsplit hb hne]
        refine refines_unchanged h st (.noKanji ?_ ?_)
        · obtain ⟨x, hx, hxy, hxh⟩ := hstored hbu
          exact ⟨x, hx, hxy, hxh.trans hb⟩
        · rintro x hx ⟨hxy, hxh, hxk⟩
          obtain ⟨c, hc, hch, hck⟩ := hmem hx hxy
          exact hsh ⟨c, hc, hch.symm.trans hxh, _, hck, hxk⟩

end

end Sj3
