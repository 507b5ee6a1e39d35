import Sj3.Model.Adddic
import Sj3.Verification.Segment.Word

/-! # Storing a word in a segment

Where `adddic` puts the bytes of a word, and the segment it makes of it. -/

namespace Sj3

open Buffer FrontCoding

/-! ## The place of a word -/

/-- The block has a kanji string of the word's grammar code that starts with the code
string of the word. -/
def DouonBlk.Shadows (t : DouonBlk) (w : Word) : Prop :=
  ∃ b ∈ t.hinsi, b.hinsi = w.hinsi ∧ ∃ k ∈ b.kanji, w.kanji <+: k

/-- The same for any bytes: with `rest` behind the block, the bytes from one of its strings of
the grammar code on start with `knj`. They may do so beyond the end of the string. -/
def DouonBlk.Meets (t : DouonBlk) (hinsi : UInt8) (knj rest : Bytes) : Prop :=
  ∃ hl b hr kl k kr, t.hinsi = hl ++ b :: hr ∧ b.hinsi = hinsi ∧ b.kanji = kl ++ k :: kr ∧
    knj <+: knjBytes (k :: kr) ++ hinsiBlkTerm :: (hinsiBytes hr ++ rest)

/-- Of a word they do so in one string. -/
theorem DouonBlk.meets_iff_shadows {t : DouonBlk} {w : Word} (rest : Bytes) :
    t.Meets w.hinsi w.kanji rest ↔ t.Shadows w := by
  have hpre := fun k r => prefix_knjBytes_iff w.isKnjStr.end_notMem k r
  constructor
  · rintro ⟨hl, b, hr, kl, k, kr, hb, hcode, hk, hp⟩
    exact ⟨b, by simp [hb], hcode, k, by simp [hk], (hpre _ _ _).mp hp⟩
  · rintro ⟨b, hb, hcode, k, hk, hp⟩
    obtain ⟨hl, hr, hsplit⟩ := List.append_of_mem hb
    obtain ⟨kl, kr, hks⟩ := List.append_of_mem hk
    exact ⟨hl, b, hr, kl, k, kr, hsplit, hcode, hks, (hpre _ _ _).mpr hp⟩

/-- Where no two terminators follow each other, the end of a string that ends with one is not
passed into a segment's tail. -/
theorem prefix_append_tail_iff {knj x tail : Bytes}
    (hapart : ¬ [hinsiBlkTerm, hinsiBlkTerm] <:+: knj) (htail : IsTail tail) :
    knj <+: x ++ hinsiBlkTerm :: tail ↔ knj <+: x ++ [hinsiBlkTerm] := by
  constructor
  · intro h
    cases tail with
    | nil => exact h
    | cons c tail =>
        have hc : c = hinsiBlkTerm := htail
        rw [hc, ← List.singleton_append, ← List.append_assoc] at h
        rcases List.prefix_or_prefix_of_prefix h (List.prefix_append _ _) with hle | ⟨y, rfl⟩
        · exact hle
        · rw [List.prefix_append_right_inj] at h
          cases y with
          | nil => simp
          | cons d y =>
              obtain rfl := (List.cons_prefix_cons.mp h).1
              exact absurd ⟨x, y, by simp⟩ hapart
  · intro h
    exact h.trans ⟨tail, by simp⟩

/-- Grammar blocks end with a terminator, and so do the blocks of a segment. -/
theorem exists_hinsiBytes_concat {hs : List HinsiBlk} (hne : hs ≠ []) :
    ∃ x, hinsiBytes hs = x ++ [hinsiBlkTerm] := by
  obtain ⟨hs, h, rfl⟩ := (List.eq_nil_or_concat' hs).resolve_left hne
  refine ⟨hinsiBytes hs ++ h.hinsi :: knjBytes h.kanji, ?_⟩
  simp [hinsiBytes_append, HinsiBlk.bytes]

theorem exists_douonBytes_concat (prev : Bytes) {ts : List DouonBlk} (hne : ts ≠ []) :
    ∃ x, douonBytes prev ts = x ++ [hinsiBlkTerm] := by
  obtain ⟨ts, t, rfl⟩ := (List.eq_nil_or_concat' ts).resolve_left hne
  obtain ⟨x, hx⟩ := exists_hinsiBytes_concat t.hinsi_ne
  refine ⟨douonBytes prev ts ++ (setSize (t.size (lastYomi prev ts)) (t.plen (lastYomi prev ts))
    (t.nlen (lastYomi prev ts)) ++ (t.yomi.drop (t.plen (lastYomi prev ts)) ++ x)), ?_⟩
  rw [douonBytes_append, douonBytes, douonBytes, DouonBlk.bytes, DouonBlk.body_eq, hx]
  simp only [List.append_nil, List.append_assoc]

theorem exists_concat (hr : List HinsiBlk) (prev : Bytes) (r : List DouonBlk) :
    ∃ x, hinsiBlkTerm :: (hinsiBytes hr ++ douonBytes prev r) = x ++ [hinsiBlkTerm] := by
  by_cases hne : r = []
  · subst hne
    rw [douonBytes, List.append_nil]
    by_cases hne' : hr = []
    · exact ⟨[], by rw [hne', hinsiBytes_nil]; rfl⟩
    · obtain ⟨x, hx⟩ := exists_hinsiBytes_concat hne'
      exact ⟨hinsiBlkTerm :: x, by rw [hx, List.cons_append]⟩
  · obtain ⟨x, hx⟩ := exists_douonBytes_concat prev hne
    exact ⟨hinsiBlkTerm :: (hinsiBytes hr ++ x), by rw [hx, List.cons_append, List.append_assoc]⟩

/-- What is behind the last block of its segment does not matter. -/
theorem DouonBlk.meets_tail_iff {t : DouonBlk} {hinsi : UInt8} {knj tail : Bytes}
    (hapart : ¬ [hinsiBlkTerm, hinsiBlkTerm] <:+: knj) (htail : IsTail tail)
    (r : List DouonBlk) :
    t.Meets hinsi knj (douonBytes t.yomi r ++ tail) ↔ t.Meets hinsi knj (douonBytes t.yomi r) := by
  have hsame : ∀ (ks : List Bytes) (hr : List HinsiBlk),
      knj <+: knjBytes ks ++ hinsiBlkTerm :: (hinsiBytes hr ++ (douonBytes t.yomi r ++ tail)) ↔
        knj <+: knjBytes ks ++ hinsiBlkTerm :: (hinsiBytes hr ++ douonBytes t.yomi r) := by
    intro ks hr
    obtain ⟨x, hx⟩ := exists_concat hr t.yomi r
    have hpre := prefix_append_tail_iff (x := knjBytes ks ++ x) hapart htail
    rw [List.append_assoc, List.append_assoc, ← hx] at hpre
    rw [← hpre]
    have hcons : hinsiBlkTerm :: (hinsiBytes hr ++ (douonBytes t.yomi r ++ tail)) =
        x ++ hinsiBlkTerm :: tail := by
      rw [← List.append_assoc, ← List.cons_append, hx, List.append_assoc, List.singleton_append]
    rw [hcons]
  constructor
  · rintro ⟨hl, b, hr, kl, k, kr, hb, hcode, hk, hp⟩
    exact ⟨hl, b, hr, kl, k, kr, hb, hcode, hk, (hsame _ _).mp hp⟩
  · rintro ⟨hl, b, hr, kl, k, kr, hb, hcode, hk, hp⟩
    exact ⟨hl, b, hr, kl, k, kr, hb, hcode, hk, (hsame _ _).mpr hp⟩

/-- Where the grammar blocks of `t` start. -/
def bodyOfs (l : List DouonBlk) (t : DouonBlk) : ℕ :=
  blkOfs l + (douonBlkSizeNumber + t.nlen (lastYomi [] l))

/-- The place of a word behind the blocks `l` and in the block `old` of its reading, if
there is one: a homophone block of its own, a grammar block of its own at the end of `old`,
or the end of one of the grammar blocks. -/
inductive IsPos (w : Word) (l : List DouonBlk) : Option DouonBlk → AddPos → Prop
  | new : IsPos w l none ⟨blkOfs l, blkOfs l, 0, 0, lcp w.yomi (lastYomi [] l)⟩
  | hinsi {t : DouonBlk} {saml : ℕ} (hne : ∀ b ∈ t.hinsi, b.hinsi ≠ w.hinsi) :
      IsPos w l (some t) ⟨blkOfs (l ++ [t]), blkOfs l, blkOfs (l ++ [t]), 0, saml⟩
  | kanji {t : DouonBlk} {saml hns knj : ℕ} {hl hr : List HinsiBlk} {b : HinsiBlk}
      (ht : t.hinsi = hl ++ b :: hr) (hne : ∀ b' ∈ hl, b'.hinsi ≠ w.hinsi)
      (hb : b.hinsi = w.hinsi) (hhns : hns ≠ 0)
      (hknj : knj = bodyOfs l t + ((hinsiBytes hl).length + 1 + (knjBytes b.kanji).length)) :
      IsPos w l (some t) ⟨knj, blkOfs l, hns, knj, saml⟩

theorem addPlace_new {w : Word} {l r : List DouonBlk} {tail : Bytes} (idx kptr : Bytes)
    (hc : Coded [] (l ++ r)) (hlt : ∀ t ∈ l, t.yomi < w.yomi) (hgt : ∀ t ∈ r, w.yomi < t.yomi)
    (htail : IsTail tail) :
    addPlace idx w.yomi kptr w.hinsi (segBytes (l ++ r) tail) =
      some ⟨blkOfs l, blkOfs l, 0, 0, lcp w.yomi (lastYomi [] l)⟩ := by
  have hk := srchkana_notFound idx w.isYomi.ne_zero hc hlt hgt htail
  simp only [addPlace, hk, ofsOf_segBytes, if_true]

/-- The last of some strings that starts with the code string. -/
theorem exists_last_prefix {ks : List Bytes} {knj : Bytes} (h : ∃ k ∈ ks, knj <+: k) :
    ∃ l k r, ks = l ++ k :: r ∧ knj <+: k ∧ ∀ k' ∈ r, ¬ knj <+: k' := by
  induction ks with
  | nil => simp at h
  | cons k ks ih =>
      by_cases hks : ∃ k' ∈ ks, knj <+: k'
      · obtain ⟨l, k', r, rfl, hk', hr⟩ := ih hks
        exact ⟨k :: l, k', r, rfl, hk', hr⟩
      · obtain ⟨k', hk', hpre⟩ := h
        rcases List.mem_cons.mp hk' with rfl | hk'
        · exact ⟨[], k', ks, rfl, hpre, fun k'' hk'' hp => hks ⟨k'', hk'', hp⟩⟩
        · exact absurd ⟨k', hk', hpre⟩ hks

/-- The last place where a list is cut with a property. -/
theorem exists_last_split {α : Type*} {p : α → List α → Prop} {ks : List α}
    (h : ∃ l k r, ks = l ++ k :: r ∧ p k r) :
    ∃ l k r, ks = l ++ k :: r ∧ p k r ∧ ∀ l' k' r', r = l' ++ k' :: r' → ¬ p k' r' := by
  induction ks with
  | nil =>
      obtain ⟨l, k, r, he, -⟩ := h
      simp at he
  | cons k ks ih =>
      by_cases hks : ∃ l k' r, ks = l ++ k' :: r ∧ p k' r
      · obtain ⟨l, k', r, rfl, hp, hr⟩ := ih hks
        exact ⟨k :: l, k', r, rfl, hp, hr⟩
      · obtain ⟨l, k', r, he, hp⟩ := h
        cases l with
        | nil =>
            obtain ⟨rfl, rfl⟩ := List.cons.inj he
            exact ⟨[], k, ks, rfl, hp, fun l' k' r' hsplit hp' => hks ⟨l', k', r', hsplit, hp'⟩⟩
        | cons c l => exact absurd ⟨l, k', r, (List.cons.inj he).2, hp⟩ hks

section Old

variable {w : Word} {l r : List DouonBlk} {t : DouonBlk} {tail : Bytes}

/-- The code of a grammar block is that of no other one. -/
theorem DouonBlk.IsUsr.ne_of_split (hu : t.IsUsr) {hl hr : List HinsiBlk} {b : HinsiBlk}
    (ht : t.hinsi = hl ++ b :: hr) :
    (∀ b' ∈ hl, b'.hinsi ≠ b.hinsi) ∧ ∀ b' ∈ hr, b'.hinsi ≠ b.hinsi := by
  have hnd := hu.nodup
  rw [ht, List.map_append, List.map_cons, List.nodup_append, List.nodup_cons] at hnd
  exact ⟨fun b' hb' he => hnd.2.2 _ (List.mem_map_of_mem hb') _ (by simp) he,
    fun b' hb' he => hnd.2.1.1 (he ▸ List.mem_map_of_mem hb')⟩

/-- A code occurs once, so a block is cut at it in one way. -/
theorem DouonBlk.IsUsr.split_unique (hu : t.IsUsr) {hl hr hl' hr' : List HinsiBlk}
    {b b' : HinsiBlk} (ht : t.hinsi = hl ++ b :: hr) (ht' : t.hinsi = hl' ++ b' :: hr')
    (hb : b.hinsi = b'.hinsi) : hl = hl' ∧ b = b' ∧ hr = hr' := by
  have hl_ne := (hu.ne_of_split ht).1
  have hl_ne' := (hu.ne_of_split ht').1
  rcases List.append_eq_append_iff.mp (ht.symm.trans ht') with ⟨x, rfl, hx⟩ | ⟨x, rfl, hx⟩
  · cases x with
    | nil =>
        obtain ⟨rfl, rfl⟩ := List.cons.inj hx
        simp
    | cons c x =>
        obtain ⟨rfl, -⟩ := List.cons.inj hx
        exact absurd hb (hl_ne' b (by simp))
  · cases x with
    | nil =>
        obtain ⟨rfl, rfl⟩ := List.cons.inj hx
        simp
    | cons c x =>
        obtain ⟨rfl, -⟩ := List.cons.inj hx
        exact absurd hb.symm (hl_ne b' (by simp))

theorem addPlace_old (idx kptr : Bytes) (hc : Coded [] (l ++ t :: r))
    (hlt : ∀ u ∈ l, u.yomi < w.yomi) (ht : t.yomi = w.yomi) (hu : t.IsUsr)
    (htail : IsTail tail) :
    (t.Meets w.hinsi kptr (douonBytes t.yomi r ++ tail) →
      addPlace idx w.yomi kptr w.hinsi (segBytes (l ++ t :: r) tail) = none) ∧
    (¬ t.Meets w.hinsi kptr (douonBytes t.yomi r ++ tail) → ∃ pos,
      addPlace idx w.yomi kptr w.hinsi (segBytes (l ++ t :: r) tail) = some pos ∧
        IsPos w l (some t) pos) := by
  have hk := srchkana_found idx w.isYomi.ne_zero hc hlt ht htail
  have hs := (coded_append.mp hc).2.2.1
  have hne : (l ++ t :: r).length ≠ 0 := by simp
  have hdou : douonBytes (lastYomi [] l) (t :: r) ++ tail =
      t.bytes (lastYomi [] l) ++ (douonBytes t.yomi r ++ tail) := by
    simp [douonBytes]
  have hofs : ofsOf (segBytes (l ++ t :: r) tail)
      (douonBytes (lastYomi [] l) (t :: r) ++ tail) = blkOfs l := ofsOf_segBytes _ _ _
  rcases w.split_hinsi t.hinsi with hno | ⟨hl, b, hr, hsplit, hhl, hb⟩
  · have hg := srchgram_notFound hs hu hno (douonBytes t.yomi r ++ tail)
    have hend : ofsOf (segBytes (l ++ t :: r) tail) (douonBytes t.yomi r ++ tail) =
        blkOfs (l ++ [t]) := by
      have h := ofsOf_segBytes (l ++ [t]) r tail
      rwa [List.append_assoc, List.singleton_append, lastYomi_concat] at h
    constructor
    · rintro ⟨hl, b, hr, kl, k, kr, hb, he, -⟩
      exact absurd he (hno b (by simp [hb]))
    · intro _
      refine ⟨_, ?_, @IsPos.hinsi w l t w.yomi.length hno⟩
      rw [hdou] at hk hofs
      simp only [addPlace, hk, hg, if_neg hne, hend, hofs, if_true]
  · have hg := srchgram_found hs hu hsplit hb (douonBytes t.yomi r ++ tail)
    have hne' : t.hinsi.length ≠ 0 := by simp [hsplit]
    have hh : hinsiBytes (b :: hr) ++ (douonBytes t.yomi r ++ tail) =
        b.bytes ++ (hinsiBytes hr ++ (douonBytes t.yomi r ++ tail)) := by simp
    rw [hdou] at hk hofs
    rw [hh] at hg
    by_cases hsh : ∃ kl k kr, b.kanji = kl ++ k :: kr ∧ kptr <+: knjBytes (k :: kr) ++
        hinsiBlkTerm :: (hinsiBytes hr ++ (douonBytes t.yomi r ++ tail))
    · obtain ⟨kl, k, kr, hke, hpre, hkr⟩ := exists_last_split hsh
      have hf := srchkanji_last hke (hinsiBytes hr ++ (douonBytes t.yomi r ++ tail)) hpre hkr
      have hhead := (b.isKnjStr k (by simp [hke])).headD_ne kr
        (hinsiBlkTerm :: (hinsiBytes hr ++ (douonBytes t.yomi r ++ tail)))
      refine ⟨fun _ => ?_, fun h => absurd ⟨hl, b, hr, kl, k, kr, hsplit, hb, hke, hpre⟩ h⟩
      simp only [addPlace, hk, hg, if_neg hne, if_neg hne', hf]
      rw [if_pos hhead]
    · have hf := srchkanji_none (hinsiBytes hr ++ (douonBytes t.yomi r ++ tail))
        fun kl k kr hke hpre => hsh ⟨kl, k, kr, hke, hpre⟩
      obtain ⟨hns, hhns⟩ : ∃ n, n = ofsOf (segBytes (l ++ t :: r) tail)
          (b.bytes ++ (hinsiBytes hr ++ (douonBytes t.yomi r ++ tail))) := ⟨_, rfl⟩
      obtain ⟨knj, hknj⟩ : ∃ n, n = ofsOf (segBytes (l ++ t :: r) tail)
          (hinsiBlkTerm :: (hinsiBytes hr ++ (douonBytes t.yomi r ++ tail))) := ⟨_, rfl⟩
      have hlen := length_segBytes (l ++ t :: r) tail
      simp only [blkOfs_append, length_douonBytes_cons, DouonBlk.size, douonBlkSizeNumber,
        DouonBlk.body_eq, hsplit, hinsiBytes_append, hinsiBytes_cons, List.length_append,
        HinsiBlk.bytes, List.length_cons, List.length_nil] at hlen
      have hpos := blkOfs_pos l
      refine ⟨?_, fun _ => ⟨⟨knj, blkOfs l, hns, knj, w.yomi.length⟩, ?_,
        .kanji hsplit hhl hb ?_ ?_⟩⟩
      · rintro ⟨hl', b', hr', kl, k, kr, hsplit', he, hke, hpre⟩
        obtain ⟨-, rfl, rfl⟩ := hu.split_unique hsplit hsplit' (he.trans hb.symm).symm
        exact absurd ⟨kl, k, kr, hke, hpre⟩ hsh
      · simp only [addPlace, hk, hg, if_neg hne, if_neg hne', hf, hofs, List.headD_cons,
          ne_eq, not_true_eq_false, if_false, hhns, hknj]
      · rw [hhns, ofsOf]
        simp only [hlen, HinsiBlk.bytes, List.length_append, List.length_cons, List.length_nil]
        omega
      · rw [hknj, ofsOf]
        simp only [hlen, bodyOfs, douonBlkSizeNumber, List.length_append, List.length_cons]
        omega

end Old

/-! ## The sizes `adddic` computes -/

/-- How many codes the first of the blocks `r` gives up to a new block in front of it. -/
def gain (w : Word) (prev : Bytes) : Option DouonBlk → List DouonBlk → ℕ
  | none, u :: _ => u.plen w.yomi - u.plen prev
  | _, _ => 0

/-- A word in front of the blocks `r` takes from them what they share with it. -/
theorem length_douonBytes_gain {w : Word} {prev : Bytes} {r : List DouonBlk} (hp : prev ≤ w.yomi)
    (hgt : ∀ t ∈ r, w.yomi < t.yomi) :
    (douonBytes w.yomi r).length + gain w prev none r = (douonBytes prev r).length := by
  cases r with
  | nil => rfl
  | cons u r =>
      have h₁ := plen_mono hp (hgt u (by simp)).le
      have h₂ := size_add_plen u prev w.yomi
      simp only [length_douonBytes_cons, gain]
      omega

theorem gain_le {w : Word} {prev : Bytes} {r : List DouonBlk} (hp : prev ≤ w.yomi)
    (hgt : ∀ t ∈ r, w.yomi < t.yomi) : gain w prev none r ≤ (w.into none).nlen prev := by
  cases r with
  | nil => exact Nat.zero_le _
  | cons u r =>
      have h₁ := (w.into none).plen_add_nlen prev
      have h₂ := lcp_eq_min hp (hgt u (by simp)).le
      have h₃ := lcp_le_left w.yomi u.yomi
      have h₄ : (w.into none).yomi = w.yomi := rfl
      simp only [DouonBlk.plen, h₄] at h₁
      simp only [gain, DouonBlk.plen, DouonBlk.nlen, h₄]
      omega

theorem length_douonBytes_some (prev : Bytes) (t : DouonBlk) :
    (douonBytes prev (some t).toList).length = t.size prev := by
  simp [douonBytes]

/-- What the block of the word has grown by is not less than what the next one gives up. -/
theorem oldsiz_add_gain_le {w : Word} {prev : Bytes} (old : Option DouonBlk) {r : List DouonBlk}
    (hp : prev ≤ w.yomi) (hgt : ∀ t ∈ r, w.yomi < t.yomi) :
    (douonBytes prev old.toList).length + gain w prev old r ≤ (w.into old).size prev := by
  cases old with
  | none =>
      have h := gain_le hp hgt
      simp only [Option.toList_none, douonBytes, List.length_nil, DouonBlk.size]
      omega
  | some t =>
      have hg : gain w prev (some t) r = 0 := by cases r <;> rfl
      have hb := Word.length_addTo (w := w) t.hinsi
      have hn : (w.into (some t)).nlen prev = t.nlen prev := rfl
      simp only [length_douonBytes_some, hg, DouonBlk.size, hn]
      simp only [DouonBlk.body_eq, Word.into]
      omega

/-- How much the used part of a segment grows by the word. -/
theorem blkOfs_into {w : Word} {l r : List DouonBlk} {old : Option DouonBlk}
    (hlt : ∀ t ∈ l, t.yomi < w.yomi) (hgt : ∀ t ∈ r, w.yomi < t.yomi)
    (hold : ∀ t ∈ old, t.yomi = w.yomi) :
    blkOfs (l ++ w.into old :: r) + ((douonBytes (lastYomi [] l) old.toList).length +
        gain w (lastYomi [] l) old r) =
      blkOfs (l ++ (old.toList ++ r)) + (w.into old).size (lastYomi [] l) := by
  have hy := Word.into_yomi hold
  rw [blkOfs_append, blkOfs_append, length_douonBytes_cons, hy]
  cases old with
  | none =>
      have h := length_douonBytes_gain (lastYomi_le hlt) hgt
      simp only [Option.toList_none, douonBytes, List.length_nil, List.nil_append]
      omega
  | some t =>
      have hg : gain w (lastYomi [] l) (some t) r = 0 := by cases r <;> rfl
      have ht : t.yomi = w.yomi := hold t rfl
      rw [length_douonBytes_some, hg, Option.toList_some, List.singleton_append,
        length_douonBytes_cons, ht]
      omega

section Sizes

variable {w : Word} {l r : List DouonBlk} {old : Option DouonBlk} {pos : AddPos} {tail : Bytes}

theorem length_wordBytes_none (w : Word) : (w.into none).body.length = w.kanji.length + 3 := by
  rw [DouonBlk.body_eq]
  simp only [Word.into, Word.addTo, hinsiBytes_cons, hinsiBytes_nil, List.append_nil,
    Word.bytes_hinsiBlk, List.length_cons, List.length_append, List.length_nil]

theorem Word.length_kanji_pos (w : Word) : 0 < w.kanji.length :=
  List.length_pos_of_ne_nil w.isKnjStr.ne_nil

/-- How much a homophone block grows by the word. -/
theorem IsPos.length_body {t : DouonBlk} (h : IsPos w l (some t) pos) :
    (w.into (some t)).body.length =
      t.body.length + ((if pos.knjofs = 0 then 2 else 0) + (w.kanji.length + 1)) := by
  cases h with
  | hinsi hne =>
      simp only [DouonBlk.body_eq, Word.into, Word.addTo_of_ne hne, hinsiBytes_append,
        hinsiBytes_cons, hinsiBytes_nil, Word.bytes_hinsiBlk, List.length_append,
        List.length_cons, List.length_nil, if_true]
      omega
  | @kanji _ _ hns knj hl hr b ht hne hb hhns hknj =>
      have hz : knj ≠ 0 := by
        have := blkOfs_pos l
        simp only [bodyOfs] at hknj
        omega
      simp only [DouonBlk.body_eq, Word.into, ht, Word.addTo_append hne hb, hinsiBytes_append,
        hinsiBytes_cons, Word.length_bytes_add, List.length_append, if_neg hz]
      omega

theorem IsPos.newsiz_eq (h : IsPos w l old pos)
    (hs : ∀ t ∈ old, t.size (lastYomi [] l) ≤ maxDouonBlk) :
    pos.newsiz w.yomi w.kanji (segBytes (l ++ (old.toList ++ r)) tail) =
      (w.into old).size (lastYomi [] l) := by
  have hk := w.length_kanji_pos
  have hk' : w.kanji.length ≠ 0 := by omega
  cases old with
  | none =>
      cases h
      have hlen := (w.into none).plen_add_nlen (lastYomi [] l)
      have hbody := length_wordBytes_none w
      have hplen : (w.into none).plen (lastYomi [] l) = lcp w.yomi (lastYomi [] l) := lcp_comm _ _
      have hyomi : (w.into none).yomi = w.yomi := rfl
      rw [hplen, hyomi] at hlen
      simp only [AddPos.newsiz, if_true, if_pos hk', DouonBlk.size, hbody]
      omega
  | some t =>
      have hbody := h.length_body
      have hdrop : (segBytes (l ++ ((some t).toList ++ r)) tail).drop pos.douofs =
          t.bytes (lastYomi [] l) ++ (douonBytes t.yomi r ++ tail) := by
        have hd : pos.douofs = blkOfs l := by cases h <;> rfl
        rw [hd, drop_segBytes]
        simp [douonBytes]
      have hz : pos.hnsofs ≠ 0 := by
        cases h with
        | hinsi => exact (blkOfs_pos _).ne'
        | kanji ht hne hb hhns hknj => exact hhns
      have hn : (w.into (some t)).nlen (lastYomi [] l) = t.nlen (lastYomi [] l) := rfl
      rw [AddPos.newsiz, if_neg hz, hdrop, getsize_bytes (hs t rfl), if_pos hk']
      simp only [DouonBlk.size, hbody, hn]
      omega

theorem IsPos.oldsiz_eq (h : IsPos w l old pos)
    (hs : ∀ t ∈ old, t.size (lastYomi [] l) ≤ maxDouonBlk) :
    pos.oldsiz (segBytes (l ++ (old.toList ++ r)) tail) =
      (douonBytes (lastYomi [] l) old.toList).length := by
  cases old with
  | none => cases h; rfl
  | some t =>
      have hdrop : (segBytes (l ++ ((some t).toList ++ r)) tail).drop pos.douofs =
          t.bytes (lastYomi [] l) ++ (douonBytes t.yomi r ++ tail) := by
        have hd : pos.douofs = blkOfs l := by cases h <;> rfl
        rw [hd, drop_segBytes]
        simp [douonBytes]
      have hz : pos.hnsofs ≠ 0 := by
        cases h with
        | hinsi => exact (blkOfs_pos _).ne'
        | kanji ht hne hb hhns hknj => exact hhns
      rw [AddPos.oldsiz, if_neg hz, hdrop, getsize_bytes (hs t rfl)]
      simp [douonBytes]

theorem IsPos.nxtask_eq (h : IsPos w l old pos) (hlt : ∀ t ∈ l, t.yomi < w.yomi)
    (hgt : ∀ t ∈ r, w.yomi < t.yomi) (hc : Coded [] (l ++ (old.toList ++ r)))
    (htail : IsTail tail) :
    pos.nxtask w.yomi (segBytes (l ++ (old.toList ++ r)) tail) =
      gain w (lastYomi [] l) old r := by
  cases old with
  | none =>
      cases h
      rw [AddPos.nxtask, if_pos rfl, drop_segBytes]
      cases r with
      | nil =>
          rw [calNextym]
          simp only [Option.toList_none, List.append_nil, douonBytes, List.nil_append,
            htail.segend, if_true, gain]
      | cons u r =>
          have hs := (coded_append.mp hc).2.2.1
          have hcal := calNextym_bytes w.isYomi.ne_zero hs (lastYomi_le hlt) (hgt u (by simp))
            (douonBytes u.yomi r ++ tail)
          simp only [Option.toList_none, List.nil_append, douonBytes, List.append_assoc, gain]
          omega
  | some t =>
      have hz : pos.hnsofs ≠ 0 := by
        cases h with
        | hinsi => exact (blkOfs_pos _).ne'
        | kanji ht hne hb hhns hknj => exact hhns
      rw [AddPos.nxtask, if_neg hz]
      cases r <;> rfl

end Sizes

/-! ## The new bytes of a segment -/

section StoreWord

variable {w : Word} {l r : List DouonBlk} {t : DouonBlk} {old : Option DouonBlk} {pos : AddPos}
  {tail : Bytes}

/-- The block behind a new one is stored as one behind the new reading, and the last bytes of
the segment are there twice. -/
theorem shrinkNext_eq (tail : Bytes) (hlt : ∀ t ∈ l, t.yomi < w.yomi)
    (hgt : ∀ t ∈ r, w.yomi < t.yomi)
    (hc : Coded [] (l ++ r)) :
    ∃ stale : Bytes, stale.length = gain w (lastYomi [] l) none r ∧
      shrinkNext (segBytes (l ++ r) tail).length (segBytes (l ++ r) tail) (blkOfs l)
          (gain w (lastYomi [] l) none r) =
        segBytes l [] ++ (douonBytes w.yomi r ++ (tail ++ stale)) := by
  have hp := lastYomi_le hlt
  by_cases hz : gain w (lastYomi [] l) none r = 0
  · refine ⟨[], hz.symm, ?_⟩
    have hsame : douonBytes w.yomi r = douonBytes (lastYomi [] l) r := by
      cases r with
      | nil => rfl
      | cons u r =>
          have hmono := plen_mono hp (hgt u (by simp)).le
          have hplen : u.plen (lastYomi [] l) = u.plen w.yomi := by
            simp only [gain] at hz
            omega
          have hbytes : u.bytes (lastYomi [] l) = u.bytes w.yomi := by
            simp only [DouonBlk.bytes, DouonBlk.size, DouonBlk.nlen, hplen]
          simp only [douonBytes, hbytes]
    rw [shrinkNext, if_pos hz, segBytes_append, hsame, List.append_nil]
  · cases r with
    | nil => exact absurd rfl hz
    | cons u r =>
        obtain ⟨hpu, hs, -⟩ := (coded_append.mp hc).2
        have hmono := plen_mono hp (hgt u (by simp)).le
        have hsize := size_add_plen u (lastYomi [] l) w.yomi
        have hplen := u.plen_add_nlen (lastYomi [] l)
        have hplen' := u.plen_add_nlen w.yomi
        obtain ⟨g, hg⟩ : ∃ g, gain w (lastYomi [] l) none (u :: r) = g := ⟨_, rfl⟩
        have hgain : u.plen (lastYomi [] l) + g = u.plen w.yomi := by
          simp only [gain] at hg
          omega
        obtain ⟨y, hy⟩ : ∃ y, y = u.yomi.drop (u.plen (lastYomi [] l)) := ⟨_, rfl⟩
        have hyl : y.length = u.nlen (lastYomi [] l) := by
          rw [hy, List.length_drop]
          rfl
        have hyd : y.drop g = u.yomi.drop (u.plen w.yomi) := by
          rw [hy, List.drop_drop, hgain]
        have hbuf : segBytes (l ++ u :: r) tail =
            segBytes l [] ++ (setSize (u.size (lastYomi [] l)) (u.plen (lastYomi [] l))
              (u.nlen (lastYomi [] l)) ++ (y ++ (u.body ++ (douonBytes u.yomi r ++ tail)))) := by
          rw [segBytes_append, hy]
          simp [douonBytes, DouonBlk.bytes]
        have hdou : (segBytes (l ++ u :: r) tail).drop (blkOfs l) =
            u.bytes (lastYomi [] l) ++ (douonBytes u.yomi r ++ tail) := by
          rw [drop_segBytes]
          simp [douonBytes]
        have hhead : setSize (u.size (lastYomi [] l) - g) (u.plen (lastYomi [] l) + g)
            (u.nlen (lastYomi [] l) - g) =
              setSize (u.size w.yomi) (u.plen w.yomi) (u.nlen w.yomi) := by
          rw [hgain]
          congr 1 <;> omega
        obtain ⟨stale, hstale, hmove⟩ := exists_copyAsc_header (segBytes l [])
          (setSize (u.size (lastYomi [] l)) (u.plen (lastYomi [] l)) (u.nlen (lastYomi [] l)))
          (setSize (u.size w.yomi) (u.plen w.yomi) (u.nlen w.yomi)) y
          (u.body ++ (douonBytes u.yomi r ++ tail)) (g := g) rfl (by omega)
        rw [← hbuf, length_segFront, length_setSize, hyd] at hmove
        refine ⟨stale, hstale.trans hg.symm, ?_⟩
        rw [shrinkNext, if_neg hz, hg]
        simp only [hdou, getsize_bytes hs, getplen_bytes hs, getnlen_bytes hs, hhead, hmove]
        simp [douonBytes, DouonBlk.bytes]

/-- The segment with the word in it. What was unused shrinks by what the word takes. -/
theorem storeWord_new (hlt : ∀ t ∈ l, t.yomi < w.yomi) (hgt : ∀ t ∈ r, w.yomi < t.yomi)
    (hc : Coded [] (l ++ r))
    (hroom : blkOfs (l ++ w.into none :: r) ≤ (segBytes (l ++ r) tail).length) :
    storeWord (segBytes (l ++ r) tail).length (segBytes (l ++ r) tail) w.yomi w.kanji w.hinsi
        ⟨blkOfs l, blkOfs l, 0, 0, lcp w.yomi (lastYomi [] l)⟩
        ((w.into none).size (lastYomi [] l)) 0 (gain w (lastYomi [] l) none r) =
      segBytes (l ++ w.into none :: r)
        (tail.take ((segBytes (l ++ r) tail).length - blkOfs (l ++ w.into none :: r))) := by
  obtain ⟨stale, hstale, hshrink⟩ := shrinkNext_eq tail hlt hgt hc
  have hk := w.length_kanji_pos
  have hplen : (w.into none).plen (lastYomi [] l) = lcp w.yomi (lastYomi [] l) := lcp_comm _ _
  have hnew : setSize ((w.into none).size (lastYomi [] l)) (lcp w.yomi (lastYomi [] l))
      (w.yomi.length - lcp w.yomi (lastYomi [] l)) ++
        w.yomi.drop (lcp w.yomi (lastYomi [] l)) ++
        wordBytes ⟨blkOfs l, blkOfs l, 0, 0, lcp w.yomi (lastYomi [] l)⟩ w.kanji w.hinsi =
      (w.into none).bytes (lastYomi [] l) := by
    have hbody : (w.into none).body =
        wordBytes ⟨blkOfs l, blkOfs l, 0, 0, lcp w.yomi (lastYomi [] l)⟩ w.kanji w.hinsi := by
      simp [DouonBlk.body_eq, Word.into, Word.addTo, Word.bytes_hinsiBlk, wordBytes, hk]
    rw [DouonBlk.bytes, DouonBlk.nlen, hplen, hbody]
    simp only [List.append_assoc]
    rfl
  have hgain := length_douonBytes_gain (r := r) (lastYomi_le hlt) hgt
  have hgle := gain_le (r := r) (lastYomi_le hlt) hgt
  have hsize : (w.into none).nlen (lastYomi [] l) ≤ (w.into none).size (lastYomi [] l) := by
    simp only [DouonBlk.size]
    omega
  have hy : (w.into none).yomi = w.yomi := rfl
  have hlen : (segBytes (l ++ r) tail).length =
      blkOfs l + (douonBytes (lastYomi [] l) r).length + tail.length := by
    rw [length_segBytes, blkOfs_append]
  have hlen' : blkOfs (l ++ w.into none :: r) = blkOfs l +
      ((w.into none).size (lastYomi [] l) + (douonBytes w.yomi r).length) := by
    rw [blkOfs_append, length_douonBytes_cons, hy]
  obtain ⟨y, hy'⟩ : ∃ y, y = douonBytes w.yomi r ++ (tail ++ stale) := ⟨_, rfl⟩
  have hyl : blkOfs l + y.length = (segBytes (l ++ r) tail).length := by
    rw [hy']
    simp only [List.length_append, hstale]
    omega
  have hopen := overwrite_copyDesc_open (segBytes l []) y ((w.into none).bytes (lastYomi [] l))
    (by rw [DouonBlk.length_bytes]; omega)
  rw [length_segFront, DouonBlk.length_bytes, hyl] at hopen
  have hcount : (segBytes (l ++ r) tail).length - blkOfs l -
      (w.into none).size (lastYomi [] l) =
        y.length - (w.into none).size (lastYomi [] l) := by omega
  have htake : y.take (y.length - (w.into none).size (lastYomi [] l)) =
      douonBytes w.yomi r ++
        tail.take ((segBytes (l ++ r) tail).length - blkOfs (l ++ w.into none :: r)) := by
    rw [hy', List.take_append, List.take_of_length_le (by simp only [List.length_append]; omega),
      List.take_append_of_le_length (by simp only [List.length_append]; omega)]
    congr 2
    simp only [List.length_append, hstale]
    omega
  rw [storeWord]
  simp only [hshrink, ← hy', Nat.sub_zero, if_true, hcount, hnew, hopen, htake]
  rw [segBytes_append l (w.into none :: r)]
  simp only [douonBytes, hy, List.append_assoc]

/-- Where the bytes of the word go inside the body of the block of its reading. -/
theorem IsPos.split_body (h : IsPos w l (some t) pos) :
    ∃ front back, t.body = front ++ back ∧ pos.dstofs = bodyOfs l t + front.length ∧
      (w.into (some t)).body = front ++ (wordBytes pos w.kanji w.hinsi ++ back) := by
  have hk := w.length_kanji_pos
  cases h with
  | hinsi hne =>
      refine ⟨t.body, [], by simp, ?_, ?_⟩
      · simp only [blkOfs_concat, bodyOfs, DouonBlk.size]
        omega
      · simp [DouonBlk.body_eq, Word.into, Word.addTo_of_ne hne, hinsiBytes_append,
          Word.bytes_hinsiBlk, wordBytes, hk]
  | @kanji _ _ hns knj hl hr b ht hne hb hhns hknj =>
      have hz : knj ≠ 0 := by
        have := blkOfs_pos l
        simp only [bodyOfs] at hknj
        omega
      refine ⟨hinsiBytes hl ++ b.hinsi :: knjBytes b.kanji, hinsiBlkTerm :: hinsiBytes hr,
        ?_, ?_, ?_⟩
      · simp [DouonBlk.body_eq, ht, hinsiBytes_append, HinsiBlk.bytes]
      · simp only [hknj, List.length_append, List.length_cons]
        omega
      · simp [DouonBlk.body_eq, Word.into, ht, Word.addTo_append hne hb, hinsiBytes_append,
          Word.bytes_add, wordBytes, hk, hz]

theorem storeWord_old (h : IsPos w l (some t) pos) (hs : t.size (lastYomi [] l) ≤ maxDouonBlk)
    (hroom : blkOfs (l ++ w.into (some t) :: r) ≤ (segBytes (l ++ t :: r) tail).length) :
    storeWord (segBytes (l ++ t :: r) tail).length (segBytes (l ++ t :: r) tail) w.yomi w.kanji
        w.hinsi pos ((w.into (some t)).size (lastYomi [] l)) (t.size (lastYomi [] l)) 0 =
      segBytes (l ++ w.into (some t) :: r)
        (tail.take ((segBytes (l ++ t :: r) tail).length -
          blkOfs (l ++ w.into (some t) :: r))) := by
  obtain ⟨front, back, hbody, hdst, hbody'⟩ := h.split_body
  obtain ⟨W, hW⟩ : ∃ W, W = wordBytes pos w.kanji w.hinsi := ⟨_, rfl⟩
  rw [← hW] at hbody'
  have hz : pos.hnsofs ≠ 0 := by
    cases h with
    | hinsi => exact (blkOfs_pos _).ne'
    | kanji ht hne hb hhns hknj => exact hhns
  have hdou : pos.douofs = blkOfs l := by cases h <;> rfl
  have hsize : (w.into (some t)).size (lastYomi [] l) =
      t.size (lastYomi [] l) + W.length := by
    have hn : (w.into (some t)).nlen (lastYomi [] l) = t.nlen (lastYomi [] l) := rfl
    simp only [DouonBlk.size, hn, hbody, hbody', List.length_append]
    omega
  have hm : (t.yomi.drop (t.plen (lastYomi [] l)) ++ front).length =
      t.nlen (lastYomi [] l) + front.length := by
    rw [List.length_append, List.length_drop]
    rfl
  have hbuf : segBytes (l ++ t :: r) tail =
      segBytes l [] ++ (setSize (t.size (lastYomi [] l)) (t.plen (lastYomi [] l))
        (t.nlen (lastYomi [] l)) ++ ((t.yomi.drop (t.plen (lastYomi [] l)) ++ front) ++
          (back ++ (douonBytes t.yomi r ++ tail)))) := by
    rw [segBytes_append]
    simp [douonBytes, DouonBlk.bytes, hbody]
  have hlen : (segBytes (l ++ t :: r) tail).length = pos.dstofs +
      (back ++ (douonBytes t.yomi r ++ tail)).length := by
    rw [hbuf, hdst]
    simp only [List.length_append, hm, length_segFront, length_setSize, bodyOfs]
    omega
  have hlen' : blkOfs (l ++ w.into (some t) :: r) + tail.length =
      (segBytes (l ++ t :: r) tail).length + W.length := by
    have hyomi : (w.into (some t)).yomi = t.yomi := rfl
    simp only [length_segBytes, blkOfs_append, length_douonBytes_cons, hsize, hyomi]
    omega
  obtain ⟨⟨z, hz'⟩, hstore⟩ := overwrite_header_open (segBytes l [])
    (setSize (t.size (lastYomi [] l)) (t.plen (lastYomi [] l)) (t.nlen (lastYomi [] l)))
    (setSize ((w.into (some t)).size (lastYomi [] l)) (t.plen (lastYomi [] l))
      (t.nlen (lastYomi [] l))) (t.yomi.drop (t.plen (lastYomi [] l)) ++ front)
    (back ++ (douonBytes t.yomi r ++ tail)) W rfl
    (by simp only [List.length_append]; omega) rfl
  have hdst' : (segBytes l []).length + ((setSize (t.size (lastYomi [] l))
      (t.plen (lastYomi [] l)) (t.nlen (lastYomi [] l))).length +
        (t.yomi.drop (t.plen (lastYomi [] l)) ++ front).length) = pos.dstofs := by
    rw [length_segFront, length_setSize, hm, hdst, bodyOfs]
    omega
  have hcount : (segBytes (l ++ t :: r) tail).length - pos.dstofs - W.length =
      (back ++ (douonBytes t.yomi r ++ tail)).length - W.length := by omega
  have htake : (back ++ (douonBytes t.yomi r ++ tail)).take
      ((back ++ (douonBytes t.yomi r ++ tail)).length - W.length) =
      back ++ (douonBytes t.yomi r ++ tail.take ((segBytes (l ++ t :: r) tail).length -
        blkOfs (l ++ w.into (some t) :: r))) := by
    have hsub : (back ++ (douonBytes t.yomi r ++ tail)).length - W.length =
        back.length + ((douonBytes t.yomi r).length + (tail.length - W.length)) := by
      simp only [List.length_append]
      omega
    have hsub' : (segBytes (l ++ t :: r) tail).length - blkOfs (l ++ w.into (some t) :: r) =
        tail.length - W.length := by omega
    rw [hsub, hsub', List.take_length_add_append, List.take_length_add_append]
  rw [← hbuf, length_segFront] at hz'
  rw [← hbuf, hdst', length_segFront, htake] at hstore
  obtain ⟨-, hp, hn, -⟩ := setSize_spec hs (t.plen_le_max (lastYomi [] l))
    (t.nlen_le_max (lastYomi [] l)) z
  rw [storeWord, shrinkNext, if_pos rfl]
  simp only [if_neg hz, hcount, hdou, ← hW, hsize, Nat.add_sub_cancel_left, hz', hp, hn]
  have hnew : douonBytes (lastYomi [] l) (w.into (some t) :: r) =
      setSize ((w.into (some t)).size (lastYomi [] l)) (t.plen (lastYomi [] l))
        (t.nlen (lastYomi [] l)) ++ (t.yomi.drop (t.plen (lastYomi [] l)) ++
          (w.into (some t)).body) ++ douonBytes t.yomi r := rfl
  rw [← hsize, hstore, segBytes_append l (w.into (some t) :: r), hnew, hbody']
  simp only [List.append_assoc]

/-- What `adddic` writes is the segment with the word in it. -/
theorem storeWord_eq (tail : Bytes) (hp : IsPos w l old pos) (hlt : ∀ t ∈ l, t.yomi < w.yomi)
    (hgt : ∀ t ∈ r, w.yomi < t.yomi) (hc : Coded [] (l ++ (old.toList ++ r))) {n : ℕ}
    (hn : n = (segBytes (l ++ (old.toList ++ r)) tail).length)
    (hroom : blkOfs (l ++ w.into old :: r) ≤ n) :
    storeWord n (segBytes (l ++ (old.toList ++ r)) tail) w.yomi w.kanji w.hinsi pos
        ((w.into old).size (lastYomi [] l)) (douonBytes (lastYomi [] l) old.toList).length
        (gain w (lastYomi [] l) old r) =
      segBytes (l ++ w.into old :: r) (tail.take (n - blkOfs (l ++ w.into old :: r))) := by
  subst hn
  cases old with
  | none =>
      cases hp
      exact storeWord_new hlt hgt hc hroom
  | some t =>
      have hg : gain w (lastYomi [] l) (some t) r = 0 := by cases r <;> rfl
      rw [hg, length_douonBytes_some]
      exact storeWord_old hp (coded_append.mp hc).2.2.1 hroom

end StoreWord

end Sj3
