import Sj3.Verification.Add.Request
import Sj3.Verification.Dict.Found

/-! # What registration does to a dictionary

Registration adds the entry of its word and nothing else, or it changes nothing, unless the
loop strands. -/

namespace Sj3

open FrontCoding

/-- The place the look-up gives a word. -/
structure At (d : Dict) (segs : List Seg) (w : Word) (pre : List Seg) (s : Seg)
    (post : List Seg) (l : List DouonBlk) (old : Option DouonBlk) (r : List DouonBlk) :
    Prop extends Spot segs w.yomi pre s post l old r where
  srchidx : d.srchidx w.yomi dicSegBase w.yomi.length = pre.length

variable {env : Env} {dictlist : List Dict} {d : Dict} {segs pre post : List Seg} {free : ℕ}
  {yomi kanji : Bytes} {hinsi : UInt8} {w : Word} {s : Seg} {l r : List DouonBlk}
  {old : Option DouonBlk}

theorem UsrDict.exists_at (h : UsrDict d segs free) (w : Word) :
    ∃ pre s post l old r, At d segs w pre s post l old r := by
  obtain ⟨pre, s, post, l, old, r, hsp, hidx⟩ := h.exists_spot w.yomi
  exact ⟨pre, s, post, l, old, r, hsp, hidx⟩

/-- The code string of the kanji starts what is stored from some string of the word's reading and
grammar code on. -/
def Met (env : Env) (yomi kanji : Bytes) (w : Word) (old : Option DouonBlk) (r : List DouonBlk) :
    Prop :=
  ∃ t ∈ old, t.Meets w.hinsi (cvtknj env.below env.belowKana yomi kanji) (douonBytes t.yomi r)

/-- For a word that is so if a string starts with its code string. -/
theorem IsWordOf.met_iff (hw : IsWordOf env yomi kanji hinsi w) :
    Met env yomi kanji w old r ↔ ∃ t ∈ old, t.Shadows w := by
  simp only [Met, ← hw.kanji_eq, DouonBlk.meets_iff_shadows]

/-- Such a request finds its word registered. -/
theorem Runs.met (hrun : Runs env dictlist d yomi kanji hinsi)
    (hw : LooksLike env yomi kanji hinsi w) (st : Option Stdy) (h : UsrDict d segs free)
    (hat : At d segs w pre s post l old r) (hmet : Met env yomi kanji w old r) :
    adddic env dictlist d st yomi kanji hinsi = ⟨some adArExist, d, st⟩ := by
  obtain ⟨ps, hps⟩ := (addelArg_accepted hrun.accepted).exists_text
  have hstate := h.addState hat.toSpot
  rw [hrun.adddic_eq hw h.seglen_ge, hat.srchidx, addRun, addFuel, addLoop_met env h.toLayout
    hat.toSpot hstate.coded hstate.isUsr_old (cvtknj_apart hps _ _ _) hmet]
  rfl

/-- Every other one comes to one of the ends of the loop. -/
theorem Runs.outcome (hrun : Runs env dictlist d yomi kanji hinsi)
    (hw : LooksLike env yomi kanji hinsi w) (st : Option Stdy) (h : UsrDict d segs free)
    (hat : At d segs w pre s post l old r) (hnew : ¬ Met env yomi kanji w old r)
    (hov : ¬ Overflows env (d.cap free) w l old r) :
    Outcome env d free st w (cvtknj env.below env.belowKana yomi kanji) s post l old r
      (blocks pre ++ l) (r ++ blocks post) (adddic env dictlist d st yomi kanji hinsi) := by
  obtain ⟨ps, hps⟩ := (addelArg_accepted hrun.accepted).exists_text
  rw [hrun.adddic_eq hw h.seglen_ge, hat.srchidx]
  exact h.outcome hat.toSpot ⟨hw.length_eq, cvtknj_apart hps _ _ _,
    fun t ht hmeets => hnew ⟨t, ht, hmeets⟩⟩ hov hrun.writable

/-- A block of a segment that is no longer than a block may be fits its header anywhere. -/
theorem size_nil_le {a b : List DouonBlk} {u : DouonBlk} {n : ℕ}
    (h : blkOfs (a ++ u :: b) ≤ n) : u.size [] ≤ n := by
  have h₁ := plen_lt_blkOfs a u
  have h₂ := size_nil (lastYomi [] a) u
  rw [blkOfs_append, length_douonBytes_cons] at h
  omega

theorem not_overflows (h : UsrDict d segs free) (hsp : Spot segs w.yomi pre s post l old r)
    (hseg : d.seglen ≤ maxDouonBlk) : ¬ Overflows env (d.cap free) w l old r := by
  rintro ⟨-, u, hu, hgt⟩
  obtain ⟨r', hr⟩ : ∃ r', old.toList ++ r = u :: r' := by
    cases he : old.toList ++ r with
    | nil => simp [he] at hu
    | cons v r' =>
        rw [he] at hu
        exact ⟨r', by simpa using hu⟩
  have hroom := (hsp.segs_eq ▸ h.toLayout).blkOfs_le
  rw [hsp.blks_eq, hr] at hroom
  have := size_nil_le hroom
  omega

/-- Stored entries of a dictionary that got the word into its block. -/
theorem Holds.entries {d' : Dict} (h : UsrDict d segs free)
    (hsp : Spot segs w.yomi pre s post l old r)
    (hd : Holds d' ((blocks pre ++ l) ++ w.into old :: (r ++ blocks post))) :
    ∃ es es', d.entries = some es ∧ d'.entries = some es' ∧ es'.Perm (w.entry :: es) := by
  obtain ⟨segs', free', h', hb⟩ := hd
  refine ⟨_, _, h.entries, h'.entries, ?_⟩
  rw [hb, hsp.blocks_eq]
  exact entriesOf_into hsp.old_yomi

/-- The look-up of its reading finds the word. -/
theorem Holds.reports {d' : Dict} {front back : List DouonBlk} (hold : ∀ t ∈ old, t.yomi = w.yomi)
    (hd : Holds d' (front ++ w.into old :: back)) (tagp : Bytes) :
    ∃ ps, Reports d' w.yomi ⟨1, 0, -1, tagp⟩ ps ∧
      ∃ p ∈ ps, ∃ es, blkEntries w.yomi p.2 = some es ∧ w.entry ∈ es := by
  obtain ⟨segs', free', h', hb⟩ := hd
  have hmem : w.into old ∈ blocks segs' := by rw [hb]; simp
  obtain ⟨ps, hps, p, hp, hes⟩ := h'.reports_block hmem tagp
  rw [Word.into_yomi hold] at hps hes
  exact ⟨ps, hps, p, hp, _, hes, (entries_into hold).mem_iff.mpr (by simp)⟩

/-- The dictionary `d'` is well-formed, it has the entries of `d` and the entry `e`, and the
look-up of its reading finds it. -/
structure Gains (d d' : Dict) (e : Entry) : Prop where
  usrDict : ∃ segs free, UsrDict d' segs free
  entries : ∃ es es', d.entries = some es ∧ d'.entries = some es' ∧ es'.Perm (e :: es)
  reports : ∃ ps, Reports d' e.yomi ⟨1, 0, -1, []⟩ ps ∧
    ∃ p ∈ ps, ∃ es, blkEntries e.yomi p.2 = some es ∧ e ∈ es

/-- Every kanji of a well-formed user dictionary can be stored. -/
theorem Gains.isUsrKnjStr {d' : Dict} {e : Entry} (h : Gains d d' e) : IsUsrKnjStr e.kanji := by
  obtain ⟨⟨segs', free', h'⟩, ⟨es, es', -, hes', hperm⟩, -⟩ := h
  obtain rfl : entriesOf (blocks segs') = es' := Option.some.inj (h'.entries.symm.trans hes')
  have hmem : e ∈ entriesOf (blocks segs') := hperm.mem_iff.mpr List.mem_cons_self
  obtain ⟨t, ht, het⟩ := List.mem_flatMap.mp hmem
  obtain ⟨b, hb, he⟩ := List.mem_flatMap.mp het
  obtain ⟨k, hk, rfl⟩ := List.mem_map.mp he
  exact (h'.isUsr t ht).hinsi b hb k hk

def sampleEnv : Env := ⟨fun _ => 0, fun _ => 0, [], fun _ => true, 0⟩

def kanjiA : List EucChar := [.jisx0208 0xb0 0xa1 (by decide) (by decide)]

/-- The entries, what looking up a reading reports, the segments, the index strings and the
study records are those there were. -/
structure Intact (d : Dict) (st : Option Stdy) (res : Result) : Prop where
  entries : res.dict.entries = d.entries
  reports : ∀ x ps, Reports res.dict x ⟨1, 0, -1, []⟩ ps ↔ Reports d x ⟨1, 0, -1, []⟩ ps
  segunit : res.dict.segunit = d.segunit
  idx : ∀ i < d.segunit, cstr (res.dict.getIdxptr i) = cstr (d.getIdxptr i)
  stdy : res.stdy = st

theorem Intact.refl (d : Dict) (st : Option Stdy) (ret : Option ℕ) : Intact d st ⟨ret, d, st⟩ :=
  ⟨rfl, fun _ _ => Iff.rfl, rfl, fun _ _ => rfl, rfl⟩

/-- Registration runs its loop, and the loop splits a segment in front of the word's block and
finds no room then. -/
def LoopStrands (env : Env) (dictlist : List Dict) (d : Dict) (segs : List Seg) (free : ℕ)
    (yomi kanji : Bytes) (hinsi : UInt8) : Prop :=
  ∃ w pre s post l old r, Runs env dictlist d yomi kanji hinsi ∧
    LooksLike env yomi kanji hinsi w ∧ At d segs w pre s post l old r ∧
    ¬ Met env yomi kanji w old r ∧ Strands env (d.cap free) w l old r

/-- It moves a block whose size does not fit its header any more to the front of a segment. -/
def LoopOverflows (env : Env) (dictlist : List Dict) (d : Dict) (segs : List Seg) (free : ℕ)
    (yomi kanji : Bytes) (hinsi : UInt8) : Prop :=
  ∃ w pre s post l old r, Runs env dictlist d yomi kanji hinsi ∧
    LooksLike env yomi kanji hinsi w ∧ At d segs w pre s post l old r ∧
    ¬ Met env yomi kanji w old r ∧ Overflows env (d.cap free) w l old r

/-- Unless the loop strands, registration fails without a trace; if it does, the dictionary
has got further segments. It always returns. -/
theorem adddic_intact_iff (env : Env) (dictlist : List Dict) (d : Dict) (segs : List Seg)
    (free : ℕ) (st : Option Stdy) (yomi kanji : Bytes) (hinsi : UInt8)
    (h : UsrDict d segs free)
    (hov : ¬ LoopOverflows env dictlist d segs free yomi kanji hinsi) :
    let res := adddic env dictlist d st yomi kanji hinsi
    (res.ret ≠ none ∧ (res.ret ≠ some adDone → Intact d st res)) ↔
      ¬ LoopStrands env dictlist d segs free yomi kanji hinsi := by
  intro res
  by_cases hrun : Runs env dictlist d yomi kanji hinsi
  swap
  · obtain ⟨ret, -, he⟩ := adddic_of_not_runs st hrun
    refine iff_of_true ?_ fun ⟨w, _, _, _, _, _, _, hr, _⟩ => hrun hr
    rw [show res = ⟨some ret, d, st⟩ from he]
    exact ⟨by simp, fun _ => Intact.refl d st _⟩
  constructor
  · rintro ⟨-, hintact⟩ ⟨w, pre, s, post, l, old, r, -, hw, hat, hnew, hs⟩
    have hout : Outcome env d free st w _ s post l old r (blocks pre ++ l) (r ++ blocks post) res :=
      hrun.outcome hw st h hat hnew fun ho =>
        hov ⟨w, pre, s, post, l, old, r, hrun, hw, hat, hnew, ho⟩
    clear_value res
    cases hout with
    | refused hret hno htight => exact hno hs
    | stored hno hc hkeep => exact hno hs
    | stranded hret hs hunit hkeep =>
        have hsame := (hintact fun he => hret.ne_done (Option.some.inj he)).segunit
        exact absurd hsame hunit.ne'
  · intro hno
    obtain ⟨w, hw⟩ := exists_looksLike env hrun.accepted
    obtain ⟨pre, s, post, l, old, r, hat⟩ := h.exists_at w
    by_cases hmet : Met env yomi kanji w old r
    · rw [show res = ⟨some adArExist, d, st⟩ from hrun.met hw st h hat hmet]
      exact ⟨by simp, fun _ => Intact.refl d st _⟩
    have hout : Outcome env d free st w _ s post l old r (blocks pre ++ l) (r ++ blocks post) res :=
      hrun.outcome hw st h hat hmet fun ho =>
        hov ⟨w, pre, s, post, l, old, r, hrun, hw, hat, hmet, ho⟩
    clear_value res
    cases hout with
    | refused hret hs htight => exact ⟨by simp, fun _ => Intact.refl d st _⟩
    | stored hs hc hkeep => exact ⟨by simp, fun hne => absurd rfl hne⟩
    | stranded hret hs hunit hkeep =>
        exact absurd ⟨w, pre, s, post, l, old, r, hrun, hw, hat, hmet, hs⟩ hno

theorem not_loopOverflows (h : UsrDict d segs free) (hseg : d.seglen ≤ maxDouonBlk) :
    ¬ LoopOverflows env dictlist d segs free yomi kanji hinsi := by
  rintro ⟨w, pre, s, post, l, old, r, -, -, hat, -, ho⟩
  exact not_overflows h hat.toSpot hseg ho

/-- As many different kanji as fill a segment of 512 bytes. -/
def fullKanji : List Bytes :=
  (List.range 168).map fun i => [0x30 + UInt8.ofNat (i / 94), 0x21 + UInt8.ofNat (i % 94)]

theorem fullKanji_isUsr : ∀ k ∈ fullKanji, IsUsrKnjStr k := by
  have hfacts : ∀ k ∈ fullKanji, (k.length = 2 ∧ codesize (k.headD 0) ≠ 1) ∧
      k.headD 0 ≠ kanjiStrEnd ∧ k.headD 0 ≠ hinsiBlkTerm ∧ kanjiStrEnd ∉ k ∧ hinsiBlkTerm ∉ k := by
    decide +kernel
  intro k hk
  obtain ⟨⟨hlen, hs⟩, h₀, hne, hend, hterm⟩ := hfacts k hk
  obtain ⟨a, b, rfl⟩ : ∃ a b, k = [a, b] := List.length_eq_two.mp hlen
  exact ⟨⟨.long h₀ hs .nil, by simp, hne⟩, hend, hterm⟩

theorem meisi_ne_term : (1 : UInt8) ≠ hinsiBlkTerm := by decide

def fullBlk : DouonBlk where
  yomi := yomiCodes [0xa4, 0xa2]
  hinsi := [⟨1, fullKanji, meisi_ne_term, by decide, fun k hk => (fullKanji_isUsr k hk).toIsKnjStr⟩]
  isYomi := ⟨by decide, by decide, by decide⟩
  hinsi_ne := by simp

def fullSeg : Seg := ⟨fullBlk.yomi, [fullBlk], [dicSegTerm], rfl⟩

/-- A dictionary with one block, which fills its segment. -/
def fullDict : Dict :=
  ⟨1, 512, 512, 1, 4, fullBlk.yomi ++ List.replicate 511 0, [fullSeg.bytes], [0]⟩

theorem fullDict_usrDict : UsrDict fullDict [fullSeg] 510 where
  bytes := rfl
  segunit := rfl
  seglen := by
    intro s hs
    rw [List.mem_singleton.mp hs]
    decide +kernel
  index :=
    { zero_notMem := by
        intro x hx
        rw [List.mem_singleton.mp hx]
        decide
      idxbuf := by decide +kernel
      length_idxbuf := by decide +kernel
      idxlen_lt := by decide
      idxofs := ⟨[], rfl⟩ }
  ne_nil := by simp
  idx := by
    intro s hs
    rw [List.mem_singleton.mp hs]
    rfl
  blks_ne := .inl rfl
  sorted := by simp [fullSeg]
  fit := by
    intro s hs
    rw [List.mem_singleton.mp hs]
    exact ⟨by decide +kernel, trivial⟩
  isUsr := by
    intro t ht
    obtain rfl : t = fullBlk := by simpa [fullSeg] using ht
    refine ⟨?_, by decide⟩
    intro b hb
    rw [List.mem_singleton.mp hb]
    exact fullKanji_isUsr
  seglen_ge := by decide

/-- A further word for its reading, with a grammar code of its own. -/
def furtherWord : Word where
  yomi := fullBlk.yomi
  kanji := [0x30, 0x21]
  hinsi := 2
  isYomi := fullBlk.isYomi
  isKnjStr := fullKanji_isUsr _ (by decide +kernel)
  hinsi_ne := by decide
  length_le := by decide

theorem furtherWord_runs : Runs sampleEnv [fullDict] fullDict [0xa4, 0xa2] (eucBytes kanjiA) 2 where
  accepted := by decide +kernel
  new := by decide +kernel
  writable := by decide

theorem furtherWord_isWordOf :
    IsWordOf sampleEnv [0xa4, 0xa2] (eucBytes kanjiA) 2 furtherWord where
  accepted := by decide +kernel
  yomi_eq := rfl
  kanji_eq := by decide +kernel
  hinsi_eq := rfl

theorem furtherWord_at : At fullDict [fullSeg] furtherWord [] fullSeg [] [] (some fullBlk) [] where
  segs_eq := rfl
  blks_eq := rfl
  before := by simp
  after := by simp
  old_yomi := by simp [furtherWord]
  srchidx := by decide

theorem furtherWord_strands :
    Strands sampleEnv (fullDict.cap 510) furtherWord [] (some fullBlk) [] := by
  have hfull : ¬ blkOfs [furtherWord.into (some fullBlk)] ≤ 512 := by decide +kernel
  exact ⟨by simp, ⟨hfull, hfull, by simp, by decide, by decide, rfl⟩, hfull, fun h => hfull h.1⟩

theorem adddic_intact_iff_full :
    let res := adddic sampleEnv [fullDict] fullDict none [0xa4, 0xa2] (eucBytes kanjiA) 2
    (res.ret ≠ none ∧ (res.ret ≠ some adDone → Intact fullDict none res)) ↔
      ¬ LoopStrands sampleEnv [fullDict] fullDict [fullSeg] 510 [0xa4, 0xa2] (eucBytes kanjiA) 2 :=
  adddic_intact_iff sampleEnv [fullDict] fullDict [fullSeg] 510 none [0xa4, 0xa2]
    (eucBytes kanjiA) 2
    fullDict_usrDict (not_loopOverflows fullDict_usrDict (by decide))

/-- The further word is refused, but the dictionary has got more segments. -/
theorem adddic_not_intact :
    UsrDict fullDict [fullSeg] 510 ∧ (adddic sampleEnv [fullDict] fullDict none [0xa4, 0xa2]
        (eucBytes kanjiA) 2).ret ≠ some adDone ∧
      ¬ Intact fullDict none
        (adddic sampleEnv [fullDict] fullDict none [0xa4, 0xa2] (eucBytes kanjiA) 2) := by
  have hnew : ¬ Met sampleEnv [0xa4, 0xa2] (eucBytes kanjiA) furtherWord (some fullBlk) [] := by
    rw [furtherWord_isWordOf.met_iff]
    rintro ⟨t, ht, b, hb, hne, -⟩
    obtain rfl : fullBlk = t := by simpa using ht
    obtain rfl := List.mem_singleton.mp hb
    exact absurd hne (by decide)
  have hout := furtherWord_runs.outcome furtherWord_isWordOf.looksLike none fullDict_usrDict
    furtherWord_at hnew (not_overflows fullDict_usrDict furtherWord_at.toSpot (by decide))
  generalize adddic sampleEnv [fullDict] fullDict none [0xa4, 0xa2] (eucBytes kanjiA) 2 = res
    at hout
  cases hout with
  | refused hret hs htight => exact absurd furtherWord_strands hs
  | stored hs hc hkeep => exact absurd furtherWord_strands hs
  | stranded hret hs hunit hkeep =>
      exact ⟨fullDict_usrDict, fun he => hret.ne_done (Option.some.inj he),
        fun h => absurd h.segunit hunit.ne'⟩

end Sj3
