import Sj3.Verification.Delete.Request
import Sj3.Verification.Study.Registration

/-! # Registration and deletion in any order

Every run of registrations and deletions keeps a dictionary well-formed, and does to its words
what adding and taking words does to a list. -/

namespace Sj3

open FrontCoding

/-! ## Adding a word to a list of words -/

/-- Registration of `e` adds it behind the words of its reading and grammar code, none of which may
be taken for it. -/
inductive Adds (e : Entry) (es : List Entry) : List Entry → Prop
  | done {a b : List Entry} (hes : es = a ++ b) (hnew : ∀ x ∈ es, ¬ e.Matches x) :
      Adds e es (a ++ e :: b)

theorem Adds.mem {e : Entry} {es es' : List Entry} (h : Adds e es es') : e ∈ es' := by
  cases h with
  | done hes hnew => simp

/-- A word that was added can be taken away again. -/
theorem Adds.deletes {free : ℕ} {e : Entry} {es es₁ es₂ : List Entry} (hadd : Adds e es es₁)
    (hdel : Deletes free e es₁ adDone es₂) : es₂ = es := by
  cases hadd with
  | @done a b hes hnew =>
      subst hes
      exact hdel.eq_of_unique hnew

theorem wordsOf_addTo_insert (w : Word) (yomi : Bytes) (hs : List HinsiBlk) :
    ∃ a b, wordsOf yomi (w.addTo hs) = a ++ ⟨yomi, w.kanji, w.hinsi⟩ :: b ∧
      wordsOf yomi hs = a ++ b := by
  induction hs with
  | nil => exact ⟨[], [], by simp [wordsOf, Word.addTo, Word.hinsiBlk], rfl⟩
  | cons h hs ih =>
      rw [Word.addTo]
      by_cases hh : h.hinsi = w.hinsi
      · rw [if_pos hh]
        refine ⟨h.kanji.map (⟨yomi, ·, h.hinsi⟩), wordsOf yomi hs, ?_, wordsOf_cons yomi h hs⟩
        rw [wordsOf_cons]
        simp [HinsiBlk.add, hh]
      · obtain ⟨a, b, hab, hsab⟩ := ih
        rw [if_neg hh]
        refine ⟨h.kanji.map (⟨yomi, ·, h.hinsi⟩) ++ a, b, ?_, ?_⟩
        · rw [wordsOf_cons, hab, List.append_assoc]
        · rw [wordsOf_cons, hsab, List.append_assoc]

theorem entries_into_insert {w : Word} {old : Option DouonBlk} (hold : ∀ t ∈ old, t.yomi = w.yomi) :
    ∃ a b, (w.into old).entries = a ++ w.entry :: b ∧ entriesOf old.toList = a ++ b := by
  cases old with
  | none => exact wordsOf_addTo_insert w w.yomi []
  | some t =>
      obtain ⟨a, b, hab, hb⟩ := wordsOf_addTo_insert w t.yomi t.hinsi
      refine ⟨a, b, ?_, ?_⟩
      · rw [Word.entry, ← hold t rfl]
        exact hab
      · rw [Option.toList_some, entriesOf_cons, entriesOf_nil, List.append_nil]
        exact hb

/-! ## The room of a block -/

/-- No more bytes does a segment take that consists of the words of the reading `y`. -/
def homLen (es : List Entry) (y : Bytes) : ℕ :=
  1 + (douonBlkSizeNumber + y.length) +
    ((es.filter fun x => x.yomi = y).map fun x => x.kanji.length + 3).sum

theorem length_knjBytes (ks : List Bytes) :
    (knjBytes ks).length = (ks.map fun k => k.length + 1).sum := by
  induction ks with
  | nil => rfl
  | cons k ks ih =>
      rw [knjBytes_cons, List.length_append, List.length_cons, ih, List.map_cons, List.sum_cons]
      omega

theorem length_hinsiBytes_le (yomi : Bytes) (hs : List HinsiBlk) :
    (hinsiBytes hs).length ≤ ((wordsOf yomi hs).map fun x => x.kanji.length + 3).sum := by
  have hblk : ∀ ks : List Bytes, (ks.map fun k => k.length + 1).sum + 2 * ks.length =
      (ks.map fun k => k.length + 3).sum := by
    intro ks
    induction ks with
    | nil => rfl
    | cons k ks ih =>
        simp only [List.map_cons, List.sum_cons, List.length_cons]
        omega
  induction hs with
  | nil => simp
  | cons b hs ih =>
      have hne := List.length_pos_of_ne_nil b.kanji_ne
      have hb := hblk b.kanji
      have hk := length_knjBytes b.kanji
      rw [wordsOf_cons, List.map_append, List.sum_append, List.map_map, hinsiBytes_cons,
        List.length_append]
      have hcomp : (fun x : Entry => x.kanji.length + 3) ∘ (⟨yomi, ·, b.hinsi⟩) =
          fun k : Bytes => k.length + 3 := rfl
      rw [hcomp, ← hb, ← hk]
      simp only [HinsiBlk.bytes, List.length_cons, List.length_append, List.length_nil]
      omega

/-- A word takes no more than its string and a grammar block around it. -/
theorem Word.length_addTo_le (w : Word) (hs : List HinsiBlk) :
    (hinsiBytes (w.addTo hs)).length ≤ (hinsiBytes hs).length + (w.kanji.length + 3) := by
  rcases w.split_hinsi hs with hne | ⟨hl, b, hr, rfl, hhl, hb⟩
  · rw [Word.addTo_of_ne hne, hinsiBytes_append, List.length_append, hinsiBytes_cons,
      hinsiBytes_nil, List.append_nil, Word.bytes_hinsiBlk]
    simp only [List.length_cons, List.length_append, List.length_nil]
    omega
  · rw [Word.addTo_append hhl hb]
    simp only [hinsiBytes_append, hinsiBytes_cons, List.length_append, Word.length_bytes_add]
    omega

theorem filter_wordsOf (yomi : Bytes) (hs : List HinsiBlk) :
    ((wordsOf yomi hs).filter fun x => x.yomi = yomi) = wordsOf yomi hs := by
  rw [List.filter_eq_self]
  intro x hx
  obtain ⟨b, -, he⟩ := List.mem_flatMap.mp hx
  obtain ⟨k, -, rfl⟩ := List.mem_map.mp he
  simp

section

variable {env : Env} {dictlist : List Dict} {d : Dict} {segs pre post : List Seg} {free : ℕ}
  {s : Seg} {w : Word} {l r : List DouonBlk} {old : Option DouonBlk} {yomi : Bytes}
  {k : List EucChar} {hinsi : UInt8} {st : Option Stdy}

theorem filter_eq_nil {es : List Entry} {y : Bytes} (h : ∀ x ∈ es, x.yomi ≠ y) :
    (es.filter fun x => x.yomi = y) = [] := by
  rw [List.filter_eq_nil_iff]
  intro x hx
  simpa using h x hx

/-- The word's block with the word in it is no longer than told from the words. -/
theorem Spot.blkOfs_into_le (hsp : Spot segs w.yomi pre s post l old r) :
    blkOfs [w.into old] ≤ homLen (entriesOf (blocks segs)) w.yomi + (w.kanji.length + 3) := by
  have hfilter : ((entriesOf (blocks segs)).filter fun x => x.yomi = w.yomi) =
      (entriesOf old.toList).filter fun x => x.yomi = w.yomi := by
    rw [hsp.entries_eq, List.filter_append, List.filter_append, filter_eq_nil hsp.yomi_ne_front,
      filter_eq_nil hsp.yomi_ne_back, List.nil_append, List.append_nil]
  have hnil : ∀ u : DouonBlk,
      blkOfs [u] = 1 + (douonBlkSizeNumber + u.yomi.length + u.body.length) := by
    intro u
    rw [blkOfs_cons]
    simp [DouonBlk.size, DouonBlk.nlen, DouonBlk.plen, douonBytes]
  rw [homLen, hfilter, hnil, Word.into_yomi hsp.old_yomi]
  cases old with
  | none =>
      rw [length_wordBytes_none]
      simp only [Option.toList_none, entriesOf_nil, List.filter_nil, List.map_nil, List.sum_nil]
      omega
  | some t =>
      have ht : t.yomi = w.yomi := hsp.old_yomi t rfl
      have hlen := length_hinsiBytes_le t.yomi t.hinsi
      have hadd : (w.into (some t)).body.length ≤
        (hinsiBytes t.hinsi).length + (w.kanji.length + 3) :=
        w.length_addTo_le t.hinsi
      rw [Option.toList_some, entriesOf_cons, entriesOf_nil, List.append_nil, DouonBlk.entries,
        ← ht, filter_wordsOf]
      omega

/-! ## One registration -/

/-- The index has room for two readings, and a segment for the words of the reading together
with the new one. -/
def Dict.AddOk (d : Dict) (e : Entry) : Prop :=
  2 * (maxWdYomiLen + 1) ≤ d.countUidx ∧
    ∀ es ∈ d.entries, homLen es e.yomi + (e.kanji.length + 3) ≤ d.seglen

instance Dict.decidableAddOk (d : Dict) (e : Entry) : Decidable (d.AddOk e) :=
  inferInstanceAs (Decidable (_ ∧ _))

/-- The dictionary may get two further segments. -/
def Dict.Spare (d : Dict) (env : Env) : Prop :=
  d.segunit + 1 < d.maxunit ∧ env.putdic d.segunit = true ∧ env.putdic (d.segunit + 1) = true

/-- What registration returns, and what it makes of the stored words `es`. It is refused for its
arguments, for what the open dictionaries hold, in a dictionary that is not to be written, for
a stored word that may be taken for the new one, or where there are no segments to spare. -/
inductive AddReturns (env : Env) (dictlist : List Dict) (d : Dict) (yomi : Bytes) (k : List EucChar)
    (hinsi : UInt8) (es : List Entry) : ℕ → List Entry → Prop
  | arg (h : addelArg yomi (eucBytes k) hinsi ≠ 0) :
      AddReturns env dictlist d yomi k hinsi es (addelArg yomi (eucBytes k) hinsi) es
  | known (h : addelArg yomi (eucBytes k) hinsi = 0)
      (hk : checkdict env dictlist yomi (yomiCodes yomi) (eucBytes k) hinsi ≠ 0) :
      AddReturns env dictlist d yomi k hinsi es
        (checkdict env dictlist yomi (yomiCodes yomi) (eucBytes k) hinsi) es
  | readOnly (h : addelArg yomi (eucBytes k) hinsi = 0) (hmax : d.maxunit = 0) :
      AddReturns env dictlist d yomi k hinsi es adNotUserDict es
  | exist (hr : Runs env dictlist d yomi (eucBytes k) hinsi)
      (hx : ∃ x ∈ es, (requested env yomi k hinsi).Matches x) :
      AddReturns env dictlist d yomi k hinsi es adArExist es
  | full {ret : ℕ} (hr : Runs env dictlist d yomi (eucBytes k) hinsi) (hret : OverflowCode ret)
      (hspare : ¬ d.Spare env) : AddReturns env dictlist d yomi k hinsi es ret es
  | done {es' : List Entry} (hr : Runs env dictlist d yomi (eucBytes k) hinsi)
      (hadds : Adds (requested env yomi k hinsi) es es') :
      AddReturns env dictlist d yomi k hinsi es adDone es'

theorem AddReturns.adds {es es' : List Entry}
    (h : AddReturns env dictlist d yomi k hinsi es adDone es') :
    Adds (requested env yomi k hinsi) es es' := by
  generalize hd : adDone = ret at h
  cases h with
  | arg h => exact absurd hd.symm h
  | known h hk => exact absurd hd.symm hk
  | readOnly h hmax => exact absurd hd (by decide)
  | exist hr hx => exact absurd hd (by decide)
  | full hr hret hspare => exact absurd hd.symm hret.ne_done
  | done hr hadds => exact hadds

/-- Where a segment has room for the word's block, splitting in front of a block leaves it in a
segment of its own. -/
theorem not_topSplits (hfit : blkOfs [w.into old] ≤ d.seglen) :
    ¬ TopSplits env (d.cap free) w l old r := by
  rintro ⟨hsplit, hl | hagain⟩
  · subst hl
    exact hsplit.2.1 hfit
  · exact hagain.2.1 hfit

/-- With room in the index, a dictionary that lacks a segment has none to spare. -/
theorem Cap.Tight.not_spare (h : (d.cap free).Tight env) (hfree : 2 * (maxWdYomiLen + 1) ≤ free) :
    ¬ d.Spare env := by
  obtain ⟨y, hy, hno⟩ := h
  rintro ⟨hunit, hput, -⟩
  have hroom : y.length + 1 ≤ free := by omega
  exact hno ⟨by simp only [Dict.cap]; omega, hroom, hput⟩

theorem Cap.Tight.not_spare_split {y : Bytes} (hy : y.length ≤ maxWdYomiLen)
    (h : ((d.cap free).split y).Tight env) (hfree : 2 * (maxWdYomiLen + 1) ≤ free) :
    ¬ d.Spare env := by
  obtain ⟨z, hz, hno⟩ := h
  rintro ⟨hunit, -, hput⟩
  have hroom : z.length + 1 ≤ free - (y.length + 1) := by omega
  exact hno ⟨hunit, hroom, hput⟩

theorem adddic_addReturns (env : Env) (dictlist : List Dict) (st : Option Stdy)
    (h : UsrDict d segs free) (hseg : d.seglen ≤ maxDouonBlk)
    (hok : d.AddOk (requested env yomi k hinsi)) :
    let res := adddic env dictlist d st yomi (eucBytes k) hinsi
    (∃ ret es es', res.ret = some ret ∧ d.entries = some es ∧ res.dict.entries = some es' ∧
      AddReturns env dictlist d yomi k hinsi es ret es') ∧
      ∃ segs' free', UsrDict res.dict segs' free' := by
  intro res
  have hsame : ∀ {ret : ℕ}, res = ⟨some ret, d, st⟩ →
      AddReturns env dictlist d yomi k hinsi (entriesOf (blocks segs)) ret
        (entriesOf (blocks segs)) →
      (∃ ret es es', res.ret = some ret ∧ d.entries = some es ∧ res.dict.entries = some es' ∧
        AddReturns env dictlist d yomi k hinsi es ret es') ∧
        ∃ segs' free', UsrDict res.dict segs' free' := by
    intro ret he hreg
    rw [he]
    exact ⟨⟨ret, _, _, rfl, h.entries, h.entries, hreg⟩, segs, free, h⟩
  by_cases harg : addelArg yomi (eucBytes k) hinsi = 0
  swap
  · exact hsame (if_pos harg) (.arg harg)
  by_cases hnew : checkdict env dictlist yomi (yomiCodes yomi) (eucBytes k) hinsi = 0
  swap
  · exact hsame ((if_neg (not_not.mpr harg)).trans (if_pos hnew)) (.known harg hnew)
  by_cases hmax : d.maxunit = 0
  · exact hsame ((if_neg (not_not.mpr harg)).trans
      ((if_neg (not_not.mpr hnew)).trans (if_pos hmax))) (.readOnly harg hmax)
  have hrun : Runs env dictlist d yomi (eucBytes k) hinsi := ⟨harg, hnew, hmax⟩
  obtain ⟨w, hw⟩ := exists_word env harg (storable_eucBytes env harg)
  obtain ⟨pre, s, post, l, old, r, hat⟩ := h.exists_at w
  have hsp := hat.toSpot
  have hentry := hw.entry_eq
  by_cases hmet : Met env yomi (eucBytes k) w old r
  · apply hsame (hrun.met hw.looksLike st h hat hmet)
    obtain ⟨t, ht, hsh⟩ := hw.met_iff.mp hmet
    obtain ⟨hl, b, hr, kl, k', kr, hhit⟩ := hsh.exists_hit
    have hty : t.yomi = w.yomi := hsp.old_yomi t ht
    refine .exist hrun ⟨⟨t.yomi, k', w.hinsi⟩, (hsp.mem_entries_iff hty).mpr ⟨t, ht, ?_⟩, ?_⟩
    · rw [hhit.entries_eq]
      simp
    · rw [← hentry]
      exact ⟨hty, rfl, hhit.pre⟩
  obtain ⟨hfree, hroom⟩ := hok
  rw [← h.free_eq] at hfree
  rw [← hentry] at hroom
  have hfit : blkOfs [w.into old] ≤ d.seglen :=
    hsp.blkOfs_into_le.trans (hroom _ h.entries)
  have hout : Outcome env d free st w _ s post l old r (blocks pre ++ l) (r ++ blocks post) res :=
    hrun.outcome hw.looksLike st h hat hmet (not_overflows h hsp hseg)
  clear_value res
  cases hout with
  | refused hret hs htight => exact hsame rfl (.full hrun hret (htight.not_spare hfree))
  | @stranded ret d' st' hret hs hunit hkeep =>
      obtain ⟨⟨segs', free', h', hb⟩, y, hy, htight⟩ := hkeep (not_topSplits hfit)
      refine ⟨⟨ret, _, _, rfl, h.entries, h'.entries, ?_⟩, segs', free', h'⟩
      rw [hb, ← hsp.blocks_eq]
      exact .full hrun hret (Cap.Tight.not_spare_split hy htight hfree)
  | @stored d' st' way hs hc hkeep =>
      have hbound : ∀ t ∈ segs, blkOfs t.blks ≤ d.seglen ∧ t.idx.length ≤ maxWdYomiLen := by
        intro t ht
        obtain ⟨a, b, hab⟩ := List.append_of_mem ht
        refine ⟨(hab ▸ h.toLayout).blkOfs_le, ?_⟩
        rw [h.idx t ht]
        exact length_headYomi_le t.blks
      have hmem : s ∈ segs := by simp [hsp.segs_eq]
      have hreg := hc.regular h.seglen_ge hseg (hsp.blks_eq ▸ (hbound s hmem).1)
        (fun t ht => hbound t (by simp [hsp.segs_eq, ht])) (hbound s hmem).2
        (fun _ => ⟨by simp only [Dict.cap]; omega, .inl hfree⟩)
      obtain ⟨segs', free', h', hb⟩ := hkeep hreg hw.kanji_eq.symm
      obtain ⟨a, b, hab, hold⟩ := entries_into_insert hsp.old_yomi
      refine ⟨⟨adDone, _, _, rfl, h.entries, h'.entries, ?_⟩, segs', free', h'⟩
      have hes : entriesOf (blocks segs) = (entriesOf (blocks pre ++ l) ++ a) ++
          (b ++ entriesOf (r ++ blocks post)) := by
        rw [hsp.entries_eq, hold]
        simp only [List.append_assoc]
      have hes' : entriesOf (blocks segs') = (entriesOf (blocks pre ++ l) ++ a) ++
          w.entry :: (b ++ entriesOf (r ++ blocks post)) := by
        rw [hb, entriesOf_append, entriesOf_cons, hab]
        simp only [List.append_assoc, List.cons_append]
      rw [hes']
      apply AddReturns.done hrun
      rw [← hentry]
      refine .done hes ?_
      rintro x hx ⟨hxy, hxh, hxk⟩
      obtain ⟨t, ht, hxt⟩ := (hsp.mem_entries_iff hxy).mp hx
      obtain ⟨c, hc, hch, hck⟩ := hinsi_of_mem_wordsOf hxt
      exact hmet (hw.met_iff.mpr ⟨t, ht, c, hc, hch.symm.trans hxh, _, hck, hxk⟩)

/-! ## The geometry -/

/-- The geometry of a dictionary: how long its segments are and how many it may get. -/
def Dict.geometry (d : Dict) : ℕ × ℕ × ℕ := (d.seglen, d.maxunit, d.idxlen)

theorem addLoop_geometry (env : Env) (yptr kptr : Bytes) (hinsi : UInt8) (n : ℕ) (d : Dict)
    (st : Option Stdy) (seg : ℕ) :
    (addLoop env yptr kptr hinsi n d st seg).dict.geometry = d.geometry := by
  induction n generalizing d st seg with
  | zero => rfl
  | succ n ih =>
      rw [addLoop]
      generalize addPlace env.prevIdx yptr kptr hinsi (d.getdic seg) = place
      cases place with
      | none => rfl
      | some pos =>
          simp only
          split_ifs
          · rfl
          · exact ih d st (seg + 1)
          all_goals first
            | rfl
            | exact (ih _ _ _).trans rfl

theorem insertWord_geometry (d : Dict) (st : Option Stdy) (seg : ℕ) (yptr kptr : Bytes)
    (hinsi : UInt8) (pos : AddPos) (newsiz oldsiz nxtask : ℕ) :
    (insertWord d st seg yptr kptr hinsi pos newsiz oldsiz nxtask).1.geometry = d.geometry := by
  rw [insertWord]
  split <;> rfl

theorem adddic_geometry (env : Env) (dictlist : List Dict) (d : Dict) (st : Option Stdy)
    (yomi kanji : Bytes) (hinsi : UInt8) :
    (adddic env dictlist d st yomi kanji hinsi).dict.geometry = d.geometry := by
  have hloop := addLoop_geometry env (yomiCodes yomi)
    (cvtknj env.below env.belowKana yomi kanji) hinsi (addFuel d) d st
    (d.srchidx (yomiCodes yomi) dicSegBase (yomiCodes yomi).length)
  rw [adddic]
  dsimp only
  generalize addLoop env (yomiCodes yomi) (cvtknj env.below env.belowKana yomi kanji) hinsi
    (addFuel d) d st (d.srchidx (yomiCodes yomi) dicSegBase (yomiCodes yomi).length) = e at hloop ⊢
  by_cases harg : addelArg yomi kanji hinsi ≠ 0
  · rw [if_pos harg]
  rw [if_neg harg]
  split_ifs <;> try rfl
  all_goals
    cases e with
    | fail ret d' s => exact hloop
    | stuck d' s => exact hloop
    | fit d' s seg pos newsiz oldsiz nxtask =>
        exact (insertWord_geometry d' s seg _ _ _ _ _ _ _).trans hloop

theorem delSegment_geometry (env : Env) (d : Dict) (st : Option Stdy) (seg : ℕ) :
    (delSegment env d st seg).dict.geometry = d.geometry := by
  rw [delSegment]
  split <;> rfl

theorem delDouon_geometry (d : Dict) (st : Option Stdy) (seg : ℕ) (ptr : Bytes) (ofs : ℕ) :
    (delDouon d st seg ptr ofs).dict.geometry = d.geometry := by
  rw [delDouon]
  generalize d.getdic seg = dicbuf
  dsimp only
  split_ifs <;> rfl

theorem delBytes_geometry (d : Dict) (st : Option Stdy) (seg : ℕ) (p₁ stp edp : Bytes) (ofs : ℕ) :
    (delBytes d st seg p₁ stp edp ofs).dict.geometry = d.geometry := rfl

theorem delWord_geometry (env : Env) (d : Dict) (st : Option Stdy) (seg : ℕ) (yptr kptr : Bytes)
    (hinsi : UInt8) : (delWord env d st seg yptr kptr hinsi).dict.geometry = d.geometry := by
  rw [delWord]
  generalize srchkana env.prevIdx yptr (d.getdic seg) = r
  dsimp only
  generalize srchgram r.2.1 hinsi = g
  generalize srchkanji g.2 kptr = k
  split_ifs
  · rfl
  · rfl
  · rfl
  · exact delSegment_geometry env d st seg
  · exact delDouon_geometry d st seg _ _
  · exact delBytes_geometry d st seg _ _ _ _
  · exact delBytes_geometry d st seg _ _ _ _

theorem deldic_geometry (env : Env) (d : Dict) (st : Option Stdy) (yomi kanji : Bytes)
    (hinsi : UInt8) : (deldic env d st yomi kanji hinsi).dict.geometry = d.geometry := by
  rw [deldic]
  by_cases harg : addelArg yomi kanji hinsi ≠ 0
  · rw [if_pos harg]
  rw [if_neg harg]
  by_cases hmax : d.maxunit = 0
  · rw [if_pos hmax]
  rw [if_neg hmax]
  exact delWord_geometry env d st _ _ _ _

end

/-! ## Runs -/

/-- A request to edit a dictionary. -/
inductive Edit where
  | add (env : Env) (dictlist : List Dict) (yomi : Bytes) (k : List EucChar) (hinsi : UInt8)
  | del (env : Env) (yomi : Bytes) (k : List EucChar) (hinsi : UInt8)

namespace Edit

/-- What the request comes to. -/
def run (d : Dict) (st : Option Stdy) : Edit → Result
  | add env dictlist yomi k hinsi => adddic env dictlist d st yomi (eucBytes k) hinsi
  | del env yomi k hinsi => deldic env d st yomi (eucBytes k) hinsi

/-- There is the room the request may need. -/
def Ok (d : Dict) : Edit → Prop
  | add env _ yomi k hinsi => d.AddOk (requested env yomi k hinsi)
  | del _ yomi _ _ => d.DelOk (yomiCodes yomi)

instance decidableOk (d : Dict) : (edit : Edit) → Decidable (edit.Ok d)
  | add env _ yomi k hinsi => inferInstanceAs (Decidable (d.AddOk (requested env yomi k hinsi)))
  | del _ yomi _ _ => inferInstanceAs (Decidable (d.DelOk (yomiCodes yomi)))

/-- What the request returns, and what it makes of the words a dictionary stores. -/
inductive Acts (d : Dict) : Edit → List Entry → ℕ → List Entry → Prop
  | add {env : Env} {dictlist : List Dict} {yomi : Bytes} {k : List EucChar} {hinsi : UInt8}
      {ret : ℕ} {es es' : List Entry} (h : AddReturns env dictlist d yomi k hinsi es ret es') :
      Acts d (.add env dictlist yomi k hinsi) es ret es'
  | delArg {env : Env} {yomi : Bytes} {k : List EucChar} {hinsi : UInt8} {es : List Entry}
      (h : addelArg yomi (eucBytes k) hinsi ≠ 0) :
      Acts d (.del env yomi k hinsi) es (addelArg yomi (eucBytes k) hinsi) es
  | delReadOnly {env : Env} {yomi : Bytes} {k : List EucChar} {hinsi : UInt8} {es : List Entry}
      (h : addelArg yomi (eucBytes k) hinsi = 0) (hmax : d.maxunit = 0) :
      Acts d (.del env yomi k hinsi) es adNotUserDict es
  | del {env : Env} {yomi : Bytes} {k : List EucChar} {hinsi : UInt8} {ret : ℕ}
      {es es' : List Entry} (h : addelArg yomi (eucBytes k) hinsi = 0) (hmax : d.maxunit ≠ 0)
      (hdel : Deletes d.countUidx (requested env yomi k hinsi) es ret es') :
      Acts d (.del env yomi k hinsi) es ret es'

/-- Requests one after another, none of which lacks room. -/
inductive Run : Dict → Option Stdy → List Edit → Dict → Option Stdy → Prop
  | nil {d : Dict} {st : Option Stdy} : Run d st [] d st
  | cons {d d' : Dict} {st st' : Option Stdy} {edit : Edit} {edits : List Edit} (hok : edit.Ok d)
      (hrun : Run (edit.run d st).dict (edit.run d st).stdy edits d' st') :
      Run d st (edit :: edits) d' st'

/-- What they do to the words one after another, and that each of them returns. -/
inductive Course : Dict → Option Stdy → List Edit → List Entry → List Entry → Prop
  | nil {d : Dict} {st : Option Stdy} {es : List Entry} : Course d st [] es es
  | cons {d : Dict} {st : Option Stdy} {edit : Edit} {edits : List Edit} {ret : ℕ}
      {es es₁ es' : List Entry} (hret : (edit.run d st).ret = some ret)
      (h : edit.Acts d es ret es₁)
      (hrest : Course (edit.run d st).dict (edit.run d st).stdy edits es₁ es') :
      Course d st (edit :: edits) es es'

/-- One request keeps a well-formed dictionary well-formed. -/
theorem step {d : Dict} {segs : List Seg} {free : ℕ} {edit : Edit} (h : UsrDict d segs free)
    (hseg : d.seglen ≤ maxDouonBlk) (st : Option Stdy) (hok : edit.Ok d) :
    (∃ ret es es', (edit.run d st).ret = some ret ∧ d.entries = some es ∧
      (edit.run d st).dict.entries = some es' ∧ edit.Acts d es ret es') ∧
        (∃ segs' free', UsrDict (edit.run d st).dict segs' free') ∧
          (edit.run d st).dict.seglen = d.seglen := by
  cases edit with
  | add env dictlist yomi k hinsi =>
      obtain ⟨⟨ret, es, es', hret, hes, hes', hreg⟩, hholds⟩ :=
        adddic_addReturns env dictlist st h hseg hok
      exact ⟨⟨ret, es, es', hret, hes, hes', .add hreg⟩, hholds,
        congrArg Prod.fst (adddic_geometry env dictlist d st yomi (eucBytes k) hinsi)⟩
  | del env yomi k hinsi =>
      have hgeo := congrArg Prod.fst (deldic_geometry env d st yomi (eucBytes k) hinsi)
      by_cases harg : addelArg yomi (eucBytes k) hinsi = 0
      swap
      · have he : run d st (.del env yomi k hinsi) = _ := if_pos harg
        rw [he]
        exact ⟨⟨_, _, _, rfl, h.entries, h.entries, .delArg harg⟩, ⟨segs, free, h⟩, rfl⟩
      by_cases hmax : d.maxunit = 0
      · have he : run d st (.del env yomi k hinsi) = _ :=
          (if_neg (not_not.mpr harg)).trans (if_pos hmax)
        rw [he]
        exact ⟨⟨_, _, _, rfl, h.entries, h.entries, .delReadOnly harg hmax⟩, ⟨segs, free, h⟩, rfl⟩
      · obtain ⟨w, hw⟩ := exists_word env harg (storable_eucBytes env harg)
        obtain ⟨⟨ret, es, es', hret, hes, hes', hdel⟩, -, hholds⟩ :=
          hw.deldic_refines h st hseg hmax hok
        exact ⟨⟨ret, es, es', hret, hes, hes', .del harg hmax hdel⟩, hholds, hgeo⟩

end Edit

/-- Eight long kanji, which differ in their last characters. -/
def longKanji : List Bytes :=
  (List.range 8).map fun i =>
    (List.replicate 28 [(0x30 : UInt8), 0x21]).flatten ++ [0x30, 0x22 + UInt8.ofNat i]

theorem longKanji_isUsr : ∀ k ∈ longKanji, IsUsrKnjStr k := by
  have hcodes : ∀ n, IsCodes (List.replicate n [(0x30 : UInt8), 0x21]).flatten := by
    intro n
    induction n with
    | zero => exact .nil
    | succ n ih =>
        rw [List.replicate_succ, List.flatten_cons]
        exact .long (by decide) (by decide) ih
  have hfacts : ∀ k ∈ longKanji, k ≠ [] ∧ k.headD 0 ≠ hinsiBlkTerm ∧ kanjiStrEnd ∉ k ∧
      hinsiBlkTerm ∉ k := by
    decide +kernel
  intro k hk
  obtain ⟨hne, hhead, hend, hterm⟩ := hfacts k hk
  obtain ⟨i, -, rfl⟩ := List.mem_map.mp hk
  exact ⟨⟨(hcodes 28).append (.long (by decide) (by decide) .nil), hne, hhead⟩, hend, hterm⟩

def longBlk : DouonBlk where
  yomi := yomiCodes [0xa4, 0xa2]
  hinsi := [⟨1, longKanji, meisi_ne_term, by decide,
    fun k hk => (longKanji_isUsr k hk).toIsKnjStr⟩]
  isYomi := fullBlk.isYomi
  hinsi_ne := by simp

def longSeg : Seg := ⟨longBlk.yomi, [longBlk], List.replicate 33 dicSegTerm, isTail_replicate 33⟩

/-- A dictionary with one block, which leaves its segment little room. -/
def longDict : Dict :=
  ⟨1, 512, 512, 1, 4, longBlk.yomi ++ List.replicate 511 0, [longSeg.bytes], [0]⟩

theorem longDict_usrDict : UsrDict longDict [longSeg] 510 where
  bytes := rfl
  segunit := rfl
  seglen := by
    intro s hs
    rw [List.mem_singleton.mp hs]
    decide +kernel
  index :=
    { zero_notMem := by
        intro x hx
        rw [List.mem_singleton.mp hx]
        decide
      idxbuf := by decide +kernel
      length_idxbuf := by decide +kernel
      idxlen_lt := by decide
      idxofs := ⟨[], rfl⟩ }
  ne_nil := by simp
  idx := by
    intro s hs
    rw [List.mem_singleton.mp hs]
    rfl
  blks_ne := .inl rfl
  sorted := by simp [longSeg]
  fit := by
    intro s hs
    rw [List.mem_singleton.mp hs]
    exact ⟨by decide +kernel, trivial⟩
  isUsr := by
    intro t ht
    obtain rfl : t = longBlk := by simpa [longSeg] using ht
    refine ⟨?_, by decide⟩
    intro b hb
    rw [List.mem_singleton.mp hb]
    exact longKanji_isUsr
  seglen_ge := by decide

theorem b2_row : 0xa1 ≤ (0xb2 : UInt8) ∧ (0xb2 : UInt8) ≤ 0xfe := by decide

def kanjiB : List EucChar := [.jisx0208 0xb2 0xb2 b2_row b2_row]

/-- One more word for its reading. -/
def oneMore : Result := adddic sampleEnv [] longDict none [0xa4, 0xa2] (eucBytes kanjiB) 1

theorem oneMore_ok : oneMore.ret = some adDone ∧ oneMore.dict.DelOk (yomiCodes [0xa4, 0xa2]) ∧
    maxWdYomiLen ≤ oneMore.dict.countUidx := by
  decide +kernel

theorem longDict_addOk : longDict.AddOk (requested sampleEnv [0xa4, 0xa2] kanjiB 1) := by
  decide +kernel

/-- Deleting a word right after it was registered brings back the words there were, in their
order. -/
theorem deldic_adddic (env env' : Env) (dictlist : List Dict) (d : Dict) (segs : List Seg)
    (free : ℕ) (st : Option Stdy) (yomi : Bytes) (k : List EucChar) (hinsi : UInt8)
    (h : UsrDict d segs free) (hseg : d.seglen ≤ maxDouonBlk)
    (hadd : d.AddOk (requested env yomi k hinsi))
    (henv : requested env' yomi k hinsi = requested env yomi k hinsi) :
    let res := adddic env dictlist d st yomi (eucBytes k) hinsi
    let res' := deldic env' res.dict res.stdy yomi (eucBytes k) hinsi
    res.ret = some adDone → res.dict.DelOk (yomiCodes yomi) → maxWdYomiLen ≤ res.dict.countUidx →
      res'.ret = some adDone ∧ (∃ es, d.entries = some es ∧ res'.dict.entries = some es) ∧
        ∃ segs' free', UsrDict res'.dict segs' free' := by
  intro res res' hret hok hidx
  have hrun : Runs env dictlist d yomi (eucBytes k) hinsi := by
    by_contra hno
    obtain ⟨ret, hne, he⟩ := adddic_of_not_runs st hno
    have hret' : (adddic env dictlist d st yomi (eucBytes k) hinsi).ret = some adDone := hret
    rw [he] at hret'
    exact hne (Option.some.inj hret')
  have hmax : res.dict.maxunit = d.maxunit :=
    congrArg (fun g => g.2.1) (adddic_geometry env dictlist d st yomi (eucBytes k) hinsi)
  have hlen : res.dict.seglen = d.seglen :=
    congrArg Prod.fst (adddic_geometry env dictlist d st yomi (eucBytes k) hinsi)
  obtain ⟨⟨ret, es, es₁, hr, hes, hes₁, hreg⟩, segs₁, free₁, h₁⟩ :=
    adddic_addReturns env dictlist st h hseg hadd
  obtain rfl : adDone = ret := Option.some.inj (hret.symm.trans hr)
  have hadds := hreg.adds
  obtain ⟨w', hw'⟩ := exists_word env' hrun.accepted (storable_eucBytes env' hrun.accepted)
  obtain ⟨⟨ret', es₁', es₂, hr', hes₁', hes₂, hdel⟩, -, hholds⟩ :=
    hw'.deldic_refines h₁ res.stdy (hlen ▸ hseg) (hmax ▸ hrun.writable) hok
  obtain rfl : es₁ = es₁' := Option.some.inj (hes₁.symm.trans hes₁')
  rw [henv] at hdel
  have hyomi : ∀ x ∈ es₁, x.yomi.length ≤ maxWdYomiLen := by
    obtain rfl : entriesOf (blocks segs₁) = es₁ := Option.some.inj (h₁.entries.symm.trans hes₁)
    intro x hx
    obtain ⟨t, -, hxt⟩ := mem_entriesOf.mp hx
    rw [DouonBlk.yomi_of_mem hxt]
    exact t.isYomi.length_le
  have hdone : ret' = adDone :=
    hdel.ret_eq hadds.mem fun x hx => ((hyomi x hx).trans hidx).trans (Nat.le_add_right _ _)
  subst hdone
  exact ⟨hr', ⟨es, hes, hadds.deletes hdel ▸ hes₂⟩, hholds⟩


/-- The word that was registered last goes again. -/
theorem deldic_adddic_oneMore :
    let res' := deldic sampleEnv oneMore.dict oneMore.stdy [0xa4, 0xa2] (eucBytes kanjiB) 1
    res'.ret = some adDone ∧ (∃ es, longDict.entries = some es ∧ res'.dict.entries = some es) ∧
      ∃ segs' free', UsrDict res'.dict segs' free' :=
  deldic_adddic sampleEnv sampleEnv [] longDict [longSeg] 510 none [0xa4, 0xa2] kanjiB 1
    longDict_usrDict (by decide) longDict_addOk rfl oneMore_ok.1 oneMore_ok.2.1 oneMore_ok.2.2

end Sj3
