import Sj3.Verification.Delete.Entries

/-! # Requests to delete a word

An accepted request takes the last word that may be taken for the requested one out of the
dictionary, or it changes nothing. -/

namespace Sj3

variable {env : Env} {d : Dict} {segs : List Seg} {free : ℕ} {yomi : Bytes} {k : List EucChar}
  {hinsi : UInt8} {w : Word}

/-- The segment the reading `y` belongs to has an unused byte, and the index has what its last
string may get shorter. -/
def Dict.DelOk (d : Dict) (y : Bytes) : Prop :=
  0 < usrFreelen d.seglen (d.getdic (d.srchidx y dicSegBase y.length)) ∧
    y.length ≤ d.countUidx + 2

instance Dict.decidableDelOk (d : Dict) (y : Bytes) : Decidable (d.DelOk y) :=
  inferInstanceAs (Decidable (_ ∧ _))

/-- The word a request is about. -/
def requested (env : Env) (yomi : Bytes) (k : List EucChar) (hinsi : UInt8) : Entry :=
  ⟨yomiCodes yomi, cvtknj env.below env.belowKana yomi (eucBytes k), hinsi⟩

theorem IsWordOf.entry_eq (h : IsWordOf env yomi (eucBytes k) hinsi w) :
    w.entry = requested env yomi k hinsi := by
  rw [Word.entry, h.yomi_eq, h.kanji_eq, h.hinsi_eq]
  rfl

theorem UsrDict.free_eq (h : UsrDict d segs free) : free = d.countUidx :=
  (h.countUidx_eq h.ne_nil).symm

/-- An accepted request runs for its word. -/
theorem IsWordOf.deldic_refines (hw : IsWordOf env yomi (eucBytes k) hinsi w)
    (h : UsrDict d segs free)
    (st : Option Stdy) (hseg : d.seglen ≤ maxDouonBlk) (hmax : d.maxunit ≠ 0)
    (hok : d.DelOk (yomiCodes yomi)) :
    Refines d.countUidx (requested env yomi k hinsi) d st
      (deldic env d st yomi (eucBytes k) hinsi) := by
  obtain ⟨pre, s, post, l, old, r, hsp, hidx⟩ := h.exists_spot w.yomi
  obtain ⟨hroom, hlen⟩ := hok
  rw [← hw.yomi_eq] at hroom hlen
  have h' : UsrDict d (pre ++ s :: post) free := hsp.segs_eq ▸ h
  have htail : s.tail ≠ [] := by
    have hb : (segBytes s.blks s.tail).length = d.seglen := h'.length_bytes
    have hfree := usrFreelen_segBytes h'.coded s.isTail
    rw [hidx, h'.getdic, Seg.bytes, ← hb, hfree] at hroom
    exact List.ne_nil_of_length_pos hroom
  have hdel := h.delWord_refines env st hsp htail hseg (by rw [h.free_eq]; exact hlen)
  have hentry := hw.entry_eq
  obtain rfl := hw.hinsi_eq
  rw [deldic, if_neg (not_not.mpr hw.accepted), if_neg hmax]
  simp only
  rw [← hw.yomi_eq, ← hw.kanji_eq, hidx, ← hentry, ← h.free_eq]
  exact hdel

/-- Deletion in a well-formed dictionary is deletion of a word from the words it stores. -/
theorem deldic_deletes (env : Env) (d : Dict) (segs : List Seg) (free : ℕ) (st : Option Stdy)
    (yomi : Bytes) (k : List EucChar) (hinsi : UInt8) (h : UsrDict d segs free)
    (hseg : d.seglen ≤ maxDouonBlk) (harg : addelArg yomi (eucBytes k) hinsi = 0)
    (hmax : d.maxunit ≠ 0) (hok : d.DelOk (yomiCodes yomi)) :
    let res := deldic env d st yomi (eucBytes k) hinsi
    (∃ ret es es', res.ret = some ret ∧ d.entries = some es ∧ res.dict.entries = some es' ∧
      Deletes d.countUidx (requested env yomi k hinsi) es ret es') ∧
      (res.ret ≠ some adDone → res.dict = d ∧ res.stdy = st) ∧
        ∃ segs' free', UsrDict res.dict segs' free' := by
  intro res
  obtain ⟨w, hw⟩ := exists_word env harg (storable_eucBytes env harg)
  have href : Refines d.countUidx (requested env yomi k hinsi) d st res :=
    hw.deldic_refines h st hseg hmax hok
  exact ⟨href.deletes, href.unchanged, href.holds⟩

/-- A word goes from a block that fills its segment but for one byte. -/
theorem deldic_deletes_full :
    let res := deldic sampleEnv fullDict none [0xa4, 0xa2] (eucBytes kanjiA) 1
    (∃ ret es es', res.ret = some ret ∧ fullDict.entries = some es ∧ res.dict.entries = some es' ∧
      Deletes fullDict.countUidx (requested sampleEnv [0xa4, 0xa2] kanjiA 1) es ret es') ∧
      (res.ret ≠ some adDone → res.dict = fullDict ∧ res.stdy = none) ∧
        ∃ segs' free', UsrDict res.dict segs' free' :=
  deldic_deletes sampleEnv fullDict [fullSeg] 510 none [0xa4, 0xa2] kanjiA 1 fullDict_usrDict
    (by decide) (by decide +kernel) (by decide) (by decide +kernel)

end Sj3
