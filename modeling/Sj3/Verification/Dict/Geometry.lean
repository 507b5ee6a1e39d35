import Sj3.Model.DictFile
import Sj3.Model.DictId
import Sj3.Verification.Dict.UsrDict

/-! # The geometry of a new dictionary

Which of the lengths `makedict` accepts are the same when the dictionary is opened. -/

namespace Sj3

open Buffer

theorem get4byte_put4byte {n : ℕ} (h : n < 2 ^ 32) (rest : Bytes) :
    get4byte (put4byte n ++ rest) = n := by
  simp only [get4byte, put4byte, List.cons_append, List.getD_cons_zero, List.getD_cons_succ,
    UInt8.toNat_ofNat', Nat.shiftLeft_eq, Nat.shiftRight_eq_div_pow]
  omega

/-- The header of a new dictionary. -/
def newHeader (idxlen seglen segnum : ℕ) : Bytes :=
  put4byte dictVersion ++ (List.replicate 28 0 ++ (put4byte 256 ++ (put4byte idxlen ++
    (List.replicate 8 0 ++ (put4byte (256 + idxlen) ++ (put4byte seglen ++ (put4byte 1 ++
      (put4byte segnum ++ List.replicate 192 0))))))))

theorem makedictFile_eq {idxlen seglen segnum : ℤ} {file : Bytes}
    (h : makedictFile idxlen seglen segnum = some file) :
    minIdxLen ≤ idxlen ∧ minSegLen ≤ seglen ∧ minSegNum ≤ segnum ∧
      file = newHeader idxlen.toNat seglen.toNat segnum.toNat ++
        (List.replicate idxlen.toNat 0 ++
          (0 :: List.replicate (seglen.toNat - 1) dicSegTerm)) := by
  rw [makedictFile] at h
  split at h
  · cases h
  · rename_i hgeo
    simp only [not_or, not_lt] at hgeo
    refine ⟨hgeo.1, hgeo.2.1, hgeo.2.2, (Option.some.inj h).symm.trans ?_⟩
    rfl

/-- The record of a file with the header of a new dictionary. -/
def newRecord (ino idxlen seglen segnum : ℕ) (file : Bytes) : DictRecord :=
  DictRecord.mkidxtbl {
    dicid := ino
    idxlen := UInt16.ofNat idxlen
    seglen := UInt16.ofNat seglen
    segunit := 1
    maxunit := Int16.ofNat segnum
    buffer := file
    idxstrt := 256
    segstrt := 256 + idxlen
    ofsptr := [] }

theorem opendictFile_new (ino : ℕ) (passwd rest : Bytes) {idxlen seglen segnum : ℕ}
    (hi : idxlen < 2 ^ 31) (hs : seglen < 2 ^ 31) (hn : segnum < 2 ^ 31) :
    opendictFile ino true passwd (newHeader idxlen seglen segnum ++ rest) =
      .ok (newRecord ino idxlen seglen segnum (newHeader idxlen seglen segnum ++ rest)) := by
  obtain ⟨file, hfile⟩ : ∃ file, file = newHeader idxlen seglen segnum ++ rest := ⟨_, rfl⟩
  have hcheck : checkDictfile (file.take headerLength) = true := by
    rw [hfile]
    exact decide_eq_true (get4byte_put4byte (by decide) _)
  have hpasswd : checkPasswd (file.take headerLength) passwd = true := by
    have hhead : ((file.take headerLength).drop passwdPos).headD 0 = 0 := by rw [hfile]; rfl
    exact decide_eq_true fun h => h.1 hhead
  have hidxpos : get4byte (file.drop dictIdxPos) = 256 := by
    rw [hfile]
    exact get4byte_put4byte (by decide) _
  have hidxlen : get4byte (file.drop dictIdxLen) = idxlen := by
    rw [hfile]
    exact get4byte_put4byte (by omega) _
  have hsegpos : get4byte (file.drop dictSegPos) = 256 + idxlen := by
    rw [hfile]
    exact get4byte_put4byte (by omega) _
  have hseglen : get4byte (file.drop dictSegLen) = seglen := by
    rw [hfile]
    exact get4byte_put4byte (by omega) _
  have hsegnum : get4byte (file.drop dictSegNum) = 1 := by
    rw [hfile]
    exact get4byte_put4byte (by decide) _
  have hsegmax : get4byte (file.drop dictSegMax) = segnum := by
    rw [hfile]
    exact get4byte_put4byte (by omega) _
  rw [← hfile, opendictFile]
  simp only [hcheck, hpasswd, not_true, if_false, hidxpos, hidxlen, hsegpos, hseglen, hsegnum,
    hsegmax, if_true]
  rfl

/-! ## What comes through -/

/-- The record has the lengths it was made with. What is computed from them is right in the
types it has: offsets into the index area and into a segment, numbers of segments, and their
places in the file. The dictionary is one without words. -/
structure DictRecord.KeepsGeometry (d : DictRecord) (idxlen seglen segnum : ℤ) : Prop where
  idxlen_eq : d.idxlen.toNat = idxlen
  seglen_eq : d.seglen.toNat = seglen
  maxunit_eq : d.maxunit.toInt = segnum
  idxofs : ∀ p : ℕ, p ≤ idxlen → (UInt16.ofNat p).toNat = p
  segofs : ∀ ofs : ℕ, ofs ≤ seglen → (UInt16.ofNat ofs).toNat = ofs
  segno : ∀ seg : ℕ, seg ≤ segnum → (Int16.ofNat seg).toInt = seg
  segpos : ∀ seg : ℕ, seg ≤ segnum → toInt (d.seglen.toNat * seg) = seglen * seg ∧
    toInt (d.segpos seg) = d.segstrt + seglen * seg
  dict : UsrDict d.toDict [emptySeg seglen.toNat] (idxlen.toNat - 1)

theorem toInt_of_lt {n : ℤ} (h0 : 0 ≤ n) (h : n < 2 ^ 31) : toInt n = n := by
  rw [toInt, Int.bmod_def]
  split <;> omega

/-- The new dictionary is the one of `makedict`. -/
theorem toDict_newRecord {ino idxlen seglen segnum : ℕ} (hi : idxlen < 2 ^ 16)
    (hs : seglen < 2 ^ 16) (hn : segnum < 2 ^ 15) (hipos : 0 < idxlen) (hspos : 0 < seglen)
    (header : Bytes) (hheader : header.length = 256) :
    (newRecord ino idxlen seglen segnum (header ++ (List.replicate idxlen 0 ++
        (0 :: List.replicate (seglen - 1) dicSegTerm)))).toDict =
      { dicid := ino, idxlen, seglen, segunit := 1, maxunit := segnum,
        idxbuf := List.replicate idxlen 0,
        segs := [0 :: List.replicate (seglen - 1) dicSegTerm], idxofs := [0] } := by
  have hmax : (Int16.ofNat segnum).toInt = segnum := Int16.toInt_ofNat_of_lt hn
  have hidx : (UInt16.ofNat idxlen).toNat = idxlen := by
    rw [UInt16.toNat_ofNat', Nat.mod_eq_of_lt hi]
  have hseg : (UInt16.ofNat seglen).toNat = seglen := by
    rw [UInt16.toNat_ofNat', Nat.mod_eq_of_lt hs]
  have hidxbuf : ((header ++ (List.replicate idxlen 0 ++
      (0 :: List.replicate (seglen - 1) dicSegTerm))).drop 256).take idxlen =
        List.replicate idxlen 0 := by
    rw [← hheader, List.drop_left]
    exact List.take_left' List.length_replicate
  have hsegs : ((header ++ (List.replicate idxlen 0 ++
      (0 :: List.replicate (seglen - 1) dicSegTerm))).drop (256 + idxlen)).take seglen =
        0 :: List.replicate (seglen - 1) dicSegTerm := by
    rw [← List.append_assoc, List.drop_left' (by simp [hheader])]
    apply List.take_of_length_le
    simp only [List.length_cons, List.length_replicate]
    omega
  obtain ⟨n, rfl⟩ : ∃ n, idxlen = n + 1 := ⟨idxlen - 1, by omega⟩
  simp only [newRecord, DictRecord.toDict, DictRecord.mkidxtbl, DictRecord.getidx,
    DictRecord.segpos, hmax, hidx, hseg, hidxbuf]
  have hunit : (1 : Int16).toInt.toNat = 1 := rfl
  simp only [hunit, List.range_one, List.map_singleton, Nat.mul_zero, Nat.add_zero, hsegs,
    Int.toNat_natCast]
  simp [Dict.mkidxtblLoop]

theorem length_newHeader (idxlen seglen segnum : ℕ) :
    (newHeader idxlen seglen segnum).length = 256 := by
  simp only [newHeader, put4byte, List.length_append, List.length_cons, List.length_nil,
    List.length_replicate]

/-- A dictionary that fits is a well-formed one without words. -/
theorem newRecord_usrDict {ino idxlen seglen segnum : ℕ} (hi : idxlen < 2 ^ 16)
    (hs : seglen < 2 ^ 16) (hn : segnum < 2 ^ 15) (hgi : minIdxLen ≤ idxlen)
    (hgs : minSegLen ≤ seglen) (hgn : minSegNum ≤ segnum) (header : Bytes)
    (hheader : header.length = 256) :
    UsrDict (newRecord ino idxlen seglen segnum (header ++ (List.replicate idxlen 0 ++
        (0 :: List.replicate (seglen - 1) dicSegTerm)))).toDict
      [emptySeg seglen] (idxlen - 1) := by
  rw [minIdxLen] at hgi
  rw [minSegLen] at hgs
  rw [toDict_newRecord hi hs hn (by omega) (by omega) header hheader]
  apply @makedict_usrDict ino idxlen seglen segnum _ _ hi hs
  have hi' : idxlen % 0x10000 = idxlen := Nat.mod_eq_of_lt hi
  have hs' : seglen % 0x10000 = seglen := Nat.mod_eq_of_lt hs
  rw [minSegNum] at hgn
  rw [makedict, if_neg (by simp only [minIdxLen, minSegLen, minSegNum]; omega), hi', hs']

theorem newRecord_keepsGeometry {ino idxlen seglen segnum : ℕ} (hi : idxlen < 2 ^ 16)
    (hs : seglen < 2 ^ 16) (hn : segnum < 2 ^ 15) (hgi : minIdxLen ≤ idxlen)
    (hgs : minSegLen ≤ seglen) (hgn : minSegNum ≤ segnum) (header : Bytes)
    (hheader : header.length = 256) :
    (newRecord ino idxlen seglen segnum (header ++ (List.replicate idxlen 0 ++
        (0 :: List.replicate (seglen - 1) dicSegTerm)))).KeepsGeometry idxlen seglen segnum where
  idxlen_eq := by
    rw [show (newRecord ino idxlen seglen segnum _).idxlen = UInt16.ofNat idxlen from rfl,
      UInt16.toNat_ofNat', Nat.mod_eq_of_lt hi]
  seglen_eq := by
    rw [show (newRecord ino idxlen seglen segnum _).seglen = UInt16.ofNat seglen from rfl,
      UInt16.toNat_ofNat', Nat.mod_eq_of_lt hs]
  maxunit_eq := Int16.toInt_ofNat_of_lt hn
  idxofs := by
    intro p hp
    rw [UInt16.toNat_ofNat', Nat.mod_eq_of_lt (by omega)]
  segofs := by
    intro ofs hofs
    rw [UInt16.toNat_ofNat', Nat.mod_eq_of_lt (by omega)]
  segno := by
    intro seg hseg
    exact Int16.toInt_ofNat_of_lt (by omega)
  segpos := by
    intro seg hseg
    have hlen : (UInt16.ofNat seglen).toNat = seglen := by
      rw [UInt16.toNat_ofNat', Nat.mod_eq_of_lt hs]
    have hle : seg ≤ 0x7fff := by omega
    -- the largest product an accepted geometry has is 65535 * 32767
    have hmul : seglen * seg ≤ 0xffff * 0x7fff :=
      Nat.mul_le_mul (by omega) hle
    simp only [newRecord, DictRecord.mkidxtbl, DictRecord.segpos, hlen]
    push_cast
    rw [← Nat.cast_mul]
    exact ⟨toInt_of_lt (by omega) (by omega), toInt_of_lt (by omega) (by omega)⟩
  dict := by
    simp only [Int.toNat_natCast]
    exact newRecord_usrDict hi hs hn hgi hgs hgn header hheader

/-- For every geometry `makedict` accepts, opening the dictionary gives a record with that
geometry exactly if the lengths are numbers of 16 bits and the number of segments one of 15. -/
theorem makedict_geometry_iff (idxlen seglen segnum : Int32) (ino : ℕ) (passwd file : Bytes)
    (h : makedictFile idxlen.toInt seglen.toInt segnum.toInt = some file) :
    ∃ d, opendictFile ino true passwd file = .ok d ∧
      (d.KeepsGeometry idxlen.toInt seglen.toInt segnum.toInt ↔
        idxlen.toInt < 2 ^ 16 ∧ seglen.toInt < 2 ^ 16 ∧ segnum.toInt < 2 ^ 15) := by
  have hmax : ∀ n : Int32, n.toInt < 2 ^ 31 := Int32.toInt_lt
  obtain ⟨hgi, hgs, hgn, hfile⟩ := makedictFile_eq h
  have hi0 := hmax idxlen
  have hs0 := hmax seglen
  have hn0 := hmax segnum
  obtain ⟨i, hi⟩ : ∃ i : ℕ, idxlen.toInt = i :=
    Int.eq_ofNat_of_zero_le (by simp only [minIdxLen] at hgi; omega)
  obtain ⟨s, hs⟩ : ∃ s : ℕ, seglen.toInt = s :=
    Int.eq_ofNat_of_zero_le (by simp only [minSegLen] at hgs; omega)
  obtain ⟨n, hn⟩ : ∃ n : ℕ, segnum.toInt = n :=
    Int.eq_ofNat_of_zero_le (by simp only [minSegNum] at hgn; omega)
  rw [hi] at hgi hi0 hfile ⊢
  rw [hs] at hgs hs0 hfile ⊢
  rw [hn] at hgn hn0 hfile ⊢
  simp only [Int.toNat_natCast] at hfile
  have hopen : opendictFile ino true passwd file = .ok (newRecord ino i s n file) := by
    rw [hfile]
    exact opendictFile_new ino passwd _ (by omega) (by omega) (by omega)
  refine ⟨_, hopen, ?_⟩
  constructor
  · intro hkeeps
    have hik := hkeeps.idxlen_eq
    have hsk := hkeeps.seglen_eq
    have hnk := hkeeps.maxunit_eq
    refine ⟨?_, ?_, ?_⟩
    · rw [← hik]
      exact_mod_cast UInt16.toNat_lt _
    · rw [← hsk]
      exact_mod_cast UInt16.toNat_lt _
    · rw [← hnk]
      exact Int16.toInt_lt _
  · rintro ⟨hi16, hs16, hn15⟩
    rw [hfile]
    exact newRecord_keepsGeometry (by omega) (by omega) (by omega) (by omega) (by omega) (by omega)
      _ (length_newHeader i s n)

theorem makedict_geometry_iff_least :
    ∃ file d, makedictFile (512 : Int32).toInt (512 : Int32).toInt (4 : Int32).toInt = some file ∧
      opendictFile 1 true [] file = .ok d ∧
      (d.KeepsGeometry (512 : Int32).toInt (512 : Int32).toInt (4 : Int32).toInt ↔
        (512 : Int32).toInt < 2 ^ 16 ∧ (512 : Int32).toInt < 2 ^ 16 ∧
        (4 : Int32).toInt < 2 ^ 15) := by
  obtain ⟨file, hfile⟩ : ∃ file,
      makedictFile (512 : Int32).toInt (512 : Int32).toInt (4 : Int32).toInt = some file := ⟨_, rfl⟩
  obtain ⟨d, hopen, hiff⟩ := makedict_geometry_iff 512 512 4 1 [] file hfile
  exact ⟨file, d, hfile, hopen, hiff⟩

/-- An index of 65536 bytes is opened as one of none, and a dictionary that may grow to 32768
segments as one that may not have any. -/
theorem makedict_not_keepsGeometry :
    (∃ file d, makedictFile 0x10000 512 4 = some file ∧ opendictFile 1 true [] file = .ok d ∧
        d.idxlen = 0 ∧ ¬ d.KeepsGeometry 0x10000 512 4) ∧
      ∃ file d, makedictFile 512 512 0x8000 = some file ∧ opendictFile 1 true [] file = .ok d ∧
        d.maxunit.toInt = -0x8000 ∧ ¬ d.KeepsGeometry 512 512 0x8000 := by
  constructor
  · have hidx : ∀ file, (newRecord 1 0x10000 512 4 file).idxlen = 0 := fun _ => rfl
    refine ⟨_, _, rfl, opendictFile_new 1 [] _ (by decide) (by decide) (by decide), hidx _, ?_⟩
    intro h
    have hlen : ((newRecord 1 0x10000 512 4 _).idxlen.toNat : ℤ) = 0x10000 := h.idxlen_eq
    rw [hidx] at hlen
    exact absurd hlen (by decide)
  · have hmax : ∀ file, (newRecord 1 512 512 0x8000 file).maxunit.toInt = -0x8000 := fun _ => rfl
    refine ⟨_, _, rfl, opendictFile_new 1 [] _ (by decide) (by decide) (by decide), hmax _, ?_⟩
    intro h
    have hlen : (newRecord 1 512 512 0x8000 _).maxunit.toInt = 0x8000 := h.maxunit_eq
    rw [hmax] at hlen
    exact absurd hlen (by decide)

end Sj3
