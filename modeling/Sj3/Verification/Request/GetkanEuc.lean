import Sj3.Verification.Encoding.Lengths
import Sj3.Verification.Request.Getkan

/-! # The pieces in EUC

With a server of version 1 the entries are made for SJIS, and the predicted lengths cut the
texts in EUC at the same characters. -/

namespace Sj3

open Memory Recode

/-- `euc` is what the conversion makes of `sjis` with just enough room. -/
def IsEucImage (d : Char2) (sjis euc : Bytes) : Prop :=
  strSjistoeuc euc.length d sjis = some ⟨euc, 0⟩

/-- A text of characters that the conversion and the prediction take alike. -/
def LegalText (s : Bytes) : Prop :=
  ∃ chars : List Bytes, (∀ ch ∈ chars, LegalSjis ch) ∧ chars.flatten = s

/-- A clause cuts the reading between characters, and its text is one of whole characters. -/
def LegalClause (piece : Bytes) (e : IkkatuClause) : Prop := LegalText piece ∧ LegalText e.text

theorem isEucImage_chars {chars : List Bytes} (hchars : ∀ ch ∈ chars, LegalSjis ch) (d : Char2) :
    IsEucImage d chars.flatten (eucImage d chars) := by
  have := @strSjistoeuc_chars chars hchars d [] rfl (eucImage d chars).length
    (Nat.le_of_eq (length_eucImage d chars).symm)
  rwa [List.append_nil] at this

section Cut

variable {pre piece post : List Bytes} (hpre : ∀ ch ∈ pre, LegalSjis ch)
  (hpiece : ∀ ch ∈ piece, LegalSjis ch) (q : Bytes)
include hpre hpiece

/-- The predictions for what lies in front of a piece and for the piece. -/
theorem sjistoeuclen_piece :
    sjistoeuclen ((pre ++ (piece ++ post)).flatten ++ q) pre.flatten.length = eucLen pre ∧
      sjistoeuclen (((pre ++ (piece ++ post)).flatten ++ q).drop pre.flatten.length)
        piece.flatten.length = eucLen piece := by
  rw [List.flatten_append, List.append_assoc, List.drop_left, List.flatten_append,
    List.append_assoc]
  exact ⟨sjistoeuclen_chars hpre _, sjistoeuclen_chars hpiece _⟩

omit hpre hpiece in
/-- They cut the image of the piece out of that of the whole text. -/
theorem readN_eucImage (d : Char2) :
    readN (eucLen piece) ((eucImage d (pre ++ (piece ++ post)) ++ q).drop (eucLen pre)) =
      eucImage d piece := by
  rw [eucImage_append, List.append_assoc, ← length_eucImage d pre, List.drop_left,
    eucImage_append, List.append_assoc, ← length_eucImage d piece, readN_append]

end Cut

section Entries

variable {old : OldServer} {knj : ℕ}

/-- The source of an entry whose piece begins and ends between characters. -/
theorem source_image {pre piece post : List Bytes} (hpre : ∀ ch ∈ pre, LegalSjis ch)
    (hpiece : ∀ ch ∈ piece, LegalSjis ch) (q q' kp : Bytes) {b : Sj3Bunsetu}
    (hsrc : b.srcstr = pre.flatten.length) (hlen : b.srclen = piece.flatten.length) :
    IsEucImage old.default_char (b.source ((pre ++ (piece ++ post)).flatten ++ q))
      ((eucBunsetu old ((pre ++ (piece ++ post)).flatten ++ q) kp knj b).source
        (eucImage old.default_char (pre ++ (piece ++ post)) ++ q')) := by
  obtain ⟨hfront, hlong⟩ := @sjistoeuclen_piece pre piece post hpre hpiece q
  have hsjis : b.source ((pre ++ (piece ++ post)).flatten ++ q) = piece.flatten := by
    rw [Sj3Bunsetu.source, hsrc, hlen, Int.toNat_natCast, List.flatten_append, List.append_assoc,
      List.drop_left, List.flatten_append, List.append_assoc, readN_append]
  have heuc : (eucBunsetu old ((pre ++ (piece ++ post)).flatten ++ q) kp knj b).source
      (eucImage old.default_char (pre ++ (piece ++ post)) ++ q') =
        eucImage old.default_char piece := by
    rw [Sj3Bunsetu.source, eucBunsetu]
    simp only [hsrc, hlen, hfront, hlong, Int.toNat_natCast]
    exact readN_eucImage q' old.default_char
  rw [hsjis, heuc]
  exact isEucImage_chars hpiece _

/-- The result of an entry, likewise. -/
theorem result_image {pre piece post : List Bytes} (hpre : ∀ ch ∈ pre, LegalSjis ch)
    (hpiece : ∀ ch ∈ piece, LegalSjis ch) (yp q : Bytes) {b : Sj3Bunsetu} {m m' : Mem}
    (hdest : b.deststr = some (old.khp + pre.flatten.length))
    (hlen : b.destlen = piece.flatten.length)
    (hm : cells m (old.khp + pre.flatten.length) piece.flatten.length = piece.flatten)
    (hm' : cells m' (knj + eucLen pre) (eucLen piece) = eucImage old.default_char piece) :
    IsEucImage old.default_char (b.result m)
      ((eucBunsetu old yp ((pre ++ (piece ++ post)).flatten ++ q) knj b).result m') := by
  obtain ⟨hfront, hlong⟩ := @sjistoeuclen_piece pre piece post hpre hpiece q
  have hsjis : b.result m = piece.flatten := by
    simp only [Sj3Bunsetu.result, hdest, hlen, Int.toNat_natCast]
    exact hm
  have hofs : (((old.khp + pre.flatten.length : ℕ) : ℤ) - old.khp) = pre.flatten.length := by
    omega
  have hofs' : old.khp + pre.flatten.length - old.khp = pre.flatten.length := by omega
  have heuc : (eucBunsetu old yp ((pre ++ (piece ++ post)).flatten ++ q) knj b).result m' =
      eucImage old.default_char piece := by
    simp only [Sj3Bunsetu.result, eucBunsetu, hdest, hlen, hofs, hofs', hfront, hlong,
      Int.toNat_natCast]
    exact hm'
  rw [hsjis, heuc]
  exact isEucImage_chars hpiece _

end Entries

/-- A clause that cuts a text between characters takes some of them. -/
theorem exists_piece {cs : List Bytes} (hcs : ∀ ch ∈ cs, LegalSjis ch) {n : ℕ}
    (hn : n ≤ cs.flatten.length) (h : LegalText (cs.flatten.take n)) :
    ∃ piece post, cs = piece ++ post ∧ piece.flatten.length = n ∧
      (∀ ch ∈ piece, LegalSjis ch) ∧ ∀ ch ∈ post, LegalSjis ch := by
  obtain ⟨piece, hpiece, hflat⟩ := h
  obtain ⟨post, rfl, -⟩ := Coding.exists_append_of_flatten
    (fun ch hch => (hcs ch hch).isChar (0, 0)) (fun ch hch => (hpiece ch hch).isChar (0, 0))
    (show cs.flatten = piece.flatten ++ cs.flatten.drop n by rw [hflat, List.take_append_drop])
  refine ⟨piece, post, rfl, ?_, hpiece, (List.forall_mem_append.mp hcs).2⟩
  rw [hflat, List.length_take]
  omega

section Lists

variable {old : OldServer} {knj : ℕ}

/-- The sources of the entries for clauses; what is left over are whole characters, too. -/
theorem bunsetus_sourceImage {es : List IkkatuClause} {pre cs : List Bytes}
    (hpre : ∀ ch ∈ pre, LegalSjis ch) (hcs : ∀ ch ∈ cs, LegalSjis ch)
    (hcuts : Cuts LegalClause cs.flatten es) (khp : ℕ) (q q' kp : Bytes) :
    (∀ b ∈ bunsetus pre.flatten.length khp es,
      IsEucImage old.default_char (b.source ((pre ++ cs).flatten ++ q))
        ((eucBunsetu old ((pre ++ cs).flatten ++ q) kp knj b).source
          (eucImage old.default_char (pre ++ cs) ++ q'))) ∧
      ∃ mid post, cs = mid ++ post ∧ mid.flatten.length = lens es := by
  induction es generalizing pre cs khp with
  | nil => exact ⟨fun b hb => (by cases hb), [], cs, rfl, rfl⟩
  | cons e es ih =>
      obtain ⟨hlen, hlegal, hrest⟩ := hcuts
      obtain ⟨piece, post, rfl, hpiece, hpieces, hposts⟩ := exists_piece hcs hlen hlegal.1
      rw [List.flatten_append, ← hpiece, List.drop_left] at hrest
      obtain ⟨himages, mid, post', rfl, hmid⟩ :=
        ih (List.forall_mem_append.mpr ⟨hpre, hpieces⟩) hposts hrest (khp + e.text.length)
      rw [List.flatten_append, List.length_append, hpiece, List.append_assoc] at himages
      refine ⟨List.forall_mem_cons.mpr ⟨?_, himages⟩, piece ++ mid, post', ?_, ?_⟩
      · exact source_image hpre hpieces q q' kp rfl (by rw [hpiece])
      · rw [List.append_assoc]
      · rw [List.flatten_append, List.length_append, hpiece, hmid]
        rfl

/-- The results of the entries for clauses. -/
theorem bunsetus_resultImage {es : List IkkatuClause} (hes : ∀ e ∈ es, LegalText e.text) :
    ∃ cs : List Bytes, (∀ ch ∈ cs, LegalSjis ch) ∧ cs.flatten = texts es ∧
      ∀ (pre : List Bytes) (ofs : ℕ) (yp q : Bytes) (m m' : Mem), (∀ ch ∈ pre, LegalSjis ch) →
        cells m (old.khp + pre.flatten.length) (texts es).length = texts es →
        cells m' (knj + eucLen pre) (eucLen cs) = eucImage old.default_char cs →
        ∀ b ∈ bunsetus ofs (old.khp + pre.flatten.length) es,
          IsEucImage old.default_char (b.result m)
            ((eucBunsetu old yp ((pre ++ cs).flatten ++ q) knj b).result m') := by
  induction es with
  | nil => exact ⟨[], fun ch hch => (by cases hch), rfl, fun _ _ _ _ _ _ _ _ _ b hb => by cases hb⟩
  | cons e es ih =>
      rw [List.forall_mem_cons] at hes
      obtain ⟨piece, hpiece, hflat⟩ := hes.1
      obtain ⟨cs, hcs, htexts, himages⟩ := ih hes.2
      have hall : texts (e :: es) = e.text ++ texts es := rfl
      refine ⟨piece ++ cs, List.forall_mem_append.mpr ⟨hpiece, hcs⟩, ?_,
        fun pre ofs yp q m m' hpre hm hm' => ?_⟩
      · rw [List.flatten_append, hflat, htexts, hall]
      · rw [hall] at hm
        obtain ⟨htext, hm⟩ := cells_append hm
        rw [← hflat] at htext hm
        rw [eucImage_append, eucLen_append, ← length_eucImage old.default_char piece,
          ← length_eucImage old.default_char cs, ← List.length_append] at hm'
        obtain ⟨heuc, hm'⟩ := cells_append hm'
        rw [length_eucImage] at heuc
        rw [length_eucImage, length_eucImage] at hm'
        have hrest := himages (pre ++ piece) (ofs + e.len.toNat) yp q m m'
          (List.forall_mem_append.mpr ⟨hpre, hpiece⟩)
          (by rwa [List.flatten_append, List.length_append, ← Nat.add_assoc])
          (by rwa [eucLen_append, ← Nat.add_assoc])
        rw [List.flatten_append, List.length_append, hflat, ← Nat.add_assoc, List.append_assoc]
          at hrest
        refine List.forall_mem_cons.mpr ⟨?_, hrest⟩
        exact result_image hpre hpiece yp q rfl (by rw [hflat]) htext heuc

end Lists

/-! ## The texts of the caller -/

theorem zero_notMem_flatten {chars : List Bytes} (h : ∀ ch ∈ chars, 0 ∉ ch) :
    0 ∉ chars.flatten := by
  intro hzero
  obtain ⟨ch, hch, hmem⟩ := List.mem_flatten.mp hzero
  exact h ch hch hmem

theorem sjisText_le (text : List CodedChar) : (sjisText text).length ≤ (eucText text).length := by
  induction text with
  | nil => exact Nat.le_refl 0
  | cons ch text ih =>
      have := ch.same.length_le.1
      simp only [sjisText, eucText, List.map_cons, List.flatten_cons, List.length_append] at ih ⊢
      omega

theorem legal_sjis (text : List CodedChar) : ∀ ch ∈ text.map CodedChar.sjis, LegalSjis ch :=
  List.forall_mem_map.mpr fun ch _ => ch.same.legal

/-- The image of the reading in SJIS is the reading of the caller. -/
theorem eucImage_text (d : Char2) (text : List CodedChar) :
    eucImage d (text.map CodedChar.sjis) = eucText text := by
  rw [eucImage, eucText, List.flatMap_def, List.map_map]
  exact congrArg List.flatten (List.map_congr_left fun ch _ => (ch.same.toEuc d).put)

theorem legal_texts {reading : Bytes} {es : List IkkatuClause} (h : Cuts LegalClause reading es) :
    ∀ e ∈ es, LegalText e.text := by
  induction es generalizing reading with
  | nil => exact fun e he => by cases he
  | cons e es ih => exact List.forall_mem_cons.mpr ⟨h.2.1.2, ih h.2.2⟩

/-- The entry for the rest of a reading, which has no result. -/
theorem restBunsetus_image {old : OldServer} {knj : ℕ} {mid post : List Bytes}
    (hmid : ∀ ch ∈ mid, LegalSjis ch) (hpost : ∀ ch ∈ post, LegalSjis ch) (q' kp : Bytes)
    (m m' : Mem) :
    ∀ b ∈ restBunsetus ((mid ++ post).flatten ++ [0]) mid.flatten.length,
      IsEucImage old.default_char (b.source ((mid ++ post).flatten ++ [0]))
          ((eucBunsetu old ((mid ++ post).flatten ++ [0]) kp knj b).source
            (eucImage old.default_char (mid ++ post) ++ q')) ∧
        IsEucImage old.default_char (b.result m)
          ((eucBunsetu old ((mid ++ post).flatten ++ [0]) kp knj b).result m') := by
  intro b hb
  have hzero : 0 ∉ post.flatten := zero_notMem_flatten fun ch hch => (hpost ch hch).zero_notMem
  rw [restBunsetus] at hb
  split_ifs at hb
  · obtain rfl := List.mem_singleton.mp hb
    have hlong : sstrlen (((mid ++ post).flatten ++ [0]).drop mid.flatten.length) =
        post.flatten.length := by
      rw [List.flatten_append, List.append_assoc, List.drop_left]
      exact sstrlen_append hzero _ rfl
    refine ⟨?_, rfl⟩
    have himage := @source_image old knj mid post [] hmid hpost [0] q' kp
      ⟨sstrlen (((mid ++ post).flatten ++ [0]).drop mid.flatten.length), 0,
        mid.flatten.length, none,
        List.replicate sj3WordIdSize 0⟩ rfl (by simp only [hlong])
    rwa [List.append_nil] at himage
  · cases hb

/-- With a server of version 1, the entries for the reading of the caller and the result in EUC
have the images of the pieces in SJIS. -/
theorem sj3GetkanEuc_images {stysiz : ℕ} {server : IkkatuServer}
    (hserver : Serves stysiz LegalClause server) (old : OldServer) {text : List CodedChar}
    (rest : Bytes) (m : Mem) (knj : ℕ) {knjsiz : ℤ} (hne : text ≠ [])
    (hlen : (eucText text).length ≤ sj3IkkatuYomi) (hsiz : 1 ≤ knjsiz) :
    ∃ l, getkanHenkan stysiz server (sjisText text ++ [0]) old.kmem old.khp knjsiz = some l ∧
      ((∀ euc, IsEucImage old.default_char (l.bun.map (Sj3Bunsetu.result l.mem)).flatten euc →
          (euc.length : ℤ) ≤ knjsiz) →
        ∃ r, sj3GetkanEuc stysiz server (some old) (eucText text ++ 0 :: rest) m knj knjsiz =
            some r ∧ r.ret = l.ret ∧
          List.Forall₂ (fun b b' =>
            IsEucImage old.default_char (b.source (sjisText text ++ [0]))
                (b'.source (eucText text ++ 0 :: rest)) ∧
              IsEucImage old.default_char (b.result l.mem) (b'.result r.mem)) l.bun r.bun) := by
  have hzero : 0 ∉ eucText text :=
    zero_notMem_flatten (List.forall_mem_map.mpr fun ch _ => ch.same.zero_notMem)
  have hzero' : 0 ∉ sjisText text :=
    zero_notMem_flatten fun ch hch => (legal_sjis text ch hch).zero_notMem
  have hyomi : sstrlen (eucText text ++ 0 :: rest) = (eucText text).length :=
    sstrlen_append hzero _ rfl
  have hyp : sstrlen (sjisText text ++ [0]) = (sjisText text).length := sstrlen_append hzero' _ rfl
  have hcstr : cstr (sjisText text ++ [0]) = sjisText text := cstr_append_zero hzero' []
  have hpos : 0 < (sjisText text).length := by
    rw [List.length_pos_iff, sjisText]
    obtain ⟨ch, text, rfl⟩ := List.exists_cons_of_ne_nil hne
    intro hnil
    exact (ch.same.legal.isChar (0, 0)).ne_nil (List.append_eq_nil_iff.mp hnil).1
  obtain ⟨es, m', hes, hcuts, hloop, hleaves, hend, -⟩ :=
    @getkanLoop_serves stysiz _ server hserver (sjisText text ++ [0]) (knjsiz.toNat + 1)
      ((sjisText text ++ [0]).length + 1) 0 ⟨old.kmem, 0, old.khp, knjsiz, []⟩ hsiz
      (by simp only []; omega) (Nat.zero_le _)
      (by rw [List.length_append, hyp]; simp only []; omega)
  rw [hcstr, List.drop_zero] at hcuts
  have hlens := hcuts.lens_le
  have hrest := @getkanRest_eq (sjisText text ++ [0])
    (GetkanState.take ⟨old.kmem, 0, old.khp, knjsiz, []⟩ es m')
    (by simp only [GetkanState.take, hyp]; omega)
  simp only [GetkanState.take, List.nil_append, Nat.zero_add] at hloop hrest hleaves hend
  have hresult := bunsetus_result 0 old.khp hleaves.text
  refine ⟨_, by rw [getkanHenkan, hloop], fun hroom => ?_⟩
  simp only [hrest, List.map_append, List.flatten_append, hresult, restBunsetus_result,
    List.append_nil] at hroom
  obtain ⟨cs, hcs, htexts, himages⟩ := @bunsetus_resultImage old knj es (legal_texts hcuts)
  have hfits := hroom _ (htexts ▸ isEucImage_chars hcs old.default_char)
  rw [length_eucImage] at hfits
  -- what the result in SJIS is converted from
  obtain ⟨q, hkp, hq⟩ : ∃ q, cells m' old.khp (knjsiz.toNat + 1) = cs.flatten ++ q ∧
    q.headD 0 = 0 := by
    have hfit := hleaves.fits
    obtain ⟨k, hk⟩ := Nat.exists_eq_add_of_le
      (show (texts es).length + 1 ≤ knjsiz.toNat + 1 by omega)
    refine ⟨cells m' (old.khp + (texts es).length) (1 + k), ?_, ?_⟩
    · rw [hk, Nat.add_assoc, cells_add, hleaves.text, htexts]
    · rw [Nat.add_comm 1 k]
      exact hend (by rw [hyp]; exact hpos)
  have hto := @strEuctosjis_eucText text old.default_char yomiBufSize rest
    ((sjisText_le text).trans (hlen.trans (by decide)))
  have hback := @strSjistoeuc_chars cs hcs old.default_char q hq knjsiz.toNat (by omega)
  have hmade : sj3GetkanEuc stysiz server (some old) (eucText text ++ 0 :: rest) m knj knjsiz =
      some (getkanToEuc old (sjisText text ++ [0]) m knj knjsiz
        ⟨(bunsetus 0 old.khp es ++ restBunsetus (sjisText text ++ [0]) (lens es)).length,
          bunsetus 0 old.khp es ++ restBunsetus (sjisText text ++ [0]) (lens es), m'⟩) := by
    rw [sj3GetkanEuc, hyomi, if_neg (Nat.not_lt.mpr hlen), hto]
    simp only [ne_eq, not_true_eq_false, if_false, hloop, hrest]
  rw [hmade]
  simp only [hrest, getkanToEuc, hkp, if_neg (show ¬ knjsiz < 0 by omega), hback, ne_eq,
    not_true_eq_false, if_false]
  refine ⟨_, rfl, rfl, ?_⟩
  rw [List.forall₂_map_right_iff, List.forall₂_same]
  have hstored := (cells_append (cells_write m knj (eucImage old.default_char cs ++ [0]))).1
  rw [length_eucImage] at hstored
  have hlegal := legal_sjis text
  obtain ⟨hsource, mid, post, hsplit, hmid⟩ := @bunsetus_sourceImage old knj es [] _
    (fun ch hch => by cases hch) hlegal hcuts old.khp [0] (0 :: rest) (cs.flatten ++ q)
  simp only [List.nil_append, List.flatten_nil, List.length_nil, eucImage_text] at hsource
  refine List.forall_mem_append.mpr ⟨fun b hb => ⟨hsource b hb, ?_⟩, ?_⟩
  · exact himages [] 0 _ q m' _ (fun ch hch => by cases hch) hleaves.text hstored b hb
  · rw [hsplit] at hlegal
    obtain ⟨hlegalMid, hlegalPost⟩ := List.forall_mem_append.mp hlegal
    have himage := @restBunsetus_image old knj mid post hlegalMid hlegalPost (0 :: rest)
      (cs.flatten ++ q) m' (write m knj (eucImage old.default_char cs ++ [0]))
    rw [← hsplit, hmid, eucImage_text] at himage
    exact himage

/-- What a function of the library that takes EUC leaves of the entries `l` for SJIS. -/
def CutsImages (old : OldServer) (sjis euc : Bytes) (l r : GetkanRet) : Prop :=
  r.ret = l.ret ∧ List.Forall₂ (fun b b' =>
    IsEucImage old.default_char (b.source sjis) (b'.source euc) ∧
      IsEucImage old.default_char (b.result l.mem) (b'.result r.mem)) l.bun r.bun

/-- The prediction for a text up to any place between two of its characters is the length of
what the conversion makes of it, and with a server of version 1 the predictions cut the
reading of the caller and the result in EUC into the images of the pieces in SJIS. -/
theorem sjistoeuclen_agrees :
    (∀ (pre post : List Bytes), (∀ ch ∈ pre ++ post, LegalSjis ch) → ∀ (rest rest' : Bytes)
      (d : Char2) (outlen : ℕ),
      sjistoeuclen ((pre ++ post).flatten ++ 0 :: rest) pre.flatten.length ≤ outlen →
        ∃ s, strSjistoeuc outlen d (pre.flatten ++ 0 :: rest') = some s ∧
          s.out.length = sjistoeuclen ((pre ++ post).flatten ++ 0 :: rest) pre.flatten.length) ∧
    (∀ (stysiz : ℕ) (server : IkkatuServer), Serves stysiz LegalClause server →
      ∀ (old : OldServer) (text : List CodedChar) (rest : Bytes) (m : Mem) (knj : ℕ) (knjsiz : ℤ),
        text ≠ [] → (eucText text).length ≤ sj3IkkatuYomi → 1 ≤ knjsiz →
        ∃ l, getkanHenkan stysiz server (sjisText text ++ [0]) old.kmem old.khp knjsiz = some l ∧
          ((∀ euc, IsEucImage old.default_char (l.bun.map (Sj3Bunsetu.result l.mem)).flatten euc →
              (euc.length : ℤ) ≤ knjsiz) →
            ∃ r, sj3GetkanEuc stysiz server (some old) (eucText text ++ 0 :: rest) m knj knjsiz =
                some r ∧ CutsImages old (sjisText text ++ [0])
                  (eucText text ++ 0 :: rest) l r)) := by
  constructor
  · intro pre post hchars rest rest' d outlen hroom
    have hpre := (List.forall_mem_append.mp hchars).1
    rw [List.flatten_append, List.append_assoc, sjistoeuclen_chars hpre] at hroom ⊢
    exact ⟨_, strSjistoeuc_chars hpre d rfl hroom, length_eucImage d pre⟩
  · intro stysiz server hserver old text rest m knj knjsiz hne hlen hsiz
    exact sj3GetkanEuc_images hserver old rest m knj hne hlen hsiz

/-- A server that knows one reading of one hiragana, and makes a kanji of it. -/
def kanjiServer : IkkatuServer := fun _ reading =>
  [ikkatuBytes 0 0 0 1 (if reading = [0x82, 0xa0] then [⟨2, [0, 0], [0x88, 0x9f]⟩] else [])]

theorem kanjiServer_serves : Serves 2 LegalClause kanjiServer := by
  intro i reading
  refine ⟨_, 0, 0, 0, 1, fun e he => ?_, ?_, by simp [kanjiServer, ikkatuBytes], List.append_nil _⟩
  · split_ifs at he
    · obtain rfl := List.mem_singleton.mp he
      exact ⟨by decide, rfl, by decide⟩
    · cases he
  · split_ifs with h
    · subst h
      refine ⟨by decide, ⟨⟨[[0x82, 0xa0]], fun ch hch => ?_, rfl⟩, [[0x88, 0x9f]],
        fun ch hch => ?_, rfl⟩,
        trivial⟩
      · obtain rfl := List.mem_singleton.mp hch
        exact .double _ _ (by decide) (by decide)
      · obtain rfl := List.mem_singleton.mp hch
        exact .double _ _ (by decide) (by decide)
    · exact trivial

/-- The hiragana in both codes. -/
def hiraganaA : CodedChar :=
  ⟨[0xa4, 0xa2], [0x82, 0xa0], .kanji (0xa4, 0xa2) (by decide) (by decide)⟩

theorem sjistoeuclen_agrees_kanji :
    (∃ s, strSjistoeuc 2 (0x81, 0x40) [0x82, 0xa0, 0] = some s ∧
      s.out.length = sjistoeuclen [0x82, 0xa0, 0x41, 0] 2) ∧
    ∃ l, getkanHenkan 2 kanjiServer [0x82, 0xa0, 0] (fun _ => 7) 100 8 = some l ∧
      ((∀ euc, IsEucImage (0x81, 0x40) (l.bun.map (Sj3Bunsetu.result l.mem)).flatten euc →
          (euc.length : ℤ) ≤ 8) →
        ∃ r, sj3GetkanEuc 2 kanjiServer (some ⟨(0x81, 0x40), fun _ => 7, 100, -100⟩)
            [0xa4, 0xa2, 0] (fun _ => 5) 40 8 = some r ∧
          CutsImages ⟨(0x81, 0x40), fun _ => 7, 100, -100⟩ [0x82, 0xa0, 0]
            [0xa4, 0xa2, 0] l r) := by
  refine ⟨sjistoeuclen_agrees.1 [[0x82, 0xa0]] [[0x41]] (fun ch hch => ?_) [] [] (0x81, 0x40) 2
    (by decide), sjistoeuclen_agrees.2 2 kanjiServer kanjiServer_serves
    ⟨(0x81, 0x40), fun _ => 7, 100, -100⟩ [hiraganaA] [] (fun _ => 5) 40 8 (by decide) (by decide)
    (by decide)⟩
  rcases List.mem_pair.mp hch with rfl | rfl
  · exact .double _ _ (by decide) (by decide)
  · exact .ascii _ (by decide) (by decide)

end Sj3
