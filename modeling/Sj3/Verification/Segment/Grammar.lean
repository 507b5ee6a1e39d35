import Sj3.Verification.Segment.Block

/-! # Searching a homophone block

What the searches for a grammar code and for a kanji string find in a block of a user
dictionary. -/

namespace Sj3

/-- The grammar block refers to nothing outside. -/
def HinsiBlk.IsUsr (h : HinsiBlk) : Prop := ∀ k ∈ h.kanji, IsUsrKnjStr k

/-- No code of the block holds the terminator of blocks. -/
def HinsiBlk.IsClean (h : HinsiBlk) : Prop := ∀ k ∈ h.kanji, hinsiBlkTerm ∉ k

theorem HinsiBlk.IsUsr.isClean {h : HinsiBlk} (hu : h.IsUsr) : h.IsClean :=
  fun k hk => (hu k hk).term_notMem

/-- A homophone block as registration builds it: one grammar block a code. -/
structure DouonBlk.IsUsr (t : DouonBlk) : Prop where
  hinsi : ∀ h ∈ t.hinsi, h.IsUsr
  nodup : (t.hinsi.map HinsiBlk.hinsi).Nodup

/-- Grammar blocks in a row. -/
def hinsiBytes (hs : List HinsiBlk) : Bytes := hs.flatMap HinsiBlk.bytes

theorem DouonBlk.body_eq (t : DouonBlk) : t.body = hinsiBytes t.hinsi := rfl

@[simp] theorem hinsiBytes_nil : hinsiBytes [] = [] := rfl

@[simp] theorem hinsiBytes_cons (h : HinsiBlk) (hs : List HinsiBlk) :
    hinsiBytes (h :: hs) = h.bytes ++ hinsiBytes hs := rfl

theorem hinsiBytes_append (hs hs' : List HinsiBlk) :
    hinsiBytes (hs ++ hs') = hinsiBytes hs ++ hinsiBytes hs' := List.flatMap_append

@[simp] theorem knjBytes_nil : knjBytes [] = [] := rfl

@[simp] theorem knjBytes_cons (k : Bytes) (ks : List Bytes) :
    knjBytes (k :: ks) = k ++ kanjiStrEnd :: knjBytes ks := by
  simp [knjBytes]

theorem knjBytes_append (ks ks' : List Bytes) :
    knjBytes (ks ++ ks') = knjBytes ks ++ knjBytes ks' := List.flatMap_append

theorem knjBytes_singleton (k : Bytes) : knjBytes [k] = k ++ [kanjiStrEnd] := by simp

theorem HinsiBlk.bytes_append (h : HinsiBlk) (rest : Bytes) :
    h.bytes ++ rest = h.hinsi :: (knjBytes h.kanji ++ hinsiBlkTerm :: rest) := by
  simp [HinsiBlk.bytes]

/-! ## `srchgram` -/

/-- The bytes of such a grammar block in front of its last two hold no terminator. -/
theorem HinsiBlk.exists_eq_append {h : HinsiBlk} (hc : h.IsClean) :
    ∃ w, hinsiBlkTerm ∉ w ∧ h.bytes = w ++ [kanjiStrEnd, hinsiBlkTerm] := by
  obtain ⟨ks, k, hk⟩ := List.eq_nil_or_concat'.{0} h.kanji |>.resolve_left h.kanji_ne
  refine ⟨h.hinsi :: (knjBytes ks ++ k), ?_, ?_⟩
  · have hks : hinsiBlkTerm ∉ knjBytes ks := by
      intro hm
      obtain ⟨k', hk', hm⟩ := List.mem_flatMap.mp hm
      rcases List.mem_append.mp hm with hm | hm
      · exact hc k' (by simp [hk, hk']) hm
      · exact absurd (List.mem_singleton.mp hm) (by decide)
    have hk : hinsiBlkTerm ∉ k := hc k (by simp [hk])
    simp [hks, hk, h.hinsi_ne.symm]
  · simp [HinsiBlk.bytes, hk, knjBytes_append]

theorem gramEnd_bytes {h : HinsiBlk} (hc : h.IsClean) (rest : Bytes) :
    gramEnd (h.bytes ++ rest) = hinsiBlkTerm :: rest := by
  obtain ⟨w, hw, hb⟩ := HinsiBlk.exists_eq_append hc
  rw [hb, List.append_assoc]
  exact gramEnd_append w rest hw

theorem HinsiBlk.length_pos (h : HinsiBlk) : 0 < h.bytes.length := by simp [HinsiBlk.bytes]

theorem length_le_hinsiBytes (hs : List HinsiBlk) : hs.length ≤ (hinsiBytes hs).length := by
  induction hs with
  | nil => simp
  | cons h hs ih =>
      have := h.length_pos
      simp only [hinsiBytes_cons, List.length_append, List.length_cons]
      omega

section Srchgram

variable {hinsi : UInt8} {endp : Bytes}

/-- A grammar block with another code is only counted. -/
theorem srchgramLoop_ne {hs : List HinsiBlk} (hu : ∀ h ∈ hs, h.IsUsr)
    (hne : ∀ h ∈ hs, h.hinsi ≠ hinsi) (rest : Bytes) (hend : endp.length ≤ rest.length)
    (n : ℕ) (found : Option Bytes) (cnt : ℕ) :
    srchgramLoop hinsi endp (n + hs.length) (hinsiBytes hs ++ rest) found cnt =
      srchgramLoop hinsi endp n rest found (cnt + hs.length) := by
  induction hs generalizing cnt with
  | nil => rfl
  | cons h hs ih =>
      have hpos := h.length_pos
      rw [List.length_cons, ← Nat.add_assoc, srchgramLoop.eq_def, hinsiBytes_cons,
        List.append_assoc]
      simp only
      rw [gramEnd_bytes (hu h (by simp)).isClean, if_pos (by simp only [List.length_append]; omega),
        if_neg (by simpa [HinsiBlk.bytes] using hne h (by simp)), List.tail_cons,
        ih (fun h' hh' => hu h' (by simp [hh'])) (fun h' hh' => hne h' (by simp [hh']))]
      congr 1
      omega

end Srchgram

section Block

variable {prev : Bytes} {t : DouonBlk}

theorem drop_bytes (hs : t.size prev ≤ maxDouonBlk) (rest : Bytes) :
    (t.bytes prev ++ rest).drop (douonBlkSizeNumber + getnlen (t.bytes prev ++ rest)) =
      hinsiBytes t.hinsi ++ rest := by
  rw [getnlen_bytes hs, DouonBlk.bytes, List.append_assoc, List.append_assoc,
    List.drop_append, List.drop_eq_nil_of_le (by simp), List.nil_append, length_setSize,
    Nat.add_sub_cancel_left, List.drop_append, List.drop_eq_nil_of_le (by simp [DouonBlk.nlen]),
    List.nil_append, List.length_drop]
  simp [DouonBlk.nlen, DouonBlk.body_eq]

/-- `srchgram` counts the grammar blocks and finds the one with the code. -/
theorem srchgram_found {hinsi : UInt8} {l r : List HinsiBlk} {h : HinsiBlk}
    (hs : t.size prev ≤ maxDouonBlk) (hu : t.IsUsr) (he : t.hinsi = l ++ h :: r)
    (hh : h.hinsi = hinsi) (rest : Bytes) :
    srchgram (t.bytes prev ++ rest) hinsi =
      (t.hinsi.length, hinsiBytes (h :: r) ++ rest) := by
  obtain ⟨huh, hnd⟩ := hu
  rw [he] at huh hnd
  have hnd' : (∀ h' ∈ l, h'.hinsi ≠ hinsi) ∧ ∀ h' ∈ r, h'.hinsi ≠ hinsi := by
    rw [List.map_append, List.map_cons, List.nodup_append, List.nodup_cons] at hnd
    subst hh
    exact ⟨fun h' hh' he => hnd.2.2 _ (List.mem_map_of_mem hh') _ (by simp) he,
      fun h' hh' he => hnd.2.1.1 (he ▸ List.mem_map_of_mem hh')⟩
  have hlen : t.hinsi.length ≤ (t.bytes prev ++ rest).length := by
    have := length_le_hinsiBytes t.hinsi
    simp only [List.length_append, DouonBlk.length_bytes, DouonBlk.size, DouonBlk.body_eq]
    omega
  have hl : t.hinsi.length = l.length + (r.length + 1) := by
    rw [he, List.length_append, List.length_cons]
  obtain ⟨n, hn⟩ : ∃ n, (t.bytes prev ++ rest).length + 1 = n + 1 + r.length + 1 + l.length :=
    ⟨(t.bytes prev ++ rest).length - t.hinsi.length, by omega⟩
  have hpos := h.length_pos
  rw [srchgram, drop_bytes hs, getntag_bytes hs, hn, he, hinsiBytes_append, List.append_assoc,
    srchgramLoop_ne (fun h' hh' => huh h' (by simp [hh'])) hnd'.1 _
      (by simp only [List.length_append]; omega),
    srchgramLoop, hinsiBytes_cons, List.append_assoc, gramEnd_bytes (huh h (by simp)).isClean,
    if_pos (by simp only [List.length_append]; omega),
    if_pos (by simpa [HinsiBlk.bytes] using hh), List.tail_cons,
    srchgramLoop_ne (fun h' hh' => huh h' (by simp [hh'])) hnd'.2 _ le_rfl, srchgramLoop,
    if_neg (lt_irrefl _)]
  simp only [List.length_append, List.length_cons, Prod.mk.injEq, and_true]
  omega

/-- Without such a grammar block `srchgram` stops behind the homophone block. -/
theorem srchgram_notFound {hinsi : UInt8} (hs : t.size prev ≤ maxDouonBlk) (hu : t.IsUsr)
    (hne : ∀ h ∈ t.hinsi, h.hinsi ≠ hinsi) (rest : Bytes) :
    srchgram (t.bytes prev ++ rest) hinsi = (0, rest) := by
  have hlen : t.hinsi.length ≤ (t.bytes prev ++ rest).length := by
    have := length_le_hinsiBytes t.hinsi
    simp only [List.length_append, DouonBlk.length_bytes, DouonBlk.size, DouonBlk.body_eq]
    omega
  obtain ⟨n, hn⟩ : ∃ n, (t.bytes prev ++ rest).length + 1 = n + 1 + t.hinsi.length :=
    ⟨(t.bytes prev ++ rest).length - t.hinsi.length, by omega⟩
  rw [srchgram, drop_bytes hs, getntag_bytes hs, hn,
    srchgramLoop_ne hu.hinsi hne _ le_rfl, srchgramLoop, if_neg (lt_irrefl _)]

end Block

/-! ## `srchkanji` -/

/-- A code string starts what is stored as `k` if and only if it starts `k`. -/
theorem prefix_append_end_iff {knj k rest : Bytes} (h0 : kanjiStrEnd ∉ knj) :
    knj <+: k ++ kanjiStrEnd :: rest ↔ knj <+: k := by
  constructor
  · intro h
    rcases List.prefix_or_prefix_of_prefix h (List.prefix_append k _) with h | ⟨l, rfl⟩
    · exact h
    · rw [List.prefix_append_right_inj] at h
      cases l with
      | nil => simp
      | cons c l => exact absurd (by simp [(List.cons_prefix_cons.mp h).1]) h0
  · intro h
    exact h.trans (List.prefix_append _ _)

section Srchkanji

variable {knj : Bytes}

theorem IsKnjStr.headD_ne {k : Bytes} (hk : IsKnjStr k) (ks : List Bytes) (rest : Bytes) :
    (knjBytes (k :: ks) ++ rest).headD dicSegTerm ≠ hinsiBlkTerm := by
  have h1 := hk.ne_term
  have h2 := hk.ne_nil
  cases k with
  | nil => exact absurd rfl h2
  | cons c k => simpa using h1

/-- Whatever the strings are, they are counted. -/
theorem srchkanjiLoop_exists (knj : Bytes) {ks : List Bytes} (hks : ∀ k ∈ ks, IsKnjStr k)
    (rest : Bytes) (n : ℕ) (found : Option Bytes) (cnt : ℕ) :
    ∃ found', srchkanjiLoop knj (n + ks.length) (knjBytes ks ++ rest) found cnt =
      srchkanjiLoop knj n rest found' (cnt + ks.length) := by
  induction ks generalizing found cnt with
  | nil => exact ⟨found, rfl⟩
  | cons k ks ih =>
      have hk := hks k (by simp)
      obtain ⟨found', h⟩ := ih (fun k' hk' => hks k' (by simp [hk']))
        (if knj.isPrefixOf (knjBytes (k :: ks) ++ rest) then
          some (knjBytes (k :: ks) ++ rest) else found) (cnt + 1)
      refine ⟨found', ?_⟩
      have hend : knjEnd (knjBytes (k :: ks) ++ rest) = kanjiStrEnd :: (knjBytes ks ++ rest) := by
        rw [knjBytes_cons, List.append_assoc, List.cons_append, knjEnd_codes hk.codes]
      rw [List.length_cons, ← Nat.add_assoc, srchkanjiLoop, if_pos (hk.headD_ne _ _), hend,
        List.tail_cons, h]
      congr 1
      omega

/-- Strings from which on nothing starts with `knj` are only counted. -/
theorem srchkanjiLoop_ne {ks : List Bytes} (hks : ∀ k ∈ ks, IsKnjStr k) (rest : Bytes)
    (hne : ∀ l k r, ks = l ++ k :: r → ¬ knj <+: knjBytes (k :: r) ++ rest) (n : ℕ)
    (found : Option Bytes) (cnt : ℕ) :
    srchkanjiLoop knj (n + ks.length) (knjBytes ks ++ rest) found cnt =
      srchkanjiLoop knj n rest found (cnt + ks.length) := by
  induction ks generalizing cnt with
  | nil => rfl
  | cons k ks ih =>
      have hk := hks k (by simp)
      have hpre := hne [] k ks rfl
      have hend : knjEnd (knjBytes (k :: ks) ++ rest) = kanjiStrEnd :: (knjBytes ks ++ rest) := by
        rw [knjBytes_cons, List.append_assoc, List.cons_append, knjEnd_codes hk.codes]
      rw [List.length_cons, ← Nat.add_assoc, srchkanjiLoop, if_pos (hk.headD_ne _ _), hend,
        List.tail_cons, if_neg (by rwa [List.isPrefixOf_iff_prefix]),
        ih (fun k' hk' => hks k' (by simp [hk']))
          (fun l k' r he => hne (k :: l) k' r (by rw [he, List.cons_append]))]
      congr 1
      omega

theorem srchkanjiLoop_end (n : ℕ) (rest : Bytes) (found : Option Bytes) (cnt : ℕ) :
    srchkanjiLoop knj (n + 1) (hinsiBlkTerm :: rest) found cnt =
      (cnt, found.getD (hinsiBlkTerm :: rest)) := by
  rw [srchkanjiLoop, List.headD_cons, if_neg (by simp)]

theorem length_le_knjBytes (ks : List Bytes) : ks.length ≤ (knjBytes ks).length := by
  induction ks with
  | nil => simp
  | cons k ks ih =>
      simp only [knjBytes_cons, List.length_append, List.length_cons]
      omega

/-- `srchkanji` finds the last string from which on the block starts with `knj`. -/
theorem srchkanji_last {h : HinsiBlk} {l r : List Bytes} {k : Bytes} (he : h.kanji = l ++ k :: r)
    (rest : Bytes) (hk : knj <+: knjBytes (k :: r) ++ hinsiBlkTerm :: rest)
    (hr : ∀ l' k' r', r = l' ++ k' :: r' → ¬ knj <+: knjBytes (k' :: r') ++ hinsiBlkTerm :: rest) :
    srchkanji (h.bytes ++ rest) knj =
      (h.kanji.length, knjBytes (k :: r) ++ hinsiBlkTerm :: rest) := by
  have hks := h.isKnjStr
  have hlen := length_le_knjBytes h.kanji
  have hl : h.kanji.length = l.length + (r.length + 1) := by
    rw [he, List.length_append, List.length_cons]
  obtain ⟨n, hn⟩ : ∃ n, (h.bytes ++ rest).length = n + 1 + r.length + 1 + l.length :=
    ⟨(h.bytes ++ rest).length - h.kanji.length - 1, by
      simp only [HinsiBlk.bytes, List.length_append, List.length_cons]
      omega⟩
  rw [he] at hks
  have hk' := hks k (by simp)
  have hkl : ∀ k' ∈ l, IsKnjStr k' := fun k' hk' => hks k' (by simp [hk'])
  obtain ⟨found, hfound⟩ := srchkanjiLoop_exists knj hkl (knjBytes (k :: r) ++ hinsiBlkTerm :: rest)
    (n + 1 + r.length + 1) none 0
  have hhead : (knjBytes (k :: r) ++ hinsiBlkTerm :: rest).headD dicSegTerm ≠ hinsiBlkTerm :=
    hk'.headD_ne _ _
  have hend : knjEnd (knjBytes (k :: r) ++ hinsiBlkTerm :: rest) =
      kanjiStrEnd :: (knjBytes r ++ hinsiBlkTerm :: rest) := by
    rw [knjBytes_cons, List.append_assoc, List.cons_append, knjEnd_codes hk'.codes]
  rw [srchkanji, hn, HinsiBlk.bytes_append, List.tail_cons, he, knjBytes_append,
    List.append_assoc, hfound, srchkanjiLoop, if_pos hhead,
    if_pos (by rwa [List.isPrefixOf_iff_prefix]), hend, List.tail_cons,
    srchkanjiLoop_ne (fun k' hk' => hks k' (by simp [hk'])) _ hr, srchkanjiLoop_end]
  simp only [List.length_append, List.length_cons, Option.getD_some, Prod.mk.injEq, and_true]
  omega

/-- Without one it stops at the end of the grammar block. -/
theorem srchkanji_none {h : HinsiBlk} (rest : Bytes)
    (hne : ∀ l k r, h.kanji = l ++ k :: r → ¬ knj <+: knjBytes (k :: r) ++ hinsiBlkTerm :: rest) :
    srchkanji (h.bytes ++ rest) knj = (h.kanji.length, hinsiBlkTerm :: rest) := by
  have hlen := length_le_knjBytes h.kanji
  obtain ⟨n, hn⟩ : ∃ n, (h.bytes ++ rest).length = n + 1 + h.kanji.length :=
    ⟨(h.bytes ++ rest).length - h.kanji.length - 1, by
      simp only [HinsiBlk.bytes, List.length_append, List.length_cons]
      omega⟩
  rw [srchkanji, hn, HinsiBlk.bytes_append, List.tail_cons,
    srchkanjiLoop_ne h.isKnjStr _ hne, srchkanjiLoop_end, Nat.zero_add]
  rfl

/-- A code string starts what is stored from a string on if and only if it starts the string. -/
theorem prefix_knjBytes_iff (h0 : kanjiStrEnd ∉ knj) (k : Bytes) (r : List Bytes) (rest : Bytes) :
    knj <+: knjBytes (k :: r) ++ rest ↔ knj <+: k := by
  rw [knjBytes_cons, List.append_assoc, List.cons_append, prefix_append_end_iff h0]

/-- `srchkanji` finds the last string that starts with the code string. -/
theorem srchkanji_found {h : HinsiBlk} {l r : List Bytes} {k : Bytes} (h0 : kanjiStrEnd ∉ knj)
    (he : h.kanji = l ++ k :: r) (hk : knj <+: k) (hr : ∀ k' ∈ r, ¬ knj <+: k') (rest : Bytes) :
    srchkanji (h.bytes ++ rest) knj =
      (h.kanji.length, knjBytes (k :: r) ++ hinsiBlkTerm :: rest) := by
  apply srchkanji_last he rest ((prefix_knjBytes_iff h0 k r _).mpr hk)
  intro l' k' r' hsplit hpre
  exact hr k' (by simp [hsplit]) ((prefix_knjBytes_iff h0 k' r' _).mp hpre)

/-- Without such a string `srchkanji` stops at the end of the grammar block. -/
theorem srchkanji_notFound {h : HinsiBlk} (h0 : kanjiStrEnd ∉ knj)
    (hne : ∀ k ∈ h.kanji, ¬ knj <+: k) (rest : Bytes) :
    srchkanji (h.bytes ++ rest) knj = (h.kanji.length, hinsiBlkTerm :: rest) := by
  apply srchkanji_none rest
  intro l k r hsplit hpre
  exact hne k (by simp [hsplit]) ((prefix_knjBytes_iff h0 k r _).mp hpre)

end Srchkanji

end Sj3
