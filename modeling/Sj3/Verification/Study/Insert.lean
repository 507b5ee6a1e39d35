import Sj3.Verification.Study.Room

/-! # Storing a clause pair

Where the new record goes, what storing it leaves, and the index made afterwards. -/

namespace Sj3

open Buffer PrefixFree Recency

/-! ## The place of the record -/

/-- Whether the search ends at the record whose comparison gave `m`. -/
def clStops (m : Bytes × Bytes × ℕ) : Prop :=
  m.2.2 ≠ 0 ∧ (m.1.headD 0 = 0 ∨ m.1.headD 0 < m.2.1.headD 0)

theorem srchclpos_cons {r : ClRec} (hr : r.Fits) {y rest : Bytes} {n tag : ℕ}
    {target target' : Option ℕ}
    (h : target = none ∧ clStops (Stdy.clMatch y (r.yomi ++ rest) r.yomi.length) ∧
        target' = some tag ∨
      ¬ (target = none ∧ clStops (Stdy.clMatch y (r.yomi ++ rest) r.yomi.length)) ∧
        target' = target) :
    Stdy.srchclpos y (n + 1) (r.bytes ++ rest) tag target =
      ((r.setNum (· + 1)).bytes ++
          (Stdy.srchclpos y n rest (tag + r.bytes.length) target').1,
        (Stdy.srchclpos y n rest (tag + r.bytes.length) target').2) := by
  rw [Stdy.srchclpos, if_neg (by simp [iseocl_bytes hr]), ← setNum_bytes hr (· + 1) rest,
    clGetNum_bytes hr, clNextTag_bytes hr, clBlkLen_bytes hr, clYomiPos_bytes, clYomiLen_bytes hr]
  unfold clStops at h
  rcases h with ⟨hn, hs, rfl⟩ | ⟨hc, rfl⟩
  · simp only [if_pos (And.intro hn hs)]
  · simp only [if_neg hc]

theorem srchclpos_found (y : Bytes) {recs : List ClRec} {free n tag t : ℕ}
    (h : ∀ r ∈ recs, r.Fits) (hn : recs.length ≤ n) :
    Stdy.srchclpos y n (clArea recs free) tag (some t) =
      (clArea (recs.map (ClRec.setNum (· + 1))) free, t) := by
  induction recs generalizing n tag with
  | nil =>
      cases n with
      | zero => rfl
      | succ n => exact if_pos (iseocl_zeros free)
  | cons r recs ih =>
      have hr := h r List.mem_cons_self
      obtain ⟨n, rfl⟩ := Nat.exists_eq_add_of_lt (Nat.lt_of_lt_of_le (Nat.succ_pos _) hn)
      rw [Nat.zero_add] at hn ⊢
      rw [clArea_cons, srchclpos_cons hr (.inr ⟨fun hc => Option.some_ne_none t hc.1, rfl⟩),
        ih (fun t ht => h t (List.mem_cons_of_mem _ ht)) (by simpa using hn),
        List.map_cons, clArea_cons]

theorem srchclpos_clArea {y stop : Bytes} (hy : 0 ∉ y) (hstop : stop.headD 0 = 0)
    (free tag : ℕ) {front back : List ClRec} {n : ℕ} (h : ∀ r ∈ front ++ back, r.Fits)
    (h0 : ∀ r ∈ front ++ back, 0 ∉ r.yomi) (hf : ∀ r ∈ front, Before r.yomi y)
    (hb : ∀ r ∈ back, Before y r.yomi) (hn : (front ++ back).length ≤ n) :
    Stdy.srchclpos (y ++ stop) n (clArea (front ++ back) free) tag none =
      (clArea ((front ++ back).map (ClRec.setNum (· + 1))) free,
        tag + (clBytes front).length) := by
  induction front generalizing n tag with
  | nil =>
      cases back with
      | nil =>
          cases n with
          | zero => rfl
          | succ n => exact if_pos (iseocl_zeros free)
      | cons r back =>
          have hr := h r List.mem_cons_self
          obtain ⟨n, rfl⟩ := Nat.exists_eq_add_of_lt (Nat.lt_of_lt_of_le (Nat.succ_pos _) hn)
          rw [Nat.zero_add] at hn ⊢
          have hbefore := clMatch_before hy (h0 r List.mem_cons_self) (clArea back free)
            hstop (hb r List.mem_cons_self)
          rw [List.nil_append, clArea_cons,
            srchclpos_cons hr (.inl ⟨rfl, ⟨hbefore.1, .inr hbefore.2⟩, rfl⟩),
            srchclpos_found _ (fun t ht => h t (List.mem_cons_of_mem _ ht)) (by simpa using hn),
            List.map_cons, clArea_cons]
          rfl
  | cons r front ih =>
      have hr := h r (by simp)
      obtain ⟨n, rfl⟩ := Nat.exists_eq_add_of_lt (Nat.lt_of_lt_of_le (Nat.succ_pos _) hn)
      rw [Nat.zero_add] at hn ⊢
      have hafter := clMatch_after hy (h0 r (by simp)) (clArea (front ++ back) free)
        hstop (hf r List.mem_cons_self)
      rw [List.cons_append, clArea_cons, srchclpos_cons hr (.inr ⟨fun hc => hafter hc.2, rfl⟩),
        ih _ (fun t ht => h t (List.mem_cons_of_mem _ ht))
          (fun t ht => h0 t (List.mem_cons_of_mem _ ht))
          (fun t ht => hf t (List.mem_cons_of_mem _ ht)) (by simpa using hn),
        List.map_cons, clArea_cons, clBytes_cons, List.length_append, Nat.add_assoc]

/-! ## Storing the record -/

theorem clStore_clArea (front back : List ClRec) {free : ℕ} (len1 : ℕ) (ytmp : Bytes)
    (hinshi : UInt8)
    (h : ytmp.length + Stdy.clHdLen ≤ free) :
    Stdy.clStore (clArea (front ++ back) free) ytmp (clBytes front).length len1
        (ytmp.length + Stdy.clHdLen) hinshi =
      clArea (front ++ ⟨ytmp, hinshi, UInt8.ofNat len1, 1⟩ :: back)
        (free - (ytmp.length + Stdy.clHdLen)) := by
  let r : ClRec := ⟨ytmp, hinshi, UInt8.ofNat len1, 1⟩
  have hlen : r.bytes.length = ytmp.length + Stdy.clHdLen := r.length_bytes
  have hbytes : r.bytes = [UInt8.ofNat ytmp.length, hinshi, UInt8.ofNat len1, 0, 1] ++ ytmp := by
    simp [r, ClRec.bytes, ClRec.head]
  have hroom : r.bytes.length ≤ (clArea back free).length := by
    rw [length_clArea, hlen]
    omega
  have hopen := overwrite_copyDesc_open (clBytes front) (clArea back free) r.bytes hroom
  have harea : (clArea (front ++ back) free).length =
      (clBytes front).length + (clArea back free).length := by
    rw [clArea_append, List.length_append]
  have hcount : (clBytes front).length + (clArea back free).length - r.bytes.length -
      (clBytes front).length = (clArea back free).length - r.bytes.length := by omega
  have hrest : (clArea back free).take ((clArea back free).length - r.bytes.length) =
      clArea back (free - r.bytes.length) := by
    rw [clArea, clArea, List.take_append, List.take_of_length_le
      (by simp only [List.length_append, List.length_replicate]; omega), List.take_replicate]
    congr 2
    simp only [List.length_append, List.length_replicate]
    omega
  rw [Stdy.clStore, harea, ← hlen, clArea_append front (r :: back), clArea_cons, ← hrest, ← hopen,
    hcount, clArea_append, hbytes]

/-- The new record goes in front of those behind it; all others are one older. -/
theorem ClOrdered.insert {front back : List ClRec} {r : ClRec} (h : ClOrdered (front ++ back))
    (hpos : r.yomi ≠ []) (hlt : r.yomi.length < 0x100) (h0 : 0 ∉ r.yomi)
    (hle : r.yomi1Len.toNat ≤ r.yomi.length) (hnum : r.num = 1)
    (hf : ∀ t ∈ front, Before t.yomi r.yomi) (hb : ∀ t ∈ back, Before r.yomi t.yomi) :
    ClOrdered (front.map (ClRec.setNum (· + 1)) ++ r :: back.map (ClRec.setNum (· + 1))) := by
  have hall : ∀ p : ClRec → Prop, (∀ t, p (ClRec.setNum (· + 1) t) ↔ p t) →
      (∀ t ∈ front ++ back, p t) → p r →
      ∀ t ∈ front.map (ClRec.setNum (· + 1)) ++ r :: back.map (ClRec.setNum (· + 1)), p t := by
    intro p hp hold hnew t ht
    simp only [List.mem_append, List.mem_cons, List.mem_map] at ht
    rcases ht with ⟨u, hu, rfl⟩ | rfl | ⟨u, hu, rfl⟩
    · exact (hp u).mpr (hold u (List.mem_append_left _ hu))
    · exact hnew
    · exact (hp u).mpr (hold u (List.mem_append_right _ hu))
  constructor
  · exact hall _ (fun _ => Iff.rfl) h.yomi_ne_nil hpos
  · exact hall _ (fun _ => Iff.rfl) h.length_lt hlt
  · exact hall _ (fun _ => Iff.rfl) h.zero_notMem h0
  · exact hall _ (fun _ => Iff.rfl) h.yomi1Len_le hle
  · apply pairwise_insert ClRec.yomi
    · rw [← List.map_append]
      exact List.pairwise_map.mpr h.before
    · simpa using hf
    · simpa using hb
  · have hr := h.ranked
    rw [List.map_append] at hr
    simpa [hnum, Function.comp_def] using hr.push

/-- What the two removals have left when the record is to be stored: `rem` of what is not
related to the reading, and of these all but the `j` oldest. -/
structure ClRoom (recs : List ClRec) (y : Bytes) (len alen : ℕ) (rem : List ClRec) (j : ℕ) :
    Prop where
  renumbered : Renumbered (clUnrelated y recs) rem
  ordered : ClOrdered rem
  le_length : j ≤ rem.length
  short : ∀ i < j, ((len - (clBytes rem).length : ℤ) - 1) + Stdy.clHdLen * i < alen

/-- The two ways `clInsert` ends. -/
theorem clInsert_clArea {y stop : Bytes} (hy : 0 ∉ y) (hstop : stop.headD 0 = 0)
    {recs : List ClRec} {free : ℕ} (len1 : ℕ) (hinshi : UInt8) (h : ClOrdered recs)
    (hlen : (clArea recs free).length < 0x10000) (hfree : 0 < free) :
    let ytmp := y ++ stop
    let alen := ytmp.length + Stdy.clHdLen
    let len := (clArea recs free).length
    ∃ rem j free', ClRoom recs y len alen rem j ∧ 0 < free' ∧
      ((((len - (clBytes rem).length : ℤ) - 1) + Stdy.clHdLen * j < alen ∧ j = rem.length ∧
          (clArea (dropOldest ClRec.num j rem) free').length = len ∧
          Stdy.clInsert (clArea recs free) ytmp len1 hinshi =
            (clArea (dropOldest ClRec.num j rem) free', .noArea)) ∨
        (alen ≤ ((len - (clBytes rem).length : ℤ) - 1) + Stdy.clHdLen * j ∧
          ∃ front back, dropOldest ClRec.num j rem = front ++ back ∧
            (∀ t ∈ front, Before t.yomi y) ∧ (∀ t ∈ back, Before y t.yomi) ∧
            (clArea (front.map (ClRec.setNum (· + 1)) ++ ⟨ytmp, hinshi, UInt8.ofNat len1, 1⟩ ::
              back.map (ClRec.setNum (· + 1))) free').length = len ∧
            Stdy.clInsert (clArea recs free) ytmp len1 hinshi =
              (clArea (front.map (ClRec.setNum (· + 1)) ++ ⟨ytmp, hinshi, UInt8.ofNat len1, 1⟩ ::
                back.map (ClRec.setNum (· + 1))) free', .normEnd))) := by
  intro ytmp alen len
  have hcount : recs.length < 0x10000 := by
    have := length_le_length_clBytes recs
    rw [length_clArea] at hlen
    omega
  obtain ⟨rem, free₁, hren, hord, hlen₁, hfree₁, hdel⟩ :=
    delcldata_clArea hy hstop free (n := len + 1) (l := []) h hcount
      (by have := length_le_length_clBytes recs; simp only [len, length_clArea]; omega)
  have hcount₁ : rem.length < len + 1 := by
    have := length_le_length_clBytes rem
    rw [length_clArea] at hlen₁
    simp only [len, List.nil_append] at hlen₁ ⊢
    omega
  obtain ⟨j, free₂, hj, hevict, hfree₂, hlen₂, hend, hmin⟩ :=
    clEvict_clArea alen ((len : ℤ) - (clBytes rem).length - 1) free₁ hord
      (hcount₁.trans_le (by omega)) hcount₁
  have hroom : ClRoom recs y len alen rem j := ⟨hren, hord, hj, hmin⟩
  have hlen₃ : (clArea (dropOldest ClRec.num j rem) free₂).length = len := hlen₂.trans hlen₁
  have hdel' : Stdy.delcldata ytmp (len + 1) (clArea recs free) 0 =
      (clArea rem free₁, (clBytes rem).length) := hdel
  have hfuel : (clArea rem free₁).length + 1 = len + 1 := by rw [hlen₁]; rfl
  have hevict' : Stdy.clEvict alen ((clArea rem free₁).length + 1) (clArea rem free₁)
      ((len : ℤ) - (clBytes rem).length - 1) = _ :=
        (congrArg (Stdy.clEvict _ · _ _) hfuel).trans hevict
  by_cases hfull : (len : ℤ) - (clBytes rem).length - 1 + Stdy.clHdLen * j < alen
  · refine ⟨rem, j, free₂, hroom, by omega, .inl ⟨hfull, hend hfull, hlen₃, ?_⟩⟩
    have hno := hfull.not_ge
    simp only [Stdy.clInsert]
    rw [hdel', hevict', if_neg hno]
  · have hge : (alen : ℤ) ≤ (len : ℤ) - (clBytes rem).length - 1 + Stdy.clHdLen * j :=
      not_lt.mp hfull
    have hspare := length_dropOldest_add_le hord.ranked.nodup hj
    have hfits : alen < free₂ := by
      rw [length_clArea] at hlen₃
      have : (Stdy.clHdLen * j : ℤ) = ((Stdy.clHdLen * j : ℕ) : ℤ) := by push_cast; rfl
      rw [this] at hge
      omega
    have hord₂ := hord.dropOldest j
    have hunrel : ∀ t ∈ dropOldest ClRec.num j rem, ¬ Related y t.yomi := by
      intro t ht
      exact hren.not_related t (List.mem_filter.mp ht).1
    obtain ⟨front, back, hsplit, hf, hb⟩ := exists_place hord₂.before hunrel
    refine ⟨rem, j, free₂ - alen, hroom, by omega, .inr ⟨hge, front, back, hsplit, hf, hb, ?_, ?_⟩⟩
    · rw [hsplit] at hlen₃
      rw [← hlen₃]
      simp only [length_clArea, clBytes_append, clBytes_cons, List.length_append,
        length_clBytes_map, ClRec.length_bytes]
      simp only [alen, ytmp, List.length_append] at hfits ⊢
      omega
    · have hkept := length_dropOldest j hord.ranked.nodup
      have hcount₂ : (front ++ back).length < 0x10000 := by
        rw [← hsplit]
        omega
      rw [hsplit] at hevict' hlen₃ hord₂
      have hsrch := srchclpos_clArea hy hstop free₂ 0
        (n := (clArea (front ++ back) free₂).length + 1)
        (hord₂.fits hcount₂) hord₂.zero_notMem hf hb
        (by have := length_le_length_clBytes (front ++ back); rw [length_clArea]; omega)
      have hstore := clStore_clArea (front.map (ClRec.setNum (· + 1)))
        (back.map (ClRec.setNum (· + 1))) len1 ytmp hinshi hfits.le
      rw [← List.map_append, length_clBytes_map] at hstore
      simp only [Stdy.clInsert]
      rw [hdel', hevict', if_pos hge, hsrch, Nat.zero_add, hstore]

end Sj3
