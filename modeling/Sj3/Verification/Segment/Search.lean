import Sj3.Verification.Segment.Block

/-! # Searching a segment

What the searches of `addelcmn.c` find in a segment of front-coded blocks. -/

namespace Sj3

open FrontCoding

/-! ## Blocks in order -/

/-- The blocks behind `prev` ascend, and their size fields hold their sizes. -/
def Coded : Bytes → List DouonBlk → Prop
  | _, [] => True
  | prev, t :: ts => prev < t.yomi ∧ t.size prev ≤ maxDouonBlk ∧ Coded t.yomi ts

theorem coded_append {prev : Bytes} {ts us : List DouonBlk} :
    Coded prev (ts ++ us) ↔ Coded prev ts ∧ Coded (lastYomi prev ts) us := by
  induction ts generalizing prev with
  | nil => simp [Coded, lastYomi]
  | cons t ts ih => simp [Coded, lastYomi, ih, and_assoc]

theorem Coded.lt_of_mem {prev : Bytes} {ts : List DouonBlk} (h : Coded prev ts) :
    ∀ t ∈ ts, prev < t.yomi := by
  induction ts generalizing prev with
  | nil => simp
  | cons t ts ih =>
      intro u hu
      rcases List.mem_cons.mp hu with rfl | hu
      · exact h.1
      · exact h.1.trans (ih h.2.2 u hu)

theorem lastYomi_mem_or (prev : Bytes) (ts : List DouonBlk) :
    (ts = [] ∧ lastYomi prev ts = prev) ∨ ∃ t ∈ ts, lastYomi prev ts = t.yomi := by
  induction ts generalizing prev with
  | nil => exact .inl ⟨rfl, rfl⟩
  | cons t ts ih =>
      right
      rcases ih t.yomi with ⟨rfl, h⟩ | ⟨u, hu, h⟩
      · exact ⟨t, by simp, h⟩
      · exact ⟨u, by simp [hu], h⟩

/-- Where a reading is, or belongs, among ascending blocks. -/
theorem Coded.split {prev : Bytes} {ts : List DouonBlk} (h : Coded prev ts) (x : Bytes) :
    ∃ l r, ts = l ++ r ∧ (∀ t ∈ l, t.yomi < x) ∧
      ((∃ t r', r = t :: r' ∧ t.yomi = x) ∨ ∀ t ∈ r, x < t.yomi) := by
  induction ts generalizing prev with
  | nil => exact ⟨[], [], rfl, by simp, .inr (by simp)⟩
  | cons t ts ih =>
      rcases lt_trichotomy t.yomi x with hlt | heq | hgt
      · obtain ⟨l, r, rfl, hl, hr⟩ := ih h.2.2
        exact ⟨t :: l, r, rfl, by simpa using ⟨hlt, hl⟩, hr⟩
      · exact ⟨[], t :: ts, rfl, by simp, .inl ⟨t, ts, rfl, heq⟩⟩
      · refine ⟨[], t :: ts, rfl, by simp, .inr ?_⟩
        intro u hu
        rcases List.mem_cons.mp hu with rfl | hu
        · exact hgt
        · exact hgt.trans (h.2.2.lt_of_mem u hu)

/-! ## Comparing a reading -/

/-- The outcome of comparing the input `x` with the reading `y`, behind `same` codes that
both have; `saml` is what the caller knew. -/
def compareYomi (x y : Bytes) (saml same : ℕ) : Cmp × ℕ :=
  if y <+: x then (.match, same + y.length)
  else if x < y then (.over, saml)
  else (.cont, same + lcp x y)

theorem compareYomi_append (u x y : Bytes) (saml same : ℕ) :
    compareYomi (u ++ x) (u ++ y) saml same = compareYomi x y saml (same + u.length) := by
  simp only [compareYomi, List.prefix_append_right_inj, append_lt_append_iff, lcp_append,
    List.length_append, Nat.add_assoc]

theorem yomicmpLoop_eq (saml : ℕ) (w x rest : Bytes) (same : ℕ) (hw : 0 ∉ w) :
    yomicmpLoop saml w.length x (w ++ rest) same = compareYomi x w saml same := by
  induction w generalizing x same with
  | nil => simp [yomicmpLoop, compareYomi]
  | cons c w ih =>
      simp only [List.mem_cons, not_or] at hw
      rw [List.length_cons, List.cons_append, yomicmpLoop, List.headD_cons, List.tail_cons]
      cases x with
      | nil =>
          have hc : (0 : UInt8) < c := lt_of_le_of_ne (UInt8.zero_le) hw.1
          rw [List.headD_nil, if_neg (not_lt.mpr hc.le), if_pos hc, compareYomi,
            if_neg (by simp), if_pos (List.nil_lt_cons _ _)]
      | cons a x =>
          rw [List.headD_cons, List.tail_cons]
          rcases lt_trichotomy a c with hlt | rfl | hgt
          · rw [if_neg (not_lt.mpr hlt.le), if_pos hlt, compareYomi,
              if_neg (by simp [hlt.ne']), if_pos (List.cons_lt_cons_iff.mpr (.inl hlt))]
          · rw [if_neg (lt_irrefl a), if_neg (lt_irrefl a), ih _ _ hw.2]
            exact (compareYomi_append [a] x w saml same).symm
          · rw [if_pos hgt, compareYomi, if_neg (by simp [hgt.ne]), if_neg, lcp_cons_ne hgt.ne']
            · rfl
            · rw [List.cons_lt_cons_iff]
              rintro (h | ⟨h, -⟩)
              · exact absurd h (not_lt.mpr hgt.le)
              · exact hgt.ne' h

/-- A search that has passed `prev` compares its input with the whole reading of the
block behind it. -/
theorem yomicmp_bytes {x prev prev₀ : Bytes} {t : DouonBlk} {saml : ℕ}
    (hs : t.size prev₀ ≤ maxDouonBlk) (hp : Passed x prev saml)
    (hle : t.plen prev₀ ≤ lcp prev t.yomi) (hn : t.nlen prev₀ ≠ 0) (idx rest : Bytes) :
    yomicmp idx x (t.bytes prev₀ ++ rest) saml = compareYomi x t.yomi saml 0 := by
  rw [yomicmp, getnlen_bytes hs, getplen_bytes hs, if_neg hn]
  split
  · rename_i hgt
    obtain ⟨hyx, hl⟩ := hp.skip (lt_of_lt_of_le hgt hle)
    have hnp : ¬ t.yomi <+: x := by
      intro hpre
      have h₁ := lcp_eq_length_iff.mpr hpre
      have h₂ := t.plen_le prev₀
      omega
    rw [compareYomi, if_neg hnp, if_neg (not_lt.mpr hyx.le), hl, Nat.zero_add]
  · rename_i hgt
    obtain ⟨u, hu, hx, hy⟩ := exists_append_of_le_lcp (hp.agree hle (not_lt.mp hgt))
    have hloop := yomicmpLoop_eq saml (t.yomi.drop (t.plen prev₀)) (x.drop (t.plen prev₀))
      (t.body ++ rest) (t.plen prev₀)
      (fun h => t.isYomi.ne_zero (List.mem_of_mem_drop h))
    have hdrop : (t.bytes prev₀ ++ rest).drop douonBlkSizeNumber =
        t.yomi.drop (t.plen prev₀) ++ (t.body ++ rest) := by
      simp [DouonBlk.bytes, setSize, douonBlkSizeNumber]
    have hcmp := compareYomi_append u (x.drop (t.plen prev₀)) (t.yomi.drop (t.plen prev₀)) saml 0
    rw [← hx, ← hy, hu, Nat.zero_add] at hcmp
    rw [hdrop, hcmp, ← hloop, List.length_drop]
    rfl

/-- Behind a reading that is only a part of the input comes no terminator. -/
theorem getD_prefix_ne_zero {x y : Bytes} (h0 : 0 ∉ x) (hpre : y <+: x) (hlt : y < x) :
    x.getD (lcp x y) 0 ≠ 0 := by
  obtain ⟨z, rfl⟩ := hpre
  rw [lcp_eq_length_iff.mpr (List.prefix_append y z)]
  cases z with
  | nil => simp at hlt
  | cons c z =>
      intro hc
      have : c = 0 := by simpa [List.getD] using hc
      exact h0 (by simp [this])

/-! ## `srchkana` -/

section Srchkana

variable {idx x prev tail : Bytes}

/-- Once the block is found the rest of the segment is only counted. -/
theorem srchkanaLoop_found {ts : List DouonBlk} (hc : Coded prev ts) (htail : IsTail tail)
    {n : ℕ} (hn : ts.length < n) (same : ℕ) (found : Bytes × ℕ) (cnt : ℕ) :
    srchkanaLoop idx x n (douonBytes prev ts ++ tail) same (some found) cnt =
      (cnt + ts.length, found) := by
  induction ts generalizing prev n cnt with
  | nil =>
      obtain ⟨n, rfl⟩ := Nat.exists_eq_add_of_lt hn
      rw [srchkanaLoop, douonBytes, List.nil_append, if_pos htail.segend]
      rfl
  | cons t ts ih =>
      obtain ⟨n, rfl⟩ : ∃ m, n = m + 1 := ⟨n - 1, by simp at hn; omega⟩
      obtain ⟨-, hs, hc⟩ := hc
      rw [srchkanaLoop, douonBytes, List.append_assoc, segend_bytes hs, getntag_bytes hs,
        if_neg (by simp), ih hc (by simpa using hn)]
      simp only [List.length_cons, Prod.mk.injEq, and_true]
      omega

/-- The walk over the blocks in front of the input. -/
theorem srchkanaLoop_lt {l : List DouonBlk} (h0 : 0 ∉ x) (hc : Coded prev l)
    (hlt : ∀ t ∈ l, t.yomi < x) (hp : prev ≤ x) (idx : Bytes) (n : ℕ) (rest : Bytes)
    (cnt : ℕ) :
    srchkanaLoop idx x (n + l.length) (douonBytes prev l ++ rest) (lcp x prev) none cnt =
      srchkanaLoop idx x n rest (lcp x (lastYomi prev l)) none (cnt + l.length) := by
  induction l generalizing prev cnt with
  | nil => rfl
  | cons t l ih =>
      obtain ⟨hpt, hs, hc⟩ := hc
      have htx : t.yomi < x := hlt t (by simp)
      have hcmp := yomicmp_bytes hs (Passed.of_le hp) le_rfl (DouonBlk.nlen_pos hpt).ne' idx
        (douonBytes t.yomi l ++ rest)
      rw [compareYomi, if_neg (not_lt.mpr htx.le), Nat.zero_add, Nat.zero_add] at hcmp
      have hsame : (yomicmp idx x (t.bytes prev ++ (douonBytes t.yomi l ++ rest))
          (lcp x prev)).2 = lcp x t.yomi := by
        rw [hcmp]
        split
        · rename_i hpre
          exact (lcp_eq_length_iff.mpr hpre).symm
        · rfl
      have hover : (yomicmp idx x (t.bytes prev ++ (douonBytes t.yomi l ++ rest))
          (lcp x prev)).1 ≠ .over := by
        rw [hcmp]
        split <;> simp
      have hnone : ¬ ((yomicmp idx x (t.bytes prev ++ (douonBytes t.yomi l ++ rest))
          (lcp x prev)).1 = .match ∧ x.getD (lcp x t.yomi) 0 = 0) := by
        rw [hcmp]
        rintro ⟨hm, hx⟩
        split at hm
        · rename_i hpre
          exact getD_prefix_ne_zero h0 hpre htx hx
        · cases hm
      rw [List.length_cons, ← Nat.add_assoc, srchkanaLoop, douonBytes, List.append_assoc,
        segend_bytes hs, getntag_bytes hs, if_neg (by simp)]
      simp only [hsame, if_neg hover, if_neg hnone]
      rw [ih hc (fun u hu => hlt u (by simp [hu])) htx.le]
      simp only [lastYomi]
      congr 1
      omega

theorem length_douonBytes_le (prev : Bytes) (ts : List DouonBlk) :
    ts.length ≤ (douonBytes prev ts).length := by
  induction ts generalizing prev with
  | nil => simp
  | cons t ts ih =>
      have := ih t.yomi
      simp only [douonBytes, List.length_append, DouonBlk.length_bytes, DouonBlk.size,
        douonBlkSizeNumber, List.length_cons]
      omega

/-- The bytes of a user segment: no association strings, the blocks and what is behind
them. -/
def segBytes (ts : List DouonBlk) (tail : Bytes) : Bytes := 0 :: (douonBytes [] ts ++ tail)

@[simp] theorem segtop_segBytes (ts : List DouonBlk) (tail : Bytes) :
    segtop (segBytes ts tail) = douonBytes [] ts ++ tail := rfl

/-- The blocks in front of the input are passed, whatever comes next. -/
theorem srchkana_lt {l r : List DouonBlk} (h0 : 0 ∉ x) (hc : Coded [] (l ++ r))
    (hlt : ∀ t ∈ l, t.yomi < x) (idx tail : Bytes) :
    ∃ n, r.length < n ∧ srchkana idx x (segBytes (l ++ r) tail) =
      srchkanaLoop idx x n (douonBytes (lastYomi [] l) r ++ tail)
        (lcp x (lastYomi [] l)) none l.length := by
  have hlen := length_douonBytes_le [] (l ++ r)
  obtain ⟨n, hn⟩ : ∃ n, (segBytes (l ++ r) tail).length + 1 = n + l.length :=
    ⟨(segBytes (l ++ r) tail).length + 1 - l.length, by
      simp only [segBytes, List.length_cons, List.length_append] at hlen ⊢
      omega⟩
  refine ⟨n, ?_, ?_⟩
  · simp only [segBytes, List.length_cons, List.length_append] at hlen hn
    omega
  · have h := srchkanaLoop_lt h0 (coded_append.mp hc).1 hlt (nil_le x) idx n
      (douonBytes (lastYomi [] l) r ++ tail) 0
    rw [lcp_nil_right, Nat.zero_add] at h
    rw [srchkana, segtop_segBytes, hn, douonBytes_append, List.append_assoc, h]

/-- `srchkana` finds a stored reading. -/
theorem srchkana_found (idx : Bytes) {l r : List DouonBlk} {t : DouonBlk} (h0 : 0 ∉ x)
    (hc : Coded [] (l ++ t :: r)) (hlt : ∀ u ∈ l, u.yomi < x) (ht : t.yomi = x)
    (htail : IsTail tail) :
    srchkana idx x (segBytes (l ++ t :: r) tail) =
      ((l ++ t :: r).length, douonBytes (lastYomi [] l) (t :: r) ++ tail, x.length) := by
  obtain ⟨n, hn, h⟩ := srchkana_lt h0 hc hlt idx tail
  obtain ⟨n, rfl⟩ : ∃ m, n = m + 1 := ⟨n - 1, by omega⟩
  obtain ⟨hcl, hpt, hs, hcr⟩ := coded_append.mp hc
  have hle : lastYomi [] l ≤ x := ht ▸ hpt.le
  have hcmp := yomicmp_bytes hs (Passed.of_le hle) le_rfl (DouonBlk.nlen_pos hpt).ne' idx
    (douonBytes t.yomi r ++ tail)
  rw [compareYomi, ht, if_pos (List.prefix_refl x), Nat.zero_add, ← ht] at hcmp
  rw [h, srchkanaLoop, douonBytes, List.append_assoc, segend_bytes hs, getntag_bytes hs,
    if_neg (by simp), ← ht]
  simp only [hcmp, List.getD_eq_getElem?_getD, List.getElem?_length, Option.getD_none]
  rw [if_neg (by decide), if_pos (by simp), srchkanaLoop_found hcr htail (by simpa using hn)]
  simp only [List.length_append, List.length_cons, Prod.mk.injEq, and_true]
  omega

/-- `srchkana` finds the place of a reading that is not stored. -/
theorem srchkana_notFound (idx : Bytes) {l r : List DouonBlk} (h0 : 0 ∉ x) (hc : Coded [] (l ++ r))
    (hlt : ∀ t ∈ l, t.yomi < x) (hgt : ∀ t ∈ r, x < t.yomi) (htail : IsTail tail) :
    srchkana idx x (segBytes (l ++ r) tail) =
      (0, douonBytes (lastYomi [] l) r ++ tail, lcp x (lastYomi [] l)) := by
  obtain ⟨n, hn, h⟩ := srchkana_lt h0 hc hlt idx tail
  obtain ⟨n, rfl⟩ : ∃ m, n = m + 1 := ⟨n - 1, by omega⟩
  obtain ⟨hcl, hcr⟩ := coded_append.mp hc
  rw [h, srchkanaLoop]
  cases r with
  | nil => rw [douonBytes, List.nil_append, if_pos htail.segend]
  | cons t r =>
      obtain ⟨hpt, hs, -⟩ := hcr
      have hxt : x < t.yomi := hgt t (by simp)
      have hle : lastYomi [] l ≤ x := by
        rcases lastYomi_mem_or [] l with ⟨-, he⟩ | ⟨u, hu, he⟩
        · rw [he]
          exact nil_le x
        · rw [he]
          exact (hlt u hu).le
      have hcmp := yomicmp_bytes hs (Passed.of_le hle) le_rfl (DouonBlk.nlen_pos hpt).ne' idx
        (douonBytes t.yomi r ++ tail)
      rw [compareYomi, if_neg fun hp => absurd hxt (not_lt.mpr (prefix_le hp)),
        if_pos hxt] at hcmp
      rw [douonBytes, List.append_assoc, segend_bytes hs, if_neg (by simp), hcmp, if_pos rfl]

end Srchkana

/-! ## The room around a place -/

/-- `cal_nextym` counts what the block behind a new reading gains. -/
theorem calNextym_bytes {x prev : Bytes} {t : DouonBlk} (h0 : 0 ∉ x)
    (hs : t.size prev ≤ maxDouonBlk) (hpx : prev ≤ x) (hxt : x < t.yomi) (rest : Bytes) :
    t.plen prev + calNextym x (t.bytes prev ++ rest) = t.plen x := by
  have hloop : ∀ (w z : Bytes), 0 ∉ z → 0 ∉ w → ∀ rest : Bytes,
      calNextymLoop w.length (w ++ rest) z = lcp z w := by
    intro w
    induction w with
    | nil => simp [calNextymLoop]
    | cons c w ih =>
        intro z hz hw rest
        simp only [List.mem_cons, not_or] at hw
        rw [List.length_cons, List.cons_append, calNextymLoop, List.headD_cons, List.tail_cons]
        cases z with
        | nil => rw [List.headD_nil, if_neg (Ne.symm hw.1), lcp_nil_left]
        | cons a z =>
            simp only [List.mem_cons, not_or] at hz
            rw [List.headD_cons, List.tail_cons, ih z hz.2 hw.2, lcp_cons_cons]
            simp only [eq_comm]
  have hle : t.plen prev ≤ lcp x t.yomi := by
    rw [DouonBlk.plen, lcp_eq_min hpx hxt.le]
    exact min_le_right _ _
  obtain ⟨u, hu, hx, hy⟩ := exists_append_of_le_lcp hle
  have hdrop : (t.bytes prev ++ rest).drop douonBlkSizeNumber =
      t.yomi.drop (t.plen prev) ++ (t.body ++ rest) := by
    simp [DouonBlk.bytes, setSize, douonBlkSizeNumber]
  have hl := hloop (t.yomi.drop (t.plen prev)) (x.drop (t.plen prev))
    (fun h => h0 (List.mem_of_mem_drop h))
    (fun h => t.isYomi.ne_zero (List.mem_of_mem_drop h)) (t.body ++ rest)
  rw [calNextym, segend_bytes hs, getnlen_bytes hs, getplen_bytes hs, hdrop]
  have hlen : t.nlen prev = (t.yomi.drop (t.plen prev)).length := by
    rw [List.length_drop]
    rfl
  simp only [Bool.false_eq_true, if_false, hlen, hl]
  have := lcp_append u (x.drop (t.plen prev)) (t.yomi.drop (t.plen prev))
  rw [← hx, ← hy, hu] at this
  exact this.symm

theorem usrEnd_douonBytes {prev tail : Bytes} {ts : List DouonBlk} (hc : Coded prev ts)
    (htail : IsTail tail) {n : ℕ} (hn : ts.length < n) :
    usrEnd n (douonBytes prev ts ++ tail) = tail := by
  induction ts generalizing prev n with
  | nil =>
      obtain ⟨n, rfl⟩ := Nat.exists_eq_add_of_lt hn
      rw [usrEnd, douonBytes, List.nil_append, if_pos htail.segend]
  | cons t ts ih =>
      obtain ⟨n, rfl⟩ : ∃ m, n = m + 1 := ⟨n - 1, by simp at hn; omega⟩
      obtain ⟨-, hs, hc⟩ := hc
      rw [usrEnd, douonBytes, List.append_assoc, segend_bytes hs, getsize_bytes hs,
        if_neg (by simp), ← DouonBlk.length_bytes, List.drop_left]
      exact ih hc (by simpa using hn)

/-- `usr_freelen` counts the bytes behind the blocks. -/
theorem usrFreelen_segBytes {ts : List DouonBlk} {tail : Bytes} (hc : Coded [] ts)
    (htail : IsTail tail) :
    usrFreelen (segBytes ts tail).length (segBytes ts tail) = tail.length := by
  have hlen := length_douonBytes_le [] ts
  rw [usrFreelen, segtop_segBytes, usrEnd_douonBytes hc htail]
  · simp only [segBytes, List.length_cons, List.length_append]
    omega
  · simp only [segBytes, List.length_cons, List.length_append]
    omega

end Sj3
