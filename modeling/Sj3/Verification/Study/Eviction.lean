import Mathlib.Order.Bounds.Basic
import Sj3.Verification.Study.ClauseArea

/-! # Which records an insertion removes

`delclold` reports 5 bytes for every record it removes, so that more of them may go than
make room. -/

namespace Sj3

open PrefixFree Recency

/-- The area has room for a record of `alen` bytes when the `k` oldest of `recs` are gone. -/
def ClMakesRoom (s : Stdy) (recs : List ClRec) (alen k : ℕ) : Prop :=
  (clBytes (dropOldest ClRec.num k recs)).length + alen + 1 ≤ s.clstdydic.length

/-- The call stores the record with the reading `x` and removes the related records and the
`k` oldest of the others. -/
def ClStores (recs : List ClRec) (x : Bytes) (hinshi : UInt8) (len1 k : ℕ)
    (r : Option Stdy × ClStudyRet) : Prop :=
  ∃ t recs', r = (some t, .normEnd) ∧ ClHolds t recs' ∧
    (recs'.map ClRec.key).Perm
      ((x, hinshi, UInt8.ofNat len1) ::
        (dropOldest ClRec.num k (clUnrelated x recs)).map ClRec.key)

theorem ClStudied.holds {s : Stdy} {recs : List ClRec} (h : ClStudied s recs) :
    ClHolds s recs := by
  obtain ⟨free, -, harea⟩ := h.area_eq
  exact ⟨h.fits h.count_lt, free, harea⟩

section Insertion

variable {s : Stdy} {recs : List ClRec} {x : Bytes} {alen k j : ℕ} {rem : List ClRec}

theorem ClRoom.length_dropOldest (hr : ClRoom recs x s.clstdydic.length alen rem j) (i : ℕ) :
    (clBytes (dropOldest ClRec.num i rem)).length =
      (clBytes (dropOldest ClRec.num i (clUnrelated x recs))).length :=
  (hr.renumbered.dropOldest i).length_clBytes

theorem ClRoom.keys (hr : ClRoom recs x s.clstdydic.length alen rem j) (i : ℕ) :
    (dropOldest ClRec.num i rem).map ClRec.key =
      (dropOldest ClRec.num i (clUnrelated x recs)).map ClRec.key :=
  (hr.renumbered.dropOldest i).map_key

/-- No more records than there are have to go. -/
theorem ClRoom.least_le (hr : ClRoom recs x s.clstdydic.length alen rem j)
    (hfit : alen + 1 ≤ s.clstdydic.length)
    (hk : IsLeast {i | ClMakesRoom s (clUnrelated x recs) alen i} k) : k ≤ rem.length := by
  apply hk.2
  have hnone : dropOldest ClRec.num rem.length rem = [] := by
    apply List.eq_nil_of_length_eq_zero
    rw [Recency.length_dropOldest _ hr.ordered.ranked.nodup, Nat.sub_self]
  have hlen := hr.length_dropOldest rem.length
  rw [hnone, clBytes_nil, List.length_nil] at hlen
  show (clBytes (dropOldest ClRec.num rem.length (clUnrelated x recs))).length + alen + 1 ≤ _
  omega

/-- As many records go as are enough when 5 bytes are counted for each. -/
theorem ClRoom.eq_least_iff (hr : ClRoom recs x s.clstdydic.length alen rem j)
    (hend : ((s.clstdydic.length - (clBytes rem).length : ℤ) - 1) + Stdy.clHdLen * j < alen →
      j = rem.length)
    (hfit : alen + 1 ≤ s.clstdydic.length)
    (hk : IsLeast {i | ClMakesRoom s (clUnrelated x recs) alen i} k) :
    (alen ≤ ((s.clstdydic.length - (clBytes rem).length : ℤ) - 1) + Stdy.clHdLen * j ∧ j = k) ↔
      (clBytes (clUnrelated x recs)).length + alen + 1 ≤
        s.clstdydic.length + Stdy.clHdLen * k := by
  have hrem := hr.renumbered.length_clBytes
  have hcast : ∀ i : ℕ, (Stdy.clHdLen * i : ℤ) = ((Stdy.clHdLen * i : ℕ) : ℤ) := by
    intro i
    push_cast
    rfl
  simp only [hcast] at hend ⊢
  constructor
  · rintro ⟨hroom, rfl⟩
    omega
  · intro hle
    have hjk : j ≤ k := by
      by_contra hlt
      have := hr.short k (not_le.mp hlt)
      rw [hcast] at this
      omega
    have hroom : (alen : ℤ) ≤ ((s.clstdydic.length - (clBytes rem).length : ℤ) - 1) +
        ((Stdy.clHdLen * j : ℕ) : ℤ) := by
      by_contra hlt
      have hj := hend (not_le.mp hlt)
      have hkj : k ≤ j := hj ▸ hr.least_le hfit hk
      have hmul := Nat.mul_le_mul_left Stdy.clHdLen hkj
      omega
    refine ⟨hroom, le_antisymm hjk (hk.2 ?_)⟩
    have hspare := length_dropOldest_add_le hr.ordered.ranked.nodup hr.le_length
    rw [hr.length_dropOldest] at hspare
    show (clBytes (dropOldest ClRec.num j (clUnrelated x recs))).length + alen + 1 ≤ _
    omega

end Insertion

/-- A record longer than the readings is not the one asked for: what stands in its place is
related to the reading and is not it. -/
theorem not_clStores_overlong {t : Stdy} {recs front back : List ClRec} {free len1 k : ℕ}
    {x rest : Bytes} {hinshi hinshi' l1 : UInt8} {ret : ClStudyRet}
    (hfront : ∀ r ∈ front, r.Fits)
    (harea : t.clstdydic = clArea (front ++ ⟨x ++ 0 :: rest, hinshi', l1, 1⟩ :: back) free)
    (hlen : (x ++ 0 :: rest).length % 0x100 ≠ x.length) :
    ¬ ClStores recs x hinshi len1 k (some t, ret) := by
  rintro ⟨t', recs', heq, hholds, hperm⟩
  obtain rfl : t = t' := Option.some.inj (congrArg Prod.fst heq)
  obtain ⟨free', harea'⟩ := hholds.area_eq
  rw [harea, clArea_append] at harea'
  obtain ⟨tail, rfl, htail⟩ := clArea_prefix hfront hholds.fits harea'
  have hkey : ∀ r ∈ tail, Related x r.yomi → r.yomi = x := by
    intro r hr hrel
    have hmem : r.key ∈ (front ++ tail).map ClRec.key :=
      List.mem_map_of_mem (List.mem_append_right _ hr)
    rcases List.mem_cons.mp (hperm.mem_iff.mp hmem) with hk | hk
    · exact congrArg Prod.fst hk
    · obtain ⟨u, hu, huk⟩ := List.mem_map.mp hk
      have hun := (List.mem_filter.mp (List.mem_filter.mp hu).1).2
      rw [show u.yomi = r.yomi from congrArg Prod.fst huk] at hun
      exact absurd hrel (by simpa using hun)
  let w : ClRec := ⟨x ++ 0 :: rest, hinshi', l1, 1⟩
  cases tail with
  | nil =>
      have hone : (clArea (w :: back) free).getD 4 0 = 1 := rfl
      have hzero : (clArea [] free').getD 4 0 = 0 := by
        rw [clArea, clBytes_nil, List.nil_append, List.getD_eq_getElem?_getD,
          List.getElem?_replicate]
        split <;> rfl
      rw [htail, hzero] at hone
      exact absurd hone (by decide)
  | cons r tail =>
      have hr : r.Fits := hholds.fits r (by simp)
      rw [clArea_cons, clArea_cons] at htail
      have hyl : r.yomi.length = w.yomi.length % 0x100 := by
        rw [← clYomiLen_bytes hr (clArea tail free'), ← htail]
        exact UInt8.toNat_ofNat'
      have hpos : w.yomi ++ clArea back free = r.yomi ++ clArea tail free' := by
        rw [← clYomiPos_bytes, htail, clYomiPos_bytes]
      have hpre : r.yomi <+: w.yomi := by
        apply List.prefix_of_prefix_length_le (List.prefix_append r.yomi (clArea tail free'))
          (hpos ▸ List.prefix_append w.yomi (clArea back free))
        rw [hyl]
        exact Nat.mod_le _ _
      have hrel : Related x r.yomi :=
        List.prefix_or_prefix_of_prefix (List.prefix_append x (0 :: rest)) hpre
      have hx := hkey r List.mem_cons_self hrel
      rw [hx] at hyl
      exact hlen hyl.symm

theorem not_clStores_noArea {recs : List ClRec} {x : Bytes} {hinshi : UInt8}
    {len1 k : ℕ} {t : Option Stdy} : ¬ ClStores recs x hinshi len1 k (t, .noArea) := by
  rintro ⟨t', recs', heq, -⟩
  exact ClStudyRet.noConfusion (congrArg Prod.snd heq)

/-- What is stored is what was asked for when as many old records go as have to. -/
theorem clStores_iff_eq {s t : Stdy} {recs rem front back : List ClRec} {x : Bytes}
    {hinshi : UInt8} {len1 alen j k free : ℕ} (hr : ClRoom recs x s.clstdydic.length alen rem j)
    (hk : k ≤ rem.length) (hsplit : dropOldest ClRec.num j rem = front ++ back)
    (harea : t.clstdydic = clArea (front.map (ClRec.setNum (· + 1)) ++
      ⟨x, hinshi, UInt8.ofNat len1, 1⟩ :: back.map (ClRec.setNum (· + 1))) free)
    (hfits : ∀ r ∈ front.map (ClRec.setNum (· + 1)) ++
      ⟨x, hinshi, UInt8.ofNat len1, 1⟩ :: back.map (ClRec.setNum (· + 1)), r.Fits) :
    ClStores recs x hinshi len1 k (some t, .normEnd) ↔ j = k := by
  have hholds : ClHolds t (front.map (ClRec.setNum (· + 1)) ++
      ⟨x, hinshi, UInt8.ofNat len1, 1⟩ :: back.map (ClRec.setNum (· + 1))) :=
    ⟨hfits, free, harea⟩
  constructor
  · rintro ⟨t', recs', heq, hholds', hperm⟩
    obtain rfl : t = t' := Option.some.inj (congrArg Prod.fst heq)
    rw [← hholds.unique hholds'] at hperm
    have hlen := hperm.length_eq
    have hkept := congrArg List.length hsplit
    have hkeys := congrArg List.length (hr.keys k)
    have hj := hr.le_length
    have hnd := hr.ordered.ranked.nodup
    rw [Recency.length_dropOldest _ hnd] at hkept
    simp only [List.length_map, Recency.length_dropOldest _ hnd] at hkeys
    simp only [List.length_map, List.length_append, List.length_cons, ← hkeys] at hlen hkept
    omega
  · rintro rfl
    refine ⟨t, _, rfl, hholds, ?_⟩
    rw [← hr.keys j, hsplit]
    simp only [List.map_append, List.map_cons, List.map_map]
    exact List.perm_middle

/-- An insertion of a length the readings have, into an area the record fits with a byte to
spare. -/
theorem ClRequest.clStores_iff {s : Stdy} {recs : List ClRec} (hs : ClStudied s recs)
    {yomi1 yomi2 y1 y2 : Bytes} (hr : ClRequest yomi1 yomi2 y1 y2) (stack : ℕ → UInt8)
    {out : ClStdyOut} (hout : out.len.toNat ≤ y2.length) {x : Bytes}
    (hx : x = (y1 ++ y2).take (y1.length + out.len.toNat))
    (hfit : x.length + Stdy.clHdLen + 1 < s.clstdydic.length) {k : ℕ}
    (hk : IsLeast {i | ClMakesRoom s (clUnrelated x recs) (x.length + Stdy.clHdLen) i} k) :
    ClStores recs x out.hinshi y1.length k (clstudy stack (some s) yomi1 yomi2 (some out)) ↔
      (clBytes (clUnrelated x recs)).length + (x.length + Stdy.clHdLen) + 1 ≤
        s.clstdydic.length + Stdy.clHdLen * k := by
  obtain ⟨free, hfree, harea⟩ := hs.area_eq
  have hlt : (clArea recs free).length < 0x10000 := by
    have := hs.length_le
    rw [harea, maxClLen] at this
    omega
  have hle : y1.length + out.len.toNat ≤ (y1 ++ y2).length := by
    rw [List.length_append]
    omega
  have hxlen : x.length = y1.length + out.len.toNat := by
    rw [hx, List.length_take_of_le hle]
  have hx0 : 0 ∉ x := fun hm => hr.zero_notMem (List.mem_of_mem_take (hx ▸ hm))
  rw [hr.clstudy_eq, clYtmp_eq hle, ← hx, ← hxlen, if_neg (by omega)]
  obtain ⟨rem, j, free', hroom, hfree', hcase⟩ :=
    clInsert_clArea hx0 List.headD_nil y1.length out.hinshi hs.toClOrdered hlt hfree
  rw [List.append_nil, ← harea] at hcase hroom
  rcases hcase with ⟨hfull, hj, -, heq⟩ | ⟨hge, front, back, hsplit, hf, hb, hlen, heq⟩
  · rw [heq, ← hroom.eq_least_iff (fun _ => hj) hfit.le hk]
    exact iff_of_false not_clStores_noArea fun hc => hfull.not_ge hc.1
  · have hord := hroom.ordered.dropOldest j
    rw [hsplit] at hord
    rw [hx] at hf hb
    have hnew := hr.ordered hout hord hf hb
    have hcount := length_le_length_clBytes (front.map (ClRec.setNum (· + 1)) ++
      ⟨x, out.hinshi, UInt8.ofNat y1.length, 1⟩ :: back.map (ClRec.setNum (· + 1)))
    rw [length_clArea, harea] at hlen
    rw [← hx] at hnew
    rw [heq, clStores_iff_eq hroom (hroom.least_le hfit.le hk) hsplit rfl
      (hnew.fits (by omega)), ← hroom.eq_least_iff (fun hc => absurd hge hc.not_ge) hfit.le hk]
    exact ⟨fun hj => ⟨hge, hj⟩, fun hc => hc.2⟩

/-- A request for more codes than there are never stores what it asks for. -/
theorem ClRequest.not_clStores {s : Stdy} {recs : List ClRec} (hs : ClStudied s recs)
    {yomi1 yomi2 y1 y2 : Bytes} (hr : ClRequest yomi1 yomi2 y1 y2) (stack : ℕ → UInt8)
    {out : ClStdyOut} (hout : y2.length < out.len.toNat) (k : ℕ) :
    ¬ ClStores recs (y1 ++ y2) out.hinshi y1.length k
      (clstudy stack (some s) yomi1 yomi2 (some out)) := by
  obtain ⟨free, hfree, harea⟩ := hs.area_eq
  have hcount := hs.length_le
  have hall := length_le_length_clBytes recs
  rw [harea, length_clArea, maxClLen] at hcount
  have hlt : (clArea recs free).length < 0x10000 := by
    rw [length_clArea]
    omega
  have hlong : (y1 ++ y2).length < y1.length + out.len.toNat := by
    rw [List.length_append]
    omega
  obtain ⟨rest, hrest⟩ := clYtmp_overlong stack hlong
  have hylen := congrArg List.length hrest
  rw [length_clYtmp] at hylen
  rw [hr.clstudy_eq]
  split
  · exact not_clStores_noArea
  · obtain ⟨rem, j, free', hroom, hfree', hcase⟩ :=
      clInsert_clArea hr.zero_notMem (List.headD_cons : (0 :: rest).headD 0 = 0) y1.length
        out.hinshi
        hs.toClOrdered hlt hfree
    rw [← hrest, ← harea] at hcase
    rcases hcase with ⟨-, -, -, heq⟩ | ⟨-, front, back, hsplit, -, -, -, heq⟩
    · rw [heq]
      exact not_clStores_noArea
    · have hord := hroom.ordered.dropOldest j
      rw [hsplit] at hord
      have hkept : (front ++ back).length ≤ recs.length := by
        have hkeys := congrArg List.length hroom.renumbered.map_key
        rw [List.length_map, List.length_map] at hkeys
        rw [← hsplit, Recency.length_dropOldest _ hroom.ordered.ranked.nodup, hkeys]
        exact (Nat.sub_le _ _).trans (List.length_filter_le _ _)
      have hfront : ∀ r ∈ front.map (ClRec.setNum (· + 1)), r.Fits := by
        intro r hmem
        obtain ⟨u, hu, rfl⟩ := List.mem_map.mp hmem
        have hu' : u ∈ front ++ back := List.mem_append_left _ hu
        have hnum := hord.ranked.le (List.mem_map_of_mem hu')
        rw [List.length_map] at hnum
        exact (hord.fits (by omega) u hu').setNum (by omega)
      have hmax := hr.length_lt
      have hbyte := out.len.toNat_lt
      rw [clStdyTmpLen] at hmax
      rw [heq, hrest]
      refine not_clStores_overlong hfront rfl ?_
      rw [← hylen]
      rw [List.length_append] at hmax hlong ⊢
      omega

/-- Exactly when an insertion whose record fits an empty area stores it and removes the
fewest old records: when `len` does not exceed the second reading, a byte more is free in an
empty area than the record and the end mark need, and 5 bytes for each of the fewest records
make room. -/
theorem clstudy_evicts_least_iff {s : Stdy} {recs : List ClRec} (hs : ClStudied s recs)
    {yomi1 yomi2 y1 y2 : Bytes} (hr : ClRequest yomi1 yomi2 y1 y2) (stack : ℕ → UInt8)
    (out : ClStdyOut) {x : Bytes} (hx : x = (y1 ++ y2).take (y1.length + out.len.toNat))
    (hfit : x.length + Stdy.clHdLen + 1 ≤ s.clstdydic.length) {k : ℕ}
    (hk : IsLeast {i | ClMakesRoom s (clUnrelated x recs) (x.length + Stdy.clHdLen) i} k) :
    ClStores recs x out.hinshi y1.length k (clstudy stack (some s) yomi1 yomi2 (some out)) ↔
      out.len.toNat ≤ y2.length ∧ x.length + Stdy.clHdLen + 1 ≠ s.clstdydic.length ∧
        (clBytes (clUnrelated x recs)).length + (x.length + Stdy.clHdLen) + 1 ≤
          s.clstdydic.length + Stdy.clHdLen * k := by
  by_cases hout : out.len.toNat ≤ y2.length
  · by_cases hfull : x.length + Stdy.clHdLen + 1 = s.clstdydic.length
    · -- the check in front of everything else refuses a record that just fits
      have hxlen : x.length = y1.length + out.len.toNat := by
        rw [hx, List.length_take_of_le]
        rw [List.length_append]
        omega
      rw [hr.clstudy_eq, if_pos (by omega)]
      exact iff_of_false not_clStores_noArea fun hc => hc.2.1 hfull
    · rw [hr.clStores_iff hs stack hout hx (lt_of_le_of_ne hfit hfull) hk]
      exact ⟨fun h => ⟨hout, hfull, h⟩, fun h => h.2.2⟩
  · have hxall : x = y1 ++ y2 := by
      rw [hx, List.take_of_length_le]
      rw [List.length_append]
      omega
    rw [hxall]
    exact iff_of_false (hr.not_clStores hs stack (not_le.mp hout) k) fun hc => hout hc.1

/-- Two records of 253 bytes each, and room for one of 5 bytes behind them. -/
def twoClRecs : List ClRec :=
  [⟨List.replicate 248 0x60, 1, 100, 1⟩, ⟨List.replicate 248 0x61, 1, 100, 2⟩]

def twoClStdy : Stdy := { emptyClStdy with clstdydic := clArea twoClRecs 6 }.mkclidx

theorem twoClStdy_studied : ClStudied twoClStdy twoClRecs := by
  have hord : ClOrdered twoClRecs := by
    refine ⟨by decide +kernel, by decide +kernel, by decide +kernel, by decide +kernel, ?_,
      List.Perm.refl [1, 2]⟩
    exact List.pairwise_pair.mpr (.here (by decide))
  apply mkclidx_studied hord (show 0 < 6 by decide) rfl
  · show (clArea twoClRecs 6).length ≤ maxClLen
    decide +kernel
  · decide
  · exact List.length_replicate

theorem length_twoClStdy : twoClStdy.clstdydic.length = 512 := by decide +kernel

/-- One of the two records has to go, and that is enough. -/
theorem isLeast_one_twoClStdy {x : Bytes}
    (hzero : ¬ ClMakesRoom twoClStdy (clUnrelated x twoClRecs) (x.length + Stdy.clHdLen) 0)
    (hone : ClMakesRoom twoClStdy (clUnrelated x twoClRecs) (x.length + Stdy.clHdLen) 1) :
    IsLeast {i | ClMakesRoom twoClStdy (clUnrelated x twoClRecs) (x.length + Stdy.clHdLen) i}
      1 := by
  refine ⟨hone, fun i hi => ?_⟩
  by_contra hlt
  obtain rfl : i = 0 := by omega
  exact hzero hi

/-- Five bytes are missing for a record of 10, and the older record alone is removed. -/
theorem clstudy_evicts_least_iff_first :
    ClStores twoClRecs [0x4f, 0x4f, 0x51, 0x51, 0x51] 1 2 1
      (clstudy (fun _ => 0) (some twoClStdy) [0xa4, 0xa2, 0xa4, 0xa2]
        [0xa4, 0xa4, 0xa4, 0xa4, 0xa4, 0xa4] (some ⟨1, 3⟩)) := by
  have hreq : ClRequest [0xa4, 0xa2, 0xa4, 0xa2] [0xa4, 0xa4, 0xa4, 0xa4, 0xa4, 0xa4]
      [0x4f, 0x4f] [0x51, 0x51, 0x51] :=
    ⟨by decide, by decide, by decide, by decide⟩
  have hleast := @isLeast_one_twoClStdy [0x4f, 0x4f, 0x51, 0x51, 0x51]
    (by rw [ClMakesRoom, length_twoClStdy]; decide +kernel)
    (by rw [ClMakesRoom, length_twoClStdy]; decide +kernel)
  apply (clstudy_evicts_least_iff twoClStdy_studied hreq (fun _ => 0) ⟨1, 3⟩ rfl
    (by rw [length_twoClStdy]; decide) hleast).mpr
  rw [length_twoClStdy]
  decide +kernel

/-- Six bytes are missing for a record of 11; the older record is 253 bytes long, but both
are removed. -/
theorem clstudy_not_evicts_least :
    ¬ ∀ s recs, ClStudied s recs → ∀ yomi1 yomi2 y1 y2, ClRequest yomi1 yomi2 y1 y2 →
      ∀ (stack : ℕ → UInt8) (out : ClStdyOut) (x : Bytes),
        x = (y1 ++ y2).take (y1.length + out.len.toNat) →
        x.length + Stdy.clHdLen + 1 ≤ s.clstdydic.length →
        ∀ k, IsLeast {i | ClMakesRoom s (clUnrelated x recs) (x.length + Stdy.clHdLen) i} k →
          ClStores recs x out.hinshi y1.length k
            (clstudy stack (some s) yomi1 yomi2 (some out)) := by
  intro hall
  let x : Bytes := [0x4f, 0x4f, 0x4f, 0x51, 0x51, 0x51]
  have hleast := @isLeast_one_twoClStdy x
    (by rw [ClMakesRoom, length_twoClStdy]; decide +kernel)
    (by rw [ClMakesRoom, length_twoClStdy]; decide +kernel)
  have hr : ClRequest [0xa4, 0xa2, 0xa4, 0xa2, 0xa4, 0xa2] [0xa4, 0xa4, 0xa4, 0xa4, 0xa4, 0xa4]
      [0x4f, 0x4f, 0x4f] [0x51, 0x51, 0x51] := ⟨by decide, by decide, by decide, by decide⟩
  have hx : x =
      (([0x4f, 0x4f, 0x4f] : Bytes) ++ [0x51, 0x51, 0x51]).take (3 + (3 : UInt8).toNat) := by
    decide
  have hfit : x.length + Stdy.clHdLen + 1 < twoClStdy.clstdydic.length := by
    rw [length_twoClStdy]
    decide
  have hstores := hall twoClStdy twoClRecs twoClStdy_studied _ _ _ _ hr (fun _ => 0) ⟨1, 3⟩ x hx
    hfit.le 1 hleast
  have hroom := (hr.clStores_iff twoClStdy_studied (fun _ => 0) (by decide) hx hfit hleast).mp
    hstores
  rw [length_twoClStdy] at hroom
  exact absurd hroom (by decide +kernel)

end Sj3
