import Sj3.Verification.Romaji.Reader
import Sj3.Verification.Romaji.Table

/-! # Longest match -/

namespace Sj3

open FirstMatch PrefixFree

/-! ## Searching a list -/

/-- What a search through the entries of a list finds. -/
inductive Finds (s : Wstr) (l : List RkTabl) : Option (ℤ × RkTabl × List RkTabl) → Prop where
  | none (h : ∀ r ∈ l, ¬ Related r.tail (fold s)) : Finds s l none
  | some {rlen : ℤ} {r : RkTabl} {pre rest : List RkTabl} (hl : l = pre ++ r :: rest)
      (hpre : ∀ r' ∈ pre, ¬ Related r'.tail (fold s)) (hmatch : Matches s r.tail 1 rlen)
      (hne : rlen ≠ rkNomach) : Finds s l (some (rlen, r, rest))

theorem rkmatch_spec {s : Wstr} (hs : 0 ∉ s) {r : RkTabl} (hr : r.Plain)
    (hwide : r.tail ≠ [] → r.tail <+: fold s → NarrowBehind s r.tail.length) :
    Matches s r.tail 1 (rkmatch s r.r_key s.length) := by
  by_cases hnil : r.tail = []
  · rw [hr.none_of_nil hnil, hnil]
    exact Matches.whole (s := s) (t := []) (i := 1) List.nil_prefix
  · rw [RkTabl.r_key_eq hnil]
    exact rkmatchLoop_spec hs hr.nul (hwide hnil) 1

theorem Matches.not_related {s t : Wstr} {i : ℤ} (hi : 0 < i) (h : Matches s t i rkNomach) :
    ¬ Related t (fold s) := by
  generalize hrlen : rkNomach = rlen at h
  cases h with
  | cont => exact absurd hrlen (by decide)
  | whole =>
      rw [rkNomach] at hrlen
      omega
  | nomach h => exact h

theorem rkSearch_spec {c : UInt16} {s : Wstr} (hs : 0 ∉ s) {l : List RkTabl}
    (hl : ∀ r ∈ l, r.Plain)
    (hwide : ∀ r ∈ l, r.tail ≠ [] → r.tail <+: fold s → NarrowBehind s r.tail.length) :
    Finds s l (rkSearch (c :: s) l) := by
  induction l with
  | nil => exact .none (by simp)
  | cons r l ih =>
      have hr := rkmatch_spec hs (hl r List.mem_cons_self) (hwide r List.mem_cons_self)
      have hrec := ih (fun r' hr' => hl r' (List.mem_cons_of_mem r hr'))
        (fun r' hr' => hwide r' (List.mem_cons_of_mem r hr'))
      rw [rkSearch, List.tail_cons, List.length_cons, Nat.add_sub_cancel]
      by_cases hno : rkmatch s r.r_key s.length = rkNomach
      · rw [if_pos hno]
        rw [hno] at hr
        have hunrel := hr.not_related (by decide)
        generalize rkSearch (c :: s) l = found at hrec
        cases hrec with
        | none h =>
            refine .none fun r' hr' => ?_
            rcases List.mem_cons.mp hr' with rfl | hmem
            · exact hunrel
            · exact h r' hmem
        | @some rlen r' pre rest hl' hpre hmatch hne =>
            refine .some (show r :: l = (r :: pre) ++ _ by rw [hl']; rfl)
              (fun r'' hr'' => ?_) hmatch hne
            rcases List.mem_cons.mp hr'' with rfl | hmem
            · exact hunrel
            · exact hpre r'' hmem
      · rw [if_neg hno]
        exact .some (show r :: l = [] ++ _ from rfl) (by simp) hr hno

/-! ## The keys of a file -/

def rkKeys (defs : List RkDef) : List Wstr := defs.map RkDef.key

section Keys

variable {defs : List RkDef} {tbl : RkTable} (h : TableOf defs tbl) (hdefs : PlainDefs defs)
include h hdefs

theorem mem_tails_iff (code : UInt8) (t : Wstr) :
    t ∈ (tbl code).map RkTabl.tail ↔ code.toUInt16 :: t ∈ rkKeys defs := by
  rw [List.mem_map, rkKeys, List.mem_map]
  constructor
  · rintro ⟨r, hr, rfl⟩
    obtain ⟨d, rfl, rfl, hfind⟩ := (h.mem code r).mp hr
    have hmem := List.mem_of_find?_eq_some hfind
    have hd := hdefs d hmem
    exact ⟨d, hmem, by rw [RkDef.tail_entry hd.1 hd.2, RkDef.key]⟩
  · rintro ⟨d, hd, hkey⟩
    have hfound : (defs.find? fun d' => d'.key = d.key).isSome := by
      rw [List.find?_isSome]
      exact ⟨d, hd, by simp⟩
    obtain ⟨d', hfind⟩ := Option.isSome_iff_exists.mp hfound
    have hkey' : d'.key = d.key := by simpa using List.find?_some hfind
    have hd' := hdefs d' (List.mem_of_find?_eq_some hfind)
    have hcode : d'.code.toUInt16 :: d'.rkey.tail = code.toUInt16 :: t := hkey'.trans hkey
    rw [List.cons.injEq, ← UInt16.toNat_inj, UInt8.toNat_toUInt16, UInt8.toNat_toUInt16,
      UInt8.toNat_inj] at hcode
    refine ⟨d'.entry, (h.mem code _).mpr ⟨d', hcode.1, rfl, ?_⟩, ?_⟩
    · rw [find?_key_congr hkey']
      exact hfind
    · rw [RkDef.tail_entry hd'.1 hd'.2, hcode.2]

variable {code : UInt8} {x : Wstr}

/-- Behind a first character the keys that start with it are the ones of its list. -/
theorem open_cons_iff :
    Open (rkKeys defs) (code.toUInt16 :: x) ↔ Open ((tbl code).map RkTabl.tail) x := by
  constructor
  · rintro ⟨k, hk, hstart, hne⟩
    cases k with
    | nil => exact absurd (List.prefix_nil.mp hstart) (by simp)
    | cons a t =>
        obtain ⟨rfl, htail⟩ := List.cons_prefix_cons.mp hstart
        exact ⟨t, (mem_tails_iff h hdefs code t).mpr hk, htail,
          fun heq => hne (by rw [heq])⟩
  · rintro ⟨t, ht, hstart, hne⟩
    exact ⟨code.toUInt16 :: t, (mem_tails_iff h hdefs code t).mp ht,
      List.cons_prefix_cons.mpr ⟨rfl, hstart⟩, fun heq => hne (List.cons.inj heq).2⟩

theorem longest_cons {t : Wstr} (ht : Longest ((tbl code).map RkTabl.tail) x t) :
    Longest (rkKeys defs) (code.toUInt16 :: x) (code.toUInt16 :: t) := by
  refine ⟨(mem_tails_iff h hdefs code t).mp ht.mem,
    List.cons_prefix_cons.mpr ⟨rfl, ht.start⟩, ?_⟩
  intro k hk hstart
  cases k with
  | nil => exact List.nil_prefix
  | cons a t' =>
      obtain ⟨rfl, htail⟩ := List.cons_prefix_cons.mp hstart
      exact List.cons_prefix_cons.mpr
        ⟨rfl, ht.longest t' ((mem_tails_iff h hdefs code t').mpr hk) htail⟩

/-- The key of an entry leads to the first definition of it. -/
theorem entry_of_mem {r : RkTabl} (hr : r ∈ tbl code) :
    ∃ d, defs.find? (fun d' => d'.key = code.toUInt16 :: r.tail) = some d ∧ r = d.entry := by
  obtain ⟨d, rfl, rfl, hfind⟩ := (h.mem code r).mp hr
  have hd := hdefs d (List.mem_of_find?_eq_some hfind)
  refine ⟨d, ?_, rfl⟩
  rw [RkDef.tail_entry hd.1 hd.2]
  exact hfind

end Keys

/-! ## The conversion -/

/-- Wide characters right behind a key of more than one character keep it from matching. -/
def NoWideBehindKey (defs : List RkDef) (w : Wstr) : Prop :=
  ∀ k ∈ rkKeys defs, 1 < k.length → k <+: fold w → NarrowBehind w k.length

/-- What a key and its definition make of a pending string. -/
def rkConverted (w k : Wstr) (r : RkTabl) : Rkconv :=
  ⟨k.length, r.k_yomi,
    overlay r.remainder (w.drop (k.length - r.remainder.length)) ++ w.drop k.length⟩

/-- The answers of a conversion. -/
inductive Converts (defs : List RkDef) (junk : ℤ) (w : Wstr) : Rkconv → Prop where
  | cont (h : Open (rkKeys defs) (fold w)) : Converts defs junk w ⟨rkContinue, [], w⟩
  | whole {k : Wstr} {d : RkDef} (hopen : ¬ Open (rkKeys defs) (fold w))
      (h : Longest (rkKeys defs) (fold w) k)
      (hd : defs.find? (fun d' => d'.key = k) = some d) :
      Converts defs junk w (rkConverted w k d.entry)
  | passed (h : ∀ k ∈ rkKeys defs, ¬ Related k (fold w)) (hlen : w.length = 1) :
      Converts defs junk w ⟨1, w, []⟩
  | nomach (h : ∀ k ∈ rkKeys defs, ¬ Related k (fold w)) (hlen : 1 < w.length)
      (hfirst : ∃ k ∈ rkKeys defs, k.head? = (fold w).head?) :
      Converts defs junk w ⟨rkNomach, [], w⟩
  | undefined (h : ∀ k ∈ rkKeys defs, ¬ Related k (fold w)) (hlen : 1 < w.length)
      (hfirst : ∀ k ∈ rkKeys defs, k.head? ≠ (fold w).head?) :
      Converts defs junk w ⟨junk, [], w⟩

section Conversion

variable {defs : List RkDef} {tbl : RkTable}

theorem key_ne_nil {k : Wstr} (hk : k ∈ rkKeys defs) :
    ∃ code : UInt8, ∃ t, k = code.toUInt16 :: t := by
  obtain ⟨d, -, rfl⟩ := List.mem_map.mp hk
  exact ⟨d.code, d.rkey.tail, rfl⟩

/-- Keys with another first character are not related to a string. -/
theorem not_related_of_head {k w : Wstr} (hk : k ∈ rkKeys defs) (hw : w ≠ [])
    (hhead : k.head? ≠ w.head?) : ¬ Related k w := by
  obtain ⟨code, t, rfl⟩ := key_ne_nil hk
  cases w with
  | nil => exact absurd rfl hw
  | cons c w =>
      rintro (h | h)
      · exact hhead (by rw [(List.cons_prefix_cons.mp h).1]; rfl)
      · exact hhead (by rw [(List.cons_prefix_cons.mp h).1]; rfl)

/-- The keys that start with a character are related to a string behind it as their tails
are. -/
theorem unrelated_of_tails (h : TableOf defs tbl) (hdefs : PlainDefs defs) {code : UInt8}
    {x : Wstr} (htails : ∀ r ∈ tbl code, ¬ Related r.tail x) :
    ∀ k ∈ rkKeys defs, ¬ Related k (code.toUInt16 :: x) := by
  intro k hk
  obtain ⟨code', t, rfl⟩ := key_ne_nil hk
  by_cases heq : code'.toUInt16 = code.toUInt16
  · rw [heq] at hk ⊢
    obtain ⟨r, hr, rfl⟩ := List.mem_map.mp ((mem_tails_iff h hdefs code t).mpr hk)
    rw [related_cons]
    exact htails r hr
  · exact not_related_of_head hk (by simp) (by simpa using heq)

/-- The conversion with the entry that a search has found. -/
theorem converts_found (h : TableOf defs tbl) (hdefs : PlainDefs defs) (junk : ℤ) {c : UInt16}
    {s : Wstr} {code : UInt8} (hfold : fold (c :: s) = code.toUInt16 :: fold s)
    {rlen : ℤ} {r : RkTabl} {pre rest : List RkTabl} (hl : tbl code = pre ++ r :: rest)
    (hpre : ∀ r' ∈ pre, ¬ Related r'.tail (fold s)) (hmatch : Matches s r.tail 1 rlen)
    (hne : rlen ≠ rkNomach) :
    Converts defs junk (c :: s)
      (if rlen = rkContinue then ⟨rlen, [], c :: s⟩
      else
        ⟨rlen, r.k_yomi, overlay r.remainder ((c :: s).drop (rlen.toNat - r.remainder.length)) ++
          if rlen < (c :: s).length then (c :: s).drop rlen.toNat else []⟩) := by
  have hmem : r ∈ tbl code := by
    rw [hl]
    simp
  have htails : (tbl code).map RkTabl.tail =
      pre.map RkTabl.tail ++ r.tail :: rest.map RkTabl.tail := by
    rw [hl, List.map_append, List.map_cons]
  have hord := (h.order code).ordered
  rw [htails] at hord
  have hpre' : ∀ k ∈ pre.map RkTabl.tail, ¬ Related k (fold s) := by
    intro k hk
    obtain ⟨r', hr', rfl⟩ := List.mem_map.mp hk
    exact hpre r' hr'
  cases hmatch with
  | cont hstart hneq =>
      rw [if_pos rfl]
      refine .cont ?_
      rw [hfold, open_cons_iff h hdefs, htails]
      exact (hord.open_iff hpre' (Or.inr hstart)).mpr ⟨hstart, hneq⟩
  | nomach => exact absurd rfl hne
  | whole hstart =>
      obtain ⟨d, hd, hentry⟩ := entry_of_mem h hdefs hmem
      have hopen : ¬ Open (rkKeys defs) (fold (c :: s)) := by
        rw [hfold, open_cons_iff h hdefs, htails, hord.open_iff hpre' (Or.inl hstart)]
        rintro ⟨hback, hneq⟩
        exact hneq (hback.eq_of_length (le_antisymm hback.length_le hstart.length_le))
      have hlongest : Longest (rkKeys defs) (fold (c :: s)) (code.toUInt16 :: r.tail) := by
        rw [hfold]
        apply longest_cons h hdefs
        rw [htails]
        exact hord.longest hpre' hstart
      have hres : Converts defs junk (c :: s) _ := .whole hopen hlongest hd
      rw [rkConverted, ← hentry] at hres
      have hlen : 1 + (r.tail.length : ℤ) = ((code.toUInt16 :: r.tail).length : ℤ) := by
        rw [List.length_cons]
        omega
      rw [if_neg (by rw [rkContinue]; omega), hlen, Int.toNat_natCast]
      have hdrop : (if ((code.toUInt16 :: r.tail).length : ℤ) < (c :: s).length then
          (c :: s).drop (code.toUInt16 :: r.tail).length else []) =
          (c :: s).drop (code.toUInt16 :: r.tail).length := by
        split
        · rfl
        · exact (List.drop_eq_nil_of_le (by omega)).symm
      rw [hdrop]
      exact hres

theorem rkconvW16_spec (h : TableOf defs tbl) (hdefs : PlainDefs defs) (junk : ℤ) {w : Wstr}
    (hw : 0 ∉ w) (hne : w ≠ []) (hwide : NoWideBehindKey defs w) :
    Converts defs junk w (rkconvW16 tbl junk w) := by
  cases w with
  | nil => exact absurd rfl hne
  | cons c s =>
      rw [List.mem_cons, not_or] at hw
      rw [rkconvW16, rkHeadNarrow, List.headD_cons]
      by_cases hc : c > 0xff
      · -- no key starts with a wide character
        have hfirst : ∀ k ∈ rkKeys defs, k.head? ≠ (fold (c :: s)).head? := by
          intro k hk heq
          obtain ⟨d, hd, rfl⟩ := List.mem_map.mp hk
          have hcode : d.code.toUInt16 = 0 := by
            simpa [RkDef.key, fold, foldChar, hc] using heq
          exact (hdefs d hd).2 (by rw [RkDef.key, hcode]; exact List.mem_cons_self)
        have hunrel : ∀ k ∈ rkKeys defs, ¬ Related k (fold (c :: s)) :=
          fun k hk => not_related_of_head hk (by simp [fold]) (hfirst k hk)
        rw [if_pos hc, rkSearch]
        dsimp only
        split
        · rename_i hlen
          refine .passed hunrel ?_
          rw [List.length_cons] at hlen ⊢
          omega
        · rename_i hlen
          rw [if_pos rfl]
          exact .undefined hunrel (by omega) hfirst
      · have hcode := toUInt16_toUInt8_wtoupper hc
        have hhead : rkHead tbl (c :: s) = tbl (wtoupper c).toUInt8 := rfl
        generalize (wtoupper c).toUInt8 = code at hcode hhead
        have hfold : fold (c :: s) = code.toUInt16 :: fold s := by
          rw [fold, List.map_cons, foldChar, if_neg hc, hcode]
          rfl
        have hnarrow : ∀ r ∈ tbl code, r.tail ≠ [] → r.tail <+: fold s →
            NarrowBehind s r.tail.length := by
          intro r hr hnil hstart
          have hkey := (mem_tails_iff h hdefs code r.tail).mp (List.mem_map_of_mem hr)
          apply narrowBehind_cons.mp
          refine hwide _ hkey ?_ ?_
          · rw [List.length_cons]
            exact Nat.succ_lt_succ (List.length_pos_of_ne_nil hnil)
          · rw [hfold]
            exact List.cons_prefix_cons.mpr ⟨rfl, hstart⟩
        have hfinds := rkSearch_spec (c := c) hw.2 (h.plain hdefs code) hnarrow
        rw [if_neg hc, hhead]
        generalize rkSearch (c :: s) (tbl code) = found at hfinds
        cases hfinds with
        | none hnone =>
            have hunrel := unrelated_of_tails h hdefs hnone
            rw [← hfold] at hunrel
            dsimp only
            split
            · rename_i hlen
              refine .passed hunrel ?_
              rw [List.length_cons] at hlen ⊢
              omega
            · rename_i hlen
              cases hl : tbl code with
              | nil =>
                  rw [if_pos rfl]
                  refine .undefined hunrel (by omega) ?_
                  intro k hk heq
                  obtain ⟨code', t, rfl⟩ := key_ne_nil hk
                  rw [hfold, List.head?_cons, List.head?_cons, Option.some_inj] at heq
                  rw [heq] at hk
                  have hmem := (mem_tails_iff h hdefs code t).mpr hk
                  rw [hl] at hmem
                  exact absurd hmem (by simp)
              | cons r l =>
                  rw [if_neg (by simp)]
                  refine .nomach hunrel (by omega) ⟨code.toUInt16 :: r.tail, ?_, ?_⟩
                  · exact (mem_tails_iff h hdefs code r.tail).mp
                      (List.mem_map_of_mem (by rw [hl]; exact List.mem_cons_self))
                  · rw [hfold, List.head?_cons, List.head?_cons]
        | some hl hpre hmatch hno =>
            exact converts_found h hdefs junk hfold hl hpre hmatch hno

end Conversion

/-! ## Which answer is given -/

section Answer

variable {defs : List RkDef} {junk : ℤ} {w : Wstr}

theorem not_open_of_unrelated (h : ∀ k ∈ rkKeys defs, ¬ Related k w) :
    ¬ Open (rkKeys defs) w := by
  rintro ⟨k, hk, hstart, -⟩
  exact h k hk (Or.inr hstart)

theorem not_longest_of_unrelated (h : ∀ k ∈ rkKeys defs, ¬ Related k w) (k : Wstr) :
    ¬ Longest (rkKeys defs) w k :=
  fun hk => h k hk.mem (Or.inl hk.start)

/-- There is one answer only. -/
theorem Converts.unique {r r' : Rkconv} (h : Converts defs junk w r)
    (h' : Converts defs junk w r') : r = r' := by
  cases h with
  | cont hopen =>
      cases h' with
      | cont => rfl
      | whole hno => exact absurd hopen hno
      | passed hno => exact absurd hopen (not_open_of_unrelated hno)
      | nomach hno => exact absurd hopen (not_open_of_unrelated hno)
      | undefined hno => exact absurd hopen (not_open_of_unrelated hno)
  | whole hno hk hd =>
      cases h' with
      | cont hopen => exact absurd hopen hno
      | whole _ hk' hd' =>
          rw [hk.unique hk', hd', Option.some_inj] at hd
          rw [hk.unique hk', hd]
      | passed hno' => exact absurd hk (not_longest_of_unrelated hno' _)
      | nomach hno' => exact absurd hk (not_longest_of_unrelated hno' _)
      | undefined hno' => exact absurd hk (not_longest_of_unrelated hno' _)
  | passed hno hlen =>
      cases h' with
      | cont hopen => exact absurd hopen (not_open_of_unrelated hno)
      | whole _ hk => exact absurd hk (not_longest_of_unrelated hno _)
      | passed => rfl
      | nomach _ hlen' => omega
      | undefined _ hlen' => omega
  | nomach hno hlen hfirst =>
      cases h' with
      | cont hopen => exact absurd hopen (not_open_of_unrelated hno)
      | whole _ hk => exact absurd hk (not_longest_of_unrelated hno _)
      | passed _ hlen' => omega
      | nomach => rfl
      | undefined _ _ hfirst' =>
          obtain ⟨k, hk, hhead⟩ := hfirst
          exact absurd hhead (hfirst' k hk)
  | undefined hno hlen hfirst =>
      cases h' with
      | cont hopen => exact absurd hopen (not_open_of_unrelated hno)
      | whole _ hk => exact absurd hk (not_longest_of_unrelated hno _)
      | passed _ hlen' => omega
      | nomach _ _ hfirst' =>
          obtain ⟨k, hk, hhead⟩ := hfirst'
          exact absurd hhead (hfirst k hk)
      | undefined => rfl

/-- Definitions with different keys may stand in any order. -/
theorem Converts.perm {defs' : List RkDef} (hperm : defs.Perm defs')
    (hnodup : (rkKeys defs).Nodup) {r : Rkconv} (h : Converts defs junk w r) :
    Converts defs' junk w r := by
  have hmem : ∀ k, k ∈ rkKeys defs ↔ k ∈ rkKeys defs' :=
    fun k => (hperm.map RkDef.key).mem_iff
  have hall : ∀ {p : Wstr → Prop}, (∀ k ∈ rkKeys defs, p k) → ∀ k ∈ rkKeys defs', p k :=
    fun hp k hk => hp k ((hmem k).mpr hk)
  have hopen : Open (rkKeys defs) (fold w) ↔ Open (rkKeys defs') (fold w) := by
    simp only [Open, hmem]
  cases h with
  | cont h => exact .cont (hopen.mp h)
  | @whole k d hno hk hd =>
      refine .whole (fun h => hno (hopen.mpr h)) (hk.congr hmem) ?_
      have hdkey : d.key = k := by simpa using List.find?_some hd
      have hfound : (defs'.find? fun d' => d'.key = k).isSome := by
        rw [List.find?_isSome]
        exact ⟨d, hperm.mem_iff.mp (List.mem_of_find?_eq_some hd), by simp [hdkey]⟩
      obtain ⟨d', hd'⟩ := Option.isSome_iff_exists.mp hfound
      have hdkey' : d'.key = k := by simpa using List.find?_some hd'
      -- with different keys the definition is the same one
      have hsame : d' = d :=
        List.inj_on_of_nodup_map hnodup
          (hperm.mem_iff.mpr (List.mem_of_find?_eq_some hd'))
          (List.mem_of_find?_eq_some hd) (hdkey'.trans hdkey.symm)
      rw [hd', hsame]
  | passed h hlen => exact .passed (hall h) hlen
  | nomach h hlen hfirst =>
      obtain ⟨k, hk, hhead⟩ := hfirst
      exact .nomach (hall h) hlen ⟨k, (hmem k).mp hk, hhead⟩
  | undefined h hlen hfirst => exact .undefined (hall h) hlen (hall hfirst)

end Answer

/-! ## Definition files -/

theorem plainDefs_rkDefs {file_code : FileCode} {file : Bytes}
    (hnul : ∀ d ∈ rkDefs file_code file, 0 ∉ d.key) : PlainDefs (rkDefs file_code file) :=
  fun d hd => ⟨(rkDefs_accepted file_code file d hd).rkey, hnul d hd⟩

theorem converts_rkinit {file_code : FileCode} {file : Bytes}
    (hnul : ∀ d ∈ rkDefs file_code file, 0 ∉ d.key) (junk : ℤ) {w : Wstr} (hw : 0 ∉ w)
    (hne : w ≠ []) (hwide : NoWideBehindKey (rkDefs file_code file) w) :
    Converts (rkDefs file_code file) junk w (rkconvW16 (rkinit file_code file) junk w) :=
  rkconvW16_spec (tableOf_foldl (plainDefs_rkDefs hnul)) (plainDefs_rkDefs hnul) junk hw hne hwide

/-- A conversion goes by the longest key, whatever the order of the definitions. It goes on
exactly in front of a longer key; without a key a single character is passed on and nothing
else matches. -/
theorem rkconvW16_longest_match (file_code : FileCode) (file : Bytes) (junk : ℤ) (w : Wstr)
    (hnul : ∀ d ∈ rkDefs file_code file, 0 ∉ d.key) (hw : 0 ∉ w) (hne : w ≠ [])
    (hwide : NoWideBehindKey (rkDefs file_code file) w)
    (hfirst : 1 < w.length →
      ∃ k ∈ rkKeys (rkDefs file_code file), k.head? = (fold w).head?) :
    ((rkconvW16 (rkinit file_code file) junk w).rlen = rkContinue ↔
        Open (rkKeys (rkDefs file_code file)) (fold w)) ∧
      (Open (rkKeys (rkDefs file_code file)) (fold w) →
        rkconvW16 (rkinit file_code file) junk w = ⟨rkContinue, [], w⟩) ∧
      (¬ Open (rkKeys (rkDefs file_code file)) (fold w) → ∀ k d,
        Longest (rkKeys (rkDefs file_code file)) (fold w) k →
        (rkDefs file_code file).find? (fun d' => d'.key = k) = some d →
        rkconvW16 (rkinit file_code file) junk w = rkConverted w k d.entry) ∧
      ((rkconvW16 (rkinit file_code file) junk w).rlen = rkNomach ↔
        1 < w.length ∧ ∀ k ∈ rkKeys (rkDefs file_code file), ¬ Related k (fold w)) ∧
      ((∀ k ∈ rkKeys (rkDefs file_code file), ¬ Related k (fold w)) → w.length = 1 →
        rkconvW16 (rkinit file_code file) junk w = ⟨1, w, []⟩) ∧
      ∀ file_code' file', (rkDefs file_code' file').Perm (rkDefs file_code file) →
        (rkKeys (rkDefs file_code file)).Nodup →
        rkconvW16 (rkinit file_code' file') junk w =
          rkconvW16 (rkinit file_code file) junk w := by
  have hconv := converts_rkinit hnul junk hw hne hwide
  refine ⟨?_, fun hopen => hconv.unique (.cont hopen),
    fun hno k d hk hd => hconv.unique (.whole hno hk hd), ?_,
    fun hno hlen => hconv.unique (.passed hno hlen), ?_⟩
  · generalize rkconvW16 (rkinit file_code file) junk w = r at hconv
    cases hconv with
    | cont hopen => exact iff_of_true rfl hopen
    | whole hno hk =>
        refine iff_of_false ?_ hno
        obtain ⟨code, t, rfl⟩ := key_ne_nil hk.mem
        intro hzero
        have hlen : ((code.toUInt16 :: t).length : ℤ) = 0 := hzero
        rw [List.length_cons] at hlen
        omega
    | passed hno =>
        exact iff_of_false (show ¬ (1 : ℤ) = 0 by decide) (not_open_of_unrelated hno)
    | nomach hno =>
        exact iff_of_false (show ¬ rkNomach = 0 by decide) (not_open_of_unrelated hno)
    | undefined _ hlen hnofirst =>
        obtain ⟨k, hk, hhead⟩ := hfirst hlen
        exact absurd hhead (hnofirst k hk)
  · generalize rkconvW16 (rkinit file_code file) junk w = r at hconv
    cases hconv with
    | cont hopen =>
        exact iff_of_false (show ¬ rkContinue = -1 by decide)
          fun h => not_open_of_unrelated h.2 hopen
    | @whole k _ _ hk =>
        refine iff_of_false ?_ fun h => not_longest_of_unrelated h.2 _ hk
        intro hneg
        have hlen : (k.length : ℤ) = -1 := hneg
        omega
    | passed _ hlen =>
        exact iff_of_false (show ¬ (1 : ℤ) = -1 by decide) fun h => by omega
    | nomach hno hlen => exact iff_of_true rfl ⟨hlen, hno⟩
    | undefined _ hlen hnofirst =>
        obtain ⟨k, hk, hhead⟩ := hfirst hlen
        exact absurd hhead (hnofirst k hk)
  · intro file_code' file' hperm hnodup
    have hnul' : ∀ d ∈ rkDefs file_code' file', 0 ∉ d.key :=
      fun d hd => hnul d (hperm.mem_iff.mp hd)
    have hwide' : NoWideBehindKey (rkDefs file_code' file') w :=
      fun k hk => hwide k ((hperm.map RkDef.key).mem_iff.mp hk)
    have hconv' := converts_rkinit hnul' junk hw hne hwide'
    exact (hconv.unique (hconv'.perm hperm ((hperm.map RkDef.key).nodup_iff.mpr hnodup))).symm

/-- The lines `NA x` and `N y`. -/
def sampleRkfile : Bytes := [0x4e, 0x41, 0x20, 0x78, 0x0a, 0x4e, 0x20, 0x79, 0x0a]

/-- The same lines in the other order. -/
def sampleRkfile' : Bytes := [0x4e, 0x20, 0x79, 0x0a, 0x4e, 0x41, 0x20, 0x78, 0x0a]

/-- Of `nab` the key `NA` is converted, though `N` is one too, in either order. -/
theorem rkconvW16_longest_match_sample :
    rkconvW16 (rkinit .no sampleRkfile) 0 [0x6e, 0x61, 0x62] = ⟨2, [0x78], [0x62]⟩ ∧
      rkconvW16 (rkinit .no sampleRkfile') 0 [0x6e, 0x61, 0x62] =
        rkconvW16 (rkinit .no sampleRkfile) 0 [0x6e, 0x61, 0x62] := by
  have hkeys : rkKeys (rkDefs .no sampleRkfile) = [[0x4e, 0x41], [0x4e]] := by decide +kernel
  have hfold : fold [0x6e, 0x61, 0x62] = [0x4e, 0x41, 0x42] := by decide
  have hwide : NoWideBehindKey (rkDefs .no sampleRkfile) [0x6e, 0x61, 0x62] := by
    intro k hk hlen _
    rw [hkeys, List.mem_pair] at hk
    rcases hk with rfl | rfl
    · intro c hc
      obtain rfl : 0x62 = c := Option.some.inj hc
      decide
    · exact absurd hlen (by decide)
  have hlongest : Longest (rkKeys (rkDefs .no sampleRkfile)) (fold [0x6e, 0x61, 0x62])
      [0x4e, 0x41] := by
    rw [hkeys, hfold]
    exact ⟨by decide, by decide, by decide⟩
  have hclosed : ¬ Open (rkKeys (rkDefs .no sampleRkfile)) (fold [0x6e, 0x61, 0x62]) := by
    rw [hkeys, hfold, Open]
    decide
  have h := rkconvW16_longest_match .no sampleRkfile 0 [0x6e, 0x61, 0x62] (by decide +kernel)
    (by decide) (by decide) hwide
    (fun _ => ⟨[0x4e], by rw [hkeys]; decide, by decide⟩)
  obtain ⟨-, -, hwhole, -, -, hperm⟩ := h
  exact ⟨hwhole hclosed [0x4e, 0x41] ⟨[0x4e, 0x41], [0x78], []⟩ hlongest (by decide +kernel),
    hperm .no sampleRkfile' (by decide +kernel) (by decide +kernel)⟩

/-- Without any definition the character `A` is passed on as it is. -/
theorem rkconvW16_not_longest_match :
    ¬ ∀ file_code file junk w, 0 ∉ w →
      ((rkconvW16 (rkinit file_code file) junk w).rlen = rkNomach ↔
        ¬ Open (rkKeys (rkDefs file_code file)) (fold w) ∧
          ∀ k ∈ rkKeys (rkDefs file_code file), ¬ k <+: fold w) := by
  intro h
  have hbad := h .no [] 0 [0x41] (by decide)
  have hpassed : (rkconvW16 (rkinit .no []) 0 [0x41]).rlen = 1 := by decide
  rw [hpassed] at hbad
  have hno : rkKeys (rkDefs .no []) = [] := rfl
  rw [hno] at hbad
  have hbad' := hbad.mpr ⟨fun ⟨k, hk, _⟩ => by simp at hk, by simp⟩
  exact absurd hbad' (by decide)

end Sj3
