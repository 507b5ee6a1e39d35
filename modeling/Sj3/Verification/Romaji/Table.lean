import Sj3.Verification.Romaji.Match

/-! # The table of a definition file

Every list of the table has its keys in an order in which no key stands in front of a longer
one that it starts. -/

namespace Sj3

open FirstMatch PrefixFree

/-- The key behind its first character. -/
def RkTabl.tail (r : RkTabl) : Wstr := r.r_key.getD []

/-- The key of a definition: of the first character only the low byte counts. -/
def RkDef.key (d : RkDef) : Wstr := d.code.toUInt16 :: d.rkey.tail

/-- The entries of keys without NUL characters. -/
structure RkTabl.Plain (r : RkTabl) : Prop where
  nul : 0 ∉ r.tail
  none_of_nil : r.tail = [] → r.r_key = none

theorem RkTabl.r_key_eq {r : RkTabl} (hne : r.tail ≠ []) :
    r.r_key = some r.tail := by
  cases hk : r.r_key with
  | none => exact absurd (by rw [RkTabl.tail, hk]; rfl) hne
  | some k => rw [RkTabl.tail, hk]; rfl

theorem wstr_eq {s : Wstr} (h : 0 ∉ s) : wstr s = s := by
  induction s with
  | nil => rfl
  | cons c s ih =>
      rw [List.mem_cons, not_or] at h
      have hrest := ih h.2
      rw [wstr] at hrest ⊢
      rw [List.takeWhile_cons, if_pos (by simpa using Ne.symm h.1), hrest]

theorem RkDef.tail_entry {d : RkDef} (hread : d.rkey ≠ []) (hnul : 0 ∉ d.key) :
    d.entry.tail = d.rkey.tail := by
  rw [RkDef.key, List.mem_cons, not_or] at hnul
  rw [RkTabl.tail, RkDef.entry, stradd]
  cases h : d.rkey with
  | nil => exact absurd h hread
  | cons c t =>
      rw [h, List.tail_cons] at hnul
      rw [List.length_cons, List.tail_cons, wstr_eq hnul.2]
      split
      · have hlen : t.length = 0 := by omega
        exact (List.length_eq_zero_iff.mp hlen).symm
      · rfl

theorem RkDef.plain_entry {d : RkDef} (hread : d.rkey ≠ []) (hnul : 0 ∉ d.key) :
    d.entry.Plain := by
  have htail := RkDef.tail_entry hread hnul
  rw [RkDef.key, List.mem_cons, not_or] at hnul
  refine ⟨?_, ?_⟩
  · rw [htail]
    exact hnul.2
  · intro hnil
    rw [htail] at hnil
    rw [RkDef.entry, stradd, if_pos]
    have hlen := congrArg List.length hnil
    rw [List.length_tail, List.length_nil] at hlen
    omega

/-! ## Insertion -/

/-- A turn of the search for the place of a key. -/
theorem mktable_cons {key : Wstr} (hkey : 0 ∉ key) {r : RkTabl} (hr : r.Plain) (e : RkTabl)
    (l : List RkTabl) :
    mktable key (key.length + 1) e (r :: l) =
      if key = r.tail then r :: l
      else if r.tail < key ∧ r.tail.length ≤ key.length then e :: r :: l
      else r :: mktable key (key.length + 1) e l := by
  rw [mktable]
  by_cases hnil : r.tail = []
  · rw [hr.none_of_nil hnil, hnil]
    dsimp only
    by_cases hk : key = []
    · rw [if_pos hk, if_pos hk]
    · have hlt : ([] : Wstr) < key := lt_of_prefix List.nil_prefix (Ne.symm hk)
      rw [if_neg hk, if_neg hk, if_pos ⟨hlt, Nat.zero_le _⟩]
  · have hcmp := wscmp_spec hkey hr.nul
    rw [RkTabl.r_key_eq hnil]
    dsimp only
    by_cases heq : key = r.tail
    · rw [if_pos (hcmp.1.mpr heq), if_pos heq]
    · rw [if_neg (fun h => heq (hcmp.1.mp h)), if_neg heq]
      by_cases hlt : r.tail < key ∧ r.tail.length ≤ key.length
      · rw [if_pos ⟨hcmp.2.mpr hlt.1, Nat.lt_succ_of_le hlt.2⟩, if_pos hlt]
      · rw [if_neg (fun h => hlt ⟨hcmp.2.mp h.1, Nat.le_of_lt_succ h.2⟩), if_neg hlt]

section Mktable

variable {key : Wstr} {e : RkTabl} (hkey : 0 ∉ key) {l : List RkTabl}
  (hl : ∀ r ∈ l, r.Plain)
include hkey hl

/-- The place of a new key is the one at which the keys stay in order. -/
theorem map_tail_mktable (he : e.tail = key) :
    (mktable key (key.length + 1) e l).map RkTabl.tail =
      insertKey key (l.map RkTabl.tail) := by
  induction l with
  | nil => simp [mktable, insertKey, he]
  | cons r l ih =>
      have hrec := ih fun r' hr' => hl r' (List.mem_cons_of_mem r hr')
      rw [mktable_cons hkey (hl r List.mem_cons_self), List.map_cons, insertKey]
      split
      · rw [List.map_cons]
      · split
        · rw [List.map_cons, List.map_cons, he]
        · rw [List.map_cons, hrec]

/-- A key that is there already stays with its entry. -/
theorem mem_mktable (hord : Descending (l.map RkTabl.tail)) (r : RkTabl) :
    r ∈ mktable key (key.length + 1) e l ↔
      r ∈ l ∨ (r = e ∧ key ∉ l.map RkTabl.tail) := by
  induction l with
  | nil => simp [mktable]
  | cons r' l ih =>
      have hrec := ih (fun r'' hr'' => hl r'' (List.mem_cons_of_mem r' hr'')) hord.of_cons
      rw [mktable_cons hkey (hl r' List.mem_cons_self)]
      split
      · rename_i heq
        simp [heq]
      · rename_i hne
        split
        · rename_i hlt
          have hnew : key ∉ (r' :: l).map RkTabl.tail := by
            rw [List.map_cons, List.mem_cons, not_or]
            exact ⟨hne, fun hmem => hord.not_before hmem hlt⟩
          rw [List.mem_cons, and_iff_left hnew, or_comm]
        · rw [List.mem_cons, hrec, List.mem_cons, List.map_cons, List.mem_cons, not_or,
            and_iff_right hne, or_assoc]

end Mktable

/-! ## The whole file -/

/-- Nothing but the first definition of each key is in the table. -/
structure TableOf (defs : List RkDef) (tbl : RkTable) : Prop where
  order : ∀ code, Descending ((tbl code).map RkTabl.tail)
  mem : ∀ code r, r ∈ tbl code ↔ ∃ d, d.code = code ∧ r = d.entry ∧
    defs.find? (fun d' => d'.key = d.key) = some d

/-- Definitions without NUL characters in their keys, as the reader returns them. -/
def PlainDefs (defs : List RkDef) : Prop := ∀ d ∈ defs, d.rkey ≠ [] ∧ 0 ∉ d.key

theorem TableOf.plain {defs : List RkDef} {tbl : RkTable} (h : TableOf defs tbl)
    (hdefs : PlainDefs defs) (code : UInt8) : ∀ r ∈ tbl code, r.Plain := by
  intro r hr
  obtain ⟨d, -, rfl, hfind⟩ := (h.mem code r).mp hr
  have hd := hdefs d (List.mem_of_find?_eq_some hfind)
  exact RkDef.plain_entry hd.1 hd.2

theorem tableOf_nil : TableOf [] fun _ => [] :=
  ⟨fun _ => List.Pairwise.nil, fun _ _ => by simp⟩

theorem RkDef.key_eq_iff {d d' : RkDef} :
    d.key = d'.key ↔ d.code = d'.code ∧ d.rkey.tail = d'.rkey.tail := by
  rw [RkDef.key, RkDef.key, List.cons.injEq, ← UInt16.toNat_inj, UInt8.toNat_toUInt16,
    UInt8.toNat_toUInt16, UInt8.toNat_inj]

/-- A definition with the key of `d` that is found for its own key is found for `d`. -/
theorem find?_key_congr {defs : List RkDef} {d d' : RkDef} (h : d.key = d'.key) :
    defs.find? (fun d'' => d''.key = d.key) = defs.find? (fun d'' => d''.key = d'.key) := by
  rw [h]

section AddDef

variable {defs : List RkDef} {tbl : RkTable} {d : RkDef}

/-- A key that is not in its list has not been defined before. -/
theorem TableOf.notMem_iff (h : TableOf defs tbl) (hdefs : PlainDefs defs) :
    d.rkey.tail ∉ (tbl d.code).map RkTabl.tail ↔
      defs.find? (fun d' => d'.key = d.key) = none := by
  rw [← not_iff_not, not_not, List.mem_map]
  constructor
  · rintro ⟨r, hr, htail⟩ hnone
    obtain ⟨d', hcode, rfl, hfind⟩ := (h.mem d.code r).mp hr
    have hd' := hdefs d' (List.mem_of_find?_eq_some hfind)
    rw [RkDef.tail_entry hd'.1 hd'.2] at htail
    rw [find?_key_congr (RkDef.key_eq_iff.mpr ⟨hcode, htail⟩), hnone] at hfind
    exact absurd hfind (by simp)
  · intro hsome
    obtain ⟨d', hfind⟩ := Option.ne_none_iff_exists'.mp hsome
    have hkey : d'.key = d.key := by simpa using List.find?_some hfind
    have hd' := hdefs d' (List.mem_of_find?_eq_some hfind)
    obtain ⟨hcode, htail⟩ := RkDef.key_eq_iff.mp hkey
    refine ⟨d'.entry, (h.mem d.code _).mpr ⟨d', hcode, rfl, ?_⟩, ?_⟩
    · rw [find?_key_congr hkey]
      exact hfind
    · rw [RkDef.tail_entry hd'.1 hd'.2, htail]

theorem length_eq_length_tail_add_one {s : Wstr} (h : s ≠ []) :
    s.length = s.tail.length + 1 := by
  cases s with
  | nil => exact absurd rfl h
  | cons c s => rfl

/-- A further line. -/
theorem TableOf.addDef (h : TableOf defs tbl) (hdefs : PlainDefs (defs ++ [d])) :
    TableOf (defs ++ [d]) (addDef tbl d) := by
  have hold : PlainDefs defs := fun d' hd' => hdefs d' (List.mem_append_left _ hd')
  obtain ⟨hne, hnul⟩ := hdefs d (by simp)
  have hkey : 0 ∉ d.rkey.tail := fun h0 => hnul (List.mem_cons_of_mem _ h0)
  have htail := RkDef.tail_entry hne hnul
  have hlen := length_eq_length_tail_add_one hne
  constructor
  · intro code
    rw [Sj3.addDef]
    split
    · rename_i hcode
      rw [wstr_eq hkey, hlen, map_tail_mktable hkey (h.plain hold code) htail]
      exact (h.order code).insertKey _
    · exact h.order code
  · intro code r
    rw [Sj3.addDef]
    split
    · rename_i hcode
      subst hcode
      rw [wstr_eq hkey, hlen, mem_mktable hkey (h.plain hold d.code) (h.order d.code),
        h.notMem_iff hold, h.mem]
      constructor
      · rintro (⟨d', hcode, hr, hfind⟩ | ⟨hr, hnone⟩)
        · exact ⟨d', hcode, hr, by rw [List.find?_append, hfind]; rfl⟩
        · exact ⟨d, rfl, hr, by rw [List.find?_append, hnone]; simp⟩
      · rintro ⟨d', hcode, hr, hfind⟩
        rw [List.find?_append] at hfind
        cases hf : defs.find? (fun d'' => d''.key = d'.key) with
        | some d'' =>
            rw [hf] at hfind
            exact Or.inl ⟨d', hcode, hr, by rw [hf]; exact hfind⟩
        | none =>
            rw [hf] at hfind
            have heq : d.key = d'.key ∧ d = d' := by simpa using hfind
            obtain ⟨-, rfl⟩ := heq
            exact Or.inr ⟨hr, hf⟩
    · rename_i hcode
      rw [h.mem]
      constructor
      · rintro ⟨d', hcode', hr, hfind⟩
        exact ⟨d', hcode', hr, by rw [List.find?_append, hfind]; rfl⟩
      · rintro ⟨d', hcode', hr, hfind⟩
        refine ⟨d', hcode', hr, ?_⟩
        have hother : ¬ d.key = d'.key := fun heq =>
          hcode (hcode'.symm.trans (RkDef.key_eq_iff.mp heq).1.symm)
        simpa [List.find?_append, hother] using hfind

end AddDef

/-- The table of any list of definitions, by adding one after the other. -/
theorem tableOf_foldl {defs : List RkDef} (hdefs : PlainDefs defs) :
    TableOf defs (defs.foldl addDef fun _ => []) := by
  induction defs using List.reverseRecOn with
  | nil => exact tableOf_nil
  | append_singleton defs d ih =>
      rw [List.foldl_append]
      exact (ih fun d' hd' => hdefs d' (List.mem_append_left _ hd')).addDef hdefs

end Sj3
