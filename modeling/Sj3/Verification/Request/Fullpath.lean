import Sj3.General.Pathname
import Sj3.Model.Fullpath
import Sj3.Verification.Text

/-! # File names stay inside the dictionary directory -/

namespace Sj3

open Buffer Pathname

/-! ## The C library -/

theorem strtokAll_eq_from (index p : Bytes) :
    strtokAll slash index p = componentsFrom slash index (cstr p) := by
  induction p generalizing index with
  | nil => rfl
  | cons c p ih =>
      rw [strtokAll]
      by_cases hc : c = 0
      · rw [if_pos hc, hc]
        rfl
      · rw [if_neg hc, cstr_cons hc, componentsFrom, ih, ih]

theorem strtokAll_eq (p : Bytes) : strtokAll slash [] p = components slash (cstr p) :=
  strtokAll_eq_from [] p

/-- Up to the end of a string the comparison asks whether it is in front. -/
theorem strncmp_eq_zero_iff (p q : Bytes) :
    strncmp p q (sstrlen q) = 0 ↔ cstr q <+: cstr p := by
  induction q generalizing p with
  | nil => simp [sstrlen, strncmp, cstr]
  | cons d q ih =>
      by_cases hd : d = 0
      · simp [sstrlen, strncmp, cstr, hd]
      · rw [sstrlen, if_neg hd, cstr_cons hd, strncmp, List.headD_cons, List.tail_cons]
        by_cases hpd : p.headD 0 = d
        · cases p with
          | nil => exact absurd hpd.symm hd
          | cons c p =>
              obtain rfl : c = d := hpd
              rw [List.headD_cons, List.tail_cons, if_neg (by simp [hd]), ih, cstr_cons hd,
                List.cons_prefix_cons]
              simp
        · rw [if_pos (Or.inl hpd)]
          refine iff_of_false ?_ ?_
          · rw [sub_eq_zero, Nat.cast_inj, UInt8.toNat_inj]
            exact hpd
          · intro hpre
            rw [headD_eq_cstr] at hpd
            obtain ⟨t, ht⟩ := hpre
            rw [← ht] at hpd
            exact hpd rfl

theorem zero_mem_take {s : Bytes} {n : ℕ} (h : s.length < n) (rest : Bytes) :
    0 ∈ (s ++ 0 :: rest).take n := by
  obtain ⟨k, rfl⟩ := Nat.exists_eq_add_of_lt h
  rw [Nat.add_assoc, List.take_length_add_append, List.take_succ_cons]
  simp

theorem take_sstrlen (p : Bytes) : p.take (sstrlen p) = cstr p := by
  induction p with
  | nil => rfl
  | cons c p ih =>
      by_cases hc : c = 0
      · simp [sstrlen, cstr, hc]
      · rw [sstrlen, if_neg hc, cstr_cons hc, List.take_succ_cons, ih]

/-- A string written over the end of another one is appended to it. -/
theorem cstr_overwrite (p : Bytes) {w : Bytes} (hw : 0 ∉ w) :
    cstr (overwrite p (sstrlen p) (w ++ [0])) = cstr p ++ w := by
  have hfree : 0 ∉ cstr p ++ w := by
    rw [List.mem_append, not_or]
    exact ⟨zero_notMem_cstr p, hw⟩
  rw [overwrite, take_sstrlen, ← List.append_assoc, List.append_assoc]
  exact cstr_append_zero hfree _

theorem strlcpy_eq (dst src : Bytes) {size : ℕ} (h : sstrlen src < size) :
    strlcpy dst src size = cstr src ++ 0 :: dst.drop (sstrlen src + 1) := by
  rw [sstrlen_eq_cstr] at h
  rw [strlcpy, if_neg (by omega), List.take_of_length_le (by omega), overwrite]
  simp [sstrlen_eq_cstr]

theorem cstr_strlcpy (dst src : Bytes) {size : ℕ} (h : sstrlen src < size) :
    cstr (strlcpy dst src size) = cstr src := by
  rw [strlcpy_eq dst src h]
  exact cstr_append_zero (zero_notMem_cstr src) _

theorem cstr_strlcat (dst src : Bytes) {size : ℕ} (h : sstrlen dst + sstrlen src < size) :
    cstr (strlcat dst src size) = cstr dst ++ cstr src := by
  rw [sstrlen_eq_cstr src] at h
  rw [strlcat, if_neg (by omega), List.take_of_length_le (by omega)]
  exact cstr_overwrite dst (zero_notMem_cstr src)

/-! ## Receiving a name -/

/-- A name that fits is stored with its terminator. -/
theorem getNstring_fits (sent p : Bytes) {n : ℤ} (h : (sstrlen sent : ℤ) < n) :
    ∃ rest, getNstring sent p n = (cstr sent ++ 0 :: rest, false) := by
  induction sent generalizing p n with
  | nil =>
      rw [sstrlen] at h
      exact ⟨p.tail, by rw [getNstring, if_pos (by omega), decide_eq_false (by omega)]; rfl⟩
  | cons c sent ih =>
      rw [sstrlen] at h
      rw [getNstring]
      split
      · rename_i hc
        rw [if_pos hc] at h
        exact ⟨p.tail, by rw [if_pos (by omega), decide_eq_false (by omega), hc]; rfl⟩
      · rename_i hc
        rw [if_neg hc, Nat.cast_add, Nat.cast_one] at h
        obtain ⟨rest, hrest⟩ := ih p.tail (n := n - 1) (by omega)
        exact ⟨rest, by rw [if_pos (by omega), hrest, cstr_cons hc]; rfl⟩

/-- A name that does not fit fills the buffer, and no terminator is in it. -/
theorem getNstring_long (sent p : Bytes) {n : ℤ} (h : n ≤ sstrlen sent) :
    n ≤ sstrlen (getNstring sent p n).1 := by
  induction sent generalizing p n with
  | nil =>
      rw [sstrlen] at h
      exact h.trans (Int.natCast_nonneg _)
  | cons c sent ih =>
      rw [sstrlen] at h
      rw [getNstring]
      split
      · rename_i hc
        rw [if_pos hc] at h
        exact h.trans (Int.natCast_nonneg _)
      · rename_i hc
        rw [if_neg hc, Nat.cast_add, Nat.cast_one] at h
        split
        · have hrest := ih p.tail (n := n - 1) (by omega)
          rw [sstrlen, if_neg hc]
          omega
        · omega

/-! ## The full path -/

/-- The names `make_full_path` refuses. -/
def RefusedPath (maxpathlen : ℕ) (dict_dir name : Bytes) : Prop :=
  name = [] ∨ maxpathlen < dict_dir.length + 1 + name.length + 1 ∨
    [period, period] ∈ components slash name ∨
    (name.head? = some slash ∧ ¬ dict_dir <+: name)

theorem headD_eq_slash_iff (p : Bytes) : p.headD 0 = slash ↔ (cstr p).head? = some slash := by
  rw [headD_eq_cstr]
  cases cstr p with
  | nil => simp [slash]
  | cons c s => simp

section MakeFullPath

variable {maxpathlen : ℕ} {dict_dir tmp path : Bytes}

theorem makeFullPath_refused (h : RefusedPath maxpathlen (cstr dict_dir) (cstr path)) :
    makeFullPath maxpathlen dict_dir tmp path maxpathlen = none := by
  rw [makeFullPath]
  by_cases hnil : path.headD 0 = 0
  · rw [if_pos hnil]
  · rw [if_neg hnil]
    by_cases hlen : sstrlen dict_dir + 1 + sstrlen path + 1 > maxpathlen
    · rw [if_pos hlen]
    · rw [if_neg hlen]
      have hcopy : cstr (strlcpy tmp path maxpathlen) = cstr path :=
        cstr_strlcpy tmp path (by omega)
      dsimp only
      rw [strtokAll_eq, hcopy]
      rcases h with h | h | h | h
      · rw [headD_eq_cstr, h] at hnil
        exact absurd rfl hnil
      · rw [sstrlen_eq_cstr, sstrlen_eq_cstr] at hlen
        exact absurd h hlen
      · rw [if_pos (by simpa using h)]
      · split
        · rfl
        · rw [if_pos ((headD_eq_slash_iff path).mpr h.1),
            if_neg (fun h0 => h.2 ((strncmp_eq_zero_iff path dict_dir).mp h0))]

/-- Any other name is stored as it is if it is absolute, and below the directory if not. -/
theorem makeFullPath_accepted (h : ¬ RefusedPath maxpathlen (cstr dict_dir) (cstr path)) :
    makeFullPath maxpathlen dict_dir tmp path maxpathlen =
      if (cstr path).head? = some slash then some path
      else some ((cstr dict_dir ++ slash :: cstr path) ++
        0 :: path.drop (sstrlen dict_dir + sstrlen path + 2)) := by
  rw [RefusedPath, not_or, not_or, not_or, not_lt, ← sstrlen_eq_cstr, ← sstrlen_eq_cstr] at h
  obtain ⟨hne, hlen, hdots, habs⟩ := h
  have hhead : path.headD 0 ≠ 0 := by
    rw [headD_eq_cstr]
    cases hs : cstr path with
    | nil => exact absurd hs hne
    | cons c s =>
        rintro rfl
        exact zero_notMem_cstr path (by rw [hs]; simp)
  have hcopy : cstr (strlcpy tmp path maxpathlen) = cstr path := cstr_strlcpy tmp path (by omega)
  rw [makeFullPath, if_neg hhead, if_neg (by omega)]
  dsimp only
  rw [strtokAll_eq, hcopy, if_neg (by simpa using hdots)]
  by_cases hslash : (cstr path).head? = some slash
  · have hpre : cstr dict_dir <+: cstr path := by
      by_contra hno
      exact habs ⟨hslash, hno⟩
    rw [if_pos ((headD_eq_slash_iff path).mpr hslash),
      if_pos ((strncmp_eq_zero_iff path dict_dir).mpr hpre), if_pos hslash]
  · rw [if_neg (fun h0 => hslash ((headD_eq_slash_iff path).mp h0)), if_neg hslash]
    -- `tmp` holds the directory, then a slash behind it, then the name
    have h1 : cstr (strlcpy (strlcpy tmp path maxpathlen) dict_dir maxpathlen) =
        cstr dict_dir :=
      cstr_strlcpy _ dict_dir (by omega)
    generalize strlcpy (strlcpy tmp path maxpathlen) dict_dir maxpathlen = t1 at h1 ⊢
    have hsep : cstr [slash, 0] = [slash] := rfl
    have hseplen : sstrlen [slash, 0] = 1 := rfl
    have hlen1 : sstrlen t1 = sstrlen dict_dir := by
      rw [sstrlen_eq_cstr, h1, ← sstrlen_eq_cstr]
    have h2 : cstr (strlcat t1 [slash, 0] maxpathlen) = cstr dict_dir ++ [slash] := by
      rw [cstr_strlcat t1 [slash, 0] (by omega), h1, hsep]
    generalize strlcat t1 [slash, 0] maxpathlen = t2 at h2 ⊢
    have hlen2 : sstrlen t2 = sstrlen dict_dir + 1 := by
      rw [sstrlen_eq_cstr, h2, List.length_append, ← sstrlen_eq_cstr]
      rfl
    have h3 : cstr (strlcat t2 path maxpathlen) = cstr dict_dir ++ slash :: cstr path := by
      rw [cstr_strlcat t2 path (by omega), h2, List.append_assoc]
      rfl
    generalize strlcat t2 path maxpathlen = t3 at h3 ⊢
    have hlen3 : sstrlen t3 = sstrlen dict_dir + sstrlen path + 1 := by
      rw [sstrlen_eq_cstr, h3, List.length_append, List.length_cons, ← sstrlen_eq_cstr,
        ← sstrlen_eq_cstr]
      omega
    rw [strlcpy_eq path t3 (by omega), h3, hlen3]

end MakeFullPath

/-- Where the names that are not refused lead into the directory. -/
def LeadsInside (dict_dir name : Bytes) : Prop :=
  dict_dir ≠ [] ∧ (name.head? = some slash →
    name.drop dict_dir.length = [] ∨ (name.drop dict_dir.length).head? = some slash ∨
      lastName slash dict_dir ∈ [[], [period], [period, period]])

/-- A path in its buffer that is terminated and leads into the directory. -/
structure Confined (maxpathlen : ℕ) (dict_dir path : Bytes) : Prop where
  terminated : 0 ∈ path.take maxpathlen
  within : Within period (resolve slash period (cstr dict_dir))
    (resolve slash period (cstr path))

/-- Below an empty directory name there is no absolute path. -/
theorem not_within_nil {p : Bytes} (hp : p.head? = some slash) :
    ¬ Within period (resolve slash period ([] : Bytes)) (resolve slash period p) := by
  intro h
  have habs := h.1
  simp [resolve, hp] at habs

section Confined

variable {maxpathlen : ℕ} {dict_dir tmp path : Bytes}

/-- The path below a directory that a relative name without `..` is joined to. -/
theorem within_join {d name : Bytes} (hd : d ≠ [])
    (hdots : [period, period] ∉ components slash name) :
    Within period (resolve slash period d) (resolve slash period (d ++ slash :: name)) := by
  apply within_of_components _ (components_append_sep d name) hdots
  cases d with
  | nil => exact absurd rfl hd
  | cons c d => rfl

/-- An accepted name leads into the directory exactly under `LeadsInside`. -/
theorem makeFullPath_confined_iff
    (h : ¬ RefusedPath maxpathlen (cstr dict_dir) (cstr path))
    (hend : ∃ rest, path = cstr path ++ 0 :: rest) :
    (∀ out, makeFullPath maxpathlen dict_dir tmp path maxpathlen = some out →
        Confined maxpathlen dict_dir out) ↔
      LeadsInside (cstr dict_dir) (cstr path) := by
  rw [makeFullPath_accepted h]
  rw [RefusedPath, not_or, not_or, not_or, not_lt] at h
  obtain ⟨-, hlen, hdots, habs⟩ := h
  by_cases hslash : (cstr path).head? = some slash
  · have hpre : cstr dict_dir <+: cstr path := by
      by_contra hno
      exact habs ⟨hslash, hno⟩
    have hterm : 0 ∈ path.take maxpathlen := by
      obtain ⟨rest, hrest⟩ := hend
      rw [hrest]
      exact zero_mem_take (by omega) rest
    rw [if_pos hslash]
    by_cases hd : cstr dict_dir = []
    · refine iff_of_false (fun hall => ?_) (fun hin => hin.1 hd)
      have hwithin := (hall path rfl).within
      rw [hd] at hwithin
      exact not_within_nil hslash hwithin
    · obtain ⟨q, hq⟩ := hpre
      have hdslash : (cstr dict_dir).head? = some slash := by
        rw [← hq, List.head?_append_of_ne_nil _ hd] at hslash
        exact hslash
      have hiff : Within period (resolve slash period (cstr dict_dir))
          (resolve slash period (cstr dict_dir ++ q)) ↔ _ :=
        within_append_iff hdslash q (by rw [hq]; exact hdots)
      rw [hq] at hiff
      have hdrop : (cstr path).drop (cstr dict_dir).length = q := by
        rw [← hq, List.drop_left]
      rw [LeadsInside, hdrop]
      constructor
      · intro hall
        exact ⟨hd, fun _ => hiff.mp (hall path rfl).within⟩
      · rintro ⟨-, hin⟩ out ⟨⟩
        exact ⟨hterm, hiff.mpr (hin hslash)⟩
  · rw [if_neg hslash]
    have hfree : 0 ∉ cstr dict_dir ++ slash :: cstr path := by
      simp [zero_notMem_cstr, slash]
    have hstr := cstr_append_zero hfree (path.drop (sstrlen dict_dir + sstrlen path + 2))
    by_cases hd : cstr dict_dir = []
    · refine iff_of_false (fun hall => ?_) (fun hin => hin.1 hd)
      have hwithin := (hall _ rfl).within
      rw [hstr, hd] at hwithin
      exact not_within_nil rfl hwithin
    · refine iff_of_true ?_ ⟨hd, fun h0 => absurd h0 hslash⟩
      rintro out ⟨⟩
      constructor
      · apply zero_mem_take
        rw [List.length_append, List.length_cons]
        omega
      · rw [hstr]
        exact within_join hd hdots

end Confined

/-- The path of every request, whatever the client sends, is in its buffer and inside the
dictionary directory exactly if the name is refused or leads into it. -/
theorem requestPath_confined_iff (maxpathlen : ℕ) (checked : Bool)
    (dict_dir tmp path sent : Bytes) :
    (∀ out, requestPath maxpathlen checked dict_dir tmp path sent = some out →
        Confined maxpathlen dict_dir out) ↔
      RefusedPath maxpathlen (cstr dict_dir) (cstr sent) ∨
        LeadsInside (cstr dict_dir) (cstr sent) := by
  rw [requestPath]
  by_cases hfits : sstrlen sent < maxpathlen
  · obtain ⟨rest, hrest⟩ := getNstring_fits sent path (n := maxpathlen) (by omega)
    have hstr : cstr (cstr sent ++ 0 :: rest) = cstr sent :=
      cstr_append_zero (zero_notMem_cstr sent) rest
    rw [hrest, Bool.and_false, if_neg (by simp)]
    by_cases hrefused : RefusedPath maxpathlen (cstr dict_dir) (cstr sent)
    · refine iff_of_true (fun out hout => ?_) (Or.inl hrefused)
      rw [makeFullPath_refused (by rw [hstr]; exact hrefused)] at hout
      exact absurd hout (by simp)
    · rw [makeFullPath_confined_iff (by rw [hstr]; exact hrefused) ⟨rest, by rw [hstr]⟩, hstr,
        or_iff_right hrefused]
  · -- the name fills the buffer, so that its length is too large
    have hlong := getNstring_long sent path (n := maxpathlen) (by omega)
    have hrefused : ∀ s : Bytes, maxpathlen ≤ sstrlen s →
        RefusedPath maxpathlen (cstr dict_dir) (cstr s) := by
      intro s hs
      rw [sstrlen_eq_cstr] at hs
      exact Or.inr (Or.inl (by omega))
    refine iff_of_true (fun out hout => ?_) (Or.inl (hrefused sent (by omega)))
    split at hout
    · exact absurd hout (by simp)
    · rw [makeFullPath_refused (hrefused _ (by omega))] at hout
      exact absurd hout (by simp)

/-- With the directory `/d` the name `/ds` is accepted, which starts with its characters and
lies outside. -/
theorem requestPath_not_confined :
    ¬ ∀ maxpathlen checked dict_dir tmp path sent out,
      requestPath maxpathlen checked dict_dir tmp path sent = some out →
        Confined maxpathlen dict_dir out := by
  intro h
  have hbad := h 4096 true [0x2f, 0x64] [] [] [0x2f, 0x64, 0x73]
    [0x2f, 0x64, 0x73, 0] (by decide)
  obtain ⟨-, -, below, hnames, -⟩ := hbad
  have hfirst := congrArg List.head? hnames
  revert hfirst
  rw [show (resolve slash period (cstr [0x2f, 0x64])).names = [[0x64]] by decide,
    show (resolve slash period (cstr [0x2f, 0x64, 0x73, 0])).names = [[0x64, 0x73]] by decide]
  simp

end Sj3
