import Sj3.Verification.Encoding.RoundTrip

/-! # The predicted length of a conversion

`sj3_sjistoeuclen` goes through the text with a loop of its own. -/

namespace Sj3

open Recode

/-- A character that both loops take alike; after a first byte of two the second may be any. -/
inductive LegalSjis : Bytes → Prop where
  | ascii (c : UInt8) (hne : c ≠ 0) (hc : c < 0x80) : LegalSjis [c]
  | kana (c : UInt8) (hc : isHalfKana c = true) : LegalSjis [c]
  | double (c₁ c₂ : UInt8) (h₁ : issjis1 c₁ = true) (h₂ : c₂ ≠ 0) : LegalSjis [c₁, c₂]

theorem SameChar.legal {euc sjis : Bytes} (h : SameChar euc sjis) : LegalSjis sjis := by
  cases h with
  | ascii c hne hc => exact .ascii c hne hc
  | kana c hc => exact .kana c hc
  | kanji s h₁ h₂ =>
      obtain ⟨hlead, htrail, -⟩ := sjSjis2euc_sjEuc2sjis h₁ h₂
      refine .double _ _ (sjisLead_issjis1 _ hlead).2 fun hzero => ?_
      rw [hzero] at htrail
      exact absurd htrail (by decide)

theorem issjis1_ne_zero : ∀ c : UInt8, issjis1 c = true → c ≠ 0 := by
  apply Byte.forall_of_fin
  decide +kernel

theorem LegalSjis.isChar {ch : Bytes} (h : LegalSjis ch) (d : Char2) :
    (sjisCoding d).IsChar ch := by
  cases h with
  | ascii c hne hc =>
      obtain ⟨-, -, -, hlead, -⟩ := ascii_range c hc
      exact ⟨hne, by simp [width_sjis, sjisTaken, hlead]⟩
  | kana c hc =>
      obtain ⟨hne, hlead⟩ := isHalfKana_range c hc
      exact ⟨hne, by simp [width_sjis, sjisTaken, hlead]⟩
  | double c₁ c₂ h₁ h₂ =>
      exact ⟨issjis1_ne_zero c₁ h₁, by simp [width_sjis, sjisTaken, h₁]⟩

theorem LegalSjis.zero_notMem {ch : Bytes} (h : LegalSjis ch) : 0 ∉ ch := by
  cases h with
  | ascii c hne hc => exact fun h => hne (List.mem_singleton.mp h).symm
  | kana c hc => exact fun h => (isHalfKana_range c hc).1 (List.mem_singleton.mp h).symm
  | double c₁ c₂ h₁ h₂ =>
      intro h
      rcases List.mem_pair.mp h with h | h
      · exact issjis1_ne_zero c₁ h₁ h.symm
      · exact h₂ h.symm

theorem SameChar.zero_notMem {euc sjis : Bytes} (h : SameChar euc sjis) : 0 ∉ euc := by
  cases h with
  | ascii c hne hc => exact fun h => hne (List.mem_singleton.mp h).symm
  | kana c hc =>
      intro h
      rcases List.mem_pair.mp h with h | h
      · exact absurd h (by decide)
      · exact (isHalfKana_range c hc).1 h.symm
  | kanji s h₁ h₂ =>
      intro h
      rcases List.mem_pair.mp h with h | h
      · exact iseuc_ne_zero _ h₁ h.symm
      · exact iseuc_ne_zero _ h₂ h.symm

theorem SameChar.length_le {euc sjis : Bytes} (h : SameChar euc sjis) :
    sjis.length ≤ euc.length ∧ 0 < euc.length := by
  cases h with
  | ascii c hne hc => exact ⟨Nat.le_refl 1, Nat.one_pos⟩
  | kana c hc => exact ⟨Nat.le_succ 1, Nat.two_pos⟩
  | kanji s h₁ h₂ => exact ⟨Nat.le_refl 2, Nat.two_pos⟩

/-- The bytes that the characters become. -/
def eucLen (chars : List Bytes) : ℕ := (chars.map fun ch => sjisSize (ch.headD 0)).sum

theorem eucLen_cons (ch : Bytes) (chars : List Bytes) :
    eucLen (ch :: chars) = sjisSize (ch.headD 0) + eucLen chars := rfl

theorem eucLen_append (chars chars' : List Bytes) :
    eucLen (chars ++ chars') = eucLen chars + eucLen chars' := by
  rw [eucLen, List.map_append, List.sum_append, eucLen, eucLen]

theorem ascii_high_bit : ∀ c : UInt8, c < 0x80 → c &&& 0x80 = 0 := by
  apply Byte.forall_of_fin
  decide +kernel

theorem isHalfKana_high_bit : ∀ c : UInt8, isHalfKana c = true → c &&& 0x80 ≠ 0 := by
  apply Byte.forall_of_fin
  decide +kernel

/-- A turn of the loop on one character. -/
theorem sjistoeuclenLoop_char {ch : Bytes} (h : LegalSjis ch) (rest : Bytes) {bytes max : ℤ}
    (hmax : bytes ≤ max) (fuel len : ℕ) :
    sjistoeuclenLoop max (fuel + 1) bytes len (ch ++ rest) =
      sjistoeuclenLoop max fuel (bytes + ch.length) (len + sjisSize (ch.headD 0)) rest := by
  cases h with
  | ascii c hne hc =>
      obtain ⟨-, -, -, hlead, hkana⟩ := ascii_range c hc
      rw [sjistoeuclenLoop]
      simp [hmax, hne, hlead, ascii_high_bit c hc, sjisSize, hkana]
  | kana c hc =>
      obtain ⟨hne, hlead⟩ := isHalfKana_range c hc
      rw [sjistoeuclenLoop]
      simp [hmax, hne, hlead, isHalfKana_high_bit c hc, sjisSize, hc]
  | double c₁ c₂ h₁ h₂ =>
      rw [sjistoeuclenLoop]
      simp [hmax, issjis1_ne_zero c₁ h₁, h₁, h₂, sjisSize]

theorem sjistoeuclenLoop_chars {chars : List Bytes} (hchars : ∀ ch ∈ chars, LegalSjis ch)
    (rest : Bytes) {bytes max : ℤ} {fuel len : ℕ}
    (hmax : max + 1 = bytes + (chars.flatten.length : ℤ)) (hfuel : chars.length < fuel) :
    sjistoeuclenLoop max fuel bytes len (chars.flatten ++ rest) = len + eucLen chars := by
  induction chars generalizing bytes fuel len with
  | nil =>
      cases fuel with
      | zero => cases hfuel
      | succ fuel =>
          have hover : ¬ bytes ≤ max := by
            simp only [List.flatten_nil, List.length_nil, Nat.cast_zero] at hmax
            omega
          rw [sjistoeuclenLoop, if_neg (fun h => hover h.1)]
          rfl
  | cons ch chars ih =>
      cases fuel with
      | zero => cases hfuel
      | succ fuel =>
          rw [List.forall_mem_cons] at hchars
          rw [List.flatten_cons, List.length_append, Nat.cast_add] at hmax
          have hpos := List.length_pos_iff.mpr (hchars.1.isChar (0, 0)).ne_nil
          rw [List.flatten_cons, List.append_assoc,
            sjistoeuclenLoop_char hchars.1 _ (by omega), ih hchars.2 (by omega)
              (Nat.lt_of_succ_lt_succ hfuel), eucLen_cons, Nat.add_assoc]

/-- The prediction for a text up to a boundary between characters, whatever stands behind. -/
theorem sjistoeuclen_chars {chars : List Bytes} (hchars : ∀ ch ∈ chars, LegalSjis ch)
    (rest : Bytes) :
    sjistoeuclen (chars.flatten ++ rest) chars.flatten.length = eucLen chars := by
  have hlen : chars.length ≤ chars.flatten.length :=
    Coding.length_le_flatten fun ch hch => (hchars ch hch).isChar (0, 0)
  rw [sjistoeuclen]
  split_ifs with hzero
  · have hnil : chars = [] := by
      rw [← List.length_eq_zero_iff]
      omega
    rw [hnil]
    rfl
  · rw [sjistoeuclenLoop_chars hchars rest (by omega) (by rw [List.length_append]; omega),
      Nat.zero_add]

/-! ## The image of a text -/

theorem sjSjis2euc_ne_zero (s : Char2) : sjSjis2euc s ≠ (0, 0) := by
  have hbyte : ∀ c : UInt8, c ||| 0x80 ≠ 0 := by
    apply Byte.forall_of_fin
    decide +kernel
  exact fun h => hbyte _ (congrArg Prod.fst h)

theorem LegalSjis.recoded {ch : Bytes} (h : LegalSjis ch) (d : Char2) :
    Recoded (sjisCoding d) sjisReplaced ch (sjisPut d ch) := by
  refine ⟨h.isChar d, rfl, ?_⟩
  rw [sjisReplaced, sjisCode, decide_eq_false (sjSjis2euc_ne_zero _), Bool.and_false]

def eucImage (d : Char2) (chars : List Bytes) : Bytes := chars.flatMap (sjisPut d)

theorem length_eucImage (d : Char2) (chars : List Bytes) :
    (eucImage d chars).length = eucLen chars :=
  (Coding.total_eq (c := sjisCoding d) chars).symm

theorem eucImage_append (d : Char2) (chars chars' : List Bytes) :
    eucImage d (chars ++ chars') = eucImage d chars ++ eucImage d chars' :=
  List.flatMap_append

/-- With room for it, the conversion of a text gives its image. -/
theorem strSjistoeuc_chars {chars : List Bytes} (hchars : ∀ ch ∈ chars, LegalSjis ch) (d : Char2)
    {rest : Bytes} (hrest : rest.headD 0 = 0) {outlen : ℕ} (hroom : eucLen chars ≤ outlen) :
    strSjistoeuc outlen d (chars.flatten ++ rest) = some ⟨eucImage d chars, 0⟩ := by
  have hout : (chars.map (sjisPut d)).flatten = eucImage d chars := List.flatMap_def.symm
  have hfuel : (chars.map id).flatten.length < (chars.flatten ++ rest).length + 1 := by
    rw [List.map_id, List.length_append]
    omega
  have hconv := @strconvOf_map (sjisCoding d) sjisReplaced _ id (sjisPut d) chars
    (fun ch hch => (hchars ch hch).recoded d) rest hrest outlen _
    (by rwa [hout, length_eucImage]) hfuel
  rw [List.map_id, hout] at hconv
  rwa [strSjistoeuc, strSjistoeucLoop_eq outlen d _ 0]

end Sj3
