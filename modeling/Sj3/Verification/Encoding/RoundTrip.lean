import Mathlib.Data.Set.List
import Sj3.Verification.Encoding.Turns

/-! # The round trip between EUC and SJIS

A row of SJIS holds two rows of JIS: the parity of the row of JIS is found again in the
second byte. -/

namespace Sj3

open Recode

/-! ## Two bytes -/

def sjisLead (c : UInt8) : Bool := (0x81 ≤ c && c ≤ 0x9f) || (0xe0 ≤ c && c ≤ 0xef)

def sjisTrail (c : UInt8) : Bool := (0x40 ≤ c && c ≤ 0x7e) || (0x80 ≤ c && c ≤ 0xfc)

/-- The first byte of a character of SJIS, from its row in JIS. -/
def sjisHigh (high : UInt8) : UInt8 :=
  let nh := ((high.toNat : ℤ) - 0x21) / 2 + 0x81
  UInt8.ofInt (if nh > 0x9f then nh + 0x40 else nh)

def sjisLow (odd : Bool) (low : UInt8) : UInt8 :=
  UInt8.ofNat (if odd then if low.toNat > 0x5f then low.toNat + 0x20 else low.toNat + 0x1f
    else low.toNat + 0x7e)

theorem sjJis2sjis_eq (s : Char2) :
    sjJis2sjis s = (sjisHigh s.1, sjisLow (s.1.toNat % 2 = 1) s.2) := by
  simp only [sjJis2sjis, sjisHigh, sjisLow, decide_eq_true_eq]

/-- The row in JIS; `even` is whether it is the second one of its row of SJIS. -/
def jisHigh (even : Bool) (byte1 : UInt8) : UInt8 :=
  UInt8.ofNat ((byte1.toNat - if byte1.toNat ≥ 0xa0 then 0xc1 else 0x81) * 2 +
    if even then 0x22 else 0x21)

def jisLow (byte2 : UInt8) : UInt8 :=
  UInt8.ofNat (if byte2.toNat ≥ 0x9f then byte2.toNat - 0x7e
    else byte2.toNat - if byte2.toNat ≤ 0x7e then 0x1f else 0x20)

theorem sjisLead_range : ∀ c : UInt8, sjisLead c = true →
    ¬ c ≤ 0x80 ∧ ¬ c ≥ 0xf0 ∧ ¬ (c ≥ 0xa0 ∧ c ≤ 0xdf) := by
  apply Byte.forall_of_fin
  decide +kernel

theorem sjisTrail_range : ∀ c : UInt8, sjisTrail c = true →
    ¬ c ≤ 0x3f ∧ ¬ c ≥ 0xfe ∧ ¬ c = 0x7f := by
  apply Byte.forall_of_fin
  decide +kernel

theorem sjSjis2jis_eq {s : Char2} (h₁ : sjisLead s.1 = true) (h₂ : sjisTrail s.2 = true) :
    sjSjis2jis s = (jisHigh (s.2.toNat ≥ 0x9f) s.1, jisLow s.2) := by
  obtain ⟨h80, hf0, hkana⟩ := sjisLead_range s.1 h₁
  obtain ⟨h3f, hfe, h7f⟩ := sjisTrail_range s.2 h₂
  have hbad : (decide (s.1 ≤ 0x80) || decide (s.1 ≥ 0xf0) ||
      (decide (s.1 ≥ 0xa0) && decide (s.1 ≤ 0xdf)) || decide (s.2 ≤ 0x3f) ||
      decide (s.2 ≥ 0xfe) || decide (s.2 = 0x7f)) = false := by
    simp only [h80, hf0, h3f, hfe, h7f, decide_false, ← Bool.decide_and, hkana, Bool.or_self]
  simp only [sjSjis2jis, hbad, Bool.false_eq_true, if_false, jisHigh, jisLow, decide_eq_true_eq]
  split_ifs <;> rfl

/-- The row of JIS is told by the row of SJIS and its half. -/
theorem jisHigh_sjisHigh : ∀ c : UInt8, iseuc c = true →
    sjisLead (sjisHigh (c &&& 0x7f)) = true ∧
      jisHigh (decide ((c &&& 0x7f).toNat % 2 ≠ 1)) (sjisHigh (c &&& 0x7f)) ||| 0x80 = c := by
  apply Byte.forall_of_fin
  decide +kernel

theorem jisLow_sjisLow (odd : Bool) : ∀ c : UInt8, iseuc c = true →
    sjisTrail (sjisLow odd (c &&& 0x7f)) = true ∧
      decide ((sjisLow odd (c &&& 0x7f)).toNat ≥ 0x9f) = !odd ∧
      jisLow (sjisLow odd (c &&& 0x7f)) ||| 0x80 = c := by
  apply Byte.forall_of_fin
  cases odd <;> decide +kernel

theorem sjisHigh_jisHigh (even : Bool) : ∀ c : UInt8, sjisLead c = true →
    iseuc (jisHigh even c ||| 0x80) = true ∧
      decide (((jisHigh even c ||| 0x80) &&& 0x7f).toNat % 2 = 1) = !even ∧
      sjisHigh ((jisHigh even c ||| 0x80) &&& 0x7f) = c := by
  apply Byte.forall_of_fin
  cases even <;> decide +kernel

theorem sjisLow_jisLow : ∀ c : UInt8, sjisTrail c = true →
    iseuc (jisLow c ||| 0x80) = true ∧
      sjisLow (!decide (c.toNat ≥ 0x9f)) ((jisLow c ||| 0x80) &&& 0x7f) = c := by
  apply Byte.forall_of_fin
  decide +kernel

/-- Every pair of bytes of EUC has its own character of SJIS. -/
theorem sjSjis2euc_sjEuc2sjis {s : Char2} (h₁ : iseuc s.1 = true) (h₂ : iseuc s.2 = true) :
    sjisLead (sjEuc2sjis s).1 = true ∧ sjisTrail (sjEuc2sjis s).2 = true ∧
      sjSjis2euc (sjEuc2sjis s) = s := by
  obtain ⟨hlead, hhigh⟩ := jisHigh_sjisHigh s.1 h₁
  obtain ⟨htrail, hhalf, hlow⟩ :=
    jisLow_sjisLow (decide ((s.1 &&& 0x7f).toNat % 2 = 1)) s.2 h₂
  rw [sjEuc2sjis, sjJis2sjis_eq]
  refine ⟨hlead, htrail, ?_⟩
  rw [sjSjis2euc, sjSjis2jis_eq (s := (sjisHigh _, sjisLow _ _)) hlead htrail, hhalf,
    ← decide_not, hlow]
  exact Prod.ext hhigh rfl

theorem sjEuc2sjis_sjSjis2euc {s : Char2} (h₁ : sjisLead s.1 = true) (h₂ : sjisTrail s.2 = true) :
    iseuc (sjSjis2euc s).1 = true ∧ iseuc (sjSjis2euc s).2 = true ∧
      sjEuc2sjis (sjSjis2euc s) = s := by
  obtain ⟨heuc, hodd, hhigh⟩ := sjisHigh_jisHigh (decide (s.2.toNat ≥ 0x9f)) s.1 h₁
  obtain ⟨heuc', hlow⟩ := sjisLow_jisLow s.2 h₂
  rw [sjSjis2euc, sjSjis2jis_eq h₁ h₂]
  refine ⟨heuc, heuc', ?_⟩
  rw [sjEuc2sjis, sjJis2sjis_eq]
  refine Prod.ext hhigh (Eq.trans ?_ hlow)
  exact congrArg (sjisLow · ((jisLow s.2 ||| 0x80) &&& 0x7f)) hodd

/-! ## Characters -/

/-- One character in both codes: ASCII, half-width kana or two bytes. -/
inductive SameChar : Bytes → Bytes → Prop where
  | ascii (c : UInt8) (hne : c ≠ 0) (hc : c < 0x80) : SameChar [c] [c]
  | kana (c : UInt8) (hc : isHalfKana c = true) : SameChar [0x8e, c] [c]
  | kanji (s : Char2) (h₁ : iseuc s.1 = true) (h₂ : iseuc s.2 = true) :
      SameChar s.bytes (sjEuc2sjis s).bytes

inductive IsEucChar : Bytes → Prop where
  | ascii (c : UInt8) (hne : c ≠ 0) (hc : c < 0x80) : IsEucChar [c]
  | kana (c : UInt8) (hc : isHalfKana c = true) : IsEucChar [0x8e, c]
  | kanji (s : Char2) (h₁ : iseuc s.1 = true) (h₂ : iseuc s.2 = true) : IsEucChar s.bytes

inductive IsSjisChar : Bytes → Prop where
  | ascii (c : UInt8) (hne : c ≠ 0) (hc : c < 0x80) : IsSjisChar [c]
  | kana (c : UInt8) (hc : isHalfKana c = true) : IsSjisChar [c]
  | kanji (s : Char2) (h₁ : sjisLead s.1 = true) (h₂ : sjisTrail s.2 = true) : IsSjisChar s.bytes

theorem IsEucChar.same {ch : Bytes} (h : IsEucChar ch) : ∃ sjis, SameChar ch sjis := by
  cases h with
  | ascii c hne hc => exact ⟨_, .ascii c hne hc⟩
  | kana c hc => exact ⟨_, .kana c hc⟩
  | kanji s h₁ h₂ => exact ⟨_, .kanji s h₁ h₂⟩

theorem IsSjisChar.same {ch : Bytes} (h : IsSjisChar ch) : ∃ euc, SameChar euc ch := by
  cases h with
  | ascii c hne hc => exact ⟨_, .ascii c hne hc⟩
  | kana c hc => exact ⟨_, .kana c hc⟩
  | kanji s h₁ h₂ =>
      obtain ⟨heuc₁, heuc₂, hback⟩ := sjEuc2sjis_sjSjis2euc h₁ h₂
      have := SameChar.kanji _ heuc₁ heuc₂
      rw [hback] at this
      exact ⟨_, this⟩

theorem ascii_range : ∀ c : UInt8, c < 0x80 →
    iseuc c = false ∧ c ≠ 0x8f ∧ c ≠ 0x8e ∧ issjis1 c = false ∧ isHalfKana c = false := by
  apply Byte.forall_of_fin
  decide +kernel

theorem isHalfKana_range : ∀ c : UInt8, isHalfKana c = true → c ≠ 0 ∧ issjis1 c = false := by
  apply Byte.forall_of_fin
  decide +kernel

theorem iseuc_ne_zero : ∀ c : UInt8, iseuc c = true → c ≠ 0 := by
  apply Byte.forall_of_fin
  decide +kernel

theorem sjisLead_issjis1 : ∀ c : UInt8, sjisLead c = true → c ≠ 0 ∧ issjis1 c = true := by
  apply Byte.forall_of_fin
  decide +kernel

/-- What the conversion makes of a character. -/
structure Recoded (c : Coding UInt8 UInt8) (replaced : Bytes → Bool) (ch out : Bytes) : Prop where
  isChar : c.IsChar ch
  put : c.put ch = out
  kept : replaced ch = false

theorem SameChar.toSjis {euc sjis : Bytes} (h : SameChar euc sjis) (d : Char2) :
    Recoded (eucCoding d) eucReplaced euc sjis := by
  cases h with
  | ascii c hne hc =>
      obtain ⟨heuc, hss3, hss2, -, -⟩ := ascii_range c hc
      refine ⟨⟨hne, ?_⟩, ?_, ?_⟩
      · simp [width_euc, eucTaken, heuc, hss3, hss2]
      · simp [eucCoding, eucPut, heuc, hss3, hss2]
      · simp [eucReplaced, heuc, hss3]
  | kana c hc => exact ⟨⟨show (0x8e : UInt8) ≠ 0 by decide, rfl⟩, rfl, rfl⟩
  | kanji s h₁ h₂ =>
      obtain ⟨hlead, -, -⟩ := sjSjis2euc_sjEuc2sjis h₁ h₂
      have hne : sjEuc2sjis s ≠ (0, 0) := by
        intro h
        rw [h] at hlead
        exact absurd hlead (by decide)
      have hcode : eucCode [s.1, s.2] = sjEuc2sjis s := rfl
      refine ⟨⟨iseuc_ne_zero _ h₁, ?_⟩, ?_, ?_⟩
      · simp [width_euc, eucTaken, Char2.bytes, h₁]
      · simp [eucCoding, eucPut, hcode, hne, Char2.bytes, h₁]
      · simp [eucReplaced, hcode, hne, Char2.bytes, h₁]

theorem SameChar.toEuc {euc sjis : Bytes} (h : SameChar euc sjis) (d : Char2) :
    Recoded (sjisCoding d) sjisReplaced sjis euc := by
  cases h with
  | ascii c hne hc =>
      obtain ⟨-, -, -, hlead, hkana⟩ := ascii_range c hc
      refine ⟨⟨hne, ?_⟩, ?_, ?_⟩
      · simp [width_sjis, sjisTaken, hlead]
      · simp [sjisCoding, sjisPut, hlead, hkana]
      · simp [sjisReplaced, hlead]
  | kana c hc =>
      obtain ⟨hne, hlead⟩ := isHalfKana_range c hc
      refine ⟨⟨hne, ?_⟩, ?_, ?_⟩
      · simp [width_sjis, sjisTaken, hlead]
      · simp [sjisCoding, sjisPut, hlead, hc]
      · simp [sjisReplaced, hlead]
  | kanji s h₁ h₂ =>
      obtain ⟨hlead, -, hback⟩ := sjSjis2euc_sjEuc2sjis h₁ h₂
      obtain ⟨hne, hsjis⟩ := sjisLead_issjis1 _ hlead
      have hcode : sjisCode [(sjEuc2sjis s).1, (sjEuc2sjis s).2] = s := hback
      have hs : s ≠ (0, 0) := by
        rintro rfl
        exact absurd h₁ (by decide)
      refine ⟨⟨hne, ?_⟩, ?_, ?_⟩
      · simp [width_sjis, sjisTaken, Char2.bytes, hsjis]
      · simp [sjisCoding, sjisPut, hcode, hs, Char2.bytes, hsjis]
      · simp [sjisReplaced, hcode, hs, Char2.bytes]

/-! ## Texts -/

/-- A run on characters that are all kept. -/
theorem strconvOf_map {c : Coding UInt8 UInt8} {replaced : Bytes → Bool} {ι : Type*}
    {ch out : ι → Bytes} {text : List ι} (h : ∀ i ∈ text, Recoded c replaced (ch i) (out i))
    {rest : Bytes} (hrest : rest.headD c.stop = c.stop) {outlen fuel : ℕ}
    (hroom : (text.map out).flatten.length ≤ outlen)
    (hfuel : (text.map ch).flatten.length < fuel) :
    strconvOf c.put replaced (c.loop outlen fuel 0 0 ((text.map ch).flatten ++ rest)) =
      some ⟨(text.map out).flatten, 0⟩ := by
  have hchars : ∀ x ∈ text.map ch, c.IsChar x := List.forall_mem_map.mpr fun i hi => (h i hi).isChar
  have hput : (text.map ch).flatMap c.put = (text.map out).flatten := by
    rw [List.flatMap_def, List.map_map]
    exact congrArg List.flatten (List.map_congr_left fun i hi => (h i hi).put)
  have htotal : 0 + c.total (text.map ch) ≤ outlen := by
    rwa [Nat.zero_add, Coding.total_eq, hput]
  have hkept : (text.map ch).countP replaced = 0 := by
    rw [List.countP_eq_zero]
    exact List.forall_mem_map.mpr fun i hi => ne_true_of_eq_false (h i hi).kept
  have hlen := Nat.lt_of_le_of_lt (Coding.length_le_flatten hchars) hfuel
  rw [Coding.loop_flatten hchars hrest 0 htotal hlen, strconvOf]
  simp only [Bool.false_eq_true, if_false, Coding.map_char_placed, hput, hkept]

/-- A character with its form in both codes. -/
structure CodedChar where
  euc : Bytes
  sjis : Bytes
  same : SameChar euc sjis

def eucText (text : List CodedChar) : Bytes := (text.map CodedChar.euc).flatten

def sjisText (text : List CodedChar) : Bytes := (text.map CodedChar.sjis).flatten

section Convert

variable (text : List CodedChar) (d : Char2) {outlen : ℕ} (rest : Bytes)

theorem strEuctosjis_eucText (hroom : (sjisText text).length ≤ outlen) :
    strEuctosjis outlen d (eucText text ++ 0 :: rest) = some ⟨sjisText text, 0⟩ := by
  rw [strEuctosjis, strEuctosjisLoop_eq outlen d _ 0, List.length_append]
  exact strconvOf_map (fun (ch : CodedChar) _ => ch.same.toSjis d) rfl hroom
    (Nat.lt_succ_of_le (Nat.le_add_right _ _))

theorem strSjistoeuc_sjisText (hroom : (eucText text).length ≤ outlen) :
    strSjistoeuc outlen d (sjisText text ++ 0 :: rest) = some ⟨eucText text, 0⟩ := by
  rw [strSjistoeuc, strSjistoeucLoop_eq outlen d _ 0, List.length_append]
  exact strconvOf_map (fun (ch : CodedChar) _ => ch.same.toEuc d) rfl hroom
    (Nat.lt_succ_of_le (Nat.le_add_right _ _))

end Convert

/-- A string of characters of EUC: ASCII, JIS X 0208 and half-width kana. -/
def IsEucText (s : Bytes) : Prop :=
  ∃ chars : List Bytes, (∀ ch ∈ chars, IsEucChar ch) ∧ chars.flatten = s

def IsSjisText (s : Bytes) : Prop :=
  ∃ chars : List Bytes, (∀ ch ∈ chars, IsSjisChar ch) ∧ chars.flatten = s

theorem IsEucText.exists_text {s : Bytes} (h : IsEucText s) : ∃ text, eucText text = s := by
  obtain ⟨chars, hchars, rfl⟩ := h
  have hmem : chars ∈ Set.range (List.map CodedChar.euc) := by
    rw [Set.range_list_map]
    intro ch hch
    obtain ⟨sjis, hsame⟩ := (hchars ch hch).same
    exact ⟨⟨ch, sjis, hsame⟩, rfl⟩
  obtain ⟨text, htext⟩ := hmem
  exact ⟨text, by rw [eucText, htext]⟩

theorem IsSjisText.exists_text {s : Bytes} (h : IsSjisText s) : ∃ text, sjisText text = s := by
  obtain ⟨chars, hchars, rfl⟩ := h
  have hmem : chars ∈ Set.range (List.map CodedChar.sjis) := by
    rw [Set.range_list_map]
    intro ch hch
    obtain ⟨euc, hsame⟩ := (hchars ch hch).same
    exact ⟨⟨euc, ch, hsame⟩, rfl⟩
  obtain ⟨text, htext⟩ := hmem
  exact ⟨text, by rw [sjisText, htext]⟩

/-- There and back gives the same text, and nothing is replaced on the way. -/
theorem strconv_roundTrip :
    (∀ euc, IsEucText euc → ∃ sjis, ∀ d rest,
      (∀ outlen ≥ sjis.length, strEuctosjis outlen d (euc ++ 0 :: rest) = some ⟨sjis, 0⟩) ∧
      (∀ outlen ≥ euc.length, strSjistoeuc outlen d (sjis ++ 0 :: rest) = some ⟨euc, 0⟩)) ∧
    (∀ sjis, IsSjisText sjis → ∃ euc, ∀ d rest,
      (∀ outlen ≥ euc.length, strSjistoeuc outlen d (sjis ++ 0 :: rest) = some ⟨euc, 0⟩) ∧
      (∀ outlen ≥ sjis.length, strEuctosjis outlen d (euc ++ 0 :: rest) = some ⟨sjis, 0⟩)) := by
  constructor
  · intro euc heuc
    obtain ⟨text, rfl⟩ := heuc.exists_text
    exact ⟨sjisText text, fun d rest => ⟨fun _ => strEuctosjis_eucText text d rest,
      fun _ => strSjistoeuc_sjisText text d rest⟩⟩
  · intro sjis hsjis
    obtain ⟨text, rfl⟩ := hsjis.exists_text
    exact ⟨eucText text, fun d rest => ⟨fun _ => strSjistoeuc_sjisText text d rest,
      fun _ => strEuctosjis_eucText text d rest⟩⟩

/-- One hiragana and one half-width kana. -/
theorem strconv_roundTrip_kana : ∃ sjis outlen,
    strEuctosjis outlen (0x81, 0x40) [0xa4, 0xa2, 0x8e, 0xb1, 0] = some ⟨sjis, 0⟩ ∧
      strSjistoeuc 4 (0x81, 0x40) (sjis ++ [0]) = some ⟨[0xa4, 0xa2, 0x8e, 0xb1], 0⟩ := by
  have heuc : IsEucText [0xa4, 0xa2, 0x8e, 0xb1] := by
    refine ⟨[[0xa4, 0xa2], [0x8e, 0xb1]], fun ch hch => ?_, rfl⟩
    rcases List.mem_pair.mp hch with rfl | rfl
    · exact .kanji (0xa4, 0xa2) (by decide) (by decide)
    · exact .kana 0xb1 (by decide)
  obtain ⟨sjis, h⟩ := strconv_roundTrip.1 [0xa4, 0xa2, 0x8e, 0xb1] heuc
  obtain ⟨hto, hback⟩ := h (0x81, 0x40) []
  exact ⟨sjis, sjis.length, hto sjis.length (Nat.le_refl _), hback 4 (Nat.le_refl _)⟩

end Sj3
