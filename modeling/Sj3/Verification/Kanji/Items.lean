import Sj3.Model.Kouho
import Sj3.Verification.Kanji.Expand

/-! # Kanji strings with references

A stored kanji string may refer to other strings of its segment. What it spells is a
sequence of characters and of abbreviations; `makekan` and `getkanji` both depend on that
sequence only. -/

namespace Sj3

/-- A character, or an abbreviation for `n + 1` characters of the reading. -/
inductive KnjItem where
  | chr (ch : EucChar)
  | hira (n : Fin 16)
  | kata (n : Fin 16)

/-- The stretch of `n` characters that an abbreviation stands for: the end of the reading
for the last code of a string, otherwise the beginning. -/
def stretch (ws : List (UInt8 × UInt8)) (n : ℕ) (last : Bool) : List (UInt8 × UInt8) :=
  if last then ws.drop (ws.length - n) else ws.take n

namespace KnjItem

def code : KnjItem → Bytes
  | chr ch => ch.code
  | hira n => [hiraCode (n + 1)]
  | kata n => [kataCode (n + 1)]

/-- How `makekan` writes it. -/
def form : KnjItem → Bytes
  | chr ch => ch.bytes
  | hira n => [0x10 ||| UInt8.ofNat n]
  | kata n => [0x90 ||| UInt8.ofNat n]

/-- What it stands for in the kanji string of a word with the reading `ws`. -/
def text (ws : List (UInt8 × UInt8)) (last : Bool) : KnjItem → Bytes
  | chr ch => ch.bytes
  | hira n => flat (stretch ws (n + 1) last)
  | kata n => flat ((stretch ws (n + 1) last).map kataPair)

/-- How much of the reading it needs. -/
def count : KnjItem → ℕ
  | chr _ => 0
  | hira n => n + 1
  | kata n => n + 1

end KnjItem

def knjForm (is : List KnjItem) : Bytes := is.flatMap KnjItem.form

/-- The text of a string; `last` says whether its last code is the last one of the word. -/
def knjText (ws : List (UInt8 × UInt8)) (last : Bool) : List KnjItem → Bytes
  | [] => []
  | [i] => i.text ws last
  | i :: is => i.text ws false ++ knjText ws last is

/-- The string that the first code at `s` refers to. -/
def SegRef.target (ref : SegRef) (s : Bytes) : Option Bytes :=
  let mode := s.headD 0 &&& kanjiModeMask
  if mode = offsetAssyuku then
    some (ref.dicbuf.drop ((s.headD 0 &&& kanjiCodeMask).toNat * 0x100 + (s.getD 1 0).toNat))
  else if mode = kanjiAssyuku then
    some (ref.askknj.getD (s.headD 0 &&& kanjiCodeMask).toNat [])
  else none

/-- The code string at `s` spells the items, in at most `n` steps of expansion. Attributes
stand for nothing; none of them is the last code. -/
inductive Spells (ref : SegRef) : ℕ → Bytes → List KnjItem → Prop
  | last {n p} (i : KnjItem) (hp : p.headD 0 = kanjiStrEnd) : Spells ref (n + 1) (i.code ++ p) [i]
  | item {n p is} (i : KnjItem) (hp : p.headD 0 ≠ kanjiStrEnd) (h : Spells ref n p is) :
      Spells ref (n + 1) (i.code ++ p) (i :: is)
  | refLast {n s t is} (ht : ref.target s = some t)
      (hp : s.getD (codesize (s.headD 0)) 0 = kanjiStrEnd) (h : Spells ref n t is) :
      Spells ref (n + 1) s is
  | ref {n s t is js} (ht : ref.target s = some t)
      (hp : s.getD (codesize (s.headD 0)) 0 ≠ kanjiStrEnd) (h : Spells ref n t is)
      (hs : Spells ref n (s.drop (codesize (s.headD 0))) js) : Spells ref (n + 1) s (is ++ js)
  | attr {n s is} (ha : s.headD 0 &&& kanjiModeMask = aiAttribute)
      (hp : s.getD (codesize (s.headD 0)) 0 ≠ kanjiStrEnd)
      (hs : Spells ref n (s.drop (codesize (s.headD 0))) is) : Spells ref (n + 1) s is

theorem Spells.ne_nil {ref : SegRef} {n : ℕ} {s : Bytes} {is : List KnjItem}
    (h : Spells ref n s is) : is ≠ [] := by
  induction h with
  | last i hp => simp
  | item i hp h ih => simp
  | refLast ht hp h ih => exact ih
  | ref ht hp h hs ih ihs => exact fun hnil => ih (List.append_eq_nil_iff.mp hnil).1
  | attr ha hp hs ih => exact ih

/-! ## Texts of items -/

@[simp] theorem knjForm_nil : knjForm [] = [] := rfl

@[simp] theorem knjForm_cons (i : KnjItem) (is : List KnjItem) :
    knjForm (i :: is) = i.form ++ knjForm is := rfl

@[simp] theorem knjForm_append (is js : List KnjItem) :
    knjForm (is ++ js) = knjForm is ++ knjForm js := List.flatMap_append

theorem knjText_singleton (ws : List (UInt8 × UInt8)) (last : Bool) (i : KnjItem) :
    knjText ws last [i] = i.text ws last := rfl

theorem knjText_cons (ws : List (UInt8 × UInt8)) (last : Bool) (i : KnjItem)
    {is : List KnjItem} (h : is ≠ []) :
    knjText ws last (i :: is) = i.text ws false ++ knjText ws last is := by
  cases is with
  | nil => exact absurd rfl h
  | cons j is => rfl

theorem knjText_append (ws : List (UInt8 × UInt8)) (last : Bool) (is : List KnjItem)
    {js : List KnjItem} (h : js ≠ []) :
    knjText ws last (is ++ js) = knjText ws false is ++ knjText ws last js := by
  induction is with
  | nil => rfl
  | cons i is ih =>
      rw [List.cons_append, knjText_cons ws last i (by simp [h]), ih]
      cases is with
      | nil => rfl
      | cons k is => rw [knjText_cons ws false i (by simp), List.append_assoc]

/-! ## The code of an item -/

theorem KnjItem.codesize_code (i : KnjItem) (p : Bytes) :
    codesize ((i.code ++ p).headD 0) = i.code.length := by
  cases i with
  | chr ch =>
      obtain ⟨c, c', hcode, hsize⟩ := Sj3.codesize_code ch
      rw [code, hcode]
      exact hsize
  | hira n => exact (hiraCode_facts ⟨n + 1, by omega⟩ (Nat.succ_ne_zero _)).2.2.1
  | kata n => exact (kataCode_facts ⟨n + 1, by omega⟩ (Nat.succ_ne_zero _)).2.2.1

theorem getD_append_length (l p : Bytes) : (l ++ p).getD l.length 0 = p.headD 0 := by
  induction l with
  | nil => cases p <;> rfl
  | cons c l ih => exact ih

/-- What `makekan` makes of the first code at `s`. -/
def makeOne (ref : SegRef) (fuel : ℕ) (s : Bytes) (f : Bool) : Bytes :=
  let mode := s.headD 0 &&& kanjiModeMask
  let term := if f then [kanjiStrEnd] else []
  if mode = zenHiraAssyuku ∨ mode = zenKataAssyuku then makekan1byte s ++ term
  else if mode = offsetAssyuku then
    makekan ref fuel
      (ref.dicbuf.drop ((s.headD 0 &&& kanjiCodeMask).toNat * 0x100 + (s.getD 1 0).toNat)) f
  else if mode = aiAttribute then []
  else if mode = leadingHankaku then getkanAscii s ++ term
  else if mode = kanjiAssyuku then
    makekan ref fuel (ref.askknj.getD (s.headD 0 &&& kanjiCodeMask).toNat []) f
  else getkanNorm s ++ term

theorem makekan_succ (ref : SegRef) (fuel : ℕ) (s : Bytes) (flg : Bool) :
    makekan ref (fuel + 1) s flg =
      if s.getD (codesize (s.headD 0)) 0 = kanjiStrEnd then makeOne ref fuel s flg
      else makeOne ref fuel s false ++
        makekan ref fuel (s.drop (codesize (s.headD 0))) flg := rfl

theorem makeOne_ascii (ref : SegRef) (fuel : ℕ) (c : UInt8) (p : Bytes) (f : Bool) :
    makeOne ref fuel (leadingHankaku :: c :: p) f =
      getkanAscii (leadingHankaku :: c :: p) ++ if f then [kanjiStrEnd] else [] := by
  have hmode : leadingHankaku &&& kanjiModeMask = leadingHankaku := by decide
  have h₁ : ¬ (leadingHankaku = zenHiraAssyuku ∨ leadingHankaku = zenKataAssyuku) := by decide
  have h₃ : leadingHankaku ≠ offsetAssyuku := by decide
  have h₄ : leadingHankaku ≠ aiAttribute := by decide
  rw [makeOne, List.headD_cons, hmode, if_neg h₁, if_neg h₃, if_neg h₄, if_pos rfl]

theorem makeOne_norm (ref : SegRef) (fuel : ℕ) {c : UInt8} (h : 0xa1 ≤ c ∧ c ≤ 0xfe) (p : Bytes)
    (f : Bool) :
    makeOne ref fuel ((c &&& normalKanjiMask) :: p) f =
      getkanNorm ((c &&& normalKanjiMask) :: p) ++ if f then [kanjiStrEnd] else [] := by
  obtain ⟨n₁, n₂, n₃, n₄, n₅, n₆⟩ := mask_row_mode h
  rw [makeOne, List.headD_cons, if_neg (not_or.mpr ⟨n₁, n₂⟩), if_neg n₃, if_neg n₄, if_neg n₅,
    if_neg n₆]

/-- The code of a character is written in the same way by both functions. -/
theorem makeOne_code (ref : SegRef) (fuel : ℕ) (ch : EucChar) (p : Bytes) (f : Bool) :
    makeOne ref fuel (ch.code ++ p) f = ch.bytes ++ if f then [kanjiStrEnd] else [] := by
  have hexpand : expandOne (fun _ => 0) ref fuel (ch.code ++ p) [] 0 f = ch.bytes :=
    expandOne_code ch p f
  cases ch with
  | ascii c h =>
      simp only [EucChar.code, List.cons_append, expandOne_ascii] at hexpand ⊢
      rw [makeOne_ascii, hexpand]
  | hankaku c h =>
      simp only [EucChar.code, List.cons_append, expandOne_ascii] at hexpand ⊢
      rw [makeOne_ascii, hexpand]
  | jisx0208 c₁ c₂ h₁ h₂ =>
      simp only [EucChar.code, List.cons_append, expandOne_norm h₁] at hexpand ⊢
      rw [makeOne_norm ref fuel h₁, hexpand]
  | jisx0212 c₁ c₂ h₁ h₂ =>
      simp only [EucChar.code, List.cons_append, expandOne_norm h₁] at hexpand ⊢
      rw [makeOne_norm ref fuel h₁, hexpand]

theorem abbreviation_facts : ∀ n : Fin 16,
    hiraCode (n + 1) &&& kanjiModeMask = zenHiraAssyuku ∧
      kataCode (n + 1) &&& kanjiModeMask = zenKataAssyuku ∧
      hiraCode (n + 1) &&& kanjiCodeMask = UInt8.ofNat n ∧
      kataCode (n + 1) &&& kanjiCodeMask = UInt8.ofNat n ∧ (UInt8.ofNat n).toNat = n := by
  decide

theorem makeOne_item (ref : SegRef) (fuel : ℕ) (i : KnjItem) (p : Bytes) (f : Bool) :
    makeOne ref fuel (i.code ++ p) f = i.form ++ if f then [kanjiStrEnd] else [] := by
  cases i with
  | chr ch => exact makeOne_code ref fuel ch p f
  | hira n =>
      obtain ⟨hmode, -, hcode, -⟩ := abbreviation_facts n
      simp only [KnjItem.code, List.singleton_append, makeOne, List.headD_cons, hmode,
        makekan1byte, hcode, if_pos, true_or, KnjItem.form]
  | kata n =>
      obtain ⟨-, hmode, -, hcode, -⟩ := abbreviation_facts n
      have hne : zenKataAssyuku ≠ zenHiraAssyuku := by decide
      simp only [KnjItem.code, List.singleton_append, makeOne, List.headD_cons, hmode,
        makekan1byte, hcode, if_neg hne, if_pos, or_true, KnjItem.form]

theorem SegRef.target_cases {ref : SegRef} {s t : Bytes} (ht : ref.target s = some t) :
    (s.headD 0 &&& kanjiModeMask = offsetAssyuku ∧
      t = ref.dicbuf.drop
        ((s.headD 0 &&& kanjiCodeMask).toNat * 0x100 + (s.getD 1 0).toNat)) ∨
      (s.headD 0 &&& kanjiModeMask = kanjiAssyuku ∧
        t = ref.askknj.getD (s.headD 0 &&& kanjiCodeMask).toNat []) := by
  simp only [target] at ht
  split at ht
  · exact .inl ⟨‹_›, (Option.some.inj ht).symm⟩
  · split at ht
    · exact .inr ⟨‹_›, (Option.some.inj ht).symm⟩
    · cases ht

theorem makeOne_target {ref : SegRef} {s t : Bytes} (fuel : ℕ) (f : Bool)
    (ht : ref.target s = some t) : makeOne ref fuel s f = makekan ref fuel t f := by
  rcases SegRef.target_cases ht with ⟨hmode, rfl⟩ | ⟨hmode, rfl⟩
  · have h₁ : ¬ (offsetAssyuku = zenHiraAssyuku ∨ offsetAssyuku = zenKataAssyuku) := by decide
    simp only [makeOne, hmode, if_neg h₁, if_pos]
  · have h₁ : ¬ (kanjiAssyuku = zenHiraAssyuku ∨ kanjiAssyuku = zenKataAssyuku) := by decide
    have h₂ : kanjiAssyuku ≠ offsetAssyuku := by decide
    have h₃ : kanjiAssyuku ≠ aiAttribute := by decide
    have h₄ : kanjiAssyuku ≠ leadingHankaku := by decide
    simp only [makeOne, hmode, if_neg h₁, if_neg h₂, if_neg h₃, if_neg h₄, if_pos]

theorem makeOne_attr {ref : SegRef} {s : Bytes} (fuel : ℕ) (f : Bool)
    (ha : s.headD 0 &&& kanjiModeMask = aiAttribute) : makeOne ref fuel s f = [] := by
  have h₁ : ¬ (aiAttribute = zenHiraAssyuku ∨ aiAttribute = zenKataAssyuku) := by decide
  have h₂ : aiAttribute ≠ offsetAssyuku := by decide
  simp only [makeOne, ha, if_neg h₁, if_neg h₂, if_pos]

/-- What `makekan` makes of a string. -/
theorem Spells.makekan {ref : SegRef} {n : ℕ} {s : Bytes} {is : List KnjItem}
    (h : Spells ref n s is) {fuel : ℕ} (hn : n ≤ fuel) (flg : Bool) :
    makekan ref fuel s flg = knjForm is ++ if flg then [kanjiStrEnd] else [] := by
  induction h generalizing fuel flg with
  | @last n p i hp =>
      obtain ⟨fuel, rfl⟩ := Nat.exists_eq_add_of_le' hn
      rw [← Nat.add_assoc, makekan_succ, i.codesize_code, getD_append_length, if_pos hp,
        makeOne_item, knjForm_cons, knjForm_nil, List.append_nil]
  | @item n p is i hp h ih =>
      obtain ⟨fuel, rfl⟩ := Nat.exists_eq_add_of_le' hn
      rw [← Nat.add_assoc, makekan_succ, i.codesize_code, getD_append_length, if_neg hp,
        makeOne_item, List.drop_left, ih (by omega), knjForm_cons]
      simp
  | refLast ht hp h ih =>
      obtain ⟨fuel, rfl⟩ := Nat.exists_eq_add_of_le' hn
      rw [← Nat.add_assoc, makekan_succ, if_pos hp, makeOne_target _ _ ht, ih (by omega)]
  | ref ht hp h hs ih ihs =>
      obtain ⟨fuel, rfl⟩ := Nat.exists_eq_add_of_le' hn
      rw [← Nat.add_assoc, makekan_succ, if_neg hp, makeOne_target _ _ ht, ih (by omega),
        ihs (by omega), knjForm_append]
      simp
  | attr ha hp hs ih =>
      obtain ⟨fuel, rfl⟩ := Nat.exists_eq_add_of_le' hn
      rw [← Nat.add_assoc, makekan_succ, if_neg hp, makeOne_attr _ _ ha, ih (by omega),
        List.nil_append]

/-! ## Expansion -/

section Expand

variable {below : ℕ → UInt8} {ref : SegRef} {ps : List (UInt8 × UInt8)} {yl : ℕ}

theorem flat_eq_take (ps : List (UInt8 × UInt8)) (yl : ℕ) :
    flat ps = flat (ps.take yl) ++ flat (ps.drop yl) := by
  rw [← flat_append, List.take_append_drop]

/-- The last characters of a word whose reading starts `ps`. -/
theorem around_flat_take {n : ℕ} (hyl : yl ≤ ps.length) (hn : n ≤ yl) :
    around below (flat ps) (((yl : ℤ) - n) * 2) =
      flat ((ps.take yl).drop ((ps.take yl).length - n)) ++ flat (ps.drop yl) := by
  have hlen : (ps.take yl).length = yl := List.length_take_of_le hyl
  have hn' : n ≤ (ps.take yl).length := by omega
  have hlast : around below (flat (ps.take yl) ++ flat (ps.drop yl))
      ((((ps.take yl).length : ℤ) - n) * 2) = _ := around_flat hn' (flat (ps.drop yl))
  rw [← flat_eq_take] at hlast
  rwa [hlen] at hlast ⊢

/-- The stretch of the reading at which an abbreviation starts. -/
theorem exists_askStart {n : ℕ} (hyl : yl ≤ ps.length) (hn : n ≤ yl) {s : Bytes} (f : Bool)
    (hcount : askCount s = n)
    (hlast : f = true → s.getD (codesize (s.headD 0)) 0 = kanjiStrEnd) :
    ∃ qs rest, askStart below s (flat ps) yl f = flat qs ++ rest ∧ n ≤ qs.length ∧
      qs.take n = stretch (ps.take yl) n f ∧ ∀ p ∈ qs, p ∈ ps := by
  have hlen : (ps.take yl).length = yl := List.length_take_of_le hyl
  cases f with
  | false =>
      refine ⟨ps.take yl, flat (ps.drop yl), ?_, by omega, rfl, fun p hp => List.mem_of_mem_take hp⟩
      rw [askStart, if_neg (by simp), ← flat_eq_take]
  | true =>
      refine ⟨(ps.take yl).drop ((ps.take yl).length - n), flat (ps.drop yl), ?_, ?_, ?_, ?_⟩
      · rw [askStart, if_pos ⟨rfl, hlast rfl⟩, hcount, around_flat_take hyl hn]
      · rw [List.length_drop, hlen]
        omega
      · rw [stretch, if_pos rfl, List.take_of_length_le]
        rw [List.length_drop]
        omega
      · exact fun p hp => List.mem_of_mem_take (List.mem_of_mem_drop hp)

theorem expandOne_item (hps : ∀ p ∈ ps, IsYomiPair p) (hyl : yl ≤ ps.length) (fuel : ℕ)
    (i : KnjItem) (hcount : i.count ≤ yl) (p : Bytes) (f : Bool)
    (hlast : f = true → p.headD 0 = kanjiStrEnd) :
    expandOne below ref fuel (i.code ++ p) (flat ps) yl f = i.text (ps.take yl) f := by
  have hnext : (i.code ++ p).getD (codesize ((i.code ++ p).headD 0)) 0 = p.headD 0 := by
    rw [i.codesize_code, getD_append_length]
  have hask : ∀ n, askCount (i.code ++ p) = n → n ≤ yl →
      ∃ qs rest, askStart below (i.code ++ p) (flat ps) yl f = flat qs ++ rest ∧ n ≤ qs.length ∧
        qs.take n = stretch (ps.take yl) n f ∧ ∀ p ∈ qs, p ∈ ps := fun n hn hle =>
    exists_askStart hyl hle f hn fun hf => hnext.trans (hlast hf)
  cases i with
  | chr ch => exact expandOne_code ch p f
  | hira n =>
      obtain ⟨hmode, -, -⟩ := abbreviation_facts n
      have hcnt : askCount ((KnjItem.hira n).code ++ p) = n + 1 :=
        (hiraCode_facts ⟨n + 1, by omega⟩ (Nat.succ_ne_zero _)).2.2.2.2
      obtain ⟨qs, rest, hstart, hle, htake, -⟩ := hask _ hcnt hcount
      have hone : expandOne below ref fuel ((KnjItem.hira n).code ++ p) (flat ps) yl f =
          getkanHira below ((KnjItem.hira n).code ++ p) (flat ps) yl f := if_pos hmode
      rw [hone, getkanHira, hcnt, hstart, readN_flat hle, htake]
      rfl
  | kata n =>
      obtain ⟨-, hmode, -⟩ := abbreviation_facts n
      have hcnt : askCount ((KnjItem.kata n).code ++ p) = n + 1 :=
        (kataCode_facts ⟨n + 1, by omega⟩ (Nat.succ_ne_zero _)).2.2.2.2
      have hne : ¬ kataCode (n + 1) &&& kanjiModeMask = zenHiraAssyuku := by
        rw [hmode]
        decide
      obtain ⟨qs, rest, hstart, hle, htake, hmem⟩ := hask _ hcnt hcount
      have hone : expandOne below ref fuel ((KnjItem.kata n).code ++ p) (flat ps) yl f =
          getkanKata below ((KnjItem.kata n).code ++ p) (flat ps) yl f :=
        (if_neg hne).trans (if_pos hmode)
      rw [hone, getkanKata, hcnt, hstart, kataN_flat (fun p hp => hps p (hmem p hp)) hle, htake]
      rfl

theorem expandOne_target {s t ym : Bytes} (fuel : ℕ) (f : Bool) (ht : ref.target s = some t) :
    expandOne below ref fuel s ym yl f = code2kanji below ref fuel t ym yl f := by
  rcases SegRef.target_cases ht with ⟨hmode, rfl⟩ | ⟨hmode, rfl⟩
  · have h₁ : offsetAssyuku ≠ zenHiraAssyuku := by decide
    have h₂ : offsetAssyuku ≠ zenKataAssyuku := by decide
    simp only [expandOne, hmode, if_neg h₁, if_neg h₂, if_pos]
  · have h₀ : kanjiAssyuku ≠ zenHiraAssyuku := by decide
    have h₁ : kanjiAssyuku ≠ zenKataAssyuku := by decide
    have h₂ : kanjiAssyuku ≠ offsetAssyuku := by decide
    have h₃ : kanjiAssyuku ≠ aiAttribute := by decide
    have h₄ : kanjiAssyuku ≠ leadingHankaku := by decide
    simp only [expandOne, hmode, if_neg h₀, if_neg h₁, if_neg h₂, if_neg h₃, if_neg h₄, if_pos]

theorem expandOne_attr {s ym : Bytes} (fuel : ℕ) (f : Bool)
    (ha : s.headD 0 &&& kanjiModeMask = aiAttribute) :
    expandOne below ref fuel s ym yl f = [] := by
  have h₁ : aiAttribute ≠ zenHiraAssyuku := by decide
  have h₂ : aiAttribute ≠ zenKataAssyuku := by decide
  have h₃ : aiAttribute ≠ offsetAssyuku := by decide
  simp only [expandOne, ha, if_neg h₁, if_neg h₂, if_neg h₃, if_pos]

/-- What `getkanji` makes of a string. -/
theorem Spells.code2kanji (hps : ∀ p ∈ ps, IsYomiPair p) (hyl : yl ≤ ps.length) {n : ℕ}
    {s : Bytes} {is : List KnjItem} (h : Spells ref n s is) (hcount : ∀ i ∈ is, i.count ≤ yl)
    {fuel : ℕ} (hn : n ≤ fuel) (flg : Bool) :
    code2kanji below ref fuel s (flat ps) yl flg = knjText (ps.take yl) flg is := by
  induction h generalizing fuel flg with
  | @last n p i hp =>
      obtain ⟨fuel, rfl⟩ := Nat.exists_eq_add_of_le' hn
      rw [← Nat.add_assoc, code2kanji_succ, i.codesize_code, getD_append_length, if_pos hp,
        expandOne_item hps hyl _ i (hcount i List.mem_cons_self) p flg fun _ => hp]
      rfl
  | @item n p is i hp h ih =>
      obtain ⟨fuel, rfl⟩ := Nat.exists_eq_add_of_le' hn
      rw [← Nat.add_assoc, code2kanji_succ, i.codesize_code, getD_append_length, if_neg hp,
        expandOne_item hps hyl _ i (hcount i List.mem_cons_self) p false nofun, List.drop_left,
        ih (fun j hj => hcount j (List.mem_cons_of_mem _ hj)) (by omega),
        knjText_cons _ _ _ h.ne_nil]
  | refLast ht hp h ih =>
      obtain ⟨fuel, rfl⟩ := Nat.exists_eq_add_of_le' hn
      rw [← Nat.add_assoc, code2kanji_succ, if_pos hp, expandOne_target _ _ ht,
        ih hcount (by omega)]
  | ref ht hp h hs ih ihs =>
      obtain ⟨fuel, rfl⟩ := Nat.exists_eq_add_of_le' hn
      rw [← Nat.add_assoc, code2kanji_succ, if_neg hp, expandOne_target _ _ ht,
        ih (fun j hj => hcount j (List.mem_append_left _ hj)) (by omega),
        ihs (fun j hj => hcount j (List.mem_append_right _ hj)) (by omega),
        knjText_append _ _ _ hs.ne_nil]
  | attr ha hp hs ih =>
      obtain ⟨fuel, rfl⟩ := Nat.exists_eq_add_of_le' hn
      rw [← Nat.add_assoc, code2kanji_succ, if_neg hp, expandOne_attr _ _ ha,
        ih hcount (by omega), List.nil_append]

end Expand

end Sj3
