import Mathlib.Data.Bool.AllAny
import Sj3.Verification.Kanji.Items

/-! # Equal texts

What `sameknj` takes for one text, and when it is one. -/

namespace Sj3

/-! ## The forms of items -/

theorem eucCodesize_facts :
    (∀ c : UInt8, c < 0x80 → eucCodesize c = 1) ∧
      (∀ c : UInt8, 0xa1 ≤ c → eucCodesize c = 2) ∧
      (∀ c : UInt8, c &&& kanjiModeMask = 0x10 → eucCodesize c = 1 ∧
        c = 0x10 ||| UInt8.ofNat (c &&& kanjiCodeMask).toNat ∧
          (c &&& kanjiCodeMask).toNat < 16) := by
  refine ⟨?_, ?_, ?_⟩
  all_goals
    apply Byte.forall_of_fin
    decide +kernel

theorem hiraForm_facts : ∀ n : Fin 16,
    eucCodesize (0x10 ||| UInt8.ofNat n) = 1 ∧ eucCodesize (0x90 ||| UInt8.ofNat n) = 1 ∧
      (0x10 ||| UInt8.ofNat n : UInt8) &&& kanjiModeMask = 0x10 ∧
      ((0x10 ||| UInt8.ofNat n : UInt8) &&& kanjiCodeMask).toNat = n ∧
      (0x10 ||| UInt8.ofNat n : UInt8) ≠ 0 ∧ (0x90 ||| UInt8.ofNat n : UInt8) ≠ 0 ∧
      (0x10 ||| UInt8.ofNat n : UInt8) < 0x20 := by
  decide

namespace KnjItem

theorem form_ne_nil (i : KnjItem) : i.form ≠ [] := by
  cases i with
  | chr ch => exact List.ne_nil_of_length_pos ch.length_pos
  | hira n => exact List.cons_ne_nil _ _
  | kata n => exact List.cons_ne_nil _ _

theorem zero_notMem_form (i : KnjItem) : 0 ∉ i.form := by
  cases i with
  | chr ch => exact ch.zero_notMem
  | hira n => simpa [form] using (hiraForm_facts n).2.2.2.2.1.symm
  | kata n => simpa [form] using (hiraForm_facts n).2.2.2.2.2.1.symm

theorem eucCodesize_form (i : KnjItem) (p : Bytes) :
    eucCodesize ((i.form ++ p).headD 0) = i.form.length := by
  cases i with
  | chr ch =>
      cases ch with
      | ascii c h => exact eucCodesize_facts.1 c h.2
      | hankaku c h => exact (by decide : eucCodesize ss2 = 2)
      | jisx0208 c₁ c₂ h₁ h₂ => exact eucCodesize_facts.2.1 c₁ h₁.1
      | jisx0212 c₁ c₂ h₁ h₂ => exact (by decide : eucCodesize ss3 = 3)
  | hira n => exact (hiraForm_facts n).1
  | kata n => exact (hiraForm_facts n).2.1

theorem headD_form_ne (i : KnjItem) (p : Bytes) : (i.form ++ p).headD 0 ≠ 0 := by
  have hzero := i.zero_notMem_form
  cases hform : i.form with
  | nil => exact absurd hform i.form_ne_nil
  | cons b bs =>
      rw [hform, List.mem_cons, not_or] at hzero
      exact Ne.symm hzero.1

end KnjItem

open KnjItem

theorem length_le_knjForm (is : List KnjItem) : is.length ≤ (knjForm is).length := by
  induction is with
  | nil => rfl
  | cons i is ih =>
      have hpos := List.length_pos_of_ne_nil i.form_ne_nil
      rw [knjForm_cons, List.length_append, List.length_cons]
      omega

/-- What `sameknj` is given for a string. -/
def knjKan (is : List KnjItem) : Bytes := knjForm is ++ [kanjiStrEnd]

theorem knjKan_cons (i : KnjItem) (is : List KnjItem) : knjKan (i :: is) = i.form ++ knjKan is := by
  rw [knjKan, knjForm_cons, List.append_assoc, knjKan]

theorem headD_knjKan (is : List KnjItem) : (knjKan is).headD 0 = kanjiStrEnd ↔ is = [] := by
  cases is with
  | nil => exact iff_of_true rfl rfl
  | cons i is =>
      rw [knjKan_cons]
      exact iff_of_false (i.headD_form_ne _) (List.cons_ne_nil _ _)

/-- The abbreviations for the last characters, and the control characters that look the
same. -/
theorem headD_mode_iff (i : KnjItem) (p : Bytes) :
    (i.form ++ p).headD 0 &&& kanjiModeMask = 0x10 ↔ ∃ n, i.form = (hira n).form := by
  constructor
  · intro hmode
    obtain ⟨hsize, hcode, hlt⟩ := eucCodesize_facts.2.2 _ hmode
    rw [i.eucCodesize_form] at hsize
    obtain ⟨b, hb⟩ := List.length_eq_one_iff.mp hsize
    rw [hb, List.singleton_append, List.headD_cons] at hcode hlt
    refine ⟨⟨(b &&& kanjiCodeMask).toNat, hlt⟩, ?_⟩
    rw [hb, form]
    exact congrArg (fun c => [c]) hcode
  · rintro ⟨n, hn⟩
    rw [hn]
    exact (hiraForm_facts n).2.2.1

theorem headD_code {i : KnjItem} {n : Fin 16} (h : i.form = (hira n).form) (p : Bytes) :
    ((i.form ++ p).headD 0 &&& kanjiCodeMask).toNat = n := by
  rw [h]
  exact (hiraForm_facts n).2.2.2.1

theorem form_hira_inj {n m : Fin 16} (h : (hira n).form = (hira m).form) : n = m := by
  have hn := headD_code (i := hira n) rfl []
  rw [h, headD_code rfl] at hn
  exact (Fin.ext hn).symm

theorem lastHira_knjKan (i : KnjItem) (is : List KnjItem) :
    lastHira (knjKan (i :: is)) = true ↔ is = [] ∧ ∃ n, i.form = (hira n).form := by
  rw [lastHira, knjKan_cons, eucCodesize_form, getD_append_length, Bool.and_eq_true,
    decide_eq_true_iff, decide_eq_true_iff, headD_knjKan, headD_mode_iff]

/-! ## What is taken for one text -/

/-- The strings `P` and `Q` of words of `plen` and `qlen` characters look like one text: they
look the same, one of them has one more code for the characters between the ends of the two
words, or their last codes stand for stretches that start at one place. -/
inductive Alike (P : List KnjItem) (plen : ℕ) (Q : List KnjItem) (qlen : ℕ) : Prop
  | same (hlen : plen = qlen) (h : P.map form = Q.map form)
  | longer (n : Fin 16) (hlen : plen = qlen + n + 1) (h : P.map form = (Q ++ [hira n]).map form)
  | shorter (n : Fin 16) (hlen : qlen = plen + n + 1) (h : Q.map form = (P ++ [hira n]).map form)
  | parted (C : List KnjItem) (n m : Fin 16) (hne : n ≠ m) (hlen : plen + m = qlen + n)
      (hP : P.map form = (C ++ [hira n]).map form) (hQ : Q.map form = (C ++ [hira m]).map form)

theorem Alike.symm {P Q : List KnjItem} {plen qlen : ℕ} (h : Alike P plen Q qlen) :
    Alike Q qlen P plen := by
  cases h with
  | same hlen h => exact .same hlen.symm h.symm
  | longer n hlen h => exact .shorter n hlen h
  | shorter n hlen h => exact .longer n hlen h
  | parted C n m hne hlen hP hQ => exact .parted C m n hne.symm hlen.symm hQ hP

/-- The verdict of `sameknj` on how its loop ends. -/
def knjVerdict (plen qlen : ℕ) : KnjEnd → Bool :=
  let rest (p : Bytes) (plen qlen : ℤ) : Bool :=
    lastHira p && qlen = plen - (p.headD 0 &&& kanjiCodeMask).toNat - 1
  fun
  | .size => false
  | .ends true true _ _ => plen = qlen
  | .ends true false _ q => rest q qlen plen
  | .ends false _ p _ => rest p plen qlen
  | .differ p q =>
      lastHira q && lastHira p &&
        (plen : ℤ) - (p.headD 0 &&& kanjiCodeMask).toNat =
          (qlen : ℤ) - (q.headD 0 &&& kanjiCodeMask).toNat

theorem sameknj_eq (p : Bytes) (plen : ℕ) (q : Bytes) (qlen : ℕ) :
    sameknj p plen q qlen = knjVerdict plen qlen (sameknjLoop (p.length + 1) p q) := rfl

theorem readN_form (i : KnjItem) (p : Bytes) : readN i.form.length (i.form ++ p) = i.form := by
  rw [readN_eq_take (by rw [List.length_append]; omega), List.take_left]

/-- One step of the loop over items that look the same. -/
theorem sameknjLoop_same {i j : KnjItem} (h : i.form = j.form) (n : ℕ) (P Q : List KnjItem) :
    sameknjLoop (n + 1) (knjKan (i :: P)) (knjKan (j :: Q)) =
      if P = [] ∨ Q = [] then
        .ends (decide ((knjKan P).headD 0 = kanjiStrEnd))
          (decide ((knjKan Q).headD 0 = kanjiStrEnd))
          (knjKan P) (knjKan Q)
      else sameknjLoop n (knjKan P) (knjKan Q) := by
  rw [knjKan_cons, knjKan_cons, sameknjLoop]
  simp only [eucCodesize_form, h, ne_eq, not_true_eq_false, if_false, getD_append_length,
    headD_knjKan, List.drop_left, readN_form]

theorem sameknjLoop_differ {i j : KnjItem} (h : i.form ≠ j.form) (n : ℕ) (P Q : List KnjItem) :
    sameknjLoop (n + 1) (knjKan (i :: P)) (knjKan (j :: Q)) =
      if i.form.length ≠ j.form.length then .size
      else .differ (knjKan (i :: P)) (knjKan (j :: Q)) := by
  rw [knjKan_cons, knjKan_cons, sameknjLoop]
  simp only [eucCodesize_form]
  by_cases hlen : i.form.length = j.form.length
  · have hread : readN i.form.length (j.form ++ knjKan Q) = j.form := hlen ▸ readN_form j _
    rw [if_neg (not_not.mpr hlen), if_neg (not_not.mpr hlen), readN_form, hread, if_pos h]
  · rw [if_pos hlen, if_pos hlen]

theorem rest_iff (i : KnjItem) (is : List KnjItem) (plen qlen : ℕ) :
    (lastHira (knjKan (i :: is)) &&
        (qlen : ℤ) = plen - ((knjKan (i :: is)).headD 0 &&& kanjiCodeMask).toNat - 1) = true ↔
      is = [] ∧ ∃ n, i.form = (hira n).form ∧ plen = qlen + n + 1 := by
  rw [Bool.and_eq_true, lastHira_knjKan, decide_eq_true_iff, knjKan_cons]
  constructor
  · rintro ⟨⟨his, n, hn⟩, hlen⟩
    rw [headD_code hn] at hlen
    exact ⟨his, n, hn, by omega⟩
  · rintro ⟨his, n, hn, hlen⟩
    refine ⟨⟨his, n, hn⟩, ?_⟩
    rw [headD_code hn]
    omega

theorem alike_nil_cons {i j k : KnjItem} {Q : List KnjItem} {plen qlen : ℕ}
    (h : i.form = j.form) :
    Alike [i] plen (j :: k :: Q) qlen ↔
      Q = [] ∧ ∃ n, k.form = (hira n).form ∧ qlen = plen + n + 1 := by
  constructor
  · intro ha
    cases ha with
    | same hlen heq => simp at heq
    | longer n hlen heq => simp at heq
    | shorter n hlen heq =>
        simp only [List.map_cons, List.map_nil, List.cons_append,
          List.nil_append, List.cons.injEq, List.map_eq_nil_iff] at heq
        exact ⟨heq.2.2, n, heq.2.1, hlen⟩
    | parted C n m hne hlen hP hQ =>
        have hlenP := congrArg List.length hP
        have hlenQ := congrArg List.length hQ
        simp only [List.length_map, List.length_append, List.length_cons, List.length_nil]
          at hlenP hlenQ
        omega
  · rintro ⟨rfl, n, hn, hlen⟩
    exact .shorter n hlen (by simp [h, hn])

theorem alike_cons_cons {i j : KnjItem} {P Q : List KnjItem} {plen qlen : ℕ}
    (h : i.form = j.form) (hP : P ≠ []) :
    Alike (i :: P) plen (j :: Q) qlen ↔ Alike P plen Q qlen := by
  constructor
  · intro ha
    cases ha with
    | same hlen heq => exact .same hlen (List.cons.inj heq).2
    | longer n hlen heq => exact .longer n hlen (List.cons.inj heq).2
    | shorter n hlen heq => exact .shorter n hlen (List.cons.inj heq).2
    | parted C n m hne hlen hP' hQ' =>
        cases C with
        | nil => exact absurd (List.map_eq_nil_iff.mp (List.cons.inj hP').2) hP
        | cons c C => exact .parted C n m hne hlen (List.cons.inj hP').2 (List.cons.inj hQ').2
  · intro ha
    cases ha with
    | same hlen heq => exact .same hlen (List.cons_eq_cons.mpr ⟨h, heq⟩)
    | longer n hlen heq => exact .longer n hlen (List.cons_eq_cons.mpr ⟨h, heq⟩)
    | shorter n hlen heq => exact .shorter n hlen (List.cons_eq_cons.mpr ⟨h.symm, heq⟩)
    | parted C n m hne hlen hP' hQ' =>
        exact .parted (i :: C) n m hne hlen (List.cons_eq_cons.mpr ⟨rfl, hP'⟩)
          (List.cons_eq_cons.mpr ⟨h.symm, hQ'⟩)

theorem alike_differ {i j : KnjItem} {P Q : List KnjItem} {plen qlen : ℕ}
    (h : i.form ≠ j.form) :
    Alike (i :: P) plen (j :: Q) qlen ↔
      (Q = [] ∧ ∃ m, j.form = (hira m).form) ∧ (P = [] ∧ ∃ n, i.form = (hira n).form) ∧
        ∀ n m : Fin 16, i.form = (hira n).form → j.form = (hira m).form →
          plen + m = qlen + n := by
  constructor
  · intro ha
    cases ha with
    | same hlen heq => exact absurd (List.cons.inj heq).1 h
    | longer n hlen heq => exact absurd (List.cons.inj heq).1 h
    | shorter n hlen heq => exact absurd (List.cons.inj heq).1.symm h
    | parted C n m hne hlen hP hQ =>
        cases C with
        | nil =>
            obtain ⟨hi, hP⟩ := List.cons.inj hP
            obtain ⟨hj, hQ⟩ := List.cons.inj hQ
            refine ⟨⟨List.map_eq_nil_iff.mp hQ, m, hj⟩, ⟨List.map_eq_nil_iff.mp hP, n, hi⟩, ?_⟩
            intro n' m' hn hm
            obtain rfl := form_hira_inj (hi.symm.trans hn)
            obtain rfl := form_hira_inj (hj.symm.trans hm)
            exact hlen
        | cons c C =>
            exact absurd ((List.cons.inj hP).1.trans (List.cons.inj hQ).1.symm) h
  · rintro ⟨⟨rfl, m, hm⟩, ⟨rfl, n, hn⟩, hlen⟩
    refine .parted [] n m ?_ (hlen n m hn hm) (by simp [hn]) (by simp [hm])
    rintro rfl
    exact h (hn.trans hm.symm)

/-- `sameknj` accepts the strings that look alike. -/
theorem knjVerdict_iff {P Q : List KnjItem} (hP : P ≠ []) (hQ : Q ≠ []) (plen qlen : ℕ) {n : ℕ}
    (hn : P.length ≤ n) :
    knjVerdict plen qlen (sameknjLoop n (knjKan P) (knjKan Q)) = true ↔ Alike P plen Q qlen := by
  induction P generalizing Q n with
  | nil => exact absurd rfl hP
  | cons i P ih =>
      cases Q with
      | nil => exact absurd rfl hQ
      | cons j Q =>
          cases n with
          | zero => cases hn
          | succ n =>
              by_cases h : i.form = j.form
              · rw [sameknjLoop_same h]
                cases P with
                | nil =>
                    cases Q with
                    | nil =>
                        have hsame : Alike [i] plen [j] qlen ↔ plen = qlen := by
                          constructor
                          · intro ha
                            cases ha with
                            | same hlen heq => exact hlen
                            | longer n hlen heq => simp at heq
                            | shorter n hlen heq => simp at heq
                            | parted C n m hne hlen hP hQ =>
                                cases C with
                                | nil =>
                                    have hi := (List.cons.inj hP).1
                                    have hj := (List.cons.inj hQ).1
                                    exact absurd (form_hira_inj (hi.symm.trans (h.trans hj))) hne
                                | cons c C => simp at hP
                          · exact fun hlen => .same hlen (by simp [h])
                        rw [if_pos (.inl rfl), hsame]
                        exact decide_eq_true_iff
                    | cons k Q =>
                        rw [if_pos (.inl rfl), alike_nil_cons h,
                          decide_eq_true ((headD_knjKan []).mpr rfl),
                          decide_eq_false (mt (headD_knjKan (k :: Q)).mp (List.cons_ne_nil _ _))]
                        exact rest_iff k Q qlen plen
                | cons k P =>
                    cases Q with
                    | nil =>
                        have hsymm : Alike (i :: k :: P) plen [j] qlen ↔
                            Alike [j] qlen (i :: k :: P) plen := ⟨Alike.symm, Alike.symm⟩
                        rw [if_pos (.inr rfl), hsymm, alike_nil_cons h.symm,
                          decide_eq_false (mt (headD_knjKan (k :: P)).mp (List.cons_ne_nil _ _))]
                        exact rest_iff k P plen qlen
                    | cons l Q =>
                        rw [if_neg (by simp), alike_cons_cons h (List.cons_ne_nil _ _)]
                        exact ih (List.cons_ne_nil _ _) (List.cons_ne_nil _ _)
                          (Nat.le_of_succ_le_succ hn)
              · rw [sameknjLoop_differ h, alike_differ h]
                by_cases hlen : i.form.length = j.form.length
                · rw [if_neg (not_not.mpr hlen), knjVerdict]
                  simp only [Bool.and_eq_true, lastHira_knjKan, decide_eq_true_iff]
                  constructor
                  · rintro ⟨⟨hq, hp⟩, hlens⟩
                    refine ⟨hq, hp, fun n m hi hj => ?_⟩
                    rw [knjKan_cons, knjKan_cons, headD_code hi, headD_code hj] at hlens
                    omega
                  · rintro ⟨hq, hp, hlens⟩
                    obtain ⟨m, hm⟩ := hq.2
                    obtain ⟨n, hn⟩ := hp.2
                    have := hlens n m hn hm
                    refine ⟨⟨hq, hp⟩, ?_⟩
                    rw [knjKan_cons, knjKan_cons, headD_code hn, headD_code hm]
                    omega
                · rw [if_pos hlen]
                  refine iff_of_false Bool.false_ne_true ?_
                  rintro ⟨⟨-, m, hm⟩, ⟨-, n, hn⟩, -⟩
                  rw [hm, hn] at hlen
                  exact hlen rfl

/-! ## Items that look the same -/

theorem EucChar.bytes_inj {ch ch' : EucChar} (h : ch.bytes = ch'.bytes) : ch = ch' := by
  have hrow : ∀ {c : UInt8}, 0xa1 ≤ c → c ≠ ss2 ∧ c ≠ ss3 := fun hc =>
    ⟨fun h => absurd (h ▸ hc) (by decide), fun h => absurd (h ▸ hc) (by decide)⟩
  cases ch <;> cases ch' <;> simp only [EucChar.bytes, List.cons.injEq, reduceCtorEq, and_true,
    and_false, true_and, ascii.injEq, hankaku.injEq, jisx0208.injEq, jisx0212.injEq] at h ⊢
  · exact h
  · exact h
  · exact absurd h.1.symm (hrow (by assumption : _ ∧ _).1).1
  · exact absurd h.1 (hrow (by assumption : _ ∧ _).1).1
  · exact h
  · exact h

/-- What looks like an abbreviation for the last characters: that or a control character. -/
theorem form_eq_hira {i : KnjItem} {n : Fin 16} (h : i.form = (hira n).form) :
    i = hira n ∨ ∃ c hc, i = chr (.ascii c hc) ∧ c = 0x10 ||| UInt8.ofNat n := by
  cases i with
  | chr ch =>
      have hlt := (hiraForm_facts n).2.2.2.2.2.2
      cases ch with
      | ascii c hc => exact .inr ⟨c, hc, rfl, (List.cons.inj h).1⟩
      | hankaku c hc => cases (List.cons.inj h).2
      | jisx0208 c₁ c₂ h₁ h₂ => cases (List.cons.inj h).2
      | jisx0212 c₁ c₂ h₁ h₂ => cases (List.cons.inj h).2
  | hira m => exact .inl (congrArg hira (form_hira_inj h))
  | kata m =>
      have htable : ∀ n m : Fin 16, (0x90 ||| UInt8.ofNat m : UInt8) ≠ 0x10 ||| UInt8.ofNat n := by
        decide
      exact absurd (List.cons.inj h).1 (htable n m)

theorem form_eq_kata {i : KnjItem} {n : Fin 16} (h : i.form = (kata n).form) : i = kata n := by
  have htable : ∀ n m : Fin 16,
    ((0x90 ||| UInt8.ofNat m : UInt8) = 0x90 ||| UInt8.ofNat n → m = n) ∧
      (0x10 ||| UInt8.ofNat m : UInt8) ≠ 0x90 ||| UInt8.ofNat n ∧
      ¬ (0x90 ||| UInt8.ofNat n : UInt8) < 0x80 := by
    decide
  cases i with
  | chr ch =>
      cases ch with
      | ascii c hc => exact absurd ((List.cons.inj h).1 ▸ hc.2) (htable n n).2.2
      | hankaku c hc => cases (List.cons.inj h).2
      | jisx0208 c₁ c₂ h₁ h₂ => cases (List.cons.inj h).2
      | jisx0212 c₁ c₂ h₁ h₂ => cases (List.cons.inj h).2
  | hira m => exact absurd (List.cons.inj h).1 (htable n m).2.1
  | kata m => exact congrArg kata ((htable n m).1 (List.cons.inj h).1)

/-- A control character and an abbreviation. -/
def Confused (i j : KnjItem) : Prop :=
  ∃ c hc n, c < 0x20 ∧ i = chr (.ascii c hc) ∧ j = hira n

theorem confused_of_form_eq {i j : KnjItem} (h : i.form = j.form) (hne : i ≠ j) :
    Confused i j ∨ Confused j i := by
  have hctrl : ∀ {i : KnjItem} {n : Fin 16}, i.form = (hira n).form → i ≠ hira n →
      Confused i (hira n) := by
    intro i n h hne
    rcases form_eq_hira h with heq | ⟨c, hc, rfl, hcode⟩
    · exact absurd heq hne
    · exact ⟨c, hc, n, hcode ▸ (hiraForm_facts n).2.2.2.2.2.2, rfl, rfl⟩
  cases j with
  | chr ch =>
      cases i with
      | chr ch' => exact absurd (congrArg chr (EucChar.bytes_inj h)) hne
      | hira n => exact .inr (hctrl h.symm hne.symm)
      | kata n => exact absurd (form_eq_kata h.symm).symm hne
  | hira n => exact .inl (hctrl h hne)
  | kata n => exact absurd (form_eq_kata h) hne

/-- Strings that look the same are the same up to the first control character that stands
for an abbreviation. -/
theorem map_form_cases {P Q : List KnjItem} (h : P.map form = Q.map form) :
    P = Q ∨ ∃ C i j P' Q', P = C ++ i :: P' ∧ Q = C ++ j :: Q' ∧ (Confused i j ∨ Confused j i) := by
  induction P generalizing Q with
  | nil => exact .inl (List.map_eq_nil_iff.mp h.symm).symm
  | cons i P ih =>
      cases Q with
      | nil => cases h
      | cons j Q =>
          obtain ⟨hij, htail⟩ := List.cons.inj h
          by_cases hne : i = j
          · subst hne
            rcases ih htail with rfl | ⟨C, i', j', P', Q', rfl, rfl, hconf⟩
            · exact .inl rfl
            · exact .inr ⟨i :: C, i', j', P', Q', rfl, rfl, hconf⟩
          · exact .inr ⟨[], i, j, P, Q, rfl, rfl, confused_of_form_eq hij hne⟩

/-! ## Displayed texts -/

section Text

variable {ps : List (UInt8 × UInt8)}

/-- The text of a word of `len` characters, and the rest of the reading behind it. -/
def shownText (ps : List (UInt8 × UInt8)) (len : ℕ) (is : List KnjItem) : Bytes :=
  knjText (ps.take len) true is ++ flat (ps.drop len)

/-- The last code of the string stands for the same text at either end of the reading. -/
def Steady (ws : List (UInt8 × UInt8)) (is : List KnjItem) : Prop :=
  ∀ i ∈ is.getLast?, i.text ws true = i.text ws false

theorem length_stretch {ws : List (UInt8 × UInt8)} {n : ℕ} (h : n ≤ ws.length) (last : Bool) :
    (stretch ws n last).length = n := by
  cases last with
  | false => exact List.length_take_of_le h
  | true =>
      rw [stretch, if_pos rfl, List.length_drop]
      omega

theorem length_text {ws : List (UInt8 × UInt8)} (i : KnjItem) (h : i.count ≤ ws.length)
    (last : Bool) : (i.text ws last).length = (i.text ws false).length := by
  cases i with
  | chr ch => rfl
  | hira n =>
      have hlen : ∀ b, (stretch ws (n + 1) b).length = n + 1 := length_stretch h
      simp only [text, length_flat, hlen]
  | kata n =>
      have hlen : ∀ b, (stretch ws (n + 1) b).length = n + 1 := length_stretch h
      simp only [text, length_flat, List.length_map, hlen]

theorem length_knjText {ws : List (UInt8 × UInt8)} {is : List KnjItem}
    (h : ∀ i ∈ is, i.count ≤ ws.length) (last : Bool) :
    (knjText ws last is).length = (knjText ws false is).length := by
  induction is with
  | nil => rfl
  | cons i is ih =>
      by_cases hnil : is = []
      · subst hnil
        exact length_text i (h i List.mem_cons_self) last
      · rw [knjText_cons _ _ _ hnil, knjText_cons _ _ _ hnil, List.length_append,
          List.length_append, ih fun j hj => h j (List.mem_cons_of_mem _ hj)]

/-- In front of other codes only the beginning of the reading counts. -/
theorem knjText_take {len : ℕ} {is : List KnjItem} (h : ∀ i ∈ is, i.count ≤ len) :
    knjText (ps.take len) false is = knjText ps false is := by
  have hone : ∀ i ∈ is, text (ps.take len) false i = text ps false i := by
    intro i hi
    have hcount := h i hi
    have hstretch : ∀ n, n ≤ len → stretch (ps.take len) n false = stretch ps n false := by
      intro n hn
      show (ps.take len).take n = ps.take n
      rw [List.take_take, Nat.min_eq_left hn]
    cases i with
    | chr ch => rfl
    | hira n => exact congrArg flat (hstretch _ hcount)
    | kata n => exact congrArg (fun qs => flat (qs.map kataPair)) (hstretch _ hcount)
  induction is with
  | nil => rfl
  | cons i is ih =>
      have hi := hone i List.mem_cons_self
      by_cases hnil : is = []
      · subst hnil
        exact hi
      · rw [knjText_cons _ _ _ hnil, knjText_cons _ _ _ hnil, hi,
          ih (fun j hj => h j (List.mem_cons_of_mem _ hj))
            fun j hj => hone j (List.mem_cons_of_mem _ hj)]

variable (ps) in
/-- The text of a string from one of its items on. -/
theorem exists_shownText {len : ℕ} {C P : List KnjItem} {i : KnjItem}
    (h : ∀ k ∈ C ++ i :: P, k.count ≤ len) :
    ∃ last rest, shownText ps len (C ++ i :: P) =
      knjText ps false C ++ (i.text (ps.take len) last ++ rest) := by
  rw [shownText, knjText_append _ _ _ (List.cons_ne_nil _ _),
    knjText_take fun k hk => h k (List.mem_append_left _ hk), List.append_assoc]
  cases P with
  | nil => exact ⟨true, _, rfl⟩
  | cons j P =>
      rw [knjText_cons _ _ _ (List.cons_ne_nil _ _), List.append_assoc]
      exact ⟨false, _, rfl⟩

theorem flat_head {qs : List (UInt8 × UInt8)} (hqs : ∀ p ∈ qs, IsYomiPair p) (hne : qs ≠ [])
    (rest : Bytes) : ∃ b bs, flat qs ++ rest = b :: bs ∧ 0xa1 ≤ b := by
  obtain ⟨q, qs, rfl⟩ := List.exists_cons_of_ne_nil hne
  exact ⟨q.1, _, rfl, (hqs q List.mem_cons_self).1.1⟩

theorem hira_head {ws : List (UInt8 × UInt8)} (hws : ∀ p ∈ ws, IsYomiPair p) {n : Fin 16}
    (hn : (hira n).count ≤ ws.length) (last : Bool) (rest : Bytes) :
    ∃ b bs, (hira n).text ws last ++ rest = b :: bs ∧ 0xa1 ≤ b := by
  have hlen : (stretch ws (n + 1) last).length = n + 1 := length_stretch hn last
  apply flat_head
  · intro p hp
    cases last with
    | false => exact hws p (List.mem_of_mem_take hp)
    | true => exact hws p (List.mem_of_mem_drop hp)
  · intro hnil
    rw [hnil] at hlen
    exact absurd hlen (Nat.succ_ne_zero _).symm

/-- A control character and an abbreviation make different texts. -/
theorem Confused.shownText_ne (hps : ∀ p ∈ ps, IsYomiPair p) {plen qlen : ℕ}
    (hqlen : qlen ≤ ps.length) {C P Q : List KnjItem} {i j : KnjItem} (hij : Confused i j)
    (hP : ∀ k ∈ C ++ i :: P, k.count ≤ plen) (hQ : ∀ k ∈ C ++ j :: Q, k.count ≤ qlen) :
    shownText ps plen (C ++ i :: P) ≠ shownText ps qlen (C ++ j :: Q) := by
  obtain ⟨c, hc, n, hlt, rfl, rfl⟩ := hij
  obtain ⟨a, R, hp⟩ := exists_shownText ps hP
  obtain ⟨b, S, hq⟩ := exists_shownText ps hQ
  have hcount : (hira n).count ≤ (ps.take qlen).length := by
    rw [List.length_take_of_le hqlen]
    exact hQ _ (by simp)
  obtain ⟨d, bs, hd, hge⟩ := hira_head (fun p hp => hps p (List.mem_of_mem_take hp)) hcount b S
  rw [hp, hq, hd]
  intro heq
  obtain rfl : c = d := (List.cons.inj (List.append_cancel_left heq)).1
  exact absurd (hge.trans_lt hlt) (by decide)

theorem shownText_ne (hps : ∀ p ∈ ps, IsYomiPair p) {plen qlen : ℕ} (hplen : plen ≤ ps.length)
    (hqlen : qlen ≤ ps.length) {C P Q : List KnjItem} {i j : KnjItem}
    (hij : Confused i j ∨ Confused j i) (hP : ∀ k ∈ C ++ i :: P, k.count ≤ plen)
    (hQ : ∀ k ∈ C ++ j :: Q, k.count ≤ qlen) :
    shownText ps plen (C ++ i :: P) ≠ shownText ps qlen (C ++ j :: Q) := by
  rcases hij with hij | hij
  · exact hij.shownText_ne hps hqlen hP hQ
  · exact (hij.shownText_ne hps hplen hQ hP).symm

/-- The last characters of a word and the rest of the reading are the reading from where
they start. -/
theorem flat_stretch_append {len n : ℕ} (hlen : len ≤ ps.length) (hn : n ≤ len) :
    flat (stretch (ps.take len) n true) ++ flat (ps.drop len) = flat (ps.drop (len - n)) := by
  have hdrop : (ps.take len).drop (len - n) ++ ps.drop len = ps.drop (len - n) := by
    conv_rhs => rw [← List.take_append_drop len ps]
    rw [List.drop_append_of_le_length (by rw [List.length_take_of_le hlen]; omega)]
  rw [stretch, if_pos rfl, List.length_take_of_le hlen, ← flat_append, hdrop]

theorem shownText_hira {len : ℕ} (hlen : len ≤ ps.length) {C : List KnjItem} {n : Fin 16}
    (h : ∀ k ∈ C ++ [hira n], k.count ≤ len) :
    shownText ps len (C ++ [hira n]) = knjText ps false C ++ flat (ps.drop (len - (n + 1))) := by
  have hn : (n : ℕ) + 1 ≤ len := h (hira n) (by simp)
  rw [shownText, knjText_append _ _ _ (List.cons_ne_nil _ _), knjText_singleton, List.append_assoc,
    knjText_take fun k hk => h k (List.mem_append_left _ hk)]
  exact congrArg _ (flat_stretch_append hlen hn)

theorem steady_iff (ws : List (UInt8 × UInt8)) (is : List KnjItem) :
    knjText ws true is = knjText ws false is ↔ Steady ws is := by
  rcases List.eq_nil_or_concat' is with rfl | ⟨is, i, rfl⟩
  · exact iff_of_true rfl nofun
  · rw [knjText_append _ _ _ (List.cons_ne_nil _ _), knjText_append _ _ _ (List.cons_ne_nil _ _),
      List.append_cancel_left_eq, Steady, List.getLast?_concat]
    constructor
    · intro h j hj
      cases hj
      exact h
    · exact fun h => h i rfl

/-- One more code for the characters between the ends of the two words. -/
theorem shownText_longer_iff {plen qlen : ℕ} (hplen : plen ≤ ps.length) {Q : List KnjItem}
    {n : Fin 16} (hlen : plen = qlen + n + 1) (hP : ∀ k ∈ Q ++ [hira n], k.count ≤ plen)
    (hQ : ∀ k ∈ Q, k.count ≤ qlen) :
    shownText ps plen (Q ++ [hira n]) = shownText ps qlen Q ↔ Steady (ps.take qlen) Q := by
  have hstart : plen - (n + 1) = qlen := by omega
  rw [shownText_hira hplen hP, hstart, shownText, List.append_cancel_right_eq, eq_comm,
    ← knjText_take hQ, steady_iff]

end Text

/-! ## When the verdict is right -/

/-- If the string `P` of a word of `plen` characters looks like `Q` with one more code for the
characters behind a word of `qlen` characters, it is that, and the last code of `Q` stands for
the same text as the last one and in front of others. -/
def Outgrows (ps : List (UInt8 × UInt8)) (P : List KnjItem) (plen : ℕ) (Q : List KnjItem)
    (qlen : ℕ) : Prop :=
  ∀ n : Fin 16, plen = qlen + n + 1 → P.map form = (Q ++ [hira n]).map form →
    P = Q ++ [hira n] ∧ Steady (ps.take qlen) Q

/-- No control character stands where an abbreviation looks the same, and a string that one
more code completes to the other does not end with a code that then changes its meaning. -/
structure Unmistakable (ps : List (UInt8 × UInt8)) (P : List KnjItem) (plen : ℕ)
    (Q : List KnjItem) (qlen : ℕ) : Prop where
  same : plen = qlen → P.map form = Q.map form → P = Q
  longer : Outgrows ps P plen Q qlen
  shorter : Outgrows ps Q qlen P plen
  parted : ∀ (C : List KnjItem) (n m : Fin 16), n ≠ m → plen + m = qlen + n →
    P.map form = (C ++ [hira n]).map form → Q.map form = (C ++ [hira m]).map form →
      ∃ D, P = D ++ [hira n] ∧ Q = D ++ [hira m]

section Verdict

variable {ps : List (UInt8 × UInt8)} {P Q : List KnjItem} {plen qlen : ℕ}

theorem Unmistakable.shownText_eq (h : Unmistakable ps P plen Q qlen) (hplen : plen ≤ ps.length)
    (hqlen : qlen ≤ ps.length) (hP : ∀ k ∈ P, k.count ≤ plen) (hQ : ∀ k ∈ Q, k.count ≤ qlen)
    (ha : Alike P plen Q qlen) : shownText ps plen P = shownText ps qlen Q := by
  cases ha with
  | same hlen heq => rw [h.same hlen heq, hlen]
  | longer n hlen heq =>
      obtain ⟨rfl, hsteady⟩ := h.longer n hlen heq
      exact (shownText_longer_iff hplen hlen hP hQ).mpr hsteady
  | shorter n hlen heq =>
      obtain ⟨rfl, hsteady⟩ := h.shorter n hlen heq
      exact ((shownText_longer_iff hqlen hlen hQ hP).mpr hsteady).symm
  | parted C n m hne hlen hP' hQ' =>
      obtain ⟨D, rfl, rfl⟩ := h.parted C n m hne hlen hP' hQ'
      have hstart : plen - (n + 1) = qlen - (m + 1) := by omega
      rw [shownText_hira hplen hP, shownText_hira hqlen hQ, hstart]

/-- Strings that look the same and show the same text are the same. -/
theorem eq_of_shownText_eq (hps : ∀ p ∈ ps, IsYomiPair p) (hplen : plen ≤ ps.length)
    (hqlen : qlen ≤ ps.length) {X Y : List KnjItem} (hP : ∀ k ∈ P ++ X, k.count ≤ plen)
    (hQ : ∀ k ∈ Q ++ Y, k.count ≤ qlen) (heq : P.map form = Q.map form)
    (htext : shownText ps plen (P ++ X) = shownText ps qlen (Q ++ Y)) : P = Q := by
  rcases map_form_cases heq with rfl | ⟨C, i, j, P', Q', rfl, rfl, hconf⟩
  · rfl
  · rw [List.append_assoc, List.cons_append] at hP hQ htext
    rw [List.append_assoc, List.cons_append] at htext
    exact absurd htext (shownText_ne hps hplen hqlen hconf hP hQ)

theorem exists_concat_of_map {C : List KnjItem} {i : KnjItem}
    (h : P.map form = (C ++ [i]).map form) :
    ∃ P₀ k, P = P₀ ++ [k] ∧ P₀.map form = C.map form ∧ k.form = i.form := by
  rw [List.map_append, List.map_singleton] at h
  obtain ⟨P₀, P₁, rfl, h₀, h₁⟩ := List.map_eq_append_iff.mp h
  obtain ⟨k, rfl, hk⟩ := List.map_eq_singleton_iff.mp h₁
  exact ⟨P₀, k, rfl, h₀, hk⟩

theorem outgrows_of_shownText_eq (hps : ∀ p ∈ ps, IsYomiPair p) (hplen : plen ≤ ps.length)
    (hqlen : qlen ≤ ps.length) (hP : ∀ k ∈ P, k.count ≤ plen) (hQ : ∀ k ∈ Q, k.count ≤ qlen)
    (htext : Alike P plen Q qlen → shownText ps plen P = shownText ps qlen Q) :
    Outgrows ps P plen Q qlen := by
  intro n hlen heq
  replace htext := htext (.longer n hlen heq)
  obtain ⟨P₀, i, rfl, h₀, hi⟩ := exists_concat_of_map heq
  have hQ' : ∀ k ∈ Q ++ [], k.count ≤ qlen := by rwa [List.append_nil]
  obtain rfl : P₀ = Q := eq_of_shownText_eq hps hplen hqlen hP hQ' h₀
    (by rwa [List.append_nil])
  rcases form_eq_hira hi with rfl | ⟨c, hc, rfl, hcode⟩
  · exact ⟨rfl, (shownText_longer_iff hplen hlen hP hQ).mp htext⟩
  · -- the control character stands where the rest of the reading starts
    have hlens : (knjText ps false P₀).length = (knjText (ps.take qlen) true P₀).length := by
      have hcount : ∀ k ∈ P₀, k.count ≤ (ps.take qlen).length := by
        rwa [List.length_take_of_le hqlen]
      rw [← knjText_take hQ, length_knjText hcount true]
    rw [shownText, knjText_append _ _ _ (List.cons_ne_nil _ _), List.append_assoc,
      knjText_take fun k hk => hP k (List.mem_append_left _ hk)] at htext
    have hrest := (List.append_inj htext hlens).2
    have hqs : ∀ p ∈ ps.drop qlen, IsYomiPair p := fun p hp => hps p (List.mem_of_mem_drop hp)
    obtain ⟨b, bs, hb, hge⟩ := flat_head hqs (by simp; omega) []
    rw [List.append_nil] at hb
    rw [hb] at hrest
    obtain rfl : c = b := (List.cons.inj hrest).1
    rw [hcode] at hge
    exact absurd (hge.trans_lt (hiraForm_facts n).2.2.2.2.2.2) (by decide)

theorem unmistakable_of_shownText_eq (hps : ∀ p ∈ ps, IsYomiPair p) (hplen : plen ≤ ps.length)
    (hqlen : qlen ≤ ps.length) (hP : ∀ k ∈ P, k.count ≤ plen) (hQ : ∀ k ∈ Q, k.count ≤ qlen)
    (htext : Alike P plen Q qlen → shownText ps plen P = shownText ps qlen Q) :
    Unmistakable ps P plen Q qlen where
  same hlen heq := by
    have htext := htext (.same hlen heq)
    exact eq_of_shownText_eq (X := []) (Y := []) hps hplen hqlen (by simpa using hP)
      (by simpa using hQ) heq (by simpa using htext)
  longer := outgrows_of_shownText_eq hps hplen hqlen hP hQ htext
  shorter := outgrows_of_shownText_eq hps hqlen hplen hQ hP fun ha => (htext ha.symm).symm
  parted := by
    intro C n m hne hlen hP' hQ'
    have htext := htext (.parted C n m hne hlen hP' hQ')
    obtain ⟨P₀, i, rfl, h₀, hi⟩ := exists_concat_of_map hP'
    obtain ⟨Q₀, j, rfl, h₁, hj⟩ := exists_concat_of_map hQ'
    obtain rfl : P₀ = Q₀ := eq_of_shownText_eq hps hplen hqlen hP hQ (h₀.trans h₁.symm) htext
    have hconf : ¬ (Confused i j ∨ Confused j i) := fun hc =>
      shownText_ne hps hplen hqlen hc hP hQ htext
    rcases form_eq_hira hi with rfl | ⟨c, hc, rfl, hcode⟩
    · rcases form_eq_hira hj with rfl | ⟨d, hd, rfl, hcode'⟩
      · exact ⟨P₀, rfl, rfl⟩
      · exact absurd (.inr ⟨d, hd, n, hcode' ▸ (hiraForm_facts m).2.2.2.2.2.2, rfl, rfl⟩) hconf
    · rcases form_eq_hira hj with rfl | ⟨d, hd, rfl, hcode'⟩
      · exact absurd (.inl ⟨c, hc, m, hcode ▸ (hiraForm_facts n).2.2.2.2.2.2, rfl, rfl⟩) hconf
      · obtain ⟨a, R, hp⟩ := exists_shownText ps hP
        obtain ⟨b, S, hq⟩ := exists_shownText ps hQ
        rw [hp, hq] at htext
        have hcd : c = d := (List.cons.inj (List.append_cancel_left htext)).1
        rw [hcode, hcode'] at hcd
        exact absurd (form_hira_inj (congrArg (fun b => [b]) hcd)) hne

theorem alike_iff_unmistakable (hps : ∀ p ∈ ps, IsYomiPair p) (hplen : plen ≤ ps.length)
    (hqlen : qlen ≤ ps.length) (hP : ∀ k ∈ P, k.count ≤ plen) (hQ : ∀ k ∈ Q, k.count ≤ qlen) :
    (Alike P plen Q qlen → shownText ps plen P = shownText ps qlen Q) ↔
      Unmistakable ps P plen Q qlen :=
  ⟨unmistakable_of_shownText_eq hps hplen hqlen hP hQ,
    fun h => h.shownText_eq hplen hqlen hP hQ⟩

end Verdict

/-! ## Words of a segment -/

/-- The kanji string at `s` of the segment, of a word whose reading is the first `len`
characters of `ps`, spells the items, and its codes stand for stretches of that reading. -/
structure WordKanji (ref : SegRef) (ps : List (UInt8 × UInt8)) (len : ℕ) (s : Bytes)
    (is : List KnjItem) : Prop where
  spells : Spells ref (ref.fuel s) s is
  suffix : s <:+ ref.dicbuf
  len_le : len ≤ ps.length
  count_le : ∀ i ∈ is, i.count ≤ len

namespace WordKanji

variable {ref : SegRef} {ps : List (UInt8 × UInt8)} {len : ℕ} {s : Bytes} {is : List KnjItem}

theorem makekan_eq (h : WordKanji ref ps len s is) :
    makekan ref (ref.fuel ref.dicbuf) s true = knjKan is := by
  apply h.spells.makekan
  have hlen := h.suffix.length_le
  simp only [SegRef.fuel]
  omega

theorem getkanji_eq (h : WordKanji ref ps len s is) (hps : ∀ p ∈ ps, IsYomiPair p)
    (below : ℕ → UInt8) :
    getkanji below ref (flat ps) len s ++ flat (ps.drop len) = shownText ps len is := by
  rw [getkanji, h.spells.code2kanji hps h.len_le h.count_le (Nat.le_refl _) true, shownText]

theorem sameknj_iff {qlen : ℕ} {t : Bytes} {js : List KnjItem} (hs : WordKanji ref ps len s is)
    (ht : WordKanji ref ps qlen t js) :
    sameknj (makekan ref (ref.fuel ref.dicbuf) s true) len
      (makekan ref (ref.fuel ref.dicbuf) t true) qlen = true ↔ Alike is len js qlen := by
  have hlen : is.length ≤ (knjKan is).length + 1 := by
    have hforms := length_le_knjForm is
    rw [knjKan, List.length_append]
    omega
  rw [hs.makekan_eq, ht.makekan_eq, sameknj_eq]
  exact knjVerdict_iff hs.spells.ne_nil ht.spells.ne_nil len qlen hlen

end WordKanji

/-- When `sameknj` accepts two words of one segment, their texts are the same exactly if
nothing in their strings can be mistaken. The strings are those that spell EUC characters, and
every character of the reading is one of two bytes. -/
theorem sameknj_shownText_iff (below : ℕ → UInt8) {ref : SegRef} {ps : List (UInt8 × UInt8)}
    (hps : ∀ p ∈ ps, IsYomiPair p) {plen qlen : ℕ} {s t : Bytes} {P Q : List KnjItem}
    (hs : WordKanji ref ps plen s P) (ht : WordKanji ref ps qlen t Q) :
    (sameknj (makekan ref (ref.fuel ref.dicbuf) s true) plen
        (makekan ref (ref.fuel ref.dicbuf) t true) qlen = true →
      getkanji below ref (flat ps) plen s ++ flat (ps.drop plen) =
        getkanji below ref (flat ps) qlen t ++ flat (ps.drop qlen)) ↔
      Unmistakable ps P plen Q qlen := by
  rw [hs.sameknj_iff ht, hs.getkanji_eq hps, ht.getkanji_eq hps]
  exact alike_iff_unmistakable hps hs.len_le ht.len_le hs.count_le ht.count_le

/-- A word that is dropped shows the text of a candidate, if it is compared with words only
that it cannot be mistaken for. -/
theorem exists_shown_of_diffknj (below : ℕ → UInt8) {t : KouhoTbl} {ps : List (UInt8 × UInt8)}
    (hps : ∀ p ∈ ps, IsYomiPair p) {jrec : Jiritu} {ptr : Bytes} {num : ℕ} {P : List KnjItem}
    (hptr : WordKanji t.ref ps jrec.jlen ptr P)
    (hnew : ∀ kptr ∈ t.kouhotbl.take num, kptr.clrec.jnode.addr ≠ jrec.addr)
    (hcand : ∀ kptr ∈ t.kouhotbl.take num, kptr.clrec.jnode.dicid = jrec.dicid →
      kptr.clrec.jnode.jseg = jrec.jseg →
        ∃ Q, WordKanji t.ref ps kptr.clrec.jnode.jlen (t.ref.dicbuf.drop kptr.offs) Q ∧
          Unmistakable ps P jrec.jlen Q kptr.clrec.jnode.jlen)
    (hdrop : diffknj t jrec ptr num = false) :
    ∃ kptr ∈ t.kouhotbl.take num,
      getkanji below t.ref (flat ps) jrec.jlen ptr ++ flat (ps.drop jrec.jlen) =
        getkanji below t.ref (flat ps) kptr.clrec.jnode.jlen (t.ref.dicbuf.drop kptr.offs) ++
          flat (ps.drop kptr.clrec.jnode.jlen) := by
  rw [diffknj] at hdrop
  split at hdrop
  · cases hdrop
  · simp only [Bool.not_eq_false', List.any_eq_true, Bool.or_eq_true, Bool.and_eq_true,
      decide_eq_true_iff] at hdrop
    obtain ⟨kptr, hmem, haddr | ⟨⟨⟨⟨⟨⟨-, -⟩, hdicid⟩, hjseg⟩, -⟩, -⟩, hsame⟩⟩ := hdrop
    · exact absurd haddr (hnew kptr hmem)
    · obtain ⟨Q, hQ, hun⟩ := hcand kptr hmem hdicid hjseg
      refine ⟨kptr, hmem, ?_⟩
      rw [hptr.getkanji_eq hps, hQ.getkanji_eq hps]
      exact hun.shownText_eq hptr.len_le hQ.len_le hptr.count_le hQ.count_le
        ((hptr.sameknj_iff hQ).mp hsame)

/-- The reading, of which the first three characters and all of it are words. -/
def aiueYomi : List (UInt8 × UInt8) := [(0xa4, 0xa2), (0xa4, 0xa4), (0xa4, 0xa6), (0xa4, 0xa8)]

/-- Their kanji strings as registration stores them: the last two characters of the shorter
word, and the first two and the last one of the longer word. -/
def aiueSeg : SegRef :=
  let below := fun _ => 0
  ⟨cvtknj below below (flat (aiueYomi.take 3)) [0xa4, 0xa4, 0xa4, 0xa6] ++ 0 ::
    cvtknj below below (flat aiueYomi) [0xa4, 0xa2, 0xa4, 0xa4, 0xa4, 0xa8] ++ [0], []⟩

theorem aiueSeg_dicbuf : aiueSeg.dicbuf = [0x81, 0, 0x81, 0x80, 0] := by decide +kernel

theorem aiue_long : WordKanji aiueSeg aiueYomi 4 [0x81, 0x80, 0] [hira 1, hira 0] where
  spells := by
    have hfuel : aiueSeg.fuel [0x81, 0x80, 0] = 37 + 1 + 1 := by
      rw [SegRef.fuel, aiueSeg_dicbuf]
      rfl
    rw [hfuel]
    exact .item (p := [0x80, 0]) (hira 1) (by decide) (.last (p := [0]) (hira 0) rfl)
  suffix := by
    rw [aiueSeg_dicbuf]
    exact ⟨[0x81, 0], rfl⟩
  len_le := by decide
  count_le := by decide

theorem aiue_short : WordKanji aiueSeg aiueYomi 3 [0x81, 0, 0x81, 0x80, 0] [hira 1] where
  spells := by
    have hfuel : aiueSeg.fuel [0x81, 0, 0x81, 0x80, 0] = 40 + 1 := by
      rw [SegRef.fuel, aiueSeg_dicbuf]
      rfl
    rw [hfuel]
    exact .last (p := [0, 0x81, 0x80, 0]) (hira 1) rfl
  suffix := by
    rw [aiueSeg_dicbuf]
  len_le := by decide
  count_le := by decide

theorem aiueYomi_pairs : ∀ p ∈ aiueYomi, IsYomiPair p := by
  unfold IsYomiPair
  exact List.all_iff_forall_prop.mp (by decide)

theorem sameknj_shownText_iff_aiue :
    (sameknj (makekan aiueSeg (aiueSeg.fuel aiueSeg.dicbuf) [0x81, 0x80, 0] true) 4
        (makekan aiueSeg (aiueSeg.fuel aiueSeg.dicbuf) [0x81, 0, 0x81, 0x80, 0] true) 3 = true →
      getkanji (fun _ => 0) aiueSeg (flat aiueYomi) 4 [0x81, 0x80, 0] ++ flat (aiueYomi.drop 4) =
        getkanji (fun _ => 0) aiueSeg (flat aiueYomi) 3 [0x81, 0, 0x81, 0x80, 0] ++
          flat (aiueYomi.drop 3)) ↔
      Unmistakable aiueYomi [hira 1, hira 0] 4 [hira 1] 3 :=
  sameknj_shownText_iff (fun _ => 0) aiueYomi_pairs aiue_long aiue_short

/-- The two words are taken for one: their texts are different. -/
theorem sameknj_not_shownText :
    ¬ ∀ (below : ℕ → UInt8) (ref : SegRef) (ps : List (UInt8 × UInt8)),
      (∀ p ∈ ps, IsYomiPair p) → ∀ (plen qlen : ℕ) (s t : Bytes) (P Q : List KnjItem),
        WordKanji ref ps plen s P → WordKanji ref ps qlen t Q →
        sameknj (makekan ref (ref.fuel ref.dicbuf) s true) plen
          (makekan ref (ref.fuel ref.dicbuf) t true) qlen = true →
        getkanji below ref (flat ps) plen s ++ flat (ps.drop plen) =
          getkanji below ref (flat ps) qlen t ++ flat (ps.drop qlen) := by
  intro hall
  have halike : Alike [hira 1, hira 0] 4 [hira 1] 3 := .longer 0 rfl rfl
  have htext := hall (fun _ => 0) aiueSeg aiueYomi aiueYomi_pairs 4 3 _ _ _ _ aiue_long aiue_short
    ((aiue_long.sameknj_iff aiue_short).mpr halike)
  rw [aiue_long.getkanji_eq aiueYomi_pairs, aiue_short.getkanji_eq aiueYomi_pairs] at htext
  exact absurd htext (by decide)

end Sj3
