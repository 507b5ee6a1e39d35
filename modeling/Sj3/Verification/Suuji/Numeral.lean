import Mathlib.Data.Fintype.Sum
import Mathlib.Tactic.DeriveFintype
import Mathlib.Tactic.Ring
import Sj3.Model.Suuji

/-! # Numerals in Japanese

What the texts of numbers mean. A digit in front of a unit counts the unit, a unit alone counts
once, and the units above thousand count what has come since the last of them. -/

namespace Sj3

/-- `small k` is ten to the `k + 1`, and `large j` is ten thousand to the `j + 1`. -/
inductive Numeral where
  | digit (d : Fin 10)
  | comma
  | small (k : Fin 3)
  | large (j : Fin 3)
  deriving DecidableEq, Repr, Fintype

namespace Numeral

/-! ## Meaning -/

/-- What has been read: what large units count, what small ones count since, and a number that no
unit has counted yet. -/
structure Reading where
  total : ℕ
  group : ℕ
  cur : Option ℕ
  deriving DecidableEq, Repr

def Reading.next (r : Reading) : Numeral → Reading
  | .digit d => { r with cur := some (10 * r.cur.getD 0 + d) }
  | .comma => r
  | .small k => ⟨r.total, r.group + r.cur.getD 1 * 10 ^ (k.val + 1), none⟩
  | .large j => ⟨r.total + (r.group + r.cur.getD 0) * 10 ^ (4 * (j.val + 1)), 0, none⟩

def Reading.value (r : Reading) : ℕ := r.total + r.group + r.cur.getD 0

def value (ts : List Numeral) : ℕ := (ts.foldl Reading.next ⟨0, 0, none⟩).value

/-! ## Writing -/

/-- The decimal digit of a number at a place. -/
def digitAt (n p : ℕ) : Fin 10 := Fin.ofNat 10 (n / 10 ^ p)

/-- The last digits of a number, with commas between groups of three or without. -/
def arabic (comma : Bool) (n : ℕ) : ℕ → List Numeral
  | 0 => []
  | p + 1 =>
      .digit (digitAt n p) :: ((if comma ∧ p ≠ 0 ∧ p % 3 = 0 then [.comma] else []) ++
        arabic comma n p)

/-- A digit at place `k` of a group with its unit. Zero is left out, and so is one in front of a
unit. -/
def kanPlace (d : Fin 10) : ℕ → List Numeral
  | 0 => if d = 0 then [] else [.digit d]
  | k + 1 =>
      if d = 0 then []
      else (if d = 1 then [] else [.digit d]) ++ [.small (Fin.ofNat 3 k)]

/-- Four digits, lowest place first. -/
def kanGroup (d : ℕ → Fin 10) : List Numeral :=
  kanPlace (d 3) 3 ++ kanPlace (d 2) 2 ++ kanPlace (d 1) 1 ++ kanPlace (d 0) 0

/-- The number of four digits. -/
def groupValue (d : ℕ → Fin 10) : ℕ := d 3 * 1000 + d 2 * 100 + d 1 * 10 + d 0

/-- A group with its unit, unless it is all zero. -/
def kanLarge (d : ℕ → Fin 10) (j : Fin 3) : List Numeral :=
  kanGroup d ++ if groupValue d ≠ 0 then [.large j] else []

/-- The four groups of a number. -/
def kanGroups (n : ℕ) : List Numeral :=
  kanLarge (fun k => digitAt n (12 + k)) 2 ++ kanLarge (fun k => digitAt n (8 + k)) 1 ++
    kanLarge (fun k => digitAt n (4 + k)) 0 ++ kanGroup (fun k => digitAt n k)

def kan (n : ℕ) : List Numeral := if n = 0 then [.digit 0] else kanGroups n

/-! ## What is written has the value -/

theorem digitAt_val (n p : ℕ) : (digitAt n p).val = n / 10 ^ p % 10 := rfl

theorem mod_pow_succ_eq (n p : ℕ) :
    n % 10 ^ (p + 1) = (digitAt n p).val * 10 ^ p + n % 10 ^ p := by
  rw [digitAt_val, Nat.pow_succ, Nat.mod_mul]
  ring

theorem foldl_arabic (comma : Bool) (n p : ℕ) (r : Reading) :
    (arabic comma n (p + 1)).foldl Reading.next r =
      { r with cur := some (r.cur.getD 0 * 10 ^ (p + 1) + n % 10 ^ (p + 1)) } := by
  induction p generalizing r with
  | zero =>
      simp only [arabic, Nat.zero_mod, ne_eq, not_true_eq_false, false_and, and_false, if_false,
        List.append_nil, List.foldl_cons, List.foldl_nil, Reading.next, digitAt_val]
      simp only [Nat.pow_zero, Nat.div_one, Nat.zero_add, Nat.pow_one, Nat.mul_comm 10]
  | succ p ih =>
      have hcomma : ∀ r : Reading, (if comma ∧ p + 1 ≠ 0 ∧ (p + 1) % 3 = 0 then [Numeral.comma]
          else []).foldl Reading.next r = r := by
        intro r
        split <;> rfl
      rw [arabic, List.foldl_cons, List.foldl_append, hcomma, ih, mod_pow_succ_eq n (p + 1)]
      simp only [Reading.next, Option.getD_some, Reading.mk.injEq, Option.some.injEq, true_and]
      ring

/-- The digits of a number mean the number. -/
theorem value_arabic (comma : Bool) {n len : ℕ} (hlen : 0 < len) (hn : n < 10 ^ len) :
    value (arabic comma n len) = n := by
  obtain ⟨p, rfl⟩ := Nat.exists_eq_succ_of_ne_zero hlen.ne'
  rw [value, foldl_arabic, Reading.value]
  simp only [Option.getD_none, Option.getD_some]
  rw [Nat.mod_eq_of_lt hn]
  omega

theorem foldl_kanPlace_succ (d : Fin 10) {k : ℕ} (hk : k < 3) (t g : ℕ) :
    (kanPlace d (k + 1)).foldl Reading.next ⟨t, g, none⟩ =
      ⟨t, g + d.val * 10 ^ (k + 1), none⟩ := by
  rw [kanPlace]
  by_cases hzero : d = 0
  · subst hzero
    simp
  · rw [if_neg hzero]
    have hunit : k % 3 = k := Nat.mod_eq_of_lt hk
    by_cases hone : d = 1
    · subst hone
      simp [Reading.next, hunit]
    · simp [hone, Reading.next, hunit]

theorem foldl_kanPlace_zero (d : Fin 10) (t g : ℕ) :
    ∃ cur, (kanPlace d 0).foldl Reading.next ⟨t, g, none⟩ = ⟨t, g, cur⟩ ∧
      cur.getD 0 = d.val := by
  rw [kanPlace]
  by_cases hzero : d = 0
  · rw [if_pos hzero]
    exact ⟨none, rfl, by rw [hzero]; rfl⟩
  · rw [if_neg hzero]
    exact ⟨some d.val, by simp [Reading.next], rfl⟩

theorem foldl_kanGroup (d : ℕ → Fin 10) (t : ℕ) :
    ∃ g cur, (kanGroup d).foldl Reading.next ⟨t, 0, none⟩ = ⟨t, g, cur⟩ ∧
      g + cur.getD 0 = groupValue d := by
  obtain ⟨cur, hcur, hvalue⟩ := foldl_kanPlace_zero (d 0) t
    (0 + (d 3).val * 10 ^ 3 + (d 2).val * 10 ^ 2 + (d 1).val * 10 ^ 1)
  refine ⟨0 + (d 3).val * 10 ^ 3 + (d 2).val * 10 ^ 2 + (d 1).val * 10 ^ 1, cur, ?_, ?_⟩
  · rw [kanGroup, List.foldl_append, List.foldl_append, List.foldl_append,
      foldl_kanPlace_succ _ (by decide), foldl_kanPlace_succ _ (by decide),
      foldl_kanPlace_succ _ (by decide), hcur]
  · rw [hvalue, groupValue]
    ring

theorem foldl_kanLarge (d : ℕ → Fin 10) (j : Fin 3) (t : ℕ) :
    (kanLarge d j).foldl Reading.next ⟨t, 0, none⟩ =
      ⟨t + groupValue d * 10 ^ (4 * (j.val + 1)), 0, none⟩ := by
  obtain ⟨g, cur, hgroup, hvalue⟩ := foldl_kanGroup d t
  rw [kanLarge, List.foldl_append, hgroup]
  by_cases hzero : groupValue d = 0
  · have hempty : kanGroup d = [] := by
      simp only [groupValue] at hzero
      rw [kanGroup, show d 3 = 0 by omega, show d 2 = 0 by omega, show d 1 = 0 by omega,
        show d 0 = 0 by omega]
      rfl
    rw [hempty, List.foldl_nil] at hgroup
    rw [if_neg (by simpa using hzero), ← hgroup, hzero, Nat.zero_mul]
    rfl
  · rw [if_pos hzero, List.foldl_cons, List.foldl_nil, Reading.next, ← hvalue]

theorem groupValue_digitAt (n q : ℕ) :
    groupValue (fun k => digitAt n (q + k)) = n / 10 ^ q % 10000 := by
  have hplace : ∀ k, (digitAt n (q + k)).val = n / 10 ^ q / 10 ^ k % 10 := by
    intro k
    rw [digitAt_val, Nat.pow_add, Nat.div_div_eq_div_mul]
  rw [groupValue, hplace, hplace, hplace, hplace]
  omega

theorem value_kanGroups {n : ℕ} (hn : n < 10 ^ 16) : value (kanGroups n) = n := by
  have hlow : groupValue (fun k => digitAt n k) = n % 10000 := by
    have := groupValue_digitAt n 0
    simpa only [Nat.zero_add, Nat.pow_zero, Nat.div_one] using this
  obtain ⟨g, cur, hgroup, hvalue⟩ := foldl_kanGroup (fun k => digitAt n k)
    (0 + n / 10 ^ 12 % 10000 * 10 ^ 12 + n / 10 ^ 8 % 10000 * 10 ^ 8 +
      n / 10 ^ 4 % 10000 * 10 ^ 4)
  rw [value, kanGroups, List.foldl_append, List.foldl_append, List.foldl_append, foldl_kanLarge,
    foldl_kanLarge, foldl_kanLarge, groupValue_digitAt, groupValue_digitAt, groupValue_digitAt]
  change (List.foldl Reading.next ⟨0 + n / 10 ^ 12 % 10000 * 10 ^ 12 +
    n / 10 ^ 8 % 10000 * 10 ^ 8 + n / 10 ^ 4 % 10000 * 10 ^ 4, 0, none⟩ _).value = n
  rw [hgroup, Reading.value, Nat.add_assoc _ g, hvalue, hlow]
  simp only
  omega

/-- A number of sixteen digits that is written with units means the number. -/
theorem value_kan {n : ℕ} (hn : n < 10 ^ 16) : value (kan n) = n := by
  rw [kan]
  by_cases hzero : n = 0
  · rw [if_pos hzero, hzero]
    rfl
  · rw [if_neg hzero]
    exact value_kanGroups hn

/-! ## Bytes -/

/-- The two bytes of a numeral, with a table of digits and one of small units. -/
def bytes (tbl1 tbl2 : Bytes) : Numeral → Bytes
  | .digit d => tblChar tbl1 (d * 2)
  | .comma => [commahigh, commalow]
  | .small k => tblChar tbl2 ((2 - k) * 2)
  | .large j => tblChar num6tbl ((2 - j) * 2)

def all : List Numeral :=
  (List.finRange 10).map digit ++ comma :: ((List.finRange 3).map small ++
    (List.finRange 3).map large)

/-- A text is read two bytes at a time. -/
def readText (tbl1 tbl2 : Bytes) : Bytes → Option (List Numeral)
  | [] => some []
  | [_] => none
  | a :: b :: text =>
      (all.find? fun t => t.bytes tbl1 tbl2 = [a, b]).bind fun t =>
        (readText tbl1 tbl2 text).map (t :: ·)

/-- The tables that are used together. For digits alone the second one is not looked at. -/
def tables : List (Bytes × Bytes) := [(num1tbl, num4tbl), (num2tbl, num4tbl), (num3tbl, num5tbl)]

theorem find?_bytes {t : Bytes × Bytes} (ht : t ∈ tables) (u : Numeral) :
    ∃ a b, u.bytes t.1 t.2 = [a, b] ∧
      (all.find? fun v => v.bytes t.1 t.2 = [a, b]) = some u := by
  have hall : ∀ t ∈ tables, ∀ u : Numeral,
      u.bytes t.1 t.2 = [(u.bytes t.1 t.2).getD 0 0, (u.bytes t.1 t.2).getD 1 0] ∧
      (all.find? fun v => v.bytes t.1 t.2 =
        [(u.bytes t.1 t.2).getD 0 0, (u.bytes t.1 t.2).getD 1 0]) = some u := by decide +kernel
  exact ⟨_, _, hall t ht u⟩

/-- What is written in bytes is read from them. -/
theorem readText_bytes {t : Bytes × Bytes} (ht : t ∈ tables) (us : List Numeral) :
    readText t.1 t.2 (us.flatMap (bytes t.1 t.2)) = some us := by
  induction us with
  | nil => rfl
  | cons u us ih =>
      obtain ⟨a, b, hbytes, hfind⟩ := find?_bytes ht u
      rw [List.flatMap_cons, hbytes, List.cons_append, List.cons_append, List.nil_append, readText,
        hfind, Option.bind_some, ih, Option.map_some]

end Numeral

end Sj3
