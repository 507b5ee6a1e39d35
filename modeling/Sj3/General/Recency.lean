import Mathlib.Data.List.Perm.Subperm
import Mathlib.Data.List.Range
import Mathlib.Data.List.Nodup

/-! # Recency numbers

Records numbered 1, 2, … from the most recent to the oldest, kept so when a record is
added, removed or becomes the most recent one again. -/

namespace Recency

/-- The numbers are 1, 2, …, each once. -/
def Ranked (nums : List ℕ) : Prop := nums.Perm (List.range' 1 nums.length)

/-- What becomes of number `n` when number `gone` is given up. -/
def closeUp (gone n : ℕ) : ℕ := if n > gone then n - 1 else n

/-- What becomes of number `n` when the record with number `top` becomes the first. -/
def makeWay (top n : ℕ) : ℕ := if n < top then n + 1 else n

/-- What becomes of number `n` when number `place` is given to a new record. -/
def openUp (place n : ℕ) : ℕ := if place ≤ n then n + 1 else n

/-! ## Permutations of 1, 2, … -/

theorem ranked_nil : Ranked [] := List.Perm.refl _

theorem ranked_iff {nums : List ℕ} :
    Ranked nums ↔ nums.Nodup ∧ ∀ n ∈ nums, 1 ≤ n ∧ n ≤ nums.length := by
  constructor
  · intro h
    refine ⟨h.nodup_iff.mpr List.nodup_range', ?_⟩
    intro n hn
    have hmem := List.mem_range'_1.mp (h.mem_iff.mp hn)
    omega
  · rintro ⟨hnd, hle⟩
    apply (List.Nodup.subperm hnd ?_).perm_of_length_le (by simp)
    intro n hn
    have := hle n hn
    exact List.mem_range'_1.mpr (by omega)

theorem Ranked.nodup {nums : List ℕ} (h : Ranked nums) : nums.Nodup := (ranked_iff.mp h).1

theorem Ranked.le {nums : List ℕ} (h : Ranked nums) {n : ℕ} (hn : n ∈ nums) :
    n ≤ nums.length := ((ranked_iff.mp h).2 n hn).2

theorem Ranked.pos {nums : List ℕ} (h : Ranked nums) {n : ℕ} (hn : n ∈ nums) : 1 ≤ n :=
  ((ranked_iff.mp h).2 n hn).1

theorem Ranked.perm {nums nums' : List ℕ} (h : Ranked nums) (hp : nums.Perm nums') :
    Ranked nums' := by
  have hlen := hp.length_eq
  exact hp.symm.trans (hlen ▸ h)

theorem Ranked.mem_iff {nums : List ℕ} (h : Ranked nums) {n : ℕ} :
    n ∈ nums ↔ 1 ≤ n ∧ n ≤ nums.length := by
  rw [List.Perm.mem_iff h, List.mem_range'_1]
  omega

/-! ## Order -/

theorem closeUp_lt_closeUp {gone a b : ℕ} (ha : a ≠ gone) (hb : b ≠ gone) :
    closeUp gone a < closeUp gone b ↔ a < b := by
  unfold closeUp
  split <;> split <;> omega

theorem makeWay_lt_makeWay {top a b : ℕ} (hb : b ≠ top) :
    makeWay top a < makeWay top b ↔ a < b := by
  unfold makeWay
  split <;> split <;> omega

theorem openUp_lt_openUp {place a b : ℕ} : openUp place a < openUp place b ↔ a < b := by
  unfold openUp
  split <;> split <;> omega

theorem openUp_eq_zero {place n : ℕ} (h : 1 ≤ place) : openUp place n = 0 ↔ n = 0 := by
  unfold openUp
  split <;> omega

/-- Numbers mapped without changing their order stay different. -/
theorem nodup_map_of_mono {nums : List ℕ} {f : ℕ → ℕ}
    (hf : ∀ a ∈ nums, ∀ b ∈ nums, f a < f b ↔ a < b) (h : nums.Nodup) : (nums.map f).Nodup := by
  apply List.Nodup.map_on _ h
  intro a ha b hb heq
  have hab := hf a ha b hb
  have hba := hf b hb a ha
  omega

/-! ## Adding, removing and promoting -/

theorem Ranked.push {l r : List ℕ} (h : Ranked (l ++ r)) :
    Ranked (l.map (· + 1) ++ 1 :: r.map (· + 1)) := by
  have hpush : Ranked (1 :: (l ++ r).map (· + 1)) := by
    apply ranked_iff.mpr
    constructor
    · rw [List.nodup_cons]
      constructor
      · intro hmem
        obtain ⟨n, hn, heq⟩ := List.mem_map.mp hmem
        have := h.pos hn
        omega
      · exact nodup_map_of_mono (fun _ _ _ _ => by omega) h.nodup
    · intro n hn
      rw [List.length_cons, List.length_map]
      rcases List.mem_cons.mp hn with rfl | hn
      · omega
      · obtain ⟨m, hm, rfl⟩ := List.mem_map.mp hn
        have := h.le hm
        omega
  rw [List.map_append] at hpush
  exact hpush.perm List.perm_middle.symm

theorem Ranked.insert {nums : List ℕ} (h : Ranked nums) {place : ℕ} (hpos : 1 ≤ place)
    (hle : place ≤ nums.length + 1) : Ranked (nums.map (openUp place) ++ [place]) := by
  have hins : Ranked (place :: nums.map (openUp place)) := by
    apply ranked_iff.mpr
    constructor
    · rw [List.nodup_cons]
      constructor
      · intro hmem
        obtain ⟨n, -, heq⟩ := List.mem_map.mp hmem
        unfold openUp at heq
        split at heq <;> omega
      · exact nodup_map_of_mono (fun _ _ _ _ => openUp_lt_openUp) h.nodup
    · intro n hn
      rw [List.length_cons, List.length_map]
      rcases List.mem_cons.mp hn with rfl | hn
      · omega
      · obtain ⟨m, hm, rfl⟩ := List.mem_map.mp hn
        have := h.pos hm
        have := h.le hm
        unfold openUp
        split <;> omega
  exact hins.perm (List.perm_append_singleton _ _).symm

theorem Ranked.split {l r : List ℕ} {n : ℕ} (h : Ranked (l ++ n :: r)) :
    n ∉ l ++ r ∧ (l ++ r).Nodup ∧ 1 ≤ n ∧ n ≤ (l ++ r).length + 1 ∧
      ∀ m ∈ l ++ r, 1 ≤ m ∧ m ≤ (l ++ r).length + 1 := by
  have hperm : Ranked (n :: (l ++ r)) := h.perm List.perm_middle
  have hnd := List.nodup_cons.mp hperm.nodup
  refine ⟨hnd.1, hnd.2, hperm.pos List.mem_cons_self, hperm.le List.mem_cons_self, ?_⟩
  intro m hm
  exact ⟨hperm.pos (List.mem_cons_of_mem _ hm), hperm.le (List.mem_cons_of_mem _ hm)⟩

theorem Ranked.close {l r : List ℕ} {gone : ℕ} (h : Ranked (l ++ gone :: r)) :
    Ranked ((l ++ r).map (closeUp gone)) := by
  obtain ⟨hmem, hnd, hpos, hle, hall⟩ := h.split
  have hne : ∀ m ∈ l ++ r, m ≠ gone := fun m hm he => hmem (he ▸ hm)
  apply ranked_iff.mpr
  constructor
  · exact nodup_map_of_mono (fun a ha b hb => closeUp_lt_closeUp (hne a ha) (hne b hb)) hnd
  · intro n hn
    obtain ⟨m, hm, rfl⟩ := List.mem_map.mp hn
    have hb := hall m hm
    have hg := hne m hm
    rw [List.length_map]
    unfold closeUp
    split <;> omega

theorem Ranked.promote {l r : List ℕ} {top : ℕ} (h : Ranked (l ++ top :: r)) :
    Ranked (l.map (makeWay top) ++ 1 :: r.map (makeWay top)) := by
  obtain ⟨hmem, hnd, hpos, hle, hall⟩ := h.split
  have hne : ∀ m ∈ l ++ r, m ≠ top := fun m hm he => hmem (he ▸ hm)
  have hway : Ranked (1 :: (l ++ r).map (makeWay top)) := by
    apply ranked_iff.mpr
    constructor
    · rw [List.nodup_cons]
      constructor
      · intro hm
        obtain ⟨m, hm, heq⟩ := List.mem_map.mp hm
        have := hall m hm
        have := hne m hm
        unfold makeWay at heq
        split at heq <;> omega
      · exact nodup_map_of_mono
          (fun _ _ b hb => makeWay_lt_makeWay (hne b hb)) hnd
    · intro n hn
      rw [List.length_cons, List.length_map]
      rcases List.mem_cons.mp hn with rfl | hn
      · omega
      · obtain ⟨m, hm, rfl⟩ := List.mem_map.mp hn
        have := hall m hm
        unfold makeWay
        split <;> omega
  rw [List.map_append] at hway
  exact hway.perm List.perm_middle.symm

/-- The record with the last number leaves no gap. -/
theorem Ranked.drop_last {l r : List ℕ} {n : ℕ} (h : Ranked (l ++ n :: r))
    (hlt : ∀ m ∈ l ++ r, m < n) : Ranked (l ++ r) := by
  obtain ⟨-, hnd, -, hle, hall⟩ := h.split
  apply ranked_iff.mpr ⟨hnd, ?_⟩
  intro m hm
  have := hall m hm
  have := hlt m hm
  omega

/-! ## The last records -/

/-- Different numbers between two bounds are not more than there is room for. -/
theorem length_le_of_between (lo hi : ℕ) {nums : List ℕ} (hnd : nums.Nodup)
    (h : ∀ n ∈ nums, lo < n ∧ n ≤ hi) : nums.length ≤ hi - lo := by
  have hsub : nums.Subperm (List.range' (lo + 1) (hi - lo)) := by
    apply List.Nodup.subperm hnd
    intro n hn
    have := h n hn
    exact List.mem_range'_1.mpr (by omega)
  simpa using hsub.length_le

/-- If a property holds of all records behind one that has it, those that have it are the
last ones. -/
theorem Ranked.upper {β : Type*} {num : β → ℕ} {recs : List β} (h : Ranked (recs.map num))
    {p : β → Bool} (hp : ∀ a ∈ recs, ∀ b ∈ recs, num a < num b → p a → p b) {a : β}
    (ha : a ∈ recs) : p a ↔ recs.length + 1 - recs.countP p ≤ num a := by
  have hinj : ∀ b ∈ recs, ∀ c ∈ recs, num b = num c → b = c :=
    fun b hb c hc => List.inj_on_of_nodup_map h.nodup hb hc
  have hnd : ∀ q : β → Bool, ((recs.filter q).map num).Nodup :=
    fun q => (List.filter_sublist.map num).nodup h.nodup
  have hbound : ∀ b ∈ recs, 1 ≤ num b ∧ num b ≤ recs.length := by
    intro b hb
    have hmem := List.mem_map_of_mem (f := num) hb
    have hle := h.le hmem
    rw [List.length_map] at hle
    exact ⟨h.pos hmem, hle⟩
  have hsplit := List.length_eq_countP_add_countP p (l := recs)
  constructor
  · -- those without the property all come in front of `a`
    intro hpa
    have hroom := length_le_of_between 0 (num a - 1) (hnd fun b => !p b) <| by
      intro n hn
      obtain ⟨b, hb, rfl⟩ := List.mem_map.mp hn
      obtain ⟨hb, hpb⟩ := List.mem_filter.mp hb
      have hpos := hbound b hb
      have hne : num b ≠ num a := by
        intro he
        rw [hinj b hb a ha he, hpa] at hpb
        exact absurd hpb (by decide)
      have : ¬ num a < num b := by
        intro hlt
        rw [hp a ha b hb hlt hpa] at hpb
        exact absurd hpb (by decide)
      omega
    rw [List.length_map, ← List.countP_eq_length_filter] at hroom
    have hpos := hbound a ha
    have hneg : recs.countP (fun b => !p b) = recs.countP (fun b => ¬ p b = true) := by
      apply List.countP_congr
      simp
    omega
  · -- those with the property all come behind `a`
    intro hle
    by_contra hpa
    have hroom := length_le_of_between (num a) recs.length (hnd p) <| by
      intro n hn
      obtain ⟨b, hb, rfl⟩ := List.mem_map.mp hn
      obtain ⟨hb, hpb⟩ := List.mem_filter.mp hb
      refine ⟨?_, (hbound b hb).2⟩
      have hne : num b ≠ num a := by
        intro he
        rw [hinj b hb a ha he] at hpb
        exact hpa hpb
      have : ¬ num b < num a := fun hlt => hpa (hp b hb a ha hlt hpb)
      omega
    rw [List.length_map, ← List.countP_eq_length_filter] at hroom
    have hpos := hbound a ha
    omega

/-! ## The oldest records -/

section Oldest

variable {β : Type*} (num : β → ℕ)

/-- How many records are older than `b`. -/
def older (recs : List β) (b : β) : ℕ := recs.countP fun a => num b < num a

/-- The records left when the `k` oldest are removed. -/
def dropOldest (k : ℕ) (recs : List β) : List β :=
  recs.filter fun b => k ≤ older num recs b

variable {num}

@[simp] theorem dropOldest_zero (recs : List β) : dropOldest num 0 recs = recs := by
  simp [dropOldest]

theorem older_map {recs : List β} {g : β → β}
    (hg : ∀ a ∈ recs, ∀ b ∈ recs, num (g a) < num (g b) ↔ num a < num b) {b : β}
    (hb : b ∈ recs) : older num (recs.map g) (g b) = older num recs b := by
  unfold older
  rw [List.countP_map]
  apply List.countP_congr
  intro a ha
  simpa using hg b hb a ha

/-- Renumbering without changing the order does not change which ones are the oldest. -/
theorem dropOldest_map (k : ℕ) {recs : List β} {g : β → β}
    (hg : ∀ a ∈ recs, ∀ b ∈ recs, num (g a) < num (g b) ↔ num a < num b) :
    dropOldest num k (recs.map g) = (dropOldest num k recs).map g := by
  unfold dropOldest
  rw [List.filter_map]
  congr 1
  apply List.filter_congr
  intro b hb
  simp [older_map hg hb]

/-- The oldest of all is the first to go. -/
theorem dropOldest_succ (k : ℕ) {l r : List β} {b : β}
    (h : ∀ a ∈ l ++ r, num a < num b) :
    dropOldest num (k + 1) (l ++ b :: r) = dropOldest num k (l ++ r) := by
  have hself : older num (l ++ b :: r) b = 0 := by
    apply List.countP_eq_zero.mpr
    intro a ha
    have : a = b ∨ a ∈ l ++ r := by
      simp only [List.mem_append, List.mem_cons] at ha ⊢
      tauto
    rcases this with rfl | ha
    · simp
    · have := h a ha
      simpa using this.le
  have hrest : ∀ a ∈ l ++ r, older num (l ++ b :: r) a = older num (l ++ r) a + 1 := by
    intro a ha
    have := h a ha
    unfold older
    rw [List.countP_append, List.countP_cons, List.countP_append]
    simp only [this, decide_true, if_true]
    omega
  unfold dropOldest
  rw [List.filter_append, List.filter_cons, hself, if_neg (by simp), List.filter_append]
  congr 1 <;> apply List.filter_congr <;> intro a ha <;> simp [hrest a (by simp [ha])]

theorem exists_oldest {recs : List β} (hne : recs ≠ []) (hnd : (recs.map num).Nodup) :
    ∃ l b r, recs = l ++ b :: r ∧ ∀ a ∈ l ++ r, num a < num b := by
  induction recs with
  | nil => exact absurd rfl hne
  | cons c recs ih =>
      rw [List.map_cons, List.nodup_cons] at hnd
      by_cases he : recs = []
      · exact ⟨[], c, [], by rw [he, List.nil_append], by simp⟩
      · obtain ⟨l, b, r, rfl, hb⟩ := ih he hnd.2
        have hcb : num c ≠ num b := by
          intro heq
          exact hnd.1 (List.mem_map.mpr ⟨b, by simp, heq.symm⟩)
        rcases Nat.lt_or_gt_of_ne hcb with hlt | hgt
        · refine ⟨c :: l, b, r, rfl, ?_⟩
          intro a ha
          rcases List.mem_cons.mp ha with rfl | ha
          · exact hlt
          · exact hb a ha
        · refine ⟨[], c, l ++ b :: r, rfl, ?_⟩
          intro a ha
          simp only [List.nil_append, List.mem_append, List.mem_cons] at ha
          have : a = b ∨ a ∈ l ++ r := by
            rw [List.mem_append]
            tauto
          rcases this with rfl | ha
          · exact hgt
          · exact (hb a ha).trans hgt

theorem length_dropOldest (k : ℕ) {recs : List β} (hnd : (recs.map num).Nodup) :
    (dropOldest num k recs).length = recs.length - k := by
  induction k generalizing recs with
  | zero => simp
  | succ k ih =>
      by_cases hne : recs = []
      · subst hne
        simp [dropOldest]
      · obtain ⟨l, b, r, rfl, hb⟩ := exists_oldest hne hnd
        have hsub : ((l ++ r).map num).Sublist ((l ++ b :: r).map num) :=
          ((List.sublist_cons_self b r).append_left l).map num
        rw [dropOldest_succ k hb, ih (hsub.nodup hnd)]
        simp only [List.length_append, List.length_cons]
        omega

theorem ranked_dropOldest (k : ℕ) {recs : List β} (h : Ranked (recs.map num)) :
    Ranked ((dropOldest num k recs).map num) := by
  induction k generalizing recs with
  | zero => simpa using h
  | succ k ih =>
      by_cases hne : recs = []
      · subst hne
        simpa [dropOldest] using h
      · obtain ⟨l, b, r, rfl, hb⟩ := exists_oldest hne h.nodup
        rw [dropOldest_succ k hb]
        apply ih
        rw [List.map_append, List.map_cons] at h
        rw [List.map_append]
        apply h.drop_last
        intro m hm
        rw [← List.map_append] at hm
        obtain ⟨a, ha, rfl⟩ := List.mem_map.mp hm
        exact hb a ha

/-- The oldest go one after another. -/
theorem dropOldest_one (k : ℕ) {recs : List β} (hnd : (recs.map num).Nodup) :
    dropOldest num k (dropOldest num 1 recs) = dropOldest num (k + 1) recs := by
  by_cases hne : recs = []
  · subst hne
    simp [dropOldest]
  · obtain ⟨l, b, r, rfl, hb⟩ := exists_oldest hne hnd
    rw [dropOldest_succ k hb, dropOldest_succ 0 hb, dropOldest_zero]

end Oldest

end Recency
