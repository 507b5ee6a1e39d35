import Mathlib.Data.Finset.Card
import Mathlib.Order.Interval.Finset.Nat
import Sj3.Model.Reclist

/-! # The lists in memory

The list in use and the one of the records not in use lie apart below `brk`. Every operation
keeps that, and does to the list in use what its name says. -/

namespace Sj3.Reclist

open PointerList

namespace Recs

variable {ρ : Type} {w w' : Recs ρ} {xs fs : List ℕ} {p q : ℕ} {s : Option ℕ} {v : ρ}

section Fields

variable (w : Recs ρ) (p q : ℕ) (s : Option ℕ) (v : ρ)

@[simp] theorem sort_setSort : (w.setSort p s).sort = Function.update w.sort p s := by
  funext q
  by_cases hq : q = p
  · subst hq; simp [sort, setSort]
  · simp [sort, setSort, hq]

@[simp] theorem val_setSort : (w.setSort p s).val = w.val := by
  funext q
  by_cases hq : q = p
  · subst hq; simp [val, setSort]
  · simp [val, setSort, hq]

@[simp] theorem sort_setVal : (w.setVal p v).sort = w.sort := by
  funext q
  by_cases hq : q = p
  · subst hq; simp [sort, setVal]
  · simp [sort, setVal, hq]

@[simp] theorem val_setVal : (w.setVal p v).val = Function.update w.val p v := by
  funext q
  by_cases hq : q = p
  · subst hq; simp [val, setVal]
  · simp [val, setVal, hq]

@[simp] theorem sort_setTop : (w.setTop s).sort = w.sort := rfl

@[simp] theorem val_setTop : (w.setTop s).val = w.val := rfl

@[simp] theorem top_setTop : (w.setTop s).top = s := rfl

@[simp] theorem free_setTop : (w.setTop s).free = w.free := rfl

@[simp] theorem brk_setTop : (w.setTop s).brk = w.brk := rfl

@[simp] theorem top_setSort : (w.setSort p s).top = w.top := rfl

@[simp] theorem free_setSort : (w.setSort p s).free = w.free := rfl

@[simp] theorem brk_setSort : (w.setSort p s).brk = w.brk := rfl

@[simp] theorem top_setVal : (w.setVal p v).top = w.top := rfl

@[simp] theorem free_setVal : (w.setVal p v).free = w.free := rfl

@[simp] theorem brk_setVal : (w.setVal p v).brk = w.brk := rfl

end Fields

/-- The list in use is `xs`, that of the records not in use `fs`. -/
structure Holds (w : Recs ρ) (xs fs : List ℕ) : Prop where
  chain : Chain w.sort w.top xs
  chain_free : Chain w.sort w.free fs
  disjoint : ∀ p ∈ xs, p ∉ fs
  lt_brk : ∀ p ∈ xs ++ fs, p < w.brk

/-- So are the lists, and `p` is in neither. -/
structure Spare (w : Recs ρ) (xs fs : List ℕ) (p : ℕ) : Prop extends w.Holds xs fs where
  not_mem : p ∉ xs
  not_mem_free : p ∉ fs
  lt : p < w.brk

theorem Holds.length_le (h : w.Holds xs fs) : xs.length ≤ w.brk := by
  have hsub : xs.toFinset ⊆ Finset.range w.brk := fun p hp =>
    Finset.mem_range.mpr (h.lt_brk p (List.mem_append_left _ (List.mem_toFinset.mp hp)))
  have := Finset.card_le_card hsub
  rwa [List.toFinset_card_of_nodup h.chain.nodup, Finset.card_range] at this

/-- The list that a reader of the memory finds. -/
theorem Holds.list_eq (h : w.Holds xs fs) : w.list = xs := walk_eq h.chain h.length_le

theorem Holds.setVal (h : w.Holds xs fs) : (w.setVal p v).Holds xs fs where
  chain := by rw [sort_setVal]; exact h.chain
  chain_free := by rw [sort_setVal]; exact h.chain_free
  disjoint := h.disjoint
  lt_brk := h.lt_brk

theorem Spare.setVal (h : w.Spare xs fs p) : (w.setVal q v).Spare xs fs p where
  toHolds := h.toHolds.setVal
  not_mem := h.not_mem
  not_mem_free := h.not_mem_free
  lt := h.lt

/-! ## Getting a record -/

theorem Holds.pop (h : w.Holds xs (p :: fs)) :
    ∃ w', w.pop = (w', some p) ∧ w'.Spare xs fs p ∧ w'.val = w.val ∧ w'.brk = w.brk := by
  have hfree : w.free = some p := h.chain_free.1
  refine ⟨{ w with free := w.sort p }, by rw [Recs.pop, hfree], ?_, rfl, rfl⟩
  have hnodup := List.nodup_cons.mp h.chain_free.nodup
  exact
    { chain := h.chain
      chain_free := h.chain_free.2
      disjoint := fun q hq hfs => h.disjoint q hq (List.mem_cons_of_mem p hfs)
      lt_brk := fun q hq => h.lt_brk q (by
        rcases List.mem_append.mp hq with hq | hq
        · exact List.mem_append_left _ hq
        · exact List.mem_append_right _ (List.mem_cons_of_mem p hq))
      not_mem := fun hp => h.disjoint p hp List.mem_cons_self
      not_mem_free := hnodup.1
      lt := h.lt_brk p (List.mem_append_right _ List.mem_cons_self) }

theorem val_array (num : ℕ) (w : Recs ρ) : (w.array num).val = w.val := by
  funext q
  simp only [val, array]
  split <;> rfl

theorem sort_array_of_lt {num : ℕ} (h : q < w.brk) : (w.array num).sort q = w.sort q := by
  simp only [sort, array]
  rw [if_neg (by omega)]

/-- The records of a new array are linked in their order. -/
theorem chain_array (num : ℕ) (w : Recs ρ) {i k : ℕ} (hk : i + k = num) (hpos : 0 < k) :
    Chain (w.array num).sort (some (w.brk + i)) (List.range' (w.brk + i) k) := by
  induction k generalizing i with
  | zero => exact absurd hpos (Nat.lt_irrefl 0)
  | succ k ih =>
      refine ⟨rfl, ?_⟩
      simp only [sort, array]
      rw [if_pos (by omega)]
      rcases Nat.eq_zero_or_pos k with rfl | hk'
      · rw [if_neg (by omega)]
        rfl
      · simp only
        rw [if_pos (by omega)]
        exact ih (i := i + 1) (by omega) hk'

theorem Holds.array {num : ℕ} (hnum : 0 < num) (h : w.Holds xs []) :
    (w.array num).Holds xs (List.range' w.brk num) where
  chain := h.chain.congr fun q hq =>
    (sort_array_of_lt (h.lt_brk q (List.mem_append_left _ hq))).symm
  chain_free := chain_array num w (i := 0) (by omega) hnum
  disjoint := fun q hq hfs => by
    have := h.lt_brk q (List.mem_append_left _ hq)
    rw [List.mem_range'_1] at hfs
    omega
  lt_brk := fun q hq => by
    show q < w.brk + num
    rcases List.mem_append.mp hq with hq | hq
    · have := h.lt_brk q (List.mem_append_left _ hq)
      omega
    · rw [List.mem_range'_1] at hq
      omega

/-- A record is got, or there is no memory and nothing happens. -/
theorem Holds.alloc {num : ℕ} (hnum : 0 < num) (h : w.Holds xs fs) (mem : Malloc) :
    w.alloc num mem = (w, none) ∨
      ∃ w' fs' p, w.alloc num mem = (w', some p) ∧ w'.Spare xs fs' p ∧ w'.val = w.val := by
  rw [Recs.alloc]
  cases fs with
  | cons p fs =>
      obtain ⟨w', hpop, hspare, hval, -⟩ := h.pop
      rw [show w.free = some p from h.chain_free.1]
      exact .inr ⟨w', fs, p, hpop, hspare, hval⟩
  | nil =>
      rw [show w.free = none from h.chain_free]
      simp only
      split_ifs
      · obtain ⟨num, rfl⟩ := Nat.exists_eq_succ_of_ne_zero (Nat.ne_of_gt hnum)
        obtain ⟨w', hpop, hspare, hval, -⟩ := (h.array hnum).pop
        exact .inr ⟨w', _, _, hpop, hspare, hval.trans (val_array _ w)⟩
      · refine .inr ⟨_, [], w.brk, rfl, ?_, rfl⟩
        have hlt : ∀ q ∈ xs, q < w.brk := fun q hq => h.lt_brk q (List.mem_append_left _ hq)
        exact
          { chain := h.chain
            chain_free := rfl
            disjoint := h.disjoint
            lt_brk := fun q hq => Nat.lt_succ_of_lt (h.lt_brk q hq)
            not_mem := fun hp => Nat.lt_irrefl _ (hlt _ hp)
            not_mem_free := List.not_mem_nil
            lt := Nat.lt_succ_self _ }
      · exact .inl rfl

/-- The last record is taken out of the list, or it is not shorter and nothing happens. -/
theorem Holds.takeLast (h : w.Holds xs fs) (length : ρ → UInt8) (len : ℤ) :
    (w.takeLast length len = some (w, none) ∧
        ∀ p ∈ xs.getLast?, len ≤ (length (w.val p)).toNat) ∨
      ∃ w' init p, xs = init ++ [p] ∧ ((length (w.val p)).toNat : ℤ) < len ∧
        w.takeLast length len = some (w', some p) ∧ w'.Spare init fs p ∧ w'.val = w.val := by
  rcases List.eq_nil_or_concat' xs with rfl | ⟨init, p, rfl⟩
  · rw [Recs.takeLast, show w.top = none from h.chain]
    exact .inl ⟨rfl, by simp⟩
  have hlen := h.length_le
  rw [List.length_append, List.length_singleton] at hlen
  cases htop : w.top with
  | none => exact absurd (htop.symm.trans (Chain.eq_head? h.chain)) (by simp)
  | some head =>
      have hlast : toLast _ _ none head = _ := toLast_eq (htop ▸ h.chain) hlen
      rw [Recs.takeLast, htop]
      simp only [hlast, Option.bind_eq_bind, Option.bind_some, Option.or_none]
      by_cases hle : len ≤ (length (w.val p)).toNat
      · rw [if_pos hle]
        exact .inl ⟨rfl, by simpa using hle⟩
      rw [if_neg hle]
      refine .inr ?_
      have hp : p < w.brk := h.lt_brk p (by simp)
      have hpfs : p ∉ fs := h.disjoint p (by simp)
      have hdisj : ∀ q ∈ init, q ∉ fs := fun q hq => h.disjoint q (by simp [hq])
      have hlt : ∀ q ∈ init ++ fs, q < w.brk := fun q hq => h.lt_brk q (by
        rcases List.mem_append.mp hq with hq | hq <;> simp [hq])
      have hnodup := List.nodup_append.mp h.chain.nodup
      have hpinit : p ∉ init := fun hq => hnodup.2.2 p hq p (by simp) rfl
      rcases List.eq_nil_or_concat' init with rfl | ⟨init, ptr, rfl⟩
      · refine ⟨w.setTop none, [], p, rfl, by omega, rfl, ?_, rfl⟩
        exact ⟨⟨rfl, h.chain_free, hdisj, hlt⟩, hpinit, hpfs, hp⟩
      · refine ⟨w.setSort ptr none, init ++ [ptr], p, rfl, by omega, ?_, ?_, val_setSort w ptr none⟩
        · rw [List.getLast?_concat]
          rfl
        · have hcut : Chain (Function.update w.sort ptr none) w.top (init ++ [ptr]) :=
            Chain.cut (List.append_assoc init [ptr] [p] ▸ h.chain)
          exact
            { chain := by rw [sort_setSort]; exact hcut
              chain_free := by
                rw [sort_setSort]
                exact h.chain_free.update (hdisj ptr (by simp))
              disjoint := hdisj
              lt_brk := hlt
              not_mem := hpinit
              not_mem_free := hpfs
              lt := hp }

/-! ## Putting it into the list -/

theorem Spare.linkIn (h : w.Spare xs fs p) (front : ℕ → Bool) :
    ∃ w', w.linkIn front p = some w' ∧ w'.Holds (place front p xs) fs ∧ w'.val = w.val := by
  have hdisj : ∀ q ∈ place front p xs, q ∉ fs := by
    intro q hq
    rcases mem_place.mp hq with rfl | hq
    · exact h.not_mem_free
    · exact h.disjoint q hq
  have hlt : ∀ q ∈ place front p xs ++ fs, q < w.brk := by
    intro q hq
    rcases List.mem_append.mp hq with hq | hq
    · rcases mem_place.mp hq with rfl | hq
      · exact h.lt
      · exact h.lt_brk q (List.mem_append_left _ hq)
    · exact h.lt_brk q (List.mem_append_right _ hq)
  have hfree {s : Option ℕ} : Chain (Function.update w.sort p s) w.free fs :=
    h.chain_free.update h.not_mem_free
  cases xs with
  | nil =>
      have htop : w.top = none := h.chain
      refine ⟨(w.setTop (some p)).setSort p none, by rw [Recs.linkIn, htop], ?_, by simp⟩
      exact ⟨⟨rfl, by simp⟩, by rw [sort_setSort]; exact hfree, hdisj, hlt⟩
  | cons head rest =>
      have htop : w.top = some head := h.chain.1
      cases hhead : front head with
      | true =>
          refine ⟨(w.setSort p w.top).setTop (some p),
            by simp only [Recs.linkIn, htop, hhead, if_true], ⟨?_, ?_, hdisj, hlt⟩, by simp⟩
          · rw [sort_setTop, sort_setSort, place_cons_of_front hhead]
            exact Chain.push h.chain h.not_mem
          · rw [sort_setTop, sort_setSort]
            exact hfree
      | false =>
          have hlen : rest.length < w.brk := h.length_le
          obtain ⟨pre, ptr, post, hsplit, hplaced, hloop⟩ :=
            toPlace_eq p (htop ▸ h.chain) hlen hhead
          have hptr : ptr ∉ fs := h.disjoint ptr (by simp [hsplit])
          refine ⟨(w.setSort ptr (some p)).setSort p post.head?,
            by simp [Recs.linkIn, htop, hhead, hloop], ⟨?_, ?_, hdisj, hlt⟩, by simp⟩
          · rw [sort_setSort, sort_setSort, hplaced]
            exact Chain.insert (hsplit ▸ h.chain) (hsplit ▸ h.not_mem)
          · rw [sort_setSort, sort_setSort]
            exact (h.chain_free.update hptr).update h.not_mem_free

/-! ## Both -/

/-- The record is filled and put into the list by what the others hold. -/
theorem Spare.fill_linkIn (h : w.Spare xs fs p) (v : ρ) (test : ρ → Bool) :
    ∃ w', (w.setVal p v).linkIn (fun q => test ((w.setVal p v).val q)) p = some w' ∧
      w'.Holds (place (fun q => test (w.val q)) p xs) fs ∧ w'.val = Function.update w.val p v := by
  obtain ⟨w', hlink, hholds, hval⟩ :=
    (h.setVal : (w.setVal p v).Spare xs fs p).linkIn fun q => test ((w.setVal p v).val q)
  have hsame : ∀ q ∈ xs, test ((w.setVal p v).val q) = test (w.val q) := fun q hq => by
    rw [val_setVal, Function.update_of_ne (ne_of_mem_of_not_mem hq h.not_mem)]
  exact ⟨w', hlink, place_congr hsame ▸ hholds, hval.trans (val_setVal ..)⟩

/-- Where the record for length `len` comes from: it is new, or there was no memory and it was
the last of the list and shorter. The rest of the list is `init`. -/
inductive Source (w : Recs ρ) (num : ℕ) (mem : Malloc) (length : ρ → UInt8) (len : ℤ)
    (xs : List ℕ) : List ℕ → ℕ → Prop where
  | new {p : ℕ} (hmem : (w.alloc num mem).2 = some p) (h : p ∉ xs) :
      Source w num mem length len xs xs p
  | last {init : List ℕ} {p : ℕ} (hmem : w.alloc num mem = (w, none)) (h : xs = init ++ [p])
      (hlt : ((length (w.val p)).toNat : ℤ) < len) (hp : p ∉ init) :
      Source w num mem length len xs init p

theorem Source.not_mem {num : ℕ} {mem : Malloc} {length : ρ → UInt8} {len : ℤ} {init : List ℕ}
    (h : Source w num mem length len xs init p) : p ∉ init := by
  cases h with
  | new _ h => exact h
  | last _ _ _ hp => exact hp

theorem Source.mem {num : ℕ} {mem : Malloc} {length : ρ → UInt8} {len : ℤ} {init : List ℕ}
    (h : Source w num mem length len xs init p) (hq : q ∈ xs) : q ∈ init ∨ q = p := by
  cases h with
  | new => exact .inl hq
  | last _ h => simpa [h] using hq

theorem Source.subset {num : ℕ} {mem : Malloc} {length : ρ → UInt8} {len : ℤ} {init : List ℕ}
    (h : Source w num mem length len xs init p) (hq : q ∈ init) : q ∈ xs := by
  cases h with
  | new => exact hq
  | last _ h => rw [h]; exact List.mem_append_left _ hq

/-- What getting a record for length `len` ends with. -/
inductive Got (w : Recs ρ) (num : ℕ) (mem : Malloc) (length : ρ → UInt8) (len : ℤ)
    (xs : List ℕ) : Recs ρ × Option ℕ → Prop where
  | refused (hmem : w.alloc num mem = (w, none))
      (hle : ∀ p ∈ xs.getLast?, len ≤ (length (w.val p)).toNat) :
      Got w num mem length len xs (w, none)
  | source {w' : Recs ρ} {init fs' : List ℕ} {p : ℕ}
      (hsource : Source w num mem length len xs init p) (hspare : w'.Spare init fs' p)
      (hval : w'.val = w.val) : Got w num mem length len xs (w', some p)

theorem Holds.get {num : ℕ} (hnum : 0 < num) (h : w.Holds xs fs) (mem : Malloc)
    (length : ρ → UInt8) (len : ℤ) :
    (∃ w' p, w.alloc num mem = (w', some p) ∧ Got w num mem length len xs (w', some p)) ∨
      (w.alloc num mem = (w, none) ∧
        ∃ r, w.takeLast length len = some r ∧ Got w num mem length len xs r) := by
  rcases h.alloc hnum mem with halloc | ⟨w', fs', p, halloc, hspare, hval⟩
  · refine .inr ⟨halloc, ?_⟩
    rcases h.takeLast length len with ⟨htake, hle⟩ | ⟨w', init, p, hxs, hlt, htake, hspare, hval⟩
    · exact ⟨_, htake, .refused halloc hle⟩
    · exact ⟨_, htake, .source (.last halloc hxs hlt hspare.not_mem) hspare hval⟩
  · exact .inl ⟨w', p, halloc, .source (.new (by rw [halloc]) hspare.not_mem) hspare hval⟩

end Recs

open Recs

variable {xs fs : List ℕ}

/-- Words are put in front of the first shorter one. -/
def shorter (w : Recs Jrec) (len : ℤ) (p : ℕ) : Bool := decide (((w.val p).jlen.toNat : ℤ) < len)

theorem argjrec_spec {w : Recs Jrec} (h : w.Holds xs fs) (mem : Malloc) (len : ℤ)
    (rec : Option ℕ) :
    (argjrec mem len rec w = some (w, none) ∧ w.alloc jrecNum mem = (w, none) ∧
        ∀ p ∈ xs.getLast?, len ≤ (w.val p).jlen.toNat) ∨
      ∃ w' init fs' p, argjrec mem len rec w = some (w', some p) ∧
        Source w jrecNum mem Jrec.jlen len xs init p ∧ w'.Holds (place (shorter w len) p init) fs' ∧
        w'.val = Function.update w.val p { rec.elim Jrec.zero w.val with jlen := uchar len } := by
  have hnum : 0 < jrecNum := by decide
  have hget : ∃ r, getJrec mem len w = some r ∧ Got w jrecNum mem Jrec.jlen len xs r := by
    rcases h.get hnum mem Jrec.jlen len with ⟨w', p, halloc, hgot⟩ | ⟨halloc, r, htake, hgot⟩
    · exact ⟨_, by rw [getJrec, halloc], hgot⟩
    · exact ⟨r, by rw [getJrec, halloc]; exact htake, hgot⟩
  obtain ⟨r, hr, hgot⟩ := hget
  rw [argjrec, hr, Option.bind_eq_bind, Option.bind_some]
  cases hgot with
  | refused hmem hle => exact .inl ⟨rfl, hmem, hle⟩
  | @source w' init fs' p hsource hspare hval =>
      obtain ⟨w'', hlink, hholds, hval'⟩ := hspare.fill_linkIn
        { rec.elim Jrec.zero w'.val with jlen := uchar len }
        fun r => decide ((r.jlen.toNat : ℤ) < len)
      rw [hval] at hholds hval'
      refine .inr ⟨w'', init, fs', p, ?_, hsource, hholds, by simpa only [hval] using hval'⟩
      simp only [hlink, Option.bind_eq_bind, Option.bind_some]
      rfl

/-- Clauses are put in front of the first one that is shorter, or of their length and of a
single kanji. -/
def behind (words : Recs Jrec) (w : Recs Clrec) (len : ℤ) (p : ℕ) : Bool :=
  decide (((w.val p).cllen.toNat : ℤ) < len) ||
    (decide (((w.val p).cllen.toNat : ℤ) = len) && isTankanji words (w.val p))

theorem argclrec_spec {w : Recs Clrec} (h : w.Holds xs fs) (mem : Malloc) (len : ℤ)
    (words : Recs Jrec) :
    (argclrec mem len words w = some (w, none) ∧ w.alloc clrecNum mem = (w, none) ∧
        ∀ p ∈ xs.getLast?, len ≤ (w.val p).cllen.toNat) ∨
      ∃ w' init fs' p, argclrec mem len words w = some (w', some p) ∧
        Source w clrecNum mem Clrec.cllen len xs init p ∧
        w'.Holds (place (behind words w len) p init) fs' ∧
        w'.val = Function.update w.val p
          { Clrec.zero with cllen := uchar len, cl2len := uchar len } := by
  have hnum : 0 < clrecNum := by decide
  have hget : (getClrec mem len w = some (w, none) ∧ w.alloc clrecNum mem = (w, none) ∧
        ∀ p ∈ xs.getLast?, len ≤ (w.val p).cllen.toNat) ∨
      ∃ w' init fs' p v, getClrec mem len w = some (w', some p) ∧
        Source w clrecNum mem Clrec.cllen len xs init p ∧ w'.Spare init fs' p ∧
        w'.val = Function.update w.val p v := by
    rcases h.get hnum mem Clrec.cllen len with ⟨w', p, halloc, hgot⟩ | ⟨halloc, r, htake, hgot⟩
    · cases hgot with
      | source hsource hspare hval =>
          refine .inr ⟨w', _, _, p, w.val p, by rw [getClrec, halloc], hsource, hspare, ?_⟩
          rw [hval, Function.update_eq_self]
    · have hr : getClrec mem len w = some (r.2.elim r.1 fun p =>
          r.1.setVal p { r.1.val p with jnode := (r.1.val p).jnode.map (· - 1) }, r.2) := by
        rw [getClrec, halloc]
        simp only [htake, Option.map_some]
      cases hgot with
      | refused hmem hle => exact .inl ⟨hr, hmem, hle⟩
      | source hsource hspare hval =>
          exact .inr ⟨_, _, _, _, _, hr, hsource, hspare.setVal,
            (val_setVal ..).trans (by rw [hval])⟩
  rw [argclrec]
  rcases hget with ⟨hr, hmem, hle⟩ | ⟨w', init, fs', p, v, hr, hsource, hspare, hval⟩
  · rw [hr, Option.bind_eq_bind, Option.bind_some]
    exact .inl ⟨rfl, hmem, hle⟩
  · obtain ⟨w'', hlink, hholds, hval'⟩ := hspare.fill_linkIn
      { Clrec.zero with cllen := uchar len, cl2len := uchar len }
      fun c => decide ((c.cllen.toNat : ℤ) < len) ||
        (decide ((c.cllen.toNat : ℤ) = len) && isTankanji words c)
    rw [hr, Option.bind_eq_bind, Option.bind_some]
    refine .inr ⟨w'', init, fs', p, ?_, hsource, ?_, ?_⟩
    · simp only [hlink, Option.bind_eq_bind, Option.bind_some]
      rfl
    · rw [place_congr] at hholds
      · exact hholds
      · intro q hq
        rw [hval, Function.update_of_ne (ne_of_mem_of_not_mem hq hsource.not_mem)]
        rfl
    · rw [hval', hval, Function.update_idem]

end Sj3.Reclist
