import Sj3.Verification.Reclist.Pool

/-! # Order and reference counts

Runs of insertions, with the time of each, whatever memory there is. The lists stay ordered
and each word counts the clauses that refer to it, as long as no clause record is used
again. -/

namespace Sj3.Reclist

open PointerList Recs

/-! ## Runs -/

/-- The lists, and when each record was filled last. -/
structure Traced where
  lists : Lists
  wordTime : ℕ → ℕ
  clauseTime : ℕ → ℕ
  clock : ℕ

/-- The time of the record that an insertion got. -/
def stamp (time : ℕ → ℕ) (clock : ℕ) : Option ℕ → ℕ → ℕ
  | none => time
  | some p => Function.update time p clock

def Traced.exec (t : Traced) (i : Insertion) : Option Traced :=
  (i.exec t.lists).map fun (lists, new) =>
    match i with
    | .word .. => ⟨lists, stamp t.wordTime t.clock new, t.clauseTime, t.clock + 1⟩
    | .clause .. => ⟨lists, t.wordTime, stamp t.clauseTime t.clock new, t.clock + 1⟩

def Traced.empty : Traced := ⟨Lists.empty, fun _ => 0, fun _ => 0, 0⟩

/-- How many clauses of the list refer to a word. -/
def refs (l : Lists) (p : ℕ) : ℕ :=
  l.clauses.list.countP fun c => (l.clauses.val c).jnode = some p

/-- The length is one that a byte holds, a clause is one of a word of the list, and no word
record that clauses refer to is used again. -/
def Sane (l : Lists) : Insertion → Prop
  | .word mem len _ _ =>
      0 ≤ len ∧ len < 256 ∧ ((l.words.alloc jrecNum mem).2 = none →
        ∀ p ∈ l.words.list.getLast?, ((l.words.val p).jlen.toNat : ℤ) < len → refs l p = 0)
  | .clause _ len jrec _ => 0 ≤ len ∧ len < 256 ∧ jrec ∈ l.words.list

/-- Besides, a word that is copied has no clauses yet, one that gets a clause has less than 255,
and no clause record is used again. -/
def Regular (l : Lists) (i : Insertion) : Prop :=
  Sane l i ∧
    match i with
    | .word _ _ rec _ => ∀ p ∈ rec, (l.words.val p).count = 0
    | .clause mem len jrec _ =>
        (l.clauses.alloc clrecNum mem).2 = none ∧
            (∀ p ∈ l.clauses.list.getLast?, len ≤ (l.clauses.val p).cllen.toNat) ∨
          (l.clauses.alloc clrecNum mem).2 ≠ none ∧ (l.words.val jrec).count ≠ 255

/-- What runs of insertions that meet a condition reach. -/
inductive Reached (P : Lists → Insertion → Prop) : Traced → Prop where
  | empty : Reached P Traced.empty
  | exec {t t' : Traced} {i : Insertion} (h : Reached P t) (hi : P t.lists i)
      (hexec : t.exec i = some t') : Reached P t'

/-! ## Order -/

/-- One record stands rightly in front of another: it is longer, or it is as long and older;
but among those of one length the ones that go `last` are behind the others, in any order. -/
def Before (len : ℕ → ℕ) (last : ℕ → Bool) (time : ℕ → ℕ) (a b : ℕ) : Prop :=
  len b ≤ len a ∧ (len b = len a → last b = true ∨ (last a = false ∧ time a < time b))

section Before

variable {len len' time time' : ℕ → ℕ} {last last' : ℕ → Bool} {xs : List ℕ} {p n clock : ℕ}

theorem before_congr (hlen : ∀ q ∈ xs, len q = len' q) (hlast : ∀ q ∈ xs, last q = last' q)
    (htime : ∀ q ∈ xs, time q = time' q) (h : xs.Pairwise (Before len last time)) :
    xs.Pairwise (Before len' last' time') := by
  refine h.imp_of_mem fun {a b} ha hb hab => ?_
  rw [Before, ← hlen a ha, ← hlen b hb, ← hlast a ha, ← hlast b hb, ← htime a ha, ← htime b hb]
  exact hab

/-- A new record gets its right place. -/
theorem before_place (h : xs.Pairwise (Before len last time)) (hp : len p = n)
    (hclock : ∀ q ∈ xs, time q < time p) :
    (place (fun q => decide (len q < n) || (decide (len q = n) && last q)) p xs).Pairwise
      (Before len last time) := by
  refine pairwise_place h ?_ ?_ ?_
  · intro a ha hfront
    simp only [Bool.or_eq_false_iff, decide_eq_false_iff_not, Bool.and_eq_false_imp,
      decide_eq_true_eq] at hfront
    refine ⟨by omega, fun heq => .inr ⟨hfront.2 (by omega), hclock a ha⟩⟩
  · intro a ha hfront
    simp only [Bool.or_eq_true, decide_eq_true_eq, Bool.and_eq_true] at hfront
    exact ⟨by omega, fun heq => .inl (by rcases hfront with h | h; omega; exact h.2)⟩
  · intro a ha b hb hfront hab
    simp only [Bool.or_eq_true, decide_eq_true_eq, Bool.and_eq_true] at hfront
    have hle := hab.1
    refine ⟨by omega, fun heq => .inl ?_⟩
    rcases hfront with hlt | ⟨haeq, hlast⟩
    · omega
    · rcases hab.2 (by omega) with hb | ⟨ha, -⟩
      · exact hb
      · rw [hlast] at ha
        cases ha

/-- The last of an ordered list is the shortest. -/
theorem le_of_getLast? {q : ℕ} (h : xs.Pairwise (Before len last time)) (hp : p ∈ xs.getLast?)
    (hq : q ∈ xs) :
    len p ≤ len q := by
  obtain ⟨init, rfl⟩ := List.getLast?_eq_some_iff.mp hp
  rcases List.mem_append.mp hq with hq | hq
  · exact ((List.pairwise_append.mp h).2.2 q hq p (by simp)).1
  · rw [List.mem_singleton.mp hq]

end Before

/-! ## Invariant -/

def jlens (l : Lists) (p : ℕ) : ℕ := (l.words.val p).jlen.toNat

def cllens (l : Lists) (p : ℕ) : ℕ := (l.clauses.val p).cllen.toNat

def tankanjis (l : Lists) (p : ℕ) : Bool := isTankanji l.words (l.clauses.val p)

/-- The lists end, without a cycle, and are ordered. -/
structure Ordered (t : Traced) : Prop where
  words : Chain t.lists.words.sort t.lists.words.top t.lists.words.list
  clauses : Chain t.lists.clauses.sort t.lists.clauses.top t.lists.clauses.list
  nodup_words : t.lists.words.list.Nodup
  nodup_clauses : t.lists.clauses.list.Nodup
  sorted_words : t.lists.words.list.Pairwise
    (Before (jlens t.lists) (fun _ => false) t.wordTime)
  sorted_clauses : t.lists.clauses.list.Pairwise
    (Before (cllens t.lists) (tankanjis t.lists) t.clauseTime)

/-- A record that an insertion leaves out, be it one of the list or the new one, is not longer
than those it keeps. -/
structure DropsShortest (t t' : Traced) (i : Insertion) : Prop where
  words : ∀ p ∈ t.lists.words.list,
    (p ∈ t'.lists.words.list ∧ t'.wordTime p = t.wordTime p) ∨
      ∀ q ∈ t'.lists.words.list, jlens t.lists p ≤ jlens t'.lists q
  clauses : ∀ p ∈ t.lists.clauses.list,
    (p ∈ t'.lists.clauses.list ∧ t'.clauseTime p = t.clauseTime p) ∨
      ∀ q ∈ t'.lists.clauses.list, cllens t.lists p ≤ cllens t'.lists q
  refused : ∀ l, i.exec t.lists = some (l, none) →
    match i with
    | .word _ len _ _ => ∀ q ∈ t'.lists.words.list, len ≤ jlens t'.lists q
    | .clause _ len _ _ => ∀ q ∈ t'.lists.clauses.list, len ≤ cllens t'.lists q

/-- Each word counts its clauses. -/
def Counted (l : Lists) : Prop :=
  ∀ p ∈ l.words.list, (l.words.val p).count.toNat = refs l p

/-- What every sane insertion keeps. -/
structure Inv (t : Traced) : Prop where
  words : ∃ fs, t.lists.words.Holds t.lists.words.list fs
  clauses : ∃ fs, t.lists.clauses.Holds t.lists.clauses.list fs
  sorted_words : t.lists.words.list.Pairwise
    (Before (jlens t.lists) (fun _ => false) t.wordTime)
  sorted_clauses : t.lists.clauses.list.Pairwise
    (Before (cllens t.lists) (tankanjis t.lists) t.clauseTime)
  wordTime_lt : ∀ p ∈ t.lists.words.list, t.wordTime p < t.clock
  clauseTime_lt : ∀ p ∈ t.lists.clauses.list, t.clauseTime p < t.clock
  jnode : ∀ c ∈ t.lists.clauses.list, ∃ p ∈ t.lists.words.list,
    (t.lists.clauses.val c).jnode = some p

theorem Inv.ordered {t : Traced} (h : Inv t) : Ordered t := by
  obtain ⟨fs, hwords⟩ := h.words
  obtain ⟨gs, hclauses⟩ := h.clauses
  exact ⟨hwords.chain, hclauses.chain, hwords.chain.nodup, hclauses.chain.nodup, h.sorted_words,
    h.sorted_clauses⟩

theorem inv_empty : Inv Traced.empty where
  words := ⟨[], rfl, rfl, by simp, by simp [Traced.empty, Lists.empty, list, walk]⟩
  clauses := ⟨[], rfl, rfl, by simp, by simp [Traced.empty, Lists.empty, list, walk]⟩
  sorted_words := List.Pairwise.nil
  sorted_clauses := List.Pairwise.nil
  wordTime_lt := fun p hp => absurd hp (List.not_mem_nil)
  clauseTime_lt := fun p hp => absurd hp (List.not_mem_nil)
  jnode := fun c hc => absurd hc (List.not_mem_nil)

/-! ## Refusal -/

theorem exists_getLast? {xs : List ℕ} {q : ℕ} (hq : q ∈ xs) : ∃ p, p ∈ xs.getLast? := by
  have hne : xs ≠ [] := List.ne_nil_of_mem hq
  exact ⟨xs.getLast hne, List.getLast?_eq_getLast_of_ne_nil hne⟩

/-- Only time passes when an insertion is refused. -/
def Traced.tick (t : Traced) : Traced := { t with clock := t.clock + 1 }

theorem Inv.tick {t : Traced} (h : Inv t) : Inv t.tick where
  words := h.words
  clauses := h.clauses
  sorted_words := h.sorted_words
  sorted_clauses := h.sorted_clauses
  wordTime_lt := fun p hp => Nat.lt_succ_of_lt (h.wordTime_lt p hp)
  clauseTime_lt := fun p hp => Nat.lt_succ_of_lt (h.clauseTime_lt p hp)
  jnode := h.jnode

theorem DropsShortest.tick {t : Traced} {i : Insertion}
    (h : match i with
      | .word _ len _ _ => ∀ p ∈ t.lists.words.list.getLast?, len ≤ jlens t.lists p
      | .clause _ len _ _ => ∀ p ∈ t.lists.clauses.list.getLast?, len ≤ cllens t.lists p)
    (hinv : Inv t) : DropsShortest t t.tick i where
  words := fun _ hp => .inl ⟨hp, rfl⟩
  clauses := fun _ hp => .inl ⟨hp, rfl⟩
  refused := by
    intro l hl
    cases i with
    | word mem len rec fill =>
        intro q hq
        obtain ⟨last, hlast⟩ := exists_getLast? hq
        exact (h last hlast).trans
          (Int.ofNat_le.mpr (le_of_getLast? hinv.sorted_words hlast hq))
    | clause mem len jrec fill =>
        intro q hq
        obtain ⟨last, hlast⟩ := exists_getLast? hq
        exact (h last hlast).trans
          (Int.ofNat_le.mpr (le_of_getLast? hinv.sorted_clauses hlast hq))

/-! ## Words -/

section Word

variable {t : Traced} {mem : Malloc} {len : ℤ} {rec : Option ℕ} {fill : JrecFill}

/-- The new record is in the list, in its place. -/
structure WordStep (t t' : Traced) (mem : Malloc) (len : ℤ) (rec : Option ℕ) (fill : JrecFill)
    (init : List ℕ) (p : ℕ) : Prop where
  exec : (Insertion.word mem len rec fill).exec t.lists = some (t'.lists, some p)
  source : Source t.lists.words jrecNum mem Jrec.jlen len t.lists.words.list init p
  holds : ∃ fs, t'.lists.words.Holds t'.lists.words.list fs
  list : t'.lists.words.list = place (shorter t.lists.words len) p init
  val : t'.lists.words.val = Function.update t.lists.words.val p
    (fill.store { rec.elim Jrec.zero t.lists.words.val with jlen := uchar len })
  clauses : t'.lists.clauses = t.lists.clauses
  wordTime : t'.wordTime = Function.update t.wordTime p t.clock
  clauseTime : t'.clauseTime = t.clauseTime
  clock : t'.clock = t.clock + 1

variable (mem len rec fill) in
/-- A word is refused, or it is put into its place. -/
theorem Inv.word_cases (h : Inv t) :
    (t.exec (.word mem len rec fill) = some t.tick ∧
        (Insertion.word mem len rec fill).exec t.lists = some (t.lists, none) ∧
        ∀ p ∈ t.lists.words.list.getLast?, len ≤ jlens t.lists p) ∨
      ∃ t' init p, t.exec (.word mem len rec fill) = some t' ∧
        WordStep t t' mem len rec fill init p := by
  obtain ⟨fs, hwords⟩ := h.words
  rcases argjrec_spec hwords mem len rec with
    ⟨hcall, -, hle⟩ | ⟨w', init, fs', p, hcall, hsource, hholds, hval⟩
  · have hexec : (Insertion.word mem len rec fill).exec t.lists = some (t.lists, none) := by
      rw [Insertion.exec, hcall]
      rfl
    refine .inl ⟨?_, hexec, hle⟩
    rw [Traced.exec, hexec]
    rfl
  · let lists : Lists := { t.lists with words := w'.setVal p (fill.store (w'.val p)) }
    have hexec : (Insertion.word mem len rec fill).exec t.lists = some (lists, some p) := by
      rw [Insertion.exec, hcall]
      rfl
    have hlist : lists.words.list = place (shorter t.lists.words len) p init :=
      hholds.setVal.list_eq
    refine .inr ⟨⟨lists, stamp t.wordTime t.clock (some p), t.clauseTime, t.clock + 1⟩, init, p,
      ?_, hexec, hsource, ⟨fs', ?_⟩, hlist, ?_, rfl, rfl, rfl, rfl⟩
    · rw [Traced.exec, hexec]
      rfl
    · show lists.words.Holds lists.words.list fs'
      rw [hlist]
      exact hholds.setVal
    · show lists.words.val = _
      rw [val_setVal, hval, Function.update_self, Function.update_idem]

theorem uchar_toNat (h : 0 ≤ len) (hlt : len < 256) : ((uchar len).toNat : ℤ) = len := by
  rw [uchar, UInt8.toNat_ofNat']
  omega

theorem Source.pairwise {ρ : Type} {w : Recs ρ} {num : ℕ} {length : ρ → UInt8} {xs init : List ℕ}
    {p : ℕ} {R : ℕ → ℕ → Prop} (h : Source w num mem length len xs init p) (hxs : xs.Pairwise R) :
    init.Pairwise R := by
  cases h with
  | new => exact hxs
  | last _ hinit => exact (List.pairwise_append.mp (hinit ▸ hxs)).1

variable {t' : Traced} {init : List ℕ} {p : ℕ}

theorem WordStep.not_mem (h : WordStep t t' mem len rec fill init p) : p ∉ init := h.source.not_mem

theorem WordStep.mem_iff (h : WordStep t t' mem len rec fill init p) {q : ℕ} :
    q ∈ t'.lists.words.list ↔ q = p ∨ q ∈ init := by
  rw [h.list, mem_place]

theorem WordStep.jlens (h : WordStep t t' mem len rec fill init p) (hlen : 0 ≤ len)
    (hlt : len < 256) : (Reclist.jlens t'.lists p : ℤ) = len := by
  rw [Reclist.jlens, h.val, Function.update_self, fill.jlen_store]
  exact uchar_toNat hlen hlt

theorem WordStep.jlens_of_mem (h : WordStep t t' mem len rec fill init p) {q : ℕ} (hq : q ∈ init) :
    Reclist.jlens t'.lists q = Reclist.jlens t.lists q := by
  rw [Reclist.jlens, h.val, Function.update_of_ne (ne_of_mem_of_not_mem hq h.not_mem),
    Reclist.jlens]

/-- No clause refers to the record that a word gets. -/
theorem WordStep.unreferred (hinv : Inv t) (h : WordStep t t' mem len rec fill init p)
    (hsane : Sane t.lists (.word mem len rec fill)) {c : ℕ} (hc : c ∈ t.lists.clauses.list) :
    (t.lists.clauses.val c).jnode ≠ some p := by
  cases h.source with
  | new _ hp =>
      obtain ⟨q, hq, hjnode⟩ := hinv.jnode c hc
      rw [hjnode]
      exact fun heq => hp (Option.some.inj heq ▸ hq)
  | last hmem hlist hlt _ =>
      have hzero := hsane.2.2 (by rw [hmem]) p (by rw [hlist]; simp) hlt
      rw [refs, List.countP_eq_zero] at hzero
      simpa using hzero c hc

theorem WordStep.inv (hinv : Inv t) (h : WordStep t t' mem len rec fill init p)
    (hsane : Sane t.lists (.word mem len rec fill)) : Inv t' where
  words := h.holds
  clauses := h.clauses ▸ hinv.clauses
  sorted_words := by
    have hold : init.Pairwise (Before (Reclist.jlens t'.lists) (fun _ => false) t'.wordTime) := by
      refine before_congr (fun q hq => (h.jlens_of_mem hq).symm) (fun _ _ => rfl) ?_
        (Source.pairwise h.source hinv.sorted_words)
      intro q hq
      rw [h.wordTime, Function.update_of_ne (ne_of_mem_of_not_mem hq h.not_mem)]
    have hplaced := before_place hold (p := p) rfl (by
      intro q hq
      rw [h.wordTime, Function.update_self,
        Function.update_of_ne (ne_of_mem_of_not_mem hq h.not_mem)]
      exact hinv.wordTime_lt q (h.source.subset hq))
    rw [h.list, place_congr ?_]
    · exact hplaced
    · intro q hq
      have hlen := h.jlens hsane.1 hsane.2.1
      have hq := h.jlens_of_mem hq
      rw [shorter, Bool.and_false, Bool.or_false, decide_eq_decide, ← hlen, hq]
      exact Int.ofNat_lt
  sorted_clauses := by
    rw [h.clauses]
    refine before_congr (fun _ _ => by rw [cllens, cllens, h.clauses]) ?_
      (fun _ _ => by rw [h.clauseTime]) hinv.sorted_clauses
    intro c hc
    obtain ⟨q, -, hjnode⟩ := hinv.jnode c hc
    have hne : q ≠ p := fun heq => h.unreferred hinv hsane hc (heq ▸ hjnode)
    simp only [tankanjis, isTankanji, h.clauses, hjnode, Option.any_some]
    rw [h.val, Function.update_of_ne hne]
  wordTime_lt := by
    intro q hq
    rw [h.clock, h.wordTime]
    rcases h.mem_iff.mp hq with rfl | hq
    · rw [Function.update_self]
      exact Nat.lt_succ_self _
    · rw [Function.update_of_ne (ne_of_mem_of_not_mem hq h.not_mem)]
      exact Nat.lt_succ_of_lt (hinv.wordTime_lt q (h.source.subset hq))
  clauseTime_lt := by
    intro c hc
    rw [h.clauses] at hc
    rw [h.clock, h.clauseTime]
    exact Nat.lt_succ_of_lt (hinv.clauseTime_lt c hc)
  jnode := by
    intro c hc
    rw [h.clauses] at hc ⊢
    obtain ⟨q, hq, hjnode⟩ := hinv.jnode c hc
    refine ⟨q, h.mem_iff.mpr ?_, hjnode⟩
    rcases h.source.mem hq with hq | rfl
    · exact .inr hq
    · exact .inl rfl

theorem WordStep.dropsShortest (hinv : Inv t) (h : WordStep t t' mem len rec fill init p)
    (hsane : Sane t.lists (.word mem len rec fill)) :
    DropsShortest t t' (.word mem len rec fill) where
  words := by
    intro q hq
    by_cases hinit : q ∈ init
    · refine .inl ⟨h.mem_iff.mpr (.inr hinit), ?_⟩
      rw [h.wordTime, Function.update_of_ne (ne_of_mem_of_not_mem hinit h.not_mem)]
    refine .inr fun r hr => ?_
    cases h.source with
    | new => exact absurd hq hinit
    | last _ hlist hlt _ =>
        have hlast : p ∈ t.lists.words.list.getLast? := by rw [hlist]; simp
        obtain rfl : q = p := by
          rw [hlist, List.mem_append, List.mem_singleton] at hq
          exact hq.resolve_left hinit
        rcases h.mem_iff.mp hr with rfl | hr
        · have := h.jlens hsane.1 hsane.2.1
          rw [← this] at hlt
          exact Nat.le_of_lt (Int.ofNat_lt.mp hlt)
        · rw [h.jlens_of_mem hr]
          exact le_of_getLast? hinv.sorted_words hlast (h.source.subset hr)
  clauses := by
    intro c hc
    rw [h.clauses, h.clauseTime]
    exact .inl ⟨hc, rfl⟩
  refused := by
    intro l hl
    rw [h.exec] at hl
    cases hl

/-- A word is taken in, and the invariant stays. -/
theorem Inv.word_step (hinv : Inv t) (hsane : Sane t.lists (.word mem len rec fill)) :
    ∃ t', t.exec (.word mem len rec fill) = some t' ∧ Inv t' ∧
      DropsShortest t t' (.word mem len rec fill) := by
  rcases hinv.word_cases mem len rec fill with
    ⟨hexec, -, hle⟩ | ⟨t', init, p, hexec, hstep⟩
  · exact ⟨t.tick, hexec, hinv.tick, DropsShortest.tick hle hinv⟩
  · exact ⟨t', hexec, hstep.inv hinv hsane, hstep.dropsShortest hinv hsane⟩

end Word

/-! ## Clauses -/

section Clause

variable {t : Traced} {mem : Malloc} {len : ℤ} {jrec : ℕ} {fill : ClrecFill}

/-- The new record is in the list, in its place, and its word counts it. -/
structure ClauseStep (t t' : Traced) (mem : Malloc) (len : ℤ) (jrec : ℕ) (fill : ClrecFill)
    (init : List ℕ) (p : ℕ) : Prop where
  exec : (Insertion.clause mem len jrec fill).exec t.lists = some (t'.lists, some p)
  source : Source t.lists.clauses clrecNum mem Clrec.cllen len t.lists.clauses.list init p
  holds : ∃ fs, t'.lists.clauses.Holds t'.lists.clauses.list fs
  list : t'.lists.clauses.list = place (behind t.lists.words t.lists.clauses len) p init
  val : t'.lists.clauses.val = Function.update t.lists.clauses.val p (fill.store
    { Clrec.zero with cllen := uchar len, cl2len := uchar len, jnode := some jrec })
  words : t'.lists.words = t.lists.words.setVal jrec
    { t.lists.words.val jrec with count := (t.lists.words.val jrec).count + 1 }
  wordTime : t'.wordTime = t.wordTime
  clauseTime : t'.clauseTime = Function.update t.clauseTime p t.clock
  clock : t'.clock = t.clock + 1

variable (mem len jrec fill) in
/-- A clause is refused, or it is put into its place. -/
theorem Inv.clause_cases (h : Inv t) :
    (t.exec (.clause mem len jrec fill) = some t.tick ∧
        (Insertion.clause mem len jrec fill).exec t.lists = some (t.lists, none) ∧
        ∀ p ∈ t.lists.clauses.list.getLast?, len ≤ cllens t.lists p) ∨
      ∃ t' init p, t.exec (.clause mem len jrec fill) = some t' ∧
        ClauseStep t t' mem len jrec fill init p := by
  obtain ⟨fs, hclauses⟩ := h.clauses
  rcases argclrec_spec hclauses mem len t.lists.words with
    ⟨hcall, -, hle⟩ | ⟨w', init, fs', p, hcall, hsource, hholds, hval⟩
  · have hexec : (Insertion.clause mem len jrec fill).exec t.lists = some (t.lists, none) := by
      rw [Insertion.exec, hcall]
      rfl
    refine .inl ⟨?_, hexec, hle⟩
    rw [Traced.exec, hexec]
    rfl
  · let word := t.lists.words.val jrec
    let lists : Lists := ⟨t.lists.words.setVal jrec { word with count := word.count + 1 },
      w'.setVal p (fill.store { w'.val p with jnode := some jrec })⟩
    have hexec : (Insertion.clause mem len jrec fill).exec t.lists = some (lists, some p) := by
      rw [Insertion.exec, hcall]
      rfl
    have hlist : lists.clauses.list = place (behind t.lists.words t.lists.clauses len) p init :=
      hholds.setVal.list_eq
    refine .inr ⟨⟨lists, t.wordTime, stamp t.clauseTime t.clock (some p), t.clock + 1⟩, init, p,
      ?_, hexec, hsource, ⟨fs', ?_⟩, hlist, ?_, rfl, rfl, rfl, rfl⟩
    · rw [Traced.exec, hexec]
      rfl
    · show lists.clauses.Holds lists.clauses.list fs'
      rw [hlist]
      exact hholds.setVal
    · show lists.clauses.val = _
      rw [val_setVal, hval, Function.update_self, Function.update_idem]

variable {t' : Traced} {init : List ℕ} {p : ℕ}

theorem ClauseStep.not_mem (h : ClauseStep t t' mem len jrec fill init p) : p ∉ init :=
  h.source.not_mem

theorem ClauseStep.mem_iff (h : ClauseStep t t' mem len jrec fill init p) {q : ℕ} :
    q ∈ t'.lists.clauses.list ↔ q = p ∨ q ∈ init := by
  rw [h.list, mem_place]

theorem ClauseStep.cllens (h : ClauseStep t t' mem len jrec fill init p) (hlen : 0 ≤ len)
    (hlt : len < 256) : (Reclist.cllens t'.lists p : ℤ) = len := by
  rw [Reclist.cllens, h.val, Function.update_self, fill.cllen_store]
  exact uchar_toNat hlen hlt

theorem ClauseStep.val_of_mem (h : ClauseStep t t' mem len jrec fill init p) {q : ℕ}
    (hq : q ∈ init) : t'.lists.clauses.val q = t.lists.clauses.val q := by
  rw [h.val, Function.update_of_ne (ne_of_mem_of_not_mem hq h.not_mem)]

theorem ClauseStep.cllens_of_mem (h : ClauseStep t t' mem len jrec fill init p) {q : ℕ}
    (hq : q ∈ init) : Reclist.cllens t'.lists q = Reclist.cllens t.lists q := by
  rw [Reclist.cllens, h.val_of_mem hq, Reclist.cllens]

theorem ClauseStep.jnode (h : ClauseStep t t' mem len jrec fill init p) :
    (t'.lists.clauses.val p).jnode = some jrec := by
  rw [h.val, Function.update_self, fill.jnode_store]

theorem ClauseStep.wordList (h : ClauseStep t t' mem len jrec fill init p) :
    t'.lists.words.list = t.lists.words.list := by
  rw [h.words, Recs.list, Recs.list, sort_setVal]
  rfl

/-- Of the words only a count changes. -/
theorem ClauseStep.hinsi (h : ClauseStep t t' mem len jrec fill init p) (q : ℕ) :
    (t'.lists.words.val q).hinsi = (t.lists.words.val q).hinsi := by
  rw [h.words, val_setVal]
  by_cases hq : q = jrec
  · rw [hq, Function.update_self]
  · rw [Function.update_of_ne hq]

theorem ClauseStep.jlens (h : ClauseStep t t' mem len jrec fill init p) (q : ℕ) :
    Reclist.jlens t'.lists q = Reclist.jlens t.lists q := by
  rw [Reclist.jlens, Reclist.jlens, h.words, val_setVal]
  by_cases hq : q = jrec
  · rw [hq, Function.update_self]
  · rw [Function.update_of_ne hq]

theorem ClauseStep.tankanjis (h : ClauseStep t t' mem len jrec fill init p) {q : ℕ}
    (hq : q ∈ init) : Reclist.tankanjis t'.lists q = Reclist.tankanjis t.lists q := by
  simp only [Reclist.tankanjis, isTankanji, h.val_of_mem hq, h.hinsi]

theorem ClauseStep.inv (hinv : Inv t) (h : ClauseStep t t' mem len jrec fill init p)
    (hsane : Sane t.lists (.clause mem len jrec fill)) : Inv t' where
  words := by
    obtain ⟨fs, hwords⟩ := hinv.words
    rw [h.wordList, h.words]
    exact ⟨fs, hwords.setVal⟩
  clauses := h.holds
  sorted_words := by
    rw [h.wordList]
    exact before_congr (fun q _ => (h.jlens q).symm) (fun _ _ => rfl)
      (fun _ _ => by rw [h.wordTime]) hinv.sorted_words
  sorted_clauses := by
    have hold : init.Pairwise
        (Before (Reclist.cllens t'.lists) (Reclist.tankanjis t'.lists) t'.clauseTime) := by
      refine before_congr (fun q hq => (h.cllens_of_mem hq).symm)
        (fun q hq => (h.tankanjis hq).symm) (fun q hq => ?_)
        (Source.pairwise h.source hinv.sorted_clauses)
      rw [h.clauseTime, Function.update_of_ne (ne_of_mem_of_not_mem hq h.not_mem)]
    have hplaced := before_place hold (p := p) rfl (by
      intro q hq
      rw [h.clauseTime, Function.update_self,
        Function.update_of_ne (ne_of_mem_of_not_mem hq h.not_mem)]
      exact hinv.clauseTime_lt q (h.source.subset hq))
    rw [h.list, place_congr ?_]
    · exact hplaced
    · intro q hq
      have hlen := h.cllens hsane.1 hsane.2.1
      rw [behind, h.tankanjis hq, ← hlen, h.cllens_of_mem hq, Reclist.tankanjis]
      congr 1
      · rw [decide_eq_decide]
        exact Int.ofNat_lt
      · congr 1
        rw [decide_eq_decide]
        exact Int.ofNat_inj
  wordTime_lt := by
    intro q hq
    rw [h.wordList] at hq
    rw [h.clock, h.wordTime]
    exact Nat.lt_succ_of_lt (hinv.wordTime_lt q hq)
  clauseTime_lt := by
    intro q hq
    rw [h.clock, h.clauseTime]
    rcases h.mem_iff.mp hq with rfl | hq
    · rw [Function.update_self]
      exact Nat.lt_succ_self _
    · rw [Function.update_of_ne (ne_of_mem_of_not_mem hq h.not_mem)]
      exact Nat.lt_succ_of_lt (hinv.clauseTime_lt q (h.source.subset hq))
  jnode := by
    intro c hc
    rw [h.wordList]
    rcases h.mem_iff.mp hc with rfl | hc
    · exact ⟨jrec, hsane.2.2, h.jnode⟩
    · rw [h.val_of_mem hc]
      exact hinv.jnode c (h.source.subset hc)

theorem ClauseStep.dropsShortest (hinv : Inv t) (h : ClauseStep t t' mem len jrec fill init p)
    (hsane : Sane t.lists (.clause mem len jrec fill)) :
    DropsShortest t t' (.clause mem len jrec fill) where
  words := by
    intro q hq
    rw [h.wordList, h.wordTime]
    exact .inl ⟨hq, rfl⟩
  clauses := by
    intro q hq
    by_cases hinit : q ∈ init
    · refine .inl ⟨h.mem_iff.mpr (.inr hinit), ?_⟩
      rw [h.clauseTime, Function.update_of_ne (ne_of_mem_of_not_mem hinit h.not_mem)]
    refine .inr fun r hr => ?_
    cases h.source with
    | new => exact absurd hq hinit
    | last _ hlist hlt _ =>
        have hlast : p ∈ t.lists.clauses.list.getLast? := by rw [hlist]; simp
        obtain rfl : q = p := by
          rw [hlist, List.mem_append, List.mem_singleton] at hq
          exact hq.resolve_left hinit
        rcases h.mem_iff.mp hr with rfl | hr
        · have := h.cllens hsane.1 hsane.2.1
          rw [← this] at hlt
          exact Nat.le_of_lt (Int.ofNat_lt.mp hlt)
        · rw [h.cllens_of_mem hr]
          exact le_of_getLast? hinv.sorted_clauses hlast (h.source.subset hr)
  refused := by
    intro l hl
    rw [h.exec] at hl
    cases hl

/-- A clause is taken in, and the invariant stays. -/
theorem Inv.clause_step (hinv : Inv t) (hsane : Sane t.lists (.clause mem len jrec fill)) :
    ∃ t', t.exec (.clause mem len jrec fill) = some t' ∧ Inv t' ∧
      DropsShortest t t' (.clause mem len jrec fill) := by
  rcases hinv.clause_cases mem len jrec fill with
    ⟨hexec, -, hle⟩ | ⟨t', init, p, hexec, hstep⟩
  · exact ⟨t.tick, hexec, hinv.tick, DropsShortest.tick hle hinv⟩
  · exact ⟨t', hexec, hstep.inv hinv hsane, hstep.dropsShortest hinv hsane⟩

end Clause

/-! ## Runs keep the order -/

theorem Inv.step {t : Traced} (hinv : Inv t) {i : Insertion} (hsane : Sane t.lists i) :
    ∃ t', t.exec i = some t' ∧ Inv t' ∧ DropsShortest t t' i := by
  cases i with
  | word mem len rec fill => exact hinv.word_step hsane
  | clause mem len jrec fill => exact hinv.clause_step hsane

theorem Reached.inv {t : Traced} (h : Reached Sane t) : Inv t := by
  induction h with
  | empty => exact inv_empty
  | exec _ hi hexec ih =>
      obtain ⟨t', hexec', hinv, -⟩ := ih.step hi
      rwa [Option.some.inj (hexec.symm.trans hexec')]

end Sj3.Reclist
