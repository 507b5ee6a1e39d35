import Sj3.Verification.Server.Counts

/-! # What a request can do

The references of the lists and the locks behind each request of a client. -/

namespace Sj3

open Refs

/-! ## Lists -/

def dictlistOf (w : Option WorkArea) : List ℕ := (w.map WorkArea.dictlist).getD []

/-- The entries that refer to the dictionary at `a`, over all work areas and the global list. -/
def Server.entries (s : Server) (a : ℕ) : ℕ :=
  inLists s.client (fun fd => dictlistOf (s.work fd)) a + s.globalDictlist.count a

/-- Beside the entries there are the references in `held`. -/
structure Server.Balanced (s : Server) (held : ℕ → ℕ) : Prop where
  counts : s.Counts fun a => s.entries a + held a
  owner : ∀ fd w, s.work fd = some w → fd ∈ s.client

/-- The work area of a client is replaced. -/
structure SetsWork (s s' : Server) (fd : ℕ) (w : Option WorkArea) : Prop where
  client : s'.client = s.client
  globalDictlist : s'.globalDictlist = s.globalDictlist
  work : s'.work = Function.update s.work fd w

theorem SameLists.entries {s s' : Server} (h : SameLists s s') (a : ℕ) :
    s'.entries a = s.entries a := by
  rw [Server.entries, Server.entries, h.client, h.work, h.globalDictlist]

theorem SameLists.setWork {s s' : Server} (h : SameLists s s') (fd : ℕ) (w : Option WorkArea) :
    SetsWork s (s'.setWork fd w) fd w :=
  ⟨h.client, h.globalDictlist, by rw [Server.setWork, h.work]⟩

theorem SetsWork.trans {s s' s'' : Server} {fd : ℕ} {w : Option WorkArea}
    (h : SetsWork s s' fd w) (h' : SameLists s' s'') : SetsWork s s'' fd w :=
  ⟨h'.client.trans h.client, h'.globalDictlist.trans h.globalDictlist, h'.work.trans h.work⟩

theorem Server.Counts.setWork {s : Server} {refs : ℕ → ℕ} (h : s.Counts refs) (fd : ℕ)
    (w : Option WorkArea) : (s.setWork fd w).Counts refs := ⟨h.counted, h.link, h.unused⟩

section Lists

variable {s s' : Server} {held : ℕ → ℕ}

theorem Server.Balanced.isSome_of_dictlist (h : s.Balanced held) {fd : ℕ} {w : WorkArea}
    (hw : s.work fd = some w) : ∀ a ∈ w.dictlist, (s.mem a).isSome := by
  intro a ha
  have hlist : 0 < inLists s.client (fun fd => dictlistOf (s.work fd)) a := by
    rw [inLists_pos_iff]
    refine ⟨fd, h.owner fd w hw, ?_⟩
    rw [hw]
    exact ha
  rw [h.counts.isSome_iff, Server.entries]
  omega

theorem Server.Balanced.isSome_of_global (h : s.Balanced held) :
    ∀ a ∈ s.globalDictlist, (s.mem a).isSome := by
  intro a ha
  have hlist := List.count_pos_iff.mpr ha
  rw [h.counts.isSome_iff, Server.entries]
  omega

theorem SetsWork.entries {fd : ℕ} {w : Option WorkArea} (h : SetsWork s s' fd w)
    (hfd : fd ∈ s.client) (a : ℕ) :
    s'.entries a + (dictlistOf (s.work fd)).count a =
      s.entries a + (dictlistOf w).count a := by
  have hlists := inLists_update (fun fd => dictlistOf (s.work fd)) hfd (dictlistOf w) a
  have hnew : (fun fd => dictlistOf (s'.work fd)) =
      Function.update (fun fd => dictlistOf (s.work fd)) fd (dictlistOf w) := by
    funext g
    rw [h.work]
    by_cases hg : g = fd
    · rw [hg, Function.update_self, Function.update_self]
    · rw [Function.update_of_ne hg, Function.update_of_ne hg]
  rw [Server.entries, Server.entries, h.client, h.globalDictlist, hnew]
  omega

/-- A new list balances with the references behind it. -/
theorem Server.Balanced.setsWork (hs : s.Balanced held) {fd : ℕ} (hfd : fd ∈ s.client)
    {w : Option WorkArea} (h : SetsWork s s' fd w) {refs held' : ℕ → ℕ} (hcounts : s'.Counts refs)
    (hrefs : ∀ a, refs a + (dictlistOf (s.work fd)).count a =
      s.entries a + (dictlistOf w).count a + held' a) : s'.Balanced held' := by
  refine ⟨hcounts.congr fun a => ?_, fun g v hv => ?_⟩
  · have hentries := h.entries hfd a
    have hsum := hrefs a
    omega
  · rw [h.client]
    by_cases hg : g = fd
    · rw [hg]
      exact hfd
    · rw [h.work, Function.update_of_ne hg] at hv
      exact hs.owner g v hv

end Lists

/-! ## Locks -/

/-- Of the locks only those of the dictionaries `which` (by address and number of segments)
change: the descriptor `fd` is in them if and only if `on` says so. -/
def Relocks (fd : ℕ) (on : Prop) (which : ℕ → ℕ → Prop) (s s' : Server) : Prop :=
  ∀ a d', s'.mem a = some d' → ∃ d, s.mem a = some d ∧ d'.maxunit = d.maxunit ∧
    ∀ g, (g = fd ∧ which a d.maxunit → (g ∈ d'.lock ↔ on)) ∧
      (¬ (g = fd ∧ which a d.maxunit) → (g ∈ d'.lock ↔ g ∈ d.lock))

section Locks

variable {s s' s'' : Server} {fd : ℕ} {on : Prop} {which which' : ℕ → ℕ → Prop}

theorem Relocks.of_same (h : SameDicts s s') : Relocks fd on (fun _ _ => False) s s' := by
  intro a d' hd'
  obtain ⟨d, hd, hmax, hlock⟩ := h a d' hd'
  exact ⟨d, hd, hmax, fun g => ⟨fun hfalse => hfalse.2.elim, fun _ => by rw [hlock]⟩⟩

theorem Relocks.trans (h : Relocks fd on which s s') (h' : Relocks fd on which' s' s'') :
    Relocks fd on (fun a m => which a m ∨ which' a m) s s'' := by
  intro a d'' hd''
  obtain ⟨d', hd', hmax', hlock'⟩ := h' a d'' hd''
  obtain ⟨d, hd, hmax, hlock⟩ := h a d' hd'
  refine ⟨d, hd, hmax'.trans hmax, fun g => ?_⟩
  have hold := hlock g
  have hnew := hlock' g
  rw [hmax] at hnew
  by_cases hin : g = fd ∧ which' a d.maxunit
  · exact ⟨fun _ => hnew.1 hin, fun hout => absurd ⟨hin.1, .inr hin.2⟩ hout⟩
  · rw [hnew.2 hin]
    exact ⟨fun hg => hold.1 ⟨hg.1, hg.2.resolve_right fun h => hin ⟨hg.1, h⟩⟩,
      fun hout => hold.2 fun hg => hout ⟨hg.1, .inl hg.2⟩⟩

theorem Relocks.congr (h : Relocks fd on which s s') (hwhich : ∀ a m, which a m ↔ which' a m) :
    Relocks fd on which' s s' := by
  intro a d' hd'
  obtain ⟨d, hd, hmax, hlock⟩ := h a d' hd'
  refine ⟨d, hd, hmax, fun g => ?_⟩
  rw [← hwhich]
  exact hlock g

theorem Writes.relocks {a : ℕ} {d d₁ : DictFile} (hd : s.mem a = some d)
    (h : Writes s s' a (some d₁)) (hmax : d₁.maxunit = d.maxunit)
    (hlock : ∀ g, g ∈ d₁.lock ↔ if g = fd then on else g ∈ d.lock) :
    Relocks fd on (fun b _ => b = a) s s' := by
  intro b d' hd'
  rw [h.mem] at hd'
  by_cases hba : b = a
  · rw [hba, Function.update_self, Option.some_inj] at hd'
    rw [hba, ← hd']
    refine ⟨d, hd, hmax, fun g => ?_⟩
    rw [hlock]
    by_cases hg : g = fd
    · simp [hg]
    · simp [hg]
  · rw [Function.update_of_ne hba] at hd'
    exact ⟨d', hd', rfl, fun g => ⟨fun hself => absurd hself.2 hba, fun _ => Iff.rfl⟩⟩

end Locks

/-! ## Loops over lists -/

/-- What a step does that locks or unlocks the dictionary at `a`, if it is one of `which`. -/
def RelocksOne (f : Server → ℕ → Option Server) (fd : ℕ) (on : Prop) (which : ℕ → Prop) : Prop :=
  ∀ s refs a, s.Counts refs → (s.mem a).isSome →
    ∃ s', f s a = some s' ∧ s'.Counts refs ∧ SameLists s s' ∧
      Relocks fd on (fun b m => b = a ∧ which m) s s'

theorem relocksOne_unlockDict (fd : ℕ) :
    RelocksOne (unlockDict · · fd) fd False fun _ => True := by
  intro s refs a h ha
  obtain ⟨s', d, hs', hcounts, hd, hw⟩ := unlockDict_counts h ha fd
  refine ⟨s', hs', hcounts, hw.lists, (hw.relocks hd rfl fun g => ?_).congr fun b m => by simp⟩
  by_cases hg : g = fd
  · simp [hg]
  · simp [hg]

theorem relocksOne_lockDict (fd : ℕ) :
    RelocksOne (lockDict · · fd) fd True fun _ => True := by
  intro s refs a h ha
  obtain ⟨s', d, hs', hcounts, hd, hw⟩ := lockDict_counts h ha fd
  refine ⟨s', hs', hcounts, hw.lists, (hw.relocks hd rfl fun g => ?_).congr fun b m => by simp⟩
  by_cases hg : g = fd
  · simp [hg]
  · simp [hg]

/-- A step that is taken for user dictionaries only. -/
theorem RelocksOne.user {f : Server → ℕ → Option Server} {fd : ℕ} {on : Prop}
    (h : RelocksOne f fd on fun _ => True) :
    RelocksOne (fun s a => (s.mem a).bind fun d => if d.maxunit ≠ 0 then f s a else some s) fd on
      (· ≠ 0) := by
  intro s refs a hcounts ha
  obtain ⟨d, hd⟩ := Option.isSome_iff_exists.mp ha
  dsimp only
  rw [hd, Option.bind_some]
  by_cases hmax : d.maxunit ≠ 0
  · rw [if_pos hmax]
    obtain ⟨s', hs', hcounts', hlists, hlocks⟩ := h s refs a hcounts ha
    refine ⟨s', hs', hcounts', hlists, fun b d' hd' => ?_⟩
    obtain ⟨d₁, hd₁, hmax₁, hlock⟩ := hlocks b d' hd'
    have huser : b = a → d₁.maxunit ≠ 0 := by
      intro hba
      rw [hba, hd, Option.some_inj] at hd₁
      rw [← hd₁]
      exact hmax
    have hsame : b = a ∧ d₁.maxunit ≠ 0 ↔ b = a ∧ True :=
      and_congr_right fun hba => iff_true_intro (huser hba)
    refine ⟨d₁, hd₁, hmax₁, fun g => ?_⟩
    dsimp only
    rw [hsame]
    exact hlock g
  · rw [if_neg hmax]
    refine ⟨s, rfl, hcounts, .refl s,
      fun b d' hd' => ⟨d', hd', rfl, fun g => ⟨?_, fun _ => Iff.rfl⟩⟩⟩
    rintro ⟨-, hba, huser⟩
    rw [hba, hd, Option.some_inj] at hd'
    rw [← hd'] at huser
    exact absurd huser hmax

section Loops

variable {s : Server} {refs : ℕ → ℕ}

theorem addRefs_counts {l : List ℕ} (h : s.Counts refs) (hl : ∀ a ∈ l, (s.mem a).isSome) :
    ∃ s', l.foldlM addRef s = some s' ∧ s'.Counts (fun a => refs a + l.count a) ∧
      SameLists s s' ∧ SameDicts s s' := by
  induction l generalizing s refs with
  | nil => exact ⟨s, rfl, h.congr fun a => by simp, .refl s, .refl s⟩
  | cons a l ih =>
      obtain ⟨s₁, hs₁, hcounts, hlists, hdicts⟩ := addRef_counts h (hl a List.mem_cons_self)
      have hl₁ : ∀ b ∈ l, (s₁.mem b).isSome := by
        intro b hb
        have hold := h.isSome_iff.mp (hl b (List.mem_cons_of_mem a hb))
        rw [hcounts.isSome_iff, plus]
        omega
      obtain ⟨s₂, hs₂, hcounts₂, hlists₂, hdicts₂⟩ := ih hcounts hl₁
      refine ⟨s₂, ?_, hcounts₂.congr fun b => ?_, hlists.trans hlists₂, hdicts.trans hdicts₂⟩
      · rw [List.foldlM_cons, hs₁]
        exact hs₂
      · rw [← plus_add_count, plus, plus]
        omega

theorem closeDictlist_counts (fd : ℕ) {l : List ℕ} (h : s.Counts fun a => refs a + l.count a) :
    ∃ s', closeDictlist s fd l = some s' ∧ s'.Counts refs ∧ SameLists s s' ∧
      Relocks fd False (fun a _ => a ∈ l) s s' := by
  induction l generalizing s with
  | nil =>
      exact ⟨s, rfl, h.congr fun a => by simp, .refl s,
        (Relocks.of_same (.refl s)).congr fun a _ => by simp⟩
  | cons a l ih =>
      have ha : (s.mem a).isSome := by
        rw [h.isSome_iff, List.count_cons_self]
        omega
      obtain ⟨s₁, hs₁, hcounts₁, hlists₁, hlocks₁⟩ := relocksOne_unlockDict fd s _ a h ha
      obtain ⟨s₂, hs₂, hcounts₂, hlists₂, hdicts₂⟩ :=
        closedict_counts (hcounts₁.congr fun b => plus_add_count a refs l b)
      obtain ⟨s₃, hs₃, hcounts₃, hlists₃, hlocks₃⟩ := ih hcounts₂
      refine ⟨s₃, ?_, hcounts₃, (hlists₁.trans hlists₂).trans hlists₃, ?_⟩
      · dsimp only at hs₁
        rw [closeDictlist] at hs₃ ⊢
        rw [List.foldlM_cons, hs₁, Option.bind_some, hs₂]
        exact hs₃
      · refine ((hlocks₁.trans (.of_same hdicts₂)).trans hlocks₃).congr fun b _ => ?_
        rw [List.mem_cons, or_false, and_true]

/-- A loop that locks or unlocks all dictionaries of a list. -/
theorem RelocksOne.foldlM {f : Server → ℕ → Option Server} {fd : ℕ} {on : Prop}
    {which : ℕ → Prop} (hf : RelocksOne f fd on which) {l : List ℕ} (h : s.Counts refs)
    (hl : ∀ a ∈ l, (s.mem a).isSome) :
    ∃ s', l.foldlM f s = some s' ∧ s'.Counts refs ∧ SameLists s s' ∧
      Relocks fd on (fun a m => a ∈ l ∧ which m) s s' := by
  induction l generalizing s with
  | nil =>
      exact ⟨s, rfl, h, .refl s, (Relocks.of_same (.refl s)).congr fun a _ => by simp⟩
  | cons a l ih =>
      obtain ⟨s₁, hs₁, hcounts₁, hlists₁, hlocks₁⟩ := hf s refs a h (hl a List.mem_cons_self)
      have hl₁ : ∀ b ∈ l, (s₁.mem b).isSome := by
        intro b hb
        rw [hcounts₁.isSome_iff, ← h.isSome_iff]
        exact hl b (List.mem_cons_of_mem a hb)
      obtain ⟨s₂, hs₂, hcounts₂, hlists₂, hlocks₂⟩ := ih hcounts₁ hl₁
      refine ⟨s₂, ?_, hcounts₂, hlists₁.trans hlists₂,
        (hlocks₁.trans hlocks₂).congr fun b m => ?_⟩
      · rw [List.foldlM_cons, hs₁]
        exact hs₂
      · rw [List.mem_cons]
        tauto

end Loops

end Sj3
