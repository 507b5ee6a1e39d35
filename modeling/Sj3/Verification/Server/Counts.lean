import Sj3.General.Refs
import Sj3.Model.Server

/-! # The counts of dictionary files

What opening, closing, locking and unlocking a dictionary does to the reference counts and to
the locks. -/

namespace Sj3

open Refs

def Server.refcnt (s : Server) (a : ℕ) : Option ℤ := (s.mem a).map DictFile.refcnt

/-- The open dictionaries are those with references, and each counts its own. -/
structure Server.Counts (s : Server) (refs : ℕ → ℕ) : Prop where
  counted : Counted s.refcnt refs
  link : ∀ a ∈ s.dictlink, (s.mem a).isSome
  unused : ∀ a, s.unused ≤ a → s.mem a = none

/-- The lists are the same. -/
structure SameLists (s s' : Server) : Prop where
  client : s'.client = s.client
  work : s'.work = s.work
  globalDictlist : s'.globalDictlist = s.globalDictlist

/-- Every dictionary was there before, with the locks it has. -/
def SameDicts (s s' : Server) : Prop :=
  ∀ a d', s'.mem a = some d' → ∃ d, s.mem a = some d ∧ d'.maxunit = d.maxunit ∧ d'.lock = d.lock

theorem SameLists.refl (s : Server) : SameLists s s := ⟨rfl, rfl, rfl⟩

theorem SameLists.trans {s s' s'' : Server} (h : SameLists s s') (h' : SameLists s' s'') :
    SameLists s s'' :=
  ⟨h'.client.trans h.client, h'.work.trans h.work, h'.globalDictlist.trans h.globalDictlist⟩

theorem SameDicts.refl (s : Server) : SameDicts s s := fun _ d' h => ⟨d', h, rfl, rfl⟩

theorem SameDicts.trans {s s' s'' : Server} (h : SameDicts s s') (h' : SameDicts s' s'') :
    SameDicts s s'' := by
  intro a d'' hd''
  obtain ⟨d', hd', hmax', hlock'⟩ := h' a d'' hd''
  obtain ⟨d, hd, hmax, hlock⟩ := h a d' hd'
  exact ⟨d, hd, hmax'.trans hmax, hlock'.trans hlock⟩

section Dictionaries

variable {s : Server} {refs : ℕ → ℕ}

theorem Server.isSome_refcnt (s : Server) (a : ℕ) : (s.refcnt a).isSome = (s.mem a).isSome :=
  Option.isSome_map

theorem Server.Counts.isSome_iff (h : s.Counts refs) {a : ℕ} :
    (s.mem a).isSome ↔ 0 < refs a := by
  rw [← s.isSome_refcnt]
  exact h.counted.isSome_iff

theorem Server.Counts.congr (h : s.Counts refs) {refs' : ℕ → ℕ} (hrefs : ∀ a, refs' a = refs a) :
    s.Counts refs' :=
  ⟨h.counted.congr (fun _ => rfl) hrefs, h.link, h.unused⟩

theorem Server.Counts.lt_unused (h : s.Counts refs) {a : ℕ} (ha : (s.mem a).isSome) :
    a < s.unused := by
  by_contra hle
  rw [h.unused a (Nat.le_of_not_lt hle)] at ha
  exact absurd ha (by simp)

/-! ## Writes -/

/-- A step that changes nothing but the dictionary at `a`, which becomes `x`. -/
structure Writes (s s' : Server) (a : ℕ) (x : Option DictFile) : Prop where
  lists : SameLists s s'
  mem : s'.mem = Function.update s.mem a x
  link : ∀ b ∈ s'.dictlink, b ≠ a → b ∈ s.dictlink
  linked : a ∈ s'.dictlink → x.isSome
  unused : s.unused ≤ s'.unused
  lt : x.isSome → a < s'.unused

theorem Writes.refcnt {s' : Server} {a : ℕ} {x : Option DictFile} (h : Writes s s' a x) (b : ℕ) :
    s'.refcnt b = Function.update s.refcnt a (x.map DictFile.refcnt) b := by
  rw [Server.refcnt, h.mem]
  by_cases hb : b = a
  · rw [hb, Function.update_self, Function.update_self]
  · rw [Function.update_of_ne hb, Function.update_of_ne hb, Server.refcnt]

theorem Writes.counts {s' : Server} {a : ℕ} {x : Option DictFile} (h : Writes s s' a x)
    (hs : s.Counts refs) {refs' : ℕ → ℕ}
    (hcounted : Counted (Function.update s.refcnt a (x.map DictFile.refcnt)) refs') :
    s'.Counts refs' := by
  refine ⟨hcounted.congr h.refcnt fun _ => rfl, fun b hb => ?_, fun b hb => ?_⟩
  · rw [h.mem]
    by_cases hba : b = a
    · rw [hba] at hb ⊢
      rw [Function.update_self]
      exact h.linked hb
    · rw [Function.update_of_ne hba]
      exact hs.link b (h.link b hb hba)
  · rw [h.mem]
    by_cases hba : b = a
    · rw [hba, Function.update_self]
      cases x with
      | none => rfl
      | some d => exact absurd (h.lt rfl) (by omega)
    · rw [Function.update_of_ne hba]
      exact hs.unused b (h.unused.trans hb)

theorem Writes.sameDicts {s' : Server} {a : ℕ} {x : Option DictFile} (h : Writes s s' a x)
    {d : DictFile} (hd : s.mem a = some d)
    (hx : ∀ d', x = some d' → d'.maxunit = d.maxunit ∧ d'.lock = d.lock) : SameDicts s s' := by
  intro b d' hd'
  rw [h.mem] at hd'
  by_cases hba : b = a
  · rw [hba, Function.update_self] at hd'
    rw [hba]
    exact ⟨d, hd, hx d' hd'⟩
  · rw [Function.update_of_ne hba] at hd'
    exact ⟨d', hd', rfl, rfl⟩

theorem update_writes (h : s.Counts refs) {a : ℕ} {d : DictFile} (hd : s.mem a = some d)
    (f : DictFile → DictFile) :
    ∃ s', s.update a f = some s' ∧ Writes s s' a (some (f d)) := by
  rw [Server.update, hd]
  have ha : (s.mem a).isSome := by rw [hd]; rfl
  exact ⟨_, rfl, ⟨rfl, rfl, rfl⟩, rfl, fun b hb _ => hb, fun _ => rfl, le_rfl,
    fun _ => h.lt_unused ha⟩

theorem refcnt_of_mem {a : ℕ} {d : DictFile} (hd : s.mem a = some d) :
    s.refcnt a = some d.refcnt := by rw [Server.refcnt, hd, Option.map_some]

/-- A write that is no reference. -/
theorem update_counts (h : s.Counts refs) {a : ℕ} {d : DictFile} (hd : s.mem a = some d)
    {f : DictFile → DictFile} (hf : (f d).refcnt = d.refcnt) :
    ∃ s', s.update a f = some s' ∧ s'.Counts refs ∧ Writes s s' a (some (f d)) := by
  obtain ⟨s', hs', hw⟩ := update_writes h hd f
  refine ⟨s', hs', hw.counts h ?_, hw⟩
  rw [Option.map_some, hf, ← refcnt_of_mem hd, Function.update_eq_self]
  exact h.counted

theorem addRef_counts (h : s.Counts refs) {a : ℕ} (ha : (s.mem a).isSome) :
    ∃ s', addRef s a = some s' ∧ s'.Counts (plus a refs) ∧ SameLists s s' ∧ SameDicts s s' := by
  obtain ⟨d, hd⟩ := Option.isSome_iff_exists.mp ha
  obtain ⟨s', hs', hw⟩ := update_writes h hd fun d => { d with refcnt := d.refcnt + 1 }
  refine ⟨s', hs', hw.counts h (h.counted.retain (refcnt_of_mem hd)), hw.lists,
    hw.sameDicts hd fun d' hd' => ?_⟩
  rw [← Option.some_inj.mp hd']
  exact ⟨rfl, rfl⟩

theorem closedict_writes (h : s.Counts refs) {a : ℕ} {d : DictFile} (hd : s.mem a = some d) :
    ∃ s', closedict s a = some s' ∧ Writes s s' a
      (if d.refcnt - 1 > 0 then some { d with refcnt := d.refcnt - 1 } else none) := by
  have ha : (s.mem a).isSome := by rw [hd]; rfl
  rw [closedict, hd, Option.map_some]
  refine ⟨_, rfl, ?_⟩
  split
  · exact ⟨⟨rfl, rfl, rfl⟩, rfl, fun b hb _ => hb, fun _ => rfl, le_rfl, fun _ => h.lt_unused ha⟩
  · refine ⟨⟨rfl, rfl, rfl⟩, rfl, fun b hb _ => (List.mem_filter.mp hb).1, fun hself => ?_, le_rfl,
      fun hsome => absurd hsome (by simp)⟩
    exact absurd (List.mem_filter.mp hself).2 (by simp)

/-- A reference is given up; with the last one the dictionary is closed. -/
theorem closedict_counts {a : ℕ} (h : s.Counts (plus a refs)) :
    ∃ s', closedict s a = some s' ∧ s'.Counts refs ∧ SameLists s s' ∧ SameDicts s s' := by
  obtain ⟨n, hn, hcounted⟩ := h.counted.release
  rw [Server.refcnt, Option.map_eq_some_iff] at hn
  obtain ⟨d, hd, rfl⟩ := hn
  obtain ⟨s', hs', hw⟩ := closedict_writes h hd
  refine ⟨s', hs', hw.counts h ?_, hw.lists, hw.sameDicts hd fun d' hd' => ?_⟩
  · rw [apply_ite (Option.map DictFile.refcnt), Option.map_some, Option.map_none]
    exact hcounted
  · split at hd'
    · rw [← Option.some_inj.mp hd']
      exact ⟨rfl, rfl⟩
    · exact absurd hd' (by simp)

theorem unlockDict_counts (h : s.Counts refs) {a : ℕ} (ha : (s.mem a).isSome) (fd : ℕ) :
    ∃ s' d, unlockDict s a fd = some s' ∧ s'.Counts refs ∧ s.mem a = some d ∧
      Writes s s' a (some { d with lock := d.lock.filter (· ≠ fd) }) := by
  obtain ⟨d, hd⟩ := Option.isSome_iff_exists.mp ha
  obtain ⟨s', hs', hcounts, hw⟩ := update_counts h hd
    (f := fun d => { d with lock := d.lock.filter (· ≠ fd) }) rfl
  exact ⟨s', d, hs', hcounts, hd, hw⟩

theorem lockDict_counts (h : s.Counts refs) {a : ℕ} (ha : (s.mem a).isSome) (fd : ℕ) :
    ∃ s' d, lockDict s a fd = some s' ∧ s'.Counts refs ∧ s.mem a = some d ∧
      Writes s s' a (some { d with lock := d.lock.insert fd }) := by
  obtain ⟨d, hd⟩ := Option.isSome_iff_exists.mp ha
  obtain ⟨s', hs', hcounts, hw⟩ := update_counts h hd
    (f := fun d => { d with lock := d.lock.insert fd }) rfl
  exact ⟨s', d, hs', hcounts, hd, hw⟩

/-! ## Searches -/

theorem findDicid_of_isSome {l : List ℕ} (h : ∀ a ∈ l, (s.mem a).isSome) (id : TypeDicID) :
    ∃ r, s.findDicid id l = some r ∧ ∀ a, r = some a → a ∈ l := by
  induction l with
  | nil => exact ⟨none, rfl, fun a ha => absurd ha (by simp)⟩
  | cons b l ih =>
      obtain ⟨r, hr, hmem⟩ := ih fun a ha => h a (List.mem_cons_of_mem b ha)
      obtain ⟨d, hd⟩ := Option.isSome_iff_exists.mp (h b List.mem_cons_self)
      rw [Server.findDicid, hd, Option.bind_some]
      split
      · refine ⟨some b, rfl, fun a ha => ?_⟩
        rw [Option.some_inj.mp ha]
        exact List.mem_cons_self
      · exact ⟨r, hr, fun a ha => List.mem_cons_of_mem b (hmem a ha)⟩

/-- What opening a file leads to. -/
inductive Opens (s : Server) (refs : ℕ → ℕ) (file : Option NamedFile) :
    Server × Option ℕ → Prop where
  | failed : Opens s refs file (s, none)
  | same {f : NamedFile} {a : ℕ} {s' : Server} (hf : file = some f)
      (hsame : searchSameDict s f.ino = some (some a)) (hs' : s'.Counts (plus a refs))
      (hlists : SameLists s s') (hdicts : SameDicts s s') : Opens s refs file (s', some a)
  | fresh {f : NamedFile} {a : ℕ} {s' : Server} {d : DictFile} (hf : file = some f)
      (hsearch : searchSameDict s f.ino = some none) (hmax : f.maxunit.isSome)
      (hnew : s.mem a = none)
      (hs' : s'.Counts (plus a refs)) (hlists : SameLists s s')
      (hmem : s'.mem = Function.update s.mem a (some d)) (hlock : d.lock = []) :
      Opens s refs file (s', some a)

theorem opendict_opens (h : s.Counts refs) (file : Option NamedFile) :
    ∃ r, opendict s file = some r ∧ Opens s refs file r := by
  cases file with
  | none => exact ⟨_, rfl, .failed⟩
  | some f =>
      obtain ⟨r, hr, hmem⟩ := findDicid_of_isSome h.link f.ino
      have hsearch : searchSameDict s f.ino = some r := hr
      rw [opendict, hsearch, Option.bind_some]
      cases r with
      | some a =>
          obtain ⟨s', hs', hcounts, hlists, hdicts⟩ := addRef_counts h (h.link a (hmem a rfl))
          dsimp only
          rw [hs', Option.map_some]
          exact ⟨_, rfl, .same rfl hsearch hcounts hlists hdicts⟩
      | none =>
          cases hmax : f.maxunit with
          | none => exact ⟨_, rfl, .failed⟩
          | some maxunit =>
              have hnew := h.unused s.unused le_rfl
              have hnone : s.refcnt s.unused = none := by rw [Server.refcnt, hnew, Option.map_none]
              have hw : Writes s { s with
                  mem := Function.update s.mem s.unused (some ⟨f.ino, maxunit, 1, []⟩)
                  unused := s.unused + 1
                  dictlink := s.unused :: s.dictlink } s.unused
                  (some ⟨f.ino, maxunit, 1, []⟩) :=
                ⟨⟨rfl, rfl, rfl⟩, rfl, fun b hb hne => (List.mem_cons.mp hb).resolve_left hne,
                  fun _ => rfl, Nat.le_succ _, fun _ => Nat.lt_succ_self _⟩
              exact ⟨_, rfl, .fresh rfl hsearch (by rw [hmax]; rfl) hnew
                (hw.counts h (h.counted.alloc hnone)) hw.lists rfl rfl⟩

end Dictionaries

end Sj3
