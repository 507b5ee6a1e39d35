import Sj3.Verification.Server.Requests

/-! # The outcome of a request -/

namespace Sj3

open Refs

/-- The list in which an opened dictionary is looked for: an empty one is filled from the
global one first. -/
def Server.openList (s : Server) (w : WorkArea) : List ℕ :=
  if w.dictlist = [] then s.globalDictlist else w.dictlist

/-- All that a request of the client on `fd` can do to the lists and the locks; `held` are the
references outside the lists before, the other ones those after. -/
inductive CmdOutcome (s : Server) (held : ℕ → ℕ) (fd : ℕ) (cmd : Command) :
    Server → (ℕ → ℕ) → Prop where
  | same : CmdOutcome s held fd cmd s held
  | connected {s' : Server} (hwork : s.work fd = none)
      (hsets : SetsWork s s' fd (some ⟨none, []⟩)) (hdicts : SameDicts s s') :
      CmdOutcome s held fd cmd s' held
  | disconnected {w : WorkArea} {s' : Server} (hwork : s.work fd = some w)
      (hsets : SetsWork s s' fd none)
      (hlocks : Relocks fd False (fun a _ => a ∈ w.dictlist) s s') :
      CmdOutcome s held fd cmd s' held
  | closed {id : TypeDicID} {w : WorkArea} {a : ℕ} {s' : Server} (hcmd : cmd = .closedict id)
      (hwork : s.work fd = some w) (hfind : s.findDicid id w.dictlist = some (some a))
      (hmem : a ∈ w.dictlist)
      (hsets : SetsWork s s' fd (some { w with dictlist := w.dictlist.erase a }))
      (hlocks : Relocks fd False (fun b _ => b = a) s s') : CmdOutcome s held fd cmd s' held
  | opened {file : Option NamedFile} {room : Bool} {w : WorkArea} {a : ℕ} {s₁ s' : Server}
      (hcmd : cmd = .opendict file room) (hwork : s.work fd = some w)
      (hopens : Opens s (fun b => s.entries b + held b) file (s₁, some a))
      (hsets : SetsWork s s' fd (some { w with
        dictlist := if a ∈ s.openList w then s.openList w else a :: s.openList w }))
      (hlocks : Relocks fd True (fun b m => w.lock = some fd ∧ b = a ∧ m ≠ 0) s₁ s') :
      CmdOutcome s held fd cmd s' (if a ∈ s.openList w then plus a held else held)
  | refused {file : Option NamedFile} {room : Bool} {w : WorkArea} {a : ℕ} {s₁ s' : Server}
      (hcmd : cmd = .opendict file room) (hwork : s.work fd = some w)
      (hopens : Opens s (fun b => s.entries b + held b) file (s₁, some a))
      (hnew : a ∉ s.openList w)
      (hsets : SetsWork s s' fd (some { w with dictlist := s.openList w }))
      (hdicts : SameDicts s₁ s') : CmdOutcome s held fd cmd s' held
  | locked {w : WorkArea} {s' : Server} (hwork : s.work fd = some w)
      (hsets : SetsWork s s' fd (some { w with lock := some fd }))
      (hlocks : Relocks fd True (fun a m => a ∈ w.dictlist ∧ m ≠ 0) s s') :
      CmdOutcome s held fd cmd s' held
  | unlocked {w : WorkArea} {s' : Server} (hwork : s.work fd = some w)
      (hsets : SetsWork s s' fd (some { w with lock := none }))
      (hlocks : Relocks fd False (fun a m => a ∈ w.dictlist ∧ m ≠ 0) s s') :
      CmdOutcome s held fd cmd s' held

theorem Opens.lists {s : Server} {refs : ℕ → ℕ} {file : Option NamedFile} {s₁ : Server} {a : ℕ}
    (h : Opens s refs file (s₁, some a)) : SameLists s s₁ := by
  cases h with
  | same _ _ _ hlists => exact hlists
  | fresh _ _ _ _ _ hlists => exact hlists

theorem Opens.counts {s : Server} {refs : ℕ → ℕ} {file : Option NamedFile} {s₁ : Server} {a : ℕ}
    (h : Opens s refs file (s₁, some a)) : s₁.Counts (plus a refs) := by
  cases h with
  | same _ _ hs₁ => exact hs₁
  | fresh _ _ _ _ hs₁ => exact hs₁

theorem count_openList (s : Server) (w : WorkArea) (b : ℕ) :
    (s.openList w).count b =
      w.dictlist.count b + if w.dictlist = [] then s.globalDictlist.count b else 0 := by
  rw [Server.openList]
  split
  · rename_i hnil
    rw [hnil, List.count_nil, Nat.zero_add]
  · rfl

/-- Every entry that is copied refers to its dictionary. -/
theorem copyGlobal_counts {s : Server} {refs : ℕ → ℕ} (h : s.Counts refs)
    (hglobal : ∀ a ∈ s.globalDictlist, (s.mem a).isSome) (w : WorkArea) :
    ∃ s', copyGlobal s w.dictlist = some (s', s.openList w) ∧ SameLists s s' ∧ SameDicts s s' ∧
      s'.Counts fun b => refs b + if w.dictlist = [] then s.globalDictlist.count b else 0 := by
  rw [copyGlobal, Server.openList]
  by_cases hnil : w.dictlist = []
  · obtain ⟨s', hs', hcounts, hlists, hdicts⟩ := addRefs_counts h hglobal
    rw [if_pos hnil, if_pos hnil, hs', Option.map_some, hlists.globalDictlist]
    exact ⟨s', rfl, hlists, hdicts, hcounts.congr fun b => by rw [if_pos hnil]⟩
  · rw [if_neg hnil, if_neg hnil]
    exact ⟨s, rfl, .refl s, .refl s, h.congr fun b => by rw [if_neg hnil, Nat.add_zero]⟩

/-- A dictionary that has been opened is one that was open, or a new one without locks. -/
theorem Opens.dict {s : Server} {refs : ℕ → ℕ} {file : Option NamedFile} {r : Server × Option ℕ}
    (h : Opens s refs file r) {b : ℕ} {d₁ : DictFile} (hd₁ : r.1.mem b = some d₁) :
    (∃ d, s.mem b = some d ∧ d₁.maxunit = d.maxunit ∧ d₁.lock = d.lock) ∨
      (s.mem b = none ∧ d₁.lock = []) := by
  cases h with
  | failed => exact Or.inl ⟨d₁, hd₁, rfl, rfl⟩
  | same _ _ _ _ hdicts => exact Or.inl (hdicts b d₁ hd₁)
  | @fresh _ a _ _ _ _ _ hnew _ _ hmem hlock =>
      dsimp only at hd₁
      rw [hmem] at hd₁
      by_cases hba : b = a
      · rw [hba, Function.update_self, Option.some_inj] at hd₁
        rw [hba, ← hd₁]
        exact Or.inr ⟨hnew, hlock⟩
      · rw [Function.update_of_ne hba] at hd₁
        exact Or.inl ⟨d₁, hd₁, rfl, rfl⟩

section Requests

variable {s : Server} {held : ℕ → ℕ} {fd : ℕ} (hs : s.Balanced held) (hfd : fd ∈ s.client)
include hs hfd

theorem execConnect_outcome (allowed : Bool) (cmd : Command) :
    ∃ r, execConnect s fd allowed = some r ∧ CmdOutcome s held fd cmd r.1 held ∧
      r.1.Balanced held := by
  cases hwork : s.work fd with
  | some w =>
      rw [execConnect, hwork]
      exact ⟨_, rfl, .same, hs⟩
  | none =>
      rw [execConnect, hwork]
      cases allowed with
      | false => exact ⟨_, rfl, .same, hs⟩
      | true =>
          have hsets := (SameLists.refl s).setWork fd (some ⟨none, []⟩)
          refine ⟨_, rfl, .connected hwork hsets (.refl s), ?_⟩
          refine hs.setsWork hfd hsets (hs.counts.setWork fd _) fun a => ?_
          rw [hwork]
          simp only [dictlistOf, Option.map_none, Option.getD_none, Option.map_some,
            Option.getD_some, List.count_nil]
          omega

theorem freeWorkarea_spec {w : WorkArea} (hwork : s.work fd = some w) :
    ∃ s', freeWorkarea s fd w = some s' ∧ SetsWork s s' fd none ∧
      Relocks fd False (fun a _ => a ∈ w.dictlist) s s' ∧ s'.Balanced held := by
  -- the references that stay are those of the other lists
  have hsets : SetsWork s (s.setWork fd none) fd none := (SameLists.refl s).setWork fd none
  have hsplit : ∀ a, s.entries a = (s.setWork fd none).entries a + w.dictlist.count a := by
    intro a
    have hentries := hsets.entries hfd a
    rw [hwork] at hentries
    simp only [dictlistOf, Option.map_none, Option.getD_none, Option.map_some,
      Option.getD_some, List.count_nil] at hentries
    omega
  have hcounts : s.Counts fun a =>
      ((s.setWork fd none).entries a + held a) + w.dictlist.count a := by
    refine hs.counts.congr fun a => ?_
    have hsum := hsplit a
    omega
  obtain ⟨s', hs', hcounts', hlists, hlocks⟩ := closeDictlist_counts fd hcounts
  have hsets' := hlists.setWork fd none
  refine ⟨s'.setWork fd none, ?_, hsets', hlocks, ?_⟩
  · rw [freeWorkarea, hs', Option.map_some]
  · refine hs.setsWork hfd hsets' (hcounts'.setWork fd none) fun a => ?_
    have hsum := hsplit a
    rw [hwork]
    simp only [dictlistOf, Option.map_none, Option.getD_none, Option.map_some,
      Option.getD_some, List.count_nil]
    omega

theorem execDisconnect_outcome (cmd : Command) :
    ∃ r, execDisconnect s fd = some r ∧ CmdOutcome s held fd cmd r.1 held ∧
      r.1.Balanced held := by
  cases hwork : s.work fd with
  | none =>
      rw [execDisconnect, hwork]
      exact ⟨_, rfl, .same, hs⟩
  | some w =>
      obtain ⟨s', hs', hsets, hlocks, hbal⟩ := freeWorkarea_spec hs hfd hwork
      rw [execDisconnect, hwork]
      dsimp only
      rw [hs', Option.map_some]
      exact ⟨_, rfl, .disconnected hwork hsets hlocks, hbal⟩

theorem execClosedict_outcome (id : TypeDicID) :
    ∃ r, execClosedict s fd id = some r ∧ CmdOutcome s held fd (.closedict id) r.1 held ∧
      r.1.Balanced held := by
  cases hwork : s.work fd with
  | none =>
      rw [execClosedict, hwork]
      exact ⟨_, rfl, .same, hs⟩
  | some w =>
      obtain ⟨found, hfound, hmem⟩ := findDicid_of_isSome (hs.isSome_of_dictlist hwork) id
      rw [execClosedict, hwork]
      dsimp only
      rw [hfound, Option.bind_some]
      cases found with
      | none => exact ⟨_, rfl, .same, hs⟩
      | some a =>
          have ha := hmem a rfl
          have hcount := List.count_pos_iff.mpr ha
          -- the entry's reference is given up
          have hsets : SetsWork s (s.setWork fd (some { w with dictlist := w.dictlist.erase a }))
              fd (some { w with dictlist := w.dictlist.erase a }) :=
            (SameLists.refl s).setWork fd _
          have hsplit : ∀ b, s.entries b + held b =
              plus a (fun b => (s.setWork fd (some { w with
                dictlist := w.dictlist.erase a })).entries b + held b) b := by
            intro b
            have hentries := hsets.entries hfd b
            rw [hwork] at hentries
            simp only [dictlistOf, Option.map_some, Option.getD_some] at hentries
            rw [plus]
            by_cases hba : b = a
            · rw [hba, if_pos rfl]
              rw [hba, List.count_erase_self] at hentries
              omega
            · rw [if_neg hba]
              rw [List.count_erase_of_ne (Ne.symm (Ne.symm hba))] at hentries
              omega
          obtain ⟨s₁, hs₁, hcounts₁, hlists₁, hlocks₁⟩ :=
            relocksOne_unlockDict fd s _ a hs.counts (hs.isSome_of_dictlist hwork a ha)
          obtain ⟨s₂, hs₂, hcounts₂, hlists₂, hdicts₂⟩ :=
            closedict_counts (hcounts₁.congr fun b => (hsplit b).symm)
          have hsets' := (hlists₁.trans hlists₂).setWork fd
            (some { w with dictlist := w.dictlist.erase a })
          have hlocks : Relocks fd False (fun b _ => b = a) s s₂ :=
            (hlocks₁.trans (.of_same hdicts₂)).congr fun b _ => by simp
          dsimp only at hs₁ ⊢
          rw [hs₁, Option.bind_some, hs₂, Option.map_some]
          refine ⟨_, rfl, .closed rfl hwork hfound ha hsets' hlocks, ?_⟩
          refine hs.setsWork hfd hsets' (hcounts₂.setWork fd _) fun b => ?_
          have hentries := hsets.entries hfd b
          omega

theorem execLock_outcome (cmd : Command) :
    ∃ r, execLock s fd = some r ∧ CmdOutcome s held fd cmd r.1 held ∧ r.1.Balanced held := by
  cases hwork : s.work fd with
  | none =>
      rw [execLock, hwork]
      exact ⟨_, rfl, .same, hs⟩
  | some w =>
      rw [execLock, hwork]
      dsimp only
      split
      · exact ⟨_, rfl, .same, hs⟩
      · have hsets : SetsWork s (s.setWork fd (some { w with lock := some fd })) fd
            (some { w with lock := some fd }) := (SameLists.refl s).setWork fd _
        obtain ⟨s', hs', hcounts, hlists, hlocks⟩ :=
          (relocksOne_lockDict fd).user.foldlM
          (hs.counts.setWork fd (some { w with lock := some fd }))
            (hs.isSome_of_dictlist hwork)
        have hloop : w.dictlist.foldlM (lockUserDict · fd)
            (s.setWork fd (some { w with lock := some fd })) = some s' := hs'
        rw [hloop, Option.map_some]
        refine ⟨_, rfl, .locked hwork (hsets.trans hlists) hlocks, ?_⟩
        refine hs.setsWork hfd (hsets.trans hlists) hcounts fun a => ?_
        rw [hwork]
        simp only [dictlistOf, Option.map_some, Option.getD_some]
        omega

theorem execUnlock_outcome (cmd : Command) :
    ∃ r, execUnlock s fd = some r ∧ CmdOutcome s held fd cmd r.1 held ∧ r.1.Balanced held := by
  cases hwork : s.work fd with
  | none =>
      rw [execUnlock, hwork]
      exact ⟨_, rfl, .same, hs⟩
  | some w =>
      rw [execUnlock, hwork]
      dsimp only
      split
      · exact ⟨_, rfl, .same, hs⟩
      · split
        · exact ⟨_, rfl, .same, hs⟩
        · have hsets : SetsWork s (s.setWork fd (some { w with lock := none })) fd
              (some { w with lock := none }) := (SameLists.refl s).setWork fd _
          obtain ⟨s', hs', hcounts, hlists, hlocks⟩ :=
            (relocksOne_unlockDict fd).user.foldlM
            (hs.counts.setWork fd (some { w with lock := none }))
              (hs.isSome_of_dictlist hwork)
          have hloop : w.dictlist.foldlM (unlockUserDict · fd)
              (s.setWork fd (some { w with lock := none })) = some s' := hs'
          rw [hloop, Option.map_some]
          refine ⟨_, rfl, .unlocked hwork (hsets.trans hlists) hlocks, ?_⟩
          refine hs.setsWork hfd (hsets.trans hlists) hcounts fun a => ?_
          rw [hwork]
          simp only [dictlistOf, Option.map_some, Option.getD_some]
          omega

theorem execOpendict_outcome (file : Option NamedFile) (room : Bool) :
    ∃ r held', execOpendict s fd file room = some r ∧
      CmdOutcome s held fd (.opendict file room) r.1 held' ∧ r.1.Balanced held' := by
  cases hwork : s.work fd with
  | none =>
      rw [execOpendict, hwork]
      exact ⟨_, _, rfl, .same, hs⟩
  | some w =>
      obtain ⟨⟨s₁, found⟩, hr, hopens⟩ := opendict_opens hs.counts file
      rw [execOpendict, hwork]
      dsimp only
      rw [hr, Option.bind_some]
      cases found with
      | none =>
          cases hopens with
          | failed => exact ⟨_, _, rfl, .same, hs⟩
      | some a =>
          have hlists₁ := hopens.lists
          have hglobal : ∀ b ∈ s₁.globalDictlist, (s₁.mem b).isSome := by
            intro b hb
            rw [hlists₁.globalDictlist] at hb
            have hold := hs.counts.isSome_iff.mp (hs.isSome_of_global b hb)
            rw [hopens.counts.isSome_iff, plus]
            omega
          obtain ⟨s₂, hs₂, hlists₂, hdicts₂, hcounts₂⟩ :=
            copyGlobal_counts hopens.counts hglobal w
          have hopen : s₁.openList w = s.openList w := by
            rw [Server.openList, Server.openList, hlists₁.globalDictlist]
          have hbase := count_openList s w
          rw [hlists₁.globalDictlist] at hcounts₂
          rw [hopen] at hs₂
          dsimp only
          rw [hs₂, Option.bind_some]
          dsimp only
          split
          · -- there is no memory for an entry
            rename_i hroom
            have hcounts₂' : s₂.Counts (plus a fun b => s.entries b + held b +
                if w.dictlist = [] then s.globalDictlist.count b else 0) :=
              hcounts₂.congr fun b => by rw [plus, plus]; omega
            obtain ⟨s₃, hs₃, hcounts₃, hlists₃, hdicts₃⟩ := closedict_counts hcounts₂'
            have hsets := ((hlists₁.trans hlists₂).trans hlists₃).setWork fd
              (some { w with dictlist := s.openList w })
            rw [hs₃, Option.map_some]
            refine ⟨_, _, rfl, .refused rfl hwork hopens hroom.1 hsets (hdicts₂.trans hdicts₃), ?_⟩
            refine hs.setsWork hfd hsets (hcounts₃.setWork fd _) fun b => ?_
            have hsum := hbase b
            rw [hwork]
            simp only [dictlistOf, Option.map_some, Option.getD_some]
            omega
          · generalize hlist : (if a ∈ s.openList w then s.openList w else a :: s.openList w) =
              list
            have hsets₂ := (hlists₁.trans hlists₂).setWork fd (some { w with dictlist := list })
            have hsome : ((s₂.setWork fd (some { w with dictlist := list })).mem a).isSome := by
              rw [(hcounts₂.setWork fd _).isSome_iff, plus_self]
              omega
            have hsame : Relocks fd True (fun _ _ => False) s₁
                (s₂.setWork fd (some { w with dictlist := list })) := .of_same hdicts₂
            have hlock : ∃ s₃, (if w.lock = some fd then
                  lockUserDict (s₂.setWork fd (some { w with dictlist := list })) fd a
                else some (s₂.setWork fd (some { w with dictlist := list }))) = some s₃ ∧
                s₃.Counts (fun b => plus a (fun b => s.entries b + held b) b +
                  if w.dictlist = [] then s.globalDictlist.count b else 0) ∧
                SameLists (s₂.setWork fd (some { w with dictlist := list })) s₃ ∧
                Relocks fd True (fun b m => w.lock = some fd ∧ b = a ∧ m ≠ 0) s₁ s₃ := by
              split
              · rename_i hw
                obtain ⟨s₃, hs₃, hcounts₃, hlists₃, hlocks₃⟩ :=
                  (relocksOne_lockDict fd).user _ _ a (hcounts₂.setWork fd _) hsome
                refine ⟨s₃, hs₃, hcounts₃, hlists₃, ?_⟩
                exact (hsame.trans hlocks₃).congr fun b m => by tauto
              · rename_i hw
                exact ⟨_, rfl, hcounts₂.setWork fd _, .refl _, hsame.congr fun b m => by tauto⟩
            obtain ⟨s₃, hs₃, hcounts₃, hlists₃, hlocks₃⟩ := hlock
            have hsome₃ : (s₃.mem a).isSome := by
              rw [hcounts₃.isSome_iff, plus_self]
              omega
            obtain ⟨d, hd⟩ := Option.isSome_iff_exists.mp hsome₃
            have hsets₃ := hsets₂.trans hlists₃
            rw [hs₃, Option.bind_some, hd, Option.map_some]
            have hsets₃' := hsets₃
            rw [← hlist] at hsets₃'
            refine ⟨_, _, rfl, .opened rfl hwork hopens hsets₃' hlocks₃, ?_⟩
            refine hs.setsWork hfd hsets₃ hcounts₃ fun b => ?_
            have hsum := hbase b
            have hcons := plus_add_count a (fun b => s.entries b + held b) (s.openList w) b
            rw [plus] at hcons ⊢
            rw [hwork, ← hlist]
            simp only [dictlistOf, Option.map_some, Option.getD_some]
            by_cases ha : a ∈ s.openList w
            · rw [if_pos ha, if_pos ha, plus]
              omega
            · rw [if_neg ha, if_neg ha]
              omega

omit hfd in
/-- A change is answered for a dictionary of the list that can be written and has no lock. -/
theorem execEditdict_spec (dicid : TypeDicID) (err err1 : Bool) :
    ∃ reply, execEditdict s fd dicid err err1 = some (s, reply) ∧
      ∀ a, reply = .changes a → ∃ w d, s.work fd = some w ∧ a ∈ w.dictlist ∧
        s.mem a = some d ∧ d.maxunit ≠ 0 ∧ d.lock = [] := by
  cases hwork : s.work fd with
  | none =>
      rw [execEditdict, hwork]
      exact ⟨_, rfl, fun a ha => absurd ha (by simp)⟩
  | some w =>
      obtain ⟨found, hfound, hmem⟩ := findDicid_of_isSome (hs.isSome_of_dictlist hwork) dicid
      rw [execEditdict, hwork]
      dsimp only
      split
      · exact ⟨_, rfl, fun a ha => absurd ha (by simp)⟩
      · split
        · exact ⟨_, rfl, fun a ha => absurd ha (by simp)⟩
        · rw [hfound, Option.bind_some]
          cases found with
          | none => exact ⟨_, rfl, fun a ha => absurd ha (by simp)⟩
          | some b =>
              obtain ⟨d, hd⟩ :=
                Option.isSome_iff_exists.mp (hs.isSome_of_dictlist hwork b (hmem b rfl))
              dsimp only
              rw [hd, Option.map_some]
              split
              · exact ⟨_, rfl, fun a ha => absurd ha (by simp)⟩
              · rename_i hmax
                split
                · exact ⟨_, rfl, fun a ha => absurd ha (by simp)⟩
                · rename_i hlock
                  refine ⟨_, rfl, fun a ha => ?_⟩
                  rw [← ServReply.changes.inj ha]
                  refine ⟨w, d, rfl, hmem b rfl, hd, hmax, ?_⟩
                  simpa [DictFile.isDictLocked] using hlock

theorem executeCmd_outcome (cmd : Command) :
    ∃ r held', executeCmd s fd cmd = some r ∧ CmdOutcome s held fd cmd r.1 held' ∧
      r.1.Balanced held' := by
  cases cmd with
  | connect allowed =>
      obtain ⟨r, hr⟩ := execConnect_outcome hs hfd allowed (.connect allowed)
      exact ⟨r, held, hr⟩
  | disconnect =>
      obtain ⟨r, hr⟩ := execDisconnect_outcome hs hfd .disconnect
      exact ⟨r, held, hr⟩
  | opendict file room => exact execOpendict_outcome hs hfd file room
  | closedict id =>
      obtain ⟨r, hr⟩ := execClosedict_outcome hs hfd id
      exact ⟨r, held, hr⟩
  | lock =>
      obtain ⟨r, hr⟩ := execLock_outcome hs hfd .lock
      exact ⟨r, held, hr⟩
  | unlock =>
      obtain ⟨r, hr⟩ := execUnlock_outcome hs hfd .unlock
      exact ⟨r, held, hr⟩
  | adddict dicid err err1 =>
      obtain ⟨reply, hr, -⟩ := execEditdict_spec hs dicid err err1
      exact ⟨_, held, hr, .same, hs⟩
  | deldict dicid err err1 =>
      obtain ⟨reply, hr, -⟩ := execEditdict_spec hs dicid err err1
      exact ⟨_, held, hr, .same, hs⟩

end Requests

end Sj3
