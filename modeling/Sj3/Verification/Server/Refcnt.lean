import Sj3.General.Transducer
import Sj3.Verification.Server.Outcome

/-! # Reference counts

Over every run of the server the open dictionaries are those that lists refer to. -/

namespace Sj3

open Refs Transducer

/-! ## Events -/

/-- A client does not open a dictionary that is in its list already. -/
def OpensOnce (s : Server) : ServEvent → Prop
  | .execute fd (.opendict (some f) _) =>
      ∀ w ∈ s.work fd, ∀ a ∈ (searchSameDict s f.ino).join, a ∉ s.openList w
  | _ => True

instance (s : Server) : ∀ e, Decidable (OpensOnce s e)
  | .execute fd cmd =>
      match cmd with
      | .opendict (some f) _ => inferInstanceAs (Decidable (∀ w ∈ s.work fd,
          ∀ a ∈ (searchSameDict s f.ino).join, a ∉ s.openList w))
      | .opendict none _ => isTrue trivial
      | .connect _ => isTrue trivial
      | .disconnect => isTrue trivial
      | .closedict _ => isTrue trivial
      | .lock => isTrue trivial
      | .unlock => isTrue trivial
      | .adddict _ _ _ => isTrue trivial
      | .deldict _ _ _ => isTrue trivial
  | .connectClient _ => isTrue trivial
  | .disconnectClient _ => isTrue trivial

section Events

variable {s : Server} {held : ℕ → ℕ}

theorem Server.Balanced.isSome_of_openList (hs : s.Balanced held) {fd : ℕ} {w : WorkArea}
    (hwork : s.work fd = some w) : ∀ a ∈ s.openList w, (s.mem a).isSome := by
  intro a ha
  rw [Server.openList] at ha
  split at ha
  · exact hs.isSome_of_global a ha
  · exact hs.isSome_of_dictlist hwork a ha

theorem CmdOutcome.held_eq (hs : s.Balanced held) {fd : ℕ} {cmd : Command} {s' : Server}
    {held' : ℕ → ℕ} (h : CmdOutcome s held fd cmd s' held') (hone : OpensOnce s (.execute fd cmd)) :
    held' = held := by
  cases h with
  | same => rfl
  | connected => rfl
  | disconnected => rfl
  | closed => rfl
  | refused => rfl
  | locked => rfl
  | unlocked => rfl
  | @opened file room w a s₁ s' hcmd hwork hopens =>
      apply if_neg
      intro ha
      cases hopens with
      | @same f _ _ hf hsame =>
          subst hcmd
          subst hf
          exact hone w hwork a (by rw [hsame]; rfl) ha
      | fresh _ _ _ hnew =>
          have hsome := hs.isSome_of_openList hwork a ha
          rw [hnew] at hsome
          exact absurd hsome (by simp)

theorem Server.Balanced.connectClient (hs : s.Balanced held) (fd : ℕ) :
    (connectClient s fd).Balanced held := by
  rw [Sj3.connectClient]
  split
  · exact hs
  · rename_i hfd
    refine ⟨⟨hs.counts.counted.congr (fun _ => rfl) fun a => ?_, hs.counts.link,
      hs.counts.unused⟩, fun g v hv => ?_⟩
    · have hnil : dictlistOf (Function.update s.work fd none fd) = [] := by
        rw [Function.update_self]
        rfl
      rw [Server.entries, Server.entries]
      dsimp only
      rw [inLists_insert_nil hfd hnil]
      congr 2
      refine inLists_congr (fun g hg => ?_) a
      rw [Function.update_of_ne (fun heq : g = fd => hfd (heq ▸ hg))]
    · dsimp only at hv
      by_cases hg : g = fd
      · rw [hg, Function.update_self] at hv
        exact absurd hv (by simp)
      · rw [Function.update_of_ne hg] at hv
        exact Finset.mem_insert_of_mem (hs.owner g v hv)

theorem Server.Balanced.erase (hs : s.Balanced held) {fd : ℕ} (hwork : s.work fd = none) :
    Server.Balanced { s with client := s.client.erase fd } held := by
  refine ⟨⟨hs.counts.counted.congr (fun _ => rfl) fun a => ?_, hs.counts.link,
    hs.counts.unused⟩, fun g v hv => ?_⟩
  · have hnil : dictlistOf (s.work fd) = [] := by
      rw [hwork]
      rfl
    rw [Server.entries, Server.entries]
    dsimp only
    rw [inLists_erase_nil (fun fd => dictlistOf (s.work fd)) hnil]
  · refine Finset.mem_erase.mpr ⟨fun hg => ?_, hs.owner g v hv⟩
    dsimp only at hv
    rw [hg, hwork] at hv
    exact absurd hv (by simp)

/-- What the end of a connection does to the lists and the locks. -/
theorem disconnectClient_spec (hs : s.Balanced held) {fd : ℕ} (hfd : fd ∈ s.client) :
    ∃ s₁, disconnectClient s fd = some { s₁ with client := s₁.client.erase fd } ∧
      SetsWork s s₁ fd none ∧
      Relocks fd False (fun a _ => ∃ w, s.work fd = some w ∧ a ∈ w.dictlist) s s₁ ∧
      s₁.Balanced held := by
  rw [disconnectClient]
  cases hwork : s.work fd with
  | none =>
      refine ⟨s, rfl, ⟨rfl, rfl, ?_⟩, ?_, hs⟩
      · rw [← hwork, Function.update_eq_self]
      · exact (Relocks.of_same (.refl s)).congr fun a _ => by simp
  | some w =>
      obtain ⟨s₁, hs₁, hsets, hlocks, hbal⟩ := freeWorkarea_spec hs hfd hwork
      dsimp only
      rw [hs₁, Option.map_some]
      exact ⟨s₁, rfl, hsets, hlocks.congr fun a _ => by simp, hbal⟩

/-- An event is dealt with, and the references outside the lists are the same unless a
dictionary is opened another time. -/
theorem communicate_balanced (hs : s.Balanced held) (e : ServEvent) :
    ∃ r held', communicate s e = some r ∧ r.1.Balanced held' ∧
      (OpensOnce s e → held' = held) := by
  cases e with
  | connectClient fd => exact ⟨_, held, rfl, hs.connectClient fd, fun _ => rfl⟩
  | execute fd cmd =>
      rw [communicate]
      by_cases hfd : fd ∈ s.client
      · obtain ⟨r, held', hr, houtcome, hbal⟩ := executeCmd_outcome hs hfd cmd
        rw [if_pos hfd, hr, Option.map_some]
        exact ⟨_, held', rfl, hbal, houtcome.held_eq hs⟩
      · rw [if_neg hfd]
        exact ⟨_, held, rfl, hs, fun _ => rfl⟩
  | disconnectClient fd =>
      rw [communicate]
      by_cases hfd : fd ∈ s.client
      · obtain ⟨s₁, hs₁, hsets, -, hbal⟩ := disconnectClient_spec hs hfd
        have hwork : s₁.work fd = none := by rw [hsets.work, Function.update_self]
        rw [if_pos hfd, hs₁, Option.map_some]
        exact ⟨_, held, rfl, hbal.erase hwork, fun _ => rfl⟩
      · rw [if_neg hfd]
        exact ⟨_, held, rfl, hs, fun _ => rfl⟩

end Events

/-! ## Start -/

theorem balanced_init : Server.init.Balanced fun _ => 0 := by
  refine ⟨⟨fun a => ?_, fun a ha => absurd ha List.not_mem_nil, fun _ _ => rfl⟩,
    fun fd w hw => absurd hw (by simp [Server.init])⟩
  rfl

def Server.NoLocks (s : Server) : Prop := ∀ a d, s.mem a = some d → d.lock = []

section Start

variable {s : Server} {held : ℕ → ℕ}

theorem SameDicts.noLocks {s' : Server} (h : SameDicts s s') (hs : s.NoLocks) : s'.NoLocks := by
  intro a d' hd'
  obtain ⟨d, hd, -, hlock⟩ := h a d' hd'
  rw [hlock, hs a d hd]

theorem Opens.noLocks {refs : ℕ → ℕ} {file : Option NamedFile} {r : Server × Option ℕ}
    (h : Opens s refs file r) (hs : s.NoLocks) : r.1.NoLocks := by
  intro a d₁ hd₁
  rcases h.dict hd₁ with ⟨d, hd, -, hlock⟩ | ⟨-, hlock⟩
  · rw [hlock, hs a d hd]
  · exact hlock

/-- The dictionaries that `preload_dict` opens, each as often as it does. -/
def preloaded : Server → List (Option NamedFile) → List ℕ
  | _, [] => []
  | s, file :: files =>
      match opendict s file with
      | none => []
      | some r => r.2.toList ++ preloaded r.1 files

theorem Server.Balanced.congr (hs : s.Balanced held) {held' : ℕ → ℕ}
    (hheld : ∀ a, held' a = held a) : s.Balanced held' :=
  ⟨hs.counts.congr fun a => by rw [hheld], hs.owner⟩

/-- Every preload is a reference without an entry. -/
theorem preloadDict_balanced (hs : s.Balanced held) (hlocks : s.NoLocks)
    (files : List (Option NamedFile)) :
    ∃ s', preloadDict s files = some s' ∧
      s'.Balanced (fun a => held a + (preloaded s files).count a) ∧ s'.NoLocks ∧
      SameLists s s' := by
  induction files generalizing s held with
  | nil => exact ⟨s, rfl, hs.congr fun a => Nat.add_zero _, hlocks, .refl s⟩
  | cons file files ih =>
      obtain ⟨⟨s₁, found⟩, hr, hopens⟩ := opendict_opens hs.counts file
      rw [preloadDict, preloaded, hr, Option.bind_some]
      have hlocks₁ : s₁.NoLocks := hopens.noLocks hlocks
      cases found with
      | none =>
          cases hopens with
          | failed => exact ih hs hlocks
      | some a =>
          have hlists := hopens.lists
          have hbal : s₁.Balanced (plus a held) := by
            refine ⟨hopens.counts.congr fun b => ?_, fun fd w hw => ?_⟩
            · rw [hlists.entries, plus, plus]
              omega
            · rw [hlists.client]
              rw [hlists.work] at hw
              exact hs.owner fd w hw
          obtain ⟨s', hs', hbal', hlocks', hlists'⟩ := ih hbal hlocks₁
          refine ⟨s', hs', hbal'.congr fun b => ?_, hlocks', hlists.trans hlists'⟩
          have hcons := plus_add_count a held (preloaded s₁ files) b
          change held b + (a :: preloaded s₁ files).count b = plus a held b + _
          rw [← hcons, plus, plus]
          omega

theorem preopenDict_balanced (hs : s.Balanced held) (hlocks : s.NoLocks)
    (files : List (Option NamedFile × Bool)) :
    ∃ s', preopenDict s files = some s' ∧ s'.Balanced held ∧ s'.NoLocks ∧
      s'.client = s.client := by
  induction files generalizing s with
  | nil => exact ⟨s, rfl, hs, hlocks, rfl⟩
  | cons entry files ih =>
      obtain ⟨file, room⟩ := entry
      obtain ⟨⟨s₁, found⟩, hr, hopens⟩ := opendict_opens hs.counts file
      rw [preopenDict, hr, Option.bind_some]
      have hlocks₁ : s₁.NoLocks := hopens.noLocks hlocks
      cases found with
      | none =>
          cases hopens with
          | failed => exact ih hs hlocks
      | some a =>
          have hlists := hopens.lists
          cases room with
          | true =>
              have hbal : Server.Balanced { s₁ with
                  globalDictlist := a :: s₁.globalDictlist } held := by
                refine ⟨⟨hopens.counts.counted.congr (fun _ => rfl) fun b => ?_,
                  hopens.counts.link, hopens.counts.unused⟩, fun fd w hw => ?_⟩
                · have hcons := plus_add_count a (fun b => inLists s.client
                    (fun fd => dictlistOf (s.work fd)) b + held b) s.globalDictlist b
                  rw [plus] at hcons ⊢
                  rw [Server.entries, Server.entries, hlists.client, hlists.work,
                    hlists.globalDictlist]
                  dsimp only
                  omega
                · dsimp only at hw ⊢
                  rw [hlists.client]
                  rw [hlists.work] at hw
                  exact hs.owner fd w hw
              obtain ⟨s', hs', hbal', hlocks', hclient⟩ := ih hbal hlocks₁
              exact ⟨s', hs', hbal', hlocks', hclient.trans hlists.client⟩
          | false =>
              obtain ⟨s₂, hs₂, hcounts₂, hlists₂, hdicts₂⟩ := closedict_counts hopens.counts
              have hlists' := hlists.trans hlists₂
              have hbal : s₂.Balanced held := by
                refine ⟨hcounts₂.congr fun b => by rw [hlists'.entries], fun fd w hw => ?_⟩
                rw [hlists'.client]
                rw [hlists'.work] at hw
                exact hs.owner fd w hw
              obtain ⟨s', hs', hbal', hlocks', hclient⟩ := ih hbal (hdicts₂.noLocks hlocks₁)
              dsimp only
              rw [if_neg (by simp), hs₂, Option.bind_some]
              exact ⟨s', hs', hbal', hlocks', hclient.trans hlists'.client⟩

end Start

/-- How often `preload_dict` opens the dictionary that comes to be at `a`. -/
def pinned (preloads : List (Option NamedFile)) (a : ℕ) : ℕ := (preloaded .init preloads).count a

theorem start_balanced (preloads : List (Option NamedFile))
    (preopens : List (Option NamedFile × Bool)) :
    ∃ s, Server.start preloads preopens = some s ∧ s.Balanced (pinned preloads) ∧
      s.NoLocks ∧ s.client = ∅ := by
  have hinit : Server.init.NoLocks := fun a d hd => absurd hd (by simp [Server.init])
  obtain ⟨s₁, hs₁, hbal₁, hlocks₁, hlists₁⟩ :=
    preloadDict_balanced balanced_init hinit preloads
  have hpinned : s₁.Balanced (pinned preloads) := hbal₁.congr fun a => (Nat.zero_add _).symm
  obtain ⟨s, hs, hbal, hlocks, hclient⟩ := preopenDict_balanced hpinned hlocks₁ preopens
  rw [Server.start, hs₁, Option.bind_some]
  exact ⟨s, hs, hbal, hlocks, hclient.trans hlists₁.client⟩

/-! ## Runs -/

/-- A run is never stuck. -/
theorem run_balanced {s : Server} {held : ℕ → ℕ} (hs : s.Balanced held) (es : List ServEvent) :
    ∃ r held', run communicate s es = some r ∧ r.1.Balanced held' := by
  obtain ⟨r, hr, held', hbal⟩ := run_invariant (fun s => ∃ held, s.Balanced held)
    (fun s e ⟨held, h⟩ _ => by
      obtain ⟨r, held', hr, hbal, -⟩ := communicate_balanced h e
      exact ⟨r, hr, held', hbal⟩) ⟨held, hs⟩ (along_true communicate s es)
  exact ⟨r, held', hr, hbal⟩

theorem run_balanced_of_opensOnce {s : Server} {held : ℕ → ℕ} (hs : s.Balanced held)
    {es : List ServEvent} (honce : Along communicate OpensOnce s es) :
    ∃ r, run communicate s es = some r ∧ r.1.Balanced held :=
  run_invariant (fun s => s.Balanced held) (fun s e h hone => by
    obtain ⟨r, held', hr, hbal, heq⟩ := communicate_balanced h e
    rw [heq hone] at hbal
    exact ⟨r, hr, hbal⟩) hs honce

/-- A run of requests that open, close, lock and change dictionaries never uses one that has been
closed, and every entry refers to an open one. As long as no client opens a dictionary that is in
its list, every reference count is the number of entries and preloads, and a dictionary is open as
long as there are some. -/
theorem refcnt_eq_entries (preloads : List (Option NamedFile))
    (preopens : List (Option NamedFile × Bool)) (es : List ServEvent) :
    ∃ s₀ s outs, Server.start preloads preopens = some s₀ ∧
      run communicate s₀ es = some (s, outs) ∧
      (∀ a, 0 < s.entries a → (s.mem a).isSome) ∧
      (Along communicate OpensOnce s₀ es → ∀ a,
        (∀ d, s.mem a = some d → d.refcnt = s.entries a + pinned preloads a) ∧
        ((s.mem a).isSome ↔ 0 < s.entries a + pinned preloads a)) := by
  obtain ⟨s₀, hs₀, hbal₀, -⟩ := start_balanced preloads preopens
  obtain ⟨⟨s, outs⟩, held, hrun, hbal : s.Balanced held⟩ := run_balanced hbal₀ es
  refine ⟨s₀, s, outs, hs₀, hrun, fun a ha => ?_, fun honce a => ?_⟩
  · rw [hbal.counts.isSome_iff]
    omega
  · obtain ⟨r, hr, hbal'⟩ := run_balanced_of_opensOnce hbal₀ honce
    rw [hrun, Option.some_inj] at hr
    subst hr
    refine ⟨fun d hd => ?_, hbal'.counts.isSome_iff⟩
    have hcount := hbal'.counts.counted.eq_of_some (refcnt_of_mem hd)
    rw [hcount, Int.natCast_add]

/-- A dictionary file that can be written. -/
def sampleFile : NamedFile := ⟨7, some 100⟩

/-- Two clients open a dictionary, and one of them is gone again. -/
def sampleClients : List ServEvent :=
  [.connectClient 4, .execute 4 (.connect true), .execute 4 (.opendict (some sampleFile) true),
    .connectClient 5, .execute 5 (.connect true), .execute 5 (.opendict (some sampleFile) true),
    .disconnectClient 4]

theorem refcnt_eq_entries_sample :
    ∃ s₀ s outs, Server.start [some ⟨9, none⟩] [(some ⟨8, some 0⟩, true)] = some s₀ ∧
      run communicate s₀ sampleClients = some (s, outs) ∧
      ∀ a, (s.mem a).isSome ↔ 0 < s.entries a + pinned [some ⟨9, none⟩] a := by
  obtain ⟨s₀, s, outs, hs₀, hrun, -, hcounts⟩ :=
    refcnt_eq_entries [some ⟨9, none⟩] [(some ⟨8, some 0⟩, true)] sampleClients
  have honce : ∀ s₁ ∈ Server.start [some ⟨9, none⟩] [(some ⟨8, some 0⟩, true)],
      Along communicate OpensOnce s₁ sampleClients := by decide +kernel
  exact ⟨s₀, s, outs, hs₀, hrun, fun a => (hcounts (honce s₀ hs₀) a).2⟩

/-- A client opens the same dictionary twice. -/
def sampleTwice : List ServEvent :=
  [.connectClient 4, .execute 4 (.connect true), .execute 4 (.opendict (some sampleFile) true),
    .execute 4 (.opendict (some sampleFile) true)]

/-- A preloaded dictionary has a reference without an entry, and so has one that a client has
opened twice. -/
theorem refcnt_ne_entries :
    (¬ ∀ preloads, ∀ s ∈ Server.start preloads [], ∀ a, ∀ d ∈ s.mem a,
      d.refcnt = s.entries a) ∧
    ¬ ∀ es, ∀ q ∈ (Server.start [] []).bind fun s => run communicate s es,
      ∀ a, ∀ d ∈ q.1.mem a, d.refcnt = q.1.entries a := by
  refine ⟨fun h => ?_, fun h => ?_⟩
  · have hbad := fun s hs => h [some sampleFile] s hs 0
    exact absurd hbad (by decide +kernel)
  · have hbad := fun q hq => h sampleTwice q hq 0
    exact absurd hbad (by decide +kernel)

end Sj3
