import Sj3.Verification.Server.Refcnt

/-! # Locks

While a client holds the lock, every user dictionary of its list is locked by it, and no other
dictionary is. -/

namespace Sj3

open Refs Transducer

/-- A dictionary is locked on behalf of clients that hold the lock and have it in their list. -/
def Server.LockSound (s : Server) : Prop :=
  ∀ a d g, s.mem a = some d → g ∈ d.lock →
    d.maxunit ≠ 0 ∧ ∃ w, s.work g = some w ∧ w.lock = some g ∧ a ∈ w.dictlist

/-- A client that holds the lock has locked the user dictionaries of its list. -/
def Server.LockComplete (s : Server) : Prop :=
  ∀ g w a d, s.work g = some w → w.lock = some g → a ∈ w.dictlist → s.mem a = some d →
    d.maxunit ≠ 0 → g ∈ d.lock

/-- A client with the lock does not fill its empty list from a global list with other user
dictionaries than the one it opens, and does not close a user dictionary that is in its list
another time. -/
def KeepsLock (s : Server) : ServEvent → Prop
  | .execute fd (.opendict (some f) _) =>
      ∀ w ∈ s.work fd, w.lock = some fd → w.dictlist = [] →
        (searchSameDict s f.ino).join.isSome ∨ f.maxunit.isSome →
        ∀ a ∈ s.globalDictlist, ∀ d ∈ s.mem a, d.maxunit ≠ 0 →
          searchSameDict s f.ino = some (some a)
  | .execute fd (.closedict id) =>
      ∀ w ∈ s.work fd, w.lock = some fd → ∀ a ∈ (s.findDicid id w.dictlist).join,
        ∀ d ∈ s.mem a, d.maxunit ≠ 0 → a ∉ w.dictlist.erase a
  | _ => True

instance (s : Server) : ∀ e, Decidable (KeepsLock s e)
  | .execute fd cmd =>
      match cmd with
      | .opendict (some f) _ => inferInstanceAs (Decidable (∀ w ∈ s.work fd, w.lock = some fd →
          w.dictlist = [] → (searchSameDict s f.ino).join.isSome ∨ f.maxunit.isSome →
          ∀ a ∈ s.globalDictlist, ∀ d ∈ s.mem a, d.maxunit ≠ 0 →
            searchSameDict s f.ino = some (some a)))
      | .closedict id => inferInstanceAs (Decidable (∀ w ∈ s.work fd, w.lock = some fd →
          ∀ a ∈ (s.findDicid id w.dictlist).join, ∀ d ∈ s.mem a, d.maxunit ≠ 0 →
            a ∉ w.dictlist.erase a))
      | .opendict none _ => isTrue trivial
      | .connect _ => isTrue trivial
      | .disconnect => isTrue trivial
      | .lock => isTrue trivial
      | .unlock => isTrue trivial
      | .adddict _ _ _ => isTrue trivial
      | .deldict _ _ _ => isTrue trivial
  | .connectClient _ => isTrue trivial
  | .disconnectClient _ => isTrue trivial

section Requests

variable {s s' : Server} {held held' : ℕ → ℕ} {fd : ℕ}

theorem SetsWork.work_self {w : Option WorkArea} (h : SetsWork s s' fd w) : s'.work fd = w := by
  rw [h.work, Function.update_self]

theorem SetsWork.work_of_ne {w : Option WorkArea} (h : SetsWork s s' fd w) {g : ℕ}
    (hg : g ≠ fd) : s'.work g = s.work g := by
  rw [h.work, Function.update_of_ne hg]

theorem mem_openList {w : WorkArea} {a : ℕ} (ha : a ∈ w.dictlist) : a ∈ s.openList w := by
  rw [Server.openList, if_neg (List.ne_nil_of_mem ha)]
  exact ha

theorem mem_opened {a b : ℕ} {l : List ℕ} (h : b ∈ l ∨ b = a) :
    b ∈ if a ∈ l then l else a :: l := by
  split
  · rename_i ha
    rcases h with hb | rfl
    · exact hb
    · exact ha
  · rw [List.mem_cons]
    exact h.symm

theorem of_mem_opened {a b : ℕ} {l : List ℕ} (h : b ∈ if a ∈ l then l else a :: l) :
    b ∈ l ∨ b = a := by
  split at h
  · exact Or.inl h
  · exact (List.mem_cons.mp h).symm

/-- A lock that stays is sound when it is one of another client, or when the new work area
still has the lock and the dictionary. -/
theorem LockSound.carry {w : WorkArea} {v : Option WorkArea} (hsound : s.LockSound)
    (hwork : s.work fd = some w) (hsets : SetsWork s s' fd v) {a g : ℕ} {d : DictFile}
    (hd : s.mem a = some d) (hmem : g ∈ d.lock)
    (hself : g = fd → w.lock = some fd → a ∈ w.dictlist → d.maxunit ≠ 0 →
      ∃ u, v = some u ∧ u.lock = some fd ∧ a ∈ u.dictlist) :
    d.maxunit ≠ 0 ∧ ∃ u, s'.work g = some u ∧ u.lock = some g ∧ a ∈ u.dictlist := by
  obtain ⟨huser, u, hu, hlock, ha⟩ := hsound a d g hd hmem
  refine ⟨huser, ?_⟩
  by_cases hg : g = fd
  · subst hg
    rw [hwork, Option.some_inj] at hu
    subst hu
    rw [hsets.work_self]
    exact hself rfl hlock ha huser
  · rw [hsets.work_of_ne hg]
    exact ⟨u, hu, hlock, ha⟩

/-- What an opened dictionary is locked by has locked it before. -/
theorem Opens.mem_lock {refs : ℕ → ℕ} {file : Option NamedFile} {r : Server × Option ℕ}
    (h : Opens s refs file r) {b g : ℕ} {d₁ : DictFile} (hd₁ : r.1.mem b = some d₁)
    (hmem : g ∈ d₁.lock) : ∃ d, s.mem b = some d ∧ d₁.maxunit = d.maxunit ∧ g ∈ d.lock := by
  rcases h.dict hd₁ with ⟨d, hd, hmax, hlock⟩ | ⟨-, hnil⟩
  · exact ⟨d, hd, hmax, hlock ▸ hmem⟩
  · rw [hnil] at hmem
    exact absurd hmem List.not_mem_nil

theorem CmdOutcome.lockSound {cmd : Command} (h : CmdOutcome s held fd cmd s' held')
    (hsound : s.LockSound) : s'.LockSound := by
  cases h with
  | same => exact hsound
  | connected hwork hsets hdicts =>
      intro a d' g hd' hmem
      obtain ⟨d, hd, hmax, hlock⟩ := hdicts a d' hd'
      rw [hlock] at hmem
      obtain ⟨huser, w, hw, hrest⟩ := hsound a d g hd hmem
      have hg : g ≠ fd := by
        intro hg
        rw [hg, hwork] at hw
        exact absurd hw (by simp)
      rw [hmax, hsets.work_of_ne hg]
      exact ⟨huser, w, hw, hrest⟩
  | @disconnected w _ hwork hsets hlocks =>
      intro a d' g hd' hmem
      obtain ⟨d, hd, hmax, hlock⟩ := hlocks a d' hd'
      have hkept : ¬ (g = fd ∧ a ∈ w.dictlist) := fun h => ((hlock g).1 h).mp hmem
      rw [hmax]
      exact LockSound.carry hsound hwork hsets hd (((hlock g).2 hkept).mp hmem)
        fun hg _ ha _ => absurd ⟨hg, ha⟩ hkept
  | @closed _ w a _ _ hwork _ _ hsets hlocks =>
      intro b d' g hd' hmem
      obtain ⟨d, hd, hmax, hlock⟩ := hlocks b d' hd'
      have hkept : ¬ (g = fd ∧ b = a) := fun h => ((hlock g).1 h).mp hmem
      rw [hmax]
      exact LockSound.carry hsound hwork hsets hd (((hlock g).2 hkept).mp hmem)
        fun hg hw hb _ => ⟨_, rfl, hw, (List.mem_erase_of_ne fun hba => hkept ⟨hg, hba⟩).mpr hb⟩
  | @opened _ _ w a s₁ _ _ hwork hopens hsets hlocks =>
      intro b d' g hd' hmem
      obtain ⟨d₁, hd₁, hmax₁, hlock⟩ := hlocks b d' hd'
      rw [hmax₁]
      by_cases hnew : g = fd ∧ w.lock = some fd ∧ b = a ∧ d₁.maxunit ≠ 0
      · obtain ⟨rfl, hw, hba, huser⟩ := hnew
        rw [hsets.work_self]
        exact ⟨huser, _, rfl, hw, mem_opened (Or.inr hba)⟩
      · obtain ⟨d, hd, hmax, hold⟩ := hopens.mem_lock hd₁ (((hlock g).2 hnew).mp hmem)
        rw [hmax]
        exact LockSound.carry hsound hwork hsets hd hold
          fun _ hw hb _ => ⟨_, rfl, hw, mem_opened (Or.inl (mem_openList hb))⟩
  | @refused _ _ w a s₁ _ _ hwork hopens _ hsets hdicts =>
      intro b d' g hd' hmem
      obtain ⟨d₁, hd₁, hmax₁, hlock⟩ := hdicts b d' hd'
      rw [hlock] at hmem
      obtain ⟨d, hd, hmax, hold⟩ := hopens.mem_lock hd₁ hmem
      rw [hmax₁, hmax]
      exact LockSound.carry hsound hwork hsets hd hold
        fun _ hw hb _ => ⟨_, rfl, hw, mem_openList hb⟩
  | @locked w _ hwork hsets hlocks =>
      intro a d' g hd' hmem
      obtain ⟨d, hd, hmax, hlock⟩ := hlocks a d' hd'
      rw [hmax]
      by_cases hnew : g = fd ∧ a ∈ w.dictlist ∧ d.maxunit ≠ 0
      · obtain ⟨rfl, ha, huser⟩ := hnew
        rw [hsets.work_self]
        exact ⟨huser, _, rfl, rfl, ha⟩
      · exact LockSound.carry hsound hwork hsets hd (((hlock g).2 hnew).mp hmem)
          fun _ _ ha _ => ⟨_, rfl, rfl, ha⟩
  | @unlocked w _ hwork hsets hlocks =>
      intro a d' g hd' hmem
      obtain ⟨d, hd, hmax, hlock⟩ := hlocks a d' hd'
      have hkept : ¬ (g = fd ∧ a ∈ w.dictlist ∧ d.maxunit ≠ 0) := fun h => ((hlock g).1 h).mp hmem
      rw [hmax]
      exact LockSound.carry hsound hwork hsets hd (((hlock g).2 hkept).mp hmem)
        fun hg _ ha huser => absurd ⟨hg, ha, huser⟩ hkept

/-- Another client keeps its locks. -/
theorem LockComplete.of_ne {v : Option WorkArea} (hcomplete : s.LockComplete)
    (hsets : SetsWork s s' fd v) {g a : ℕ} {u : WorkArea} {d : DictFile} (hg : g ≠ fd)
    (hu : s'.work g = some u) (hlock : u.lock = some g) (ha : a ∈ u.dictlist)
    (hd : s.mem a = some d) (huser : d.maxunit ≠ 0) : g ∈ d.lock := by
  rw [hsets.work_of_ne hg] at hu
  exact hcomplete g u a d hu hlock ha hd huser

/-- The locks of a dictionary that was open before stay when another is opened. -/
theorem Opens.dict_of_isSome {refs : ℕ → ℕ} {file : Option NamedFile} {r : Server × Option ℕ}
    (h : Opens s refs file r) {b : ℕ} {d₁ : DictFile} (hd₁ : r.1.mem b = some d₁)
    (hb : (s.mem b).isSome) :
    ∃ d, s.mem b = some d ∧ d₁.maxunit = d.maxunit ∧ d₁.lock = d.lock := by
  rcases h.dict hd₁ with hold | ⟨hnone, -⟩
  · exact hold
  · rw [hnone] at hb
    exact absurd hb (by simp)

theorem KeepsLock.eq_of_global {file : Option NamedFile} {room : Bool} {w : WorkArea} {a : ℕ}
    {s₁ : Server} {refs : ℕ → ℕ} (hkeep : KeepsLock s (.execute fd (.opendict file room)))
    (hwork : s.work fd = some w) (hlock : w.lock = some fd) (hnil : w.dictlist = [])
    (hopens : Opens s refs file (s₁, some a)) {b : ℕ} {d : DictFile}
    (hb : b ∈ s.globalDictlist) (hd : s.mem b = some d) (huser : d.maxunit ≠ 0) : b = a := by
  cases hopens with
  | same hf hsame =>
      subst hf
      have hfound := hkeep w hwork hlock hnil (Or.inl (by rw [hsame]; rfl)) b hb d hd huser
      rw [hsame, Option.some_inj, Option.some_inj] at hfound
      exact hfound.symm
  | fresh hf hsearch hmax =>
      subst hf
      have hfound := hkeep w hwork hlock hnil (Or.inr hmax) b hb d hd huser
      rw [hsearch] at hfound
      exact absurd hfound (by simp)

/-- The entries in front of which a new one is put are locked already. -/
theorem mem_lock_of_openList (hs : s.Balanced held) (hcomplete : s.LockComplete)
    {file : Option NamedFile} {room : Bool} {w : WorkArea} {a : ℕ} {s₁ : Server} {refs : ℕ → ℕ}
    (hkeep : KeepsLock s (.execute fd (.opendict file room))) (hwork : s.work fd = some w)
    (hlock : w.lock = some fd) (hopens : Opens s refs file (s₁, some a)) {b : ℕ}
    (hb : b ∈ s.openList w) (hba : b ≠ a) {d₁ : DictFile} (hd₁ : s₁.mem b = some d₁)
    (huser : d₁.maxunit ≠ 0) : fd ∈ d₁.lock := by
  obtain ⟨d, hd, hmax, hsame⟩ :=
    hopens.dict_of_isSome hd₁ (hs.isSome_of_openList hwork b hb)
  rw [hmax] at huser
  rw [hsame]
  rw [Server.openList] at hb
  split at hb
  · rename_i hnil
    exact absurd (hkeep.eq_of_global hwork hlock hnil hopens hb hd huser) hba
  · exact hcomplete fd w b d hwork hlock hb hd huser

theorem mem_lock_of_ne (hs : s.Balanced held) (hcomplete : s.LockComplete)
    {v : Option WorkArea} (hsets : SetsWork s s' fd v) {file : Option NamedFile}
    {r : Server × Option ℕ} {refs : ℕ → ℕ} (hopens : Opens s refs file r) {g b : ℕ}
    {u : WorkArea} {d₁ : DictFile} (hg : g ≠ fd) (hu : s'.work g = some u)
    (hlock : u.lock = some g) (hb : b ∈ u.dictlist) (hd₁ : r.1.mem b = some d₁)
    (huser : d₁.maxunit ≠ 0) : g ∈ d₁.lock := by
  have hold := hu
  rw [hsets.work_of_ne hg] at hold
  obtain ⟨d, hd, hmax, hsame⟩ :=
    hopens.dict_of_isSome hd₁ (hs.isSome_of_dictlist hold b hb)
  rw [hmax] at huser
  rw [hsame]
  exact LockComplete.of_ne hcomplete hsets hg hu hlock hb hd huser

theorem CmdOutcome.lockComplete (hs : s.Balanced held) {cmd : Command}
    (h : CmdOutcome s held fd cmd s' held') (hkeep : KeepsLock s (.execute fd cmd))
    (hcomplete : s.LockComplete) : s'.LockComplete := by
  cases h with
  | same => exact hcomplete
  | connected hwork hsets hdicts =>
      intro g u a d' hu hlock ha hd' huser
      obtain ⟨d, hd, hmax, hsame⟩ := hdicts a d' hd'
      rw [hsame]
      rw [hmax] at huser
      by_cases hg : g = fd
      · rw [hg, hsets.work_self, Option.some_inj] at hu
        rw [← hu] at ha
        exact absurd ha List.not_mem_nil
      · exact LockComplete.of_ne hcomplete hsets hg hu hlock ha hd huser
  | disconnected hwork hsets hlocks =>
      intro g u a d' hu hlock ha hd' huser
      obtain ⟨d, hd, hmax, hrel⟩ := hlocks a d' hd'
      rw [hmax] at huser
      have hg : g ≠ fd := by
        intro hg
        rw [hg, hsets.work_self] at hu
        exact absurd hu (by simp)
      exact ((hrel g).2 fun h => hg h.1).mpr
        (LockComplete.of_ne hcomplete hsets hg hu hlock ha hd huser)
  | @closed id w a _ hcmd hwork hfind _ hsets hlocks =>
      intro g u b d' hu hlock hb hd' huser
      obtain ⟨d, hd, hmax, hrel⟩ := hlocks b d' hd'
      rw [hmax] at huser
      by_cases hg : g = fd
      · subst hg
        rw [hsets.work_self, Option.some_inj] at hu
        subst hu
        subst hcmd
        -- an entry that stays is not one for the closed dictionary
        have hba : b ≠ a := by
          rintro rfl
          exact hkeep w hwork hlock b (by rw [hfind]; rfl) d hd huser hb
        exact ((hrel g).2 fun h => hba h.2).mpr
          (hcomplete g w b d hwork hlock (List.mem_of_mem_erase hb) hd huser)
      · exact ((hrel g).2 fun h => hg h.1).mpr
          (LockComplete.of_ne hcomplete hsets hg hu hlock hb hd huser)
  | @opened file room w a s₁ _ hcmd hwork hopens hsets hlocks =>
      intro g u b d' hu hlock hb hd' huser
      obtain ⟨d₁, hd₁, hmax₁, hrel⟩ := hlocks b d' hd'
      rw [hmax₁] at huser
      by_cases hnew : g = fd ∧ w.lock = some fd ∧ b = a ∧ d₁.maxunit ≠ 0
      · exact ((hrel g).1 hnew).mpr trivial
      · refine ((hrel g).2 hnew).mpr ?_
        by_cases hg : g = fd
        · subst hg
          rw [hsets.work_self, Option.some_inj] at hu
          subst hu
          subst hcmd
          have hba : b ≠ a := fun hba => hnew ⟨rfl, hlock, hba, huser⟩
          exact mem_lock_of_openList hs hcomplete hkeep hwork hlock hopens
            ((of_mem_opened hb).resolve_right hba) hba hd₁ huser
        · exact mem_lock_of_ne hs hcomplete hsets hopens hg hu hlock hb hd₁ huser
  | @refused file room w a s₁ _ hcmd hwork hopens hne hsets hdicts =>
      intro g u b d' hu hlock hb hd' huser
      obtain ⟨d₁, hd₁, hmax₁, hsame⟩ := hdicts b d' hd'
      rw [hsame]
      rw [hmax₁] at huser
      by_cases hg : g = fd
      · subst hg
        rw [hsets.work_self, Option.some_inj] at hu
        subst hu
        subst hcmd
        exact mem_lock_of_openList hs hcomplete hkeep hwork hlock hopens hb
          (fun hba => hne (hba ▸ hb)) hd₁ huser
      · exact mem_lock_of_ne hs hcomplete hsets hopens hg hu hlock hb hd₁ huser
  | @locked w _ hwork hsets hlocks =>
      intro g u a d' hu hlock ha hd' huser
      obtain ⟨d, hd, hmax, hrel⟩ := hlocks a d' hd'
      rw [hmax] at huser
      by_cases hg : g = fd
      · subst hg
        rw [hsets.work_self, Option.some_inj] at hu
        subst hu
        exact ((hrel g).1 ⟨rfl, ha, huser⟩).mpr trivial
      · exact ((hrel g).2 fun h => hg h.1).mpr
          (LockComplete.of_ne hcomplete hsets hg hu hlock ha hd huser)
  | unlocked hwork hsets hlocks =>
      intro g u a d' hu hlock ha hd' huser
      obtain ⟨d, hd, hmax, hrel⟩ := hlocks a d' hd'
      rw [hmax] at huser
      have hg : g ≠ fd := by
        rintro rfl
        rw [hsets.work_self, Option.some_inj] at hu
        rw [← hu] at hlock
        exact absurd hlock (by simp)
      exact ((hrel g).2 fun h => hg h.1).mpr
        (LockComplete.of_ne hcomplete hsets hg hu hlock ha hd huser)

end Requests

/-! ## Runs -/

section Runs

variable {s : Server} {held : ℕ → ℕ}

/-- The clients with work areas are as before, and no lock of a dictionary is new. -/
theorem lockSound_disconnect (hs : s.Balanced held) (hsound : s.LockSound)
    (hcomplete : s.LockComplete) {fd : ℕ} (hfd : fd ∈ s.client) :
    ∃ s', disconnectClient s fd = some s' ∧ s'.Balanced held ∧ s'.LockSound ∧
      s'.LockComplete := by
  obtain ⟨s₁, hs₁, hsets, hlocks, hbal⟩ := disconnectClient_spec hs hfd
  refine ⟨_, hs₁, hbal.erase hsets.work_self, fun a d' g hd' hmem => ?_,
    fun g u a d' hu hlock ha hd' huser => ?_⟩
  · obtain ⟨d, hd, hmax, hrel⟩ := hlocks a d' hd'
    have hkept : ¬ (g = fd ∧ ∃ w, s.work fd = some w ∧ a ∈ w.dictlist) :=
      fun h => ((hrel g).1 h).mp hmem
    obtain ⟨huser, w, hw, hlock, ha⟩ := hsound a d g hd (((hrel g).2 hkept).mp hmem)
    have hg : g ≠ fd := by
      rintro rfl
      exact hkept ⟨rfl, w, hw, ha⟩
    rw [hmax]
    refine ⟨huser, w, ?_, hlock, ha⟩
    rw [← hw]
    exact hsets.work_of_ne hg
  · obtain ⟨d, hd, hmax, hrel⟩ := hlocks a d' hd'
    rw [hmax] at huser
    have hg : g ≠ fd := by
      rintro rfl
      have hnone : s₁.work g = none := hsets.work_self
      rw [show s₁.work g = some u from hu] at hnone
      exact absurd hnone (by simp)
    exact ((hrel g).2 fun h => hg h.1).mpr
      (LockComplete.of_ne hcomplete hsets hg hu hlock ha hd huser)

/-- The locks are those of the clients that hold the lock. -/
structure Server.Locks (s : Server) : Prop where
  balanced : ∃ held, s.Balanced held
  sound : s.LockSound
  complete : s.LockComplete

theorem communicate_locks (hs : s.Locks) (e : ServEvent) (hkeep : KeepsLock s e) :
    ∃ r, communicate s e = some r ∧ r.1.Locks := by
  obtain ⟨⟨held, hbal⟩, hsound, hcomplete⟩ := hs
  cases e with
  | connectClient fd =>
      refine ⟨_, rfl, ⟨held, hbal.connectClient fd⟩, ?_, ?_⟩
      · rw [connectClient]
        split
        · exact hsound
        · rename_i hfd
          intro a d g hd hmem
          obtain ⟨huser, w, hw, hrest⟩ := hsound a d g hd hmem
          have hg : g ≠ fd := fun hg => hfd (hg ▸ hbal.owner g w hw)
          refine ⟨huser, w, ?_, hrest⟩
          dsimp only
          rw [Function.update_of_ne hg, hw]
      · rw [connectClient]
        split
        · exact hcomplete
        · intro g u a d hu hlock ha hd huser
          dsimp only at hu
          by_cases hg : g = fd
          · rw [hg, Function.update_self] at hu
            exact absurd hu (by simp)
          · rw [Function.update_of_ne hg] at hu
            exact hcomplete g u a d hu hlock ha hd huser
  | execute fd cmd =>
      rw [communicate]
      by_cases hfd : fd ∈ s.client
      · obtain ⟨r, held', hr, houtcome, hbal'⟩ := executeCmd_outcome hbal hfd cmd
        rw [if_pos hfd, hr, Option.map_some]
        exact ⟨_, rfl, ⟨held', hbal'⟩, houtcome.lockSound hsound,
          houtcome.lockComplete hbal hkeep hcomplete⟩
      · rw [if_neg hfd]
        exact ⟨_, rfl, ⟨held, hbal⟩, hsound, hcomplete⟩
  | disconnectClient fd =>
      rw [communicate]
      by_cases hfd : fd ∈ s.client
      · obtain ⟨s', hs', hbal', hsound', hcomplete'⟩ :=
          lockSound_disconnect hbal hsound hcomplete hfd
        rw [if_pos hfd, hs', Option.map_some]
        exact ⟨_, rfl, ⟨held, hbal'⟩, hsound', hcomplete'⟩
      · rw [if_neg hfd]
        exact ⟨_, rfl, ⟨held, hbal⟩, hsound, hcomplete⟩

theorem start_locks (preloads : List (Option NamedFile))
    (preopens : List (Option NamedFile × Bool)) :
    ∃ s, Server.start preloads preopens = some s ∧ s.Locks := by
  obtain ⟨s, hs, hbal, hlocks, hclient⟩ := start_balanced preloads preopens
  refine ⟨s, hs, ⟨_, hbal⟩, fun a d g hd hmem => ?_, fun g u a d hu => ?_⟩
  · rw [hlocks a d hd] at hmem
    exact absurd hmem List.not_mem_nil
  · have hmem := hbal.owner g u hu
    rw [hclient] at hmem
    exact absurd hmem (Finset.notMem_empty g)

/-- A dictionary that a client has locked is not changed. -/
theorem Server.Locks.not_changes (hs : s.Locks) {fd : ℕ} {w : WorkArea}
    (hwork : s.work fd = some w) (hlock : w.lock = some fd) {a : ℕ} (ha : a ∈ w.dictlist)
    {g : ℕ} {cmd : Command} (hcmd : ∃ dicid err err1,
      cmd = .adddict dicid err err1 ∨ cmd = .deldict dicid err err1)
    {r : Server × ServReply} (hr : executeCmd s g cmd = some r) : r.2 ≠ .changes a := by
  obtain ⟨⟨held, hbal⟩, -, hcomplete⟩ := hs
  obtain ⟨dicid, err, err1, hcmd⟩ := hcmd
  obtain ⟨reply, hreply, hchanges⟩ := @execEditdict_spec _ _ g hbal dicid err err1
  have hr' : executeCmd s g cmd = some (s, reply) := by
    rcases hcmd with rfl | rfl
    · exact hreply
    · exact hreply
  rw [hr, Option.some_inj] at hr'
  intro hbad
  rw [hr'] at hbad
  obtain ⟨-, d, -, -, hd, huser, hnil⟩ := hchanges a hbad
  have hmem := hcomplete fd w a d hwork hlock ha hd huser
  rw [hnil] at hmem
  exact absurd hmem List.not_mem_nil

/-- While a client holds the lock nobody changes a dictionary of its list, and a dictionary is
locked only on behalf of connected clients that hold the lock and have it in their list. -/
theorem lock_excludes (preloads : List (Option NamedFile))
    (preopens : List (Option NamedFile × Bool)) (es : List ServEvent)
    (hkeep : ∀ s₀ ∈ Server.start preloads preopens, Along communicate KeepsLock s₀ es) :
    ∃ s₀ s outs, Server.start preloads preopens = some s₀ ∧
      run communicate s₀ es = some (s, outs) ∧
      (∀ fd w, s.work fd = some w → w.lock = some fd → ∀ a ∈ w.dictlist, ∀ g dicid err err1,
        (∀ r, executeCmd s g (.adddict dicid err err1) = some r → r.2 ≠ .changes a) ∧
        ∀ r, executeCmd s g (.deldict dicid err err1) = some r → r.2 ≠ .changes a) ∧
      ∀ a d fd, s.mem a = some d → fd ∈ d.lock → fd ∈ s.client ∧
        ∃ w, s.work fd = some w ∧ w.lock = some fd ∧ a ∈ w.dictlist := by
  obtain ⟨s₀, hs₀, hlocks₀⟩ := start_locks preloads preopens
  have hstep : ∀ (s : Server) e, s.Locks → KeepsLock s e →
      ∃ r, communicate s e = some r ∧ r.1.Locks := fun s e h hgood => communicate_locks h e hgood
  obtain ⟨⟨s, outs⟩, hrun, hlocks : s.Locks⟩ :=
    run_invariant Server.Locks hstep hlocks₀ (hkeep s₀ hs₀)
  refine ⟨s₀, s, outs, hs₀, hrun, fun fd w hw hlock a ha g dicid err err1 => ⟨fun r hr => ?_,
    fun r hr => ?_⟩, fun a d fd hd hmem => ?_⟩
  · exact hlocks.not_changes hw hlock ha ⟨dicid, err, err1, Or.inl rfl⟩ hr
  · exact hlocks.not_changes hw hlock ha ⟨dicid, err, err1, Or.inr rfl⟩ hr
  · obtain ⟨held, hbal⟩ := hlocks.balanced
    obtain ⟨-, w, hw, hrest⟩ := hlocks.sound a d fd hd hmem
    exact ⟨hbal.owner fd w hw, w, hw, hrest⟩

end Runs

/-- A client takes the lock and then opens a dictionary, and another opens the same. -/
def sampleLocked : List ServEvent :=
  [.connectClient 4, .execute 4 (.connect true), .execute 4 .lock,
    .execute 4 (.opendict (some sampleFile) true),
    .connectClient 5, .execute 5 (.connect true), .execute 5 (.opendict (some sampleFile) true)]

theorem lock_excludes_sample :
    ∃ s₀ s outs, Server.start [] [] = some s₀ ∧ run communicate s₀ sampleLocked = some (s, outs) ∧
      ∀ r, executeCmd s 5 (.adddict 7 false false) = some r → r.2 ≠ .changes 0 := by
  obtain ⟨s₀, s, outs, hs₀, hrun, hexcludes, -⟩ :=
    lock_excludes [] [] sampleLocked (by decide +kernel)
  have hlast : ∀ s₁ ∈ Server.start [] [], ∀ q ∈ run communicate s₁ sampleLocked,
      q.1.work 4 = some ⟨some 4, [0]⟩ := by decide +kernel
  exact ⟨s₀, s, outs, hs₀, hrun, (hexcludes 4 _ (hlast s₀ hs₀ _ hrun) rfl 0 (by simp) 5 7 false
    false).1⟩

/-- A client takes the lock before it has a list, which is then filled from the global one. -/
def sampleUnlocked : List ServEvent :=
  [.connectClient 4, .execute 4 (.connect true), .execute 4 .lock,
    .execute 4 (.opendict (some sampleFile) true),
    .connectClient 5, .execute 5 (.connect true), .execute 5 (.opendict (some ⟨8, some 100⟩) true)]

/-- The other client changes the dictionary of the global list. -/
theorem lock_not_excludes :
    ¬ ∀ preloads preopens es, ∀ s₀ ∈ Server.start preloads preopens,
      ∀ q ∈ run communicate s₀ es, ∀ fd, ∀ w ∈ q.1.work fd, w.lock = some fd →
        ∀ a ∈ w.dictlist, ∀ g, g ≠ fd → ∀ dicid err err1,
          ∀ r ∈ executeCmd q.1 g (.adddict dicid err err1), r.2 ≠ .changes a := by
  intro h
  have hbad := fun s₀ hs₀ q hq w hw hlock a ha =>
    h [] [(some ⟨8, some 100⟩, true)] sampleUnlocked s₀ hs₀ q hq 4 w hw hlock a ha 5 (by decide) 8
      false false
  exact absurd hbad (by decide +kernel)

end Sj3
