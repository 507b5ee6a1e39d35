import Sj3.Model.Connect
import Mathlib.Tactic.Common

/-! # Refused connections

The work area of a new connection is allocated in the middle of the checks. A request that is
refused before leaves everything as it was; after that, only the clients are as they were. -/

namespace Sj3.Connect

variable {env : Env} {s : State} {fd : ℕ} {req : Request}

/-- One of the checks in front of the allocation, or the allocation itself, fails. -/
def RefusedEarly (env : Env) (s : State) (fd : ℕ) (req : Request) : Prop :=
  (s.client fd).work ≠ none ∨ req.version < 0 ∨ req.hostname = [] ∨ req.username = [] ∨
    checkUser env req.username req.hostname = false ∨ env.room = false

/-- The state with the new work area. -/
def State.allocated (s : State) : State :=
  { s with
    area := Function.update s.area s.unused (some ⟨none, 1⟩)
    unused := s.unused + 1
    worklist := s.unused :: s.worklist
    workBase := some s.unused }

theorem execConnect_of_early (h : RefusedEarly env s fd req) :
    ∃ e, execConnect env s fd req = (s, .error e) := by
  rw [execConnect]
  by_cases hwork : (s.client fd).work ≠ none
  · exact ⟨_, if_pos hwork⟩
  by_cases hversion : req.version < 0
  · exact ⟨_, by rw [if_neg hwork, if_pos hversion]⟩
  by_cases hhost : req.hostname = []
  · exact ⟨_, by rw [if_neg hwork, if_neg hversion, if_pos hhost]⟩
  by_cases huser : req.username = []
  · exact ⟨_, by rw [if_neg hwork, if_neg hversion, if_neg hhost, if_pos huser]⟩
  by_cases hcheck : checkUser env req.username req.hostname = false
  · exact ⟨_, by rw [if_neg hwork, if_neg hversion, if_neg hhost, if_neg huser, if_pos hcheck]⟩
  have hroom : env.room = false := by
    rcases h with h | h | h | h | h | h
    · exact absurd h hwork
    · exact absurd h hversion
    · exact absurd h hhost
    · exact absurd h huser
    · exact absurd h hcheck
    · exact h
  refine ⟨.notEnoughMemory, ?_⟩
  rw [if_neg hwork, if_neg hversion, if_neg hhost, if_neg huser, if_neg hcheck,
    State.allocWorkarea, if_neg (by simp [hroom])]

/-- The checks of the user are made with the new work area in place. -/
theorem execConnect_of_not_early (h : ¬RefusedEarly env s fd req) :
    execConnect env s fd req = (s.allocated, .error .notAllowedUser) ∨
      ∃ v, (execConnect env s fd req).2 = .ok v := by
  simp only [RefusedEarly, not_or, Bool.not_eq_false] at h
  rw [execConnect, if_neg h.1, if_neg h.2.1, if_neg h.2.2.1, if_neg h.2.2.2.1,
    if_neg (by simp [h.2.2.2.2.1]), State.allocWorkarea, if_pos h.2.2.2.2.2]
  cases env.getpwnam req.username with
  | none => exact .inl rfl
  | some ugid =>
      simp only
      by_cases hpeer : env.strictAuthEnable ∧
          (ugid.uid ≠ env.peer.uid ∨ ugid.gid ≠ env.peer.gid)
      · rw [if_pos hpeer]
        exact .inl rfl
      · rw [if_neg hpeer]
        exact .inr ⟨_, rfl⟩

theorem execConnect_of_late (h : ¬RefusedEarly env s fd req) {e : Refusal}
    (he : (execConnect env s fd req).2 = .error e) :
    execConnect env s fd req = (s.allocated, .error .notAllowedUser) := by
  rcases execConnect_of_not_early h with hlate | ⟨v, hv⟩
  · exact hlate
  · rw [hv] at he
    exact absurd he nofun

/-- A client without a work area is not connected, whatever area was current. -/
theorem notConnected_iff : s.NotConnected fd ↔ (s.client fd).work = none := by
  rw [State.NotConnected, State.setup, and_self]

theorem execConnect_client {e : Refusal} (he : (execConnect env s fd req).2 = .error e) :
    (execConnect env s fd req).1.client = s.client := by
  by_cases h : RefusedEarly env s fd req
  · obtain ⟨_, hearly⟩ := execConnect_of_early h
    rw [hearly]
  · rw [execConnect_of_late h he, State.allocated]

/-- A refusal leaves the list of the work areas as it was only when it came in time; otherwise
there is an area in it that no client has. -/
theorem execConnect_worklist_iff {e : Refusal} (he : (execConnect env s fd req).2 = .error e) :
    (execConnect env s fd req).1.worklist = s.worklist ↔ RefusedEarly env s fd req := by
  constructor
  · intro hlist
    by_contra h
    rw [execConnect_of_late h he] at hlist
    exact List.cons_ne_self _ _ hlist
  · intro h
    obtain ⟨_, hearly⟩ := execConnect_of_early h
    rw [hearly]

/-- The clients, the work areas and the current one are as they were, and the client is told at
its next request that it is not connected. -/
structure LeavesNoTrace (s s' : State) (fd : ℕ) : Prop where
  client : s'.client = s.client
  worklist : s'.worklist = s.worklist
  workBase : s'.workBase = s.workBase
  notConnected : s'.NotConnected fd

/-- A refusal leaves no trace if and only if it came before the work area was allocated, and not
because the client is connected already. -/
theorem execConnect_leavesNoTrace_iff (env : Env) (s : State) (fd : ℕ) (req : Request)
    (e : Refusal) (he : (execConnect env s fd req).2 = .error e) :
    LeavesNoTrace s (execConnect env s fd req).1 fd ↔
      RefusedEarly env s fd req ∧ (s.client fd).work = none := by
  have hclient := execConnect_client he
  constructor
  · intro h
    refine ⟨(execConnect_worklist_iff he).mp h.worklist, ?_⟩
    rw [← hclient]
    exact notConnected_iff.mp h.notConnected
  · rintro ⟨hearly, hwork⟩
    obtain ⟨_, hsame⟩ := execConnect_of_early hearly
    rw [hsame]
    exact ⟨rfl, rfl, rfl, notConnected_iff.mpr hwork⟩

/-- A server that lets every user in whom the password database knows. -/
def openEnv : Env :=
  ⟨[], true, true, fun name => if name = [117] then some ⟨1, 1⟩ else none, ⟨1, 1⟩⟩

/-- One client is connected. -/
def busyState : State where
  area := Function.update (fun _ => none) 0 (some ⟨none, 1⟩)
  unused := 1
  worklist := [0]
  workBase := none
  client fd := ⟨[], [], [], if fd = 3 then some 0 else none, 0, (0, 0), 0⟩

/-- Another one asks for a user nobody knows. -/
def unknownUser : Request := ⟨2, [104], [118], []⟩

theorem unknownUser_refused :
    (execConnect openEnv busyState 4 unknownUser).2 = .error .notAllowedUser := rfl

theorem execConnect_leavesNoTrace_iff_unknownUser :
    LeavesNoTrace busyState (execConnect openEnv busyState 4 unknownUser).1 4 ↔
      RefusedEarly openEnv busyState 4 unknownUser ∧ (busyState.client 4).work = none :=
  execConnect_leavesNoTrace_iff openEnv busyState 4 unknownUser .notAllowedUser unknownUser_refused

/-- Its work area stays in the list, and no client has it. -/
theorem not_leavesNoTrace :
    (execConnect openEnv busyState 4 unknownUser).2 = .error .notAllowedUser ∧
      (execConnect openEnv busyState 4 unknownUser).1.worklist = [1, 0] ∧
      (∀ fd, ((execConnect openEnv busyState 4 unknownUser).1.client fd).work ≠ some 1) ∧
      ¬ LeavesNoTrace busyState (execConnect openEnv busyState 4 unknownUser).1 4 := by
  have hlist : (execConnect openEnv busyState 4 unknownUser).1.worklist = [1, 0] := rfl
  refine ⟨rfl, hlist, ?_, fun h => ?_⟩
  · intro fd
    rw [execConnect_client unknownUser_refused, busyState]
    simp only
    split <;> simp
  · have hsame := h.worklist
    rw [hlist] at hsame
    exact absurd hsame (by decide)

end Sj3.Connect
