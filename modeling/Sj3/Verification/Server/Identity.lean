import Sj3.General.BigEndian
import Sj3.Model.DictId

/-! # The identifiers clients send back

Identifiers are inode numbers of 64 bits, and what a client has of one is an `int`. -/

namespace Sj3

open BigEndian

theorem passInt_eq (c : ℤ) : passInt c = toInt c := by
  have hval := value_bytes c 4
  simp only [value, bytes, List.foldl_cons, List.foldl_nil] at hval
  simp only [passInt, intBytes, getInt, toInt]
  rw [← Int.emod_bmod c]
  apply congrArg (Int.bmod · (2 ^ 32))
  have h3 : c / 2 ^ (8 * 3) = c / 0x100 ^ 3 := by norm_num
  have h2 : c / 2 ^ (8 * 2) = c / 0x100 ^ 2 := by norm_num
  have h1 : c / 2 ^ (8 * 1) = c / 0x100 ^ 1 := by norm_num
  have h0 : c = c / 0x100 ^ 0 := by simp
  simp only [uchar, low, h3, h2, h1] at hval ⊢
  rw [← h0] at hval
  omega

/-- What of an identifier comes back in a request. -/
theorem requestDicid_clientDicid (dicid : TypeDicID) :
    requestDicid (clientDicid dicid) = UInt64.ofInt (toInt dicid.toNat) := by
  rw [requestDicid, clientDicid, passInt_eq, passInt_eq, toDicID]
  simp only [toInt, Int.bmod_bmod]

/-- The identifiers that an `int` can hold, as a positive or as a negative number. -/
def FitsInt (dicid : TypeDicID) : Prop :=
  dicid.toNat < 2 ^ 31 ∨ 2 ^ 64 - 2 ^ 31 ≤ dicid.toNat

theorem requestDicid_eq_iff (dicid : TypeDicID) :
    requestDicid (clientDicid dicid) = dicid ↔ FitsInt dicid := by
  have hlt := dicid.toNat_lt
  rw [requestDicid_clientDicid, ← UInt64.toNat_inj, UInt64.ofInt, UInt64.toNat_ofNat', toInt,
    Int.bmod_def, FitsInt]
  omega

/-! ## Selecting a dictionary -/

/-- The dictionaries of a list are open, and each has an identifier of its own. -/
structure Server.OpenList (s : Server) (dictlist : List ℕ) : Prop where
  opened : ∀ a ∈ dictlist, (s.mem a).isSome
  distinct : ∀ a ∈ dictlist, ∀ b ∈ dictlist, ∀ d d', s.mem a = some d → s.mem b = some d' →
    d.dicid = d'.dicid → a = b

/-- What every request with an identifier does when it selects the dictionary at `a`: no other
check of the request depends on the identifier. -/
structure Server.Serves (s : Server) (fd : ℕ) (w : WorkArea) (a : ℕ) (id : TypeDicID) : Prop where
  closedict : execClosedict s fd id =
    (unlockDict s a fd).bind fun s => (Sj3.closedict s a).map fun s =>
      (s.setWork fd (some { w with dictlist := w.dictlist.erase a }), .normalEnd)
  adddict : execAdddict s fd id false false = (s.mem a).map fun d =>
    if d.maxunit = 0 then (s, .error .readOnlyDict)
    else if d.isDictLocked then (s, .error .dictLocked)
    else (s, .changes a)
  deldict : execDeldict s fd id false false = (s.mem a).map fun d =>
    if d.maxunit = 0 then (s, .error .readOnlyDict)
    else if d.isDictLocked then (s, .error .dictLocked)
    else (s, .changes a)
  getdict : execGetdict s fd id =
    some (if lockCheckForRead w fd then .ok a else .error .lockedByOther)
  nextdict : execNextdict s fd id =
    some (if lockCheckForRead w fd then .ok a else .error .lockedByOther)
  prevdict : execPrevdict s fd id =
    some (if lockCheckForRead w fd then .ok a else .error .lockedByOther)

section Selection

variable {s : Server} {fd : ℕ} {w : WorkArea} {id : TypeDicID}

theorem findDicid_of_mem {dictlist : List ℕ} (h : s.OpenList dictlist) {a : ℕ}
    (ha : a ∈ dictlist) {d : DictFile} (hd : s.mem a = some d) :
    s.findDicid d.dicid dictlist = some (some a) := by
  induction dictlist with
  | nil => exact absurd ha List.not_mem_nil
  | cons b l ih =>
      obtain ⟨d', hd'⟩ := Option.isSome_iff_exists.mp (h.opened b List.mem_cons_self)
      rw [Server.findDicid, hd', Option.bind_some]
      by_cases hid : d'.dicid = d.dicid
      · rw [if_pos hid, h.distinct b List.mem_cons_self a ha d' d hd' hd hid]
      · have hne : a ≠ b := fun hab => hid (by rw [hab, hd'] at hd; rw [Option.some_inj.mp hd])
        rw [if_neg hid]
        apply ih
        · exact ⟨fun c hc => h.opened c (List.mem_cons_of_mem _ hc), fun c hc e he =>
            h.distinct c (List.mem_cons_of_mem _ hc) e (List.mem_cons_of_mem _ he)⟩
        · exact (List.mem_cons.mp ha).resolve_left hne

theorem dicid_of_findDicid {dictlist : List ℕ} {a : ℕ}
    (h : s.findDicid id dictlist = some (some a)) :
    a ∈ dictlist ∧ ∃ d, s.mem a = some d ∧ d.dicid = id := by
  induction dictlist with
  | nil => cases h
  | cons b l ih =>
      obtain ⟨d, hd, hfind⟩ := Option.bind_eq_some_iff.mp h
      split at hfind
      · rename_i hid
        cases hfind
        exact ⟨List.mem_cons_self, d, hd, hid⟩
      · obtain ⟨hmem, hex⟩ := ih hfind
        exact ⟨List.mem_cons_of_mem _ hmem, hex⟩

theorem serves_of_findDicid (hwork : s.work fd = some w) {a : ℕ}
    (hfind : s.findDicid id w.dictlist = some (some a)) : s.Serves fd w a id := by
  have hpeep : execPeepdict s fd id =
      some (if lockCheckForRead w fd then .ok a else .error .lockedByOther) := by
    simp only [execPeepdict, hwork, hfind, Server.seldict, Option.bind_some, Option.map_some]
    cases lockCheckForRead w fd <;> rfl
  have hedit : execEditdict s fd id false false = (s.mem a).map fun d =>
      if d.maxunit = 0 then (s, .error .readOnlyDict)
      else if d.isDictLocked then (s, .error .dictLocked)
      else (s, .changes a) := by
    simp only [execEditdict, hwork, hfind, Option.bind_some, Bool.false_eq_true, if_false]
  refine ⟨?_, hedit, hedit, hpeep, hpeep, hpeep⟩
  simp only [execClosedict, hwork, hfind, Option.bind_some]

/-- Closing the dictionary at `a` ends normally and takes it out of the list. -/
theorem close_work (fd : ℕ) (w' : WorkArea) {a : ℕ} (ha : (s.mem a).isSome) :
    ∃ r, ((unlockDict s a fd).bind fun s => (closedict s a).map fun s =>
        (s.setWork fd (some w'), ServReply.normalEnd)) = some r ∧
      r.1.work fd = some w' ∧ r.2 = .normalEnd := by
  obtain ⟨d, hd⟩ := Option.isSome_iff_exists.mp ha
  have hmem : (Function.update s.mem a (some { d with lock := d.lock.filter (· ≠ fd) })) a =
      some { d with lock := d.lock.filter (· ≠ fd) } := Function.update_self _ _ _
  simp only [unlockDict, Server.update, hd, Option.map_some, Option.bind_some, closedict, hmem,
    Server.setWork]
  exact ⟨_, rfl, Function.update_self _ _ _, rfl⟩

/-- The dictionary a request of the client was served with has the identifier. -/
theorem Server.Serves.dicid_eq (hwork : s.work fd = some w) (hopen : s.OpenList w.dictlist)
    {a : ℕ} (ha : a ∈ w.dictlist) (h : s.Serves fd w a id) {d : DictFile}
    (hd : s.mem a = some d) : d.dicid = id := by
  obtain ⟨r, hr, hrwork, hend⟩ := close_work fd { w with dictlist := w.dictlist.erase a }
    (hopen.opened a ha)
  have hclose := h.closedict.trans hr
  simp only [execClosedict, hwork] at hclose
  obtain ⟨found, hfind, hrest⟩ := Option.bind_eq_some_iff.mp hclose
  cases found with
  | none =>
      cases hrest
      cases hend
  | some b =>
      obtain ⟨hb, d', hd', hid⟩ := dicid_of_findDicid hfind
      obtain ⟨r', hr', hrwork', -⟩ := close_work fd { w with dictlist := w.dictlist.erase b }
        (hopen.opened b hb)
      have herase : w.dictlist.erase b = w.dictlist.erase a := by
        have heq : r' = r := Option.some_inj.mp (hr'.symm.trans hrest)
        rw [heq, hrwork, Option.some_inj] at hrwork'
        exact (congrArg WorkArea.dictlist hrwork').symm
      have hab : a = b := by
        by_contra hne
        have hcount := congrArg (List.count a) herase
        rw [List.count_erase_of_ne hne, List.count_erase_self] at hcount
        have := List.count_pos_iff.mpr ha
        omega
      rw [hab, hd'] at hd
      rw [← Option.some_inj.mp hd, hid]

/-- The identifier a client got of a dictionary selects that dictionary in all of its requests,
for each dictionary in its list, exactly if the identifiers are numbers an `int` can hold. -/
theorem requests_serve_iff (hwork : s.work fd = some w) (hopen : s.OpenList w.dictlist) :
    (∀ a ∈ w.dictlist, ∀ d, s.mem a = some d →
        s.Serves fd w a (requestDicid (clientDicid d.dicid))) ↔
      ∀ a ∈ w.dictlist, ∀ d, s.mem a = some d → FitsInt d.dicid := by
  constructor
  · intro h a ha d hd
    exact (requestDicid_eq_iff d.dicid).mp ((h a ha d hd).dicid_eq hwork hopen ha hd).symm
  · intro h a ha d hd
    rw [(requestDicid_eq_iff d.dicid).mpr (h a ha d hd)]
    exact serves_of_findDicid hwork (findDicid_of_mem hopen ha hd)

end Selection

/-- Two open dictionaries with the given identifiers, in the list of a client. -/
def twoDicts (dicid dicid' : TypeDicID) : Server :=
  { mem := fun a => match a with
      | 0 => some ⟨dicid, 1, 1, []⟩
      | 1 => some ⟨dicid', 1, 1, []⟩
      | _ => none
    unused := 2
    dictlink := [1, 0]
    client := {3}
    work := fun fd => if fd = 3 then some ⟨none, [1, 0]⟩ else none
    globalDictlist := [] }

theorem twoDicts_openList {dicid dicid' : TypeDicID} (hne : dicid ≠ dicid') :
    (twoDicts dicid dicid').OpenList [1, 0] where
  opened := by
    intro a ha
    simp only [List.mem_cons, List.not_mem_nil, or_false] at ha
    rcases ha with rfl | rfl <;> rfl
  distinct := by
    intro a ha b hb d d' hd hd' hid
    simp only [List.mem_cons, List.not_mem_nil, or_false] at ha hb
    rcases ha with rfl | rfl <;> rcases hb with rfl | rfl <;> cases hd <;> cases hd' <;>
      simp_all

theorem requests_serve_iff_two :
    (∀ a ∈ [1, 0], ∀ d, (twoDicts 5 7).mem a = some d →
        (twoDicts 5 7).Serves 3 ⟨none, [1, 0]⟩ a (requestDicid (clientDicid d.dicid))) ↔
      ∀ a ∈ [1, 0], ∀ d, (twoDicts 5 7).mem a = some d → FitsInt d.dicid :=
  @requests_serve_iff (twoDicts 5 7) 3 ⟨none, [1, 0]⟩ rfl (twoDicts_openList (by decide))

/-- The inode number 2^31 comes back as one the server does not know, and 2^32 + 5 as the one
of another dictionary. -/
theorem requests_not_serve :
    execGetdict (twoDicts 5 (2 ^ 31)) 3 (requestDicid (clientDicid (2 ^ 31))) =
        some (.error .noSuchDict) ∧
      execGetdict (twoDicts 5 (2 ^ 32 + 5)) 3 (requestDicid (clientDicid (2 ^ 32 + 5))) =
        some (.ok 0) ∧
      ¬ ∀ (s : Server) (fd : ℕ) (w : WorkArea), s.work fd = some w → s.OpenList w.dictlist →
        ∀ a ∈ w.dictlist, ∀ d, s.mem a = some d →
          s.Serves fd w a (requestDicid (clientDicid d.dicid)) := by
  have hunknown : execGetdict (twoDicts 5 (2 ^ 31)) 3 (requestDicid (clientDicid (2 ^ 31))) =
      some (.error .noSuchDict) := by rfl
  refine ⟨hunknown, by rfl, fun h => ?_⟩
  have hserves := h (twoDicts 5 (2 ^ 31)) 3 ⟨none, [1, 0]⟩ rfl (twoDicts_openList (by decide)) 1
    List.mem_cons_self ⟨2 ^ 31, 1, 1, []⟩ rfl
  have hget := hserves.getdict
  rw [hunknown] at hget
  cases hget

end Sj3
