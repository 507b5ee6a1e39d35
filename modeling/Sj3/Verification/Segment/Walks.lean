import Sj3.Model.Hblk
import Sj3.Verification.Segment.Grammar

/-! # Walks that agree

`skiphblk` and `setjrec` go from code to code, and `srchgram` may be out of step. They visit the
same grammar blocks as long as none comes to a `0xff` inside a code. -/

namespace Sj3

/-! ## One grammar block -/

theorem skipKnjs_bytes {ks : List Bytes} (hks : ∀ k ∈ ks, IsKnjStr k) {n : ℕ}
    (hn : ks.length < n) (rest : Bytes) :
    skipKnjs n (knjBytes ks ++ hinsiBlkTerm :: rest) = hinsiBlkTerm :: rest := by
  induction ks generalizing n with
  | nil =>
      obtain ⟨n, rfl⟩ := Nat.exists_eq_succ_of_ne_zero (Nat.ne_of_gt hn)
      exact if_neg (by simp)
  | cons k ks ih =>
      obtain ⟨n, rfl⟩ := Nat.exists_eq_succ_of_ne_zero (Nat.ne_of_gt (Nat.zero_lt_of_lt hn))
      have hk := hks k List.mem_cons_self
      obtain ⟨c, k', rfl⟩ := List.exists_cons_of_ne_nil hk.ne_nil
      have hhead : (c :: (k' ++ (kanjiStrEnd :: (knjBytes ks ++ hinsiBlkTerm :: rest)))).headD
          dicSegTerm ≠ hinsiBlkTerm := hk.ne_term
      rw [knjBytes_cons, List.append_assoc, List.cons_append, List.cons_append, skipKnjs,
        if_pos hhead, ← List.cons_append, skipkstr_codes hk.codes hk.ne_nil]
      exact ih (fun k'' h => hks k'' (List.mem_cons_of_mem _ h)) (Nat.lt_of_succ_lt_succ hn)

theorem skiphblk_bytes (h : HinsiBlk) (rest : Bytes) : skiphblk (h.bytes ++ rest) = rest := by
  have hcount : h.kanji.length < (h.bytes ++ rest).length := by
    have := length_le_knjBytes h.kanji
    rw [h.bytes_append, List.length_cons, List.length_append]
    omega
  rw [skiphblk, h.bytes_append, List.tail_cons, ← h.bytes_append,
    skipKnjs_bytes h.isKnjStr hcount, List.tail_cons]

theorem setjSize_eq_codesize : ∀ c : UInt8, setjSize c = codesize c := by
  apply Byte.forall_of_fin
  decide +kernel

theorem setjEnd_cons (c : UInt8) (tmp : Bytes) :
    setjEnd (c :: tmp) =
      if c = hinsiBlkTerm then c :: tmp
      else if setjSize c = 1 then setjEnd tmp
      else
        match tmp with
        | [] => []
        | _ :: tmp => setjEnd tmp :=
  setjEnd.eq_def (c :: tmp)

theorem setjEnd_short {c : UInt8} (hc : c ≠ hinsiBlkTerm) (hs : codesize c = 1) (p : Bytes) :
    setjEnd (c :: p) = setjEnd p := by
  rw [setjEnd_cons]
  exact (if_neg hc).trans (if_pos (setjSize_eq_codesize c ▸ hs))

theorem setjEnd_long {c : UInt8} (hc : c ≠ hinsiBlkTerm) (hs : codesize c ≠ 1) (c' : UInt8)
    (p : Bytes) : setjEnd (c :: c' :: p) = setjEnd p := by
  rw [setjEnd_cons]
  exact (if_neg hc).trans (if_neg (setjSize_eq_codesize c ▸ hs))

/-- `setjrec` asks in front of a step what `srchgram` asks behind it. -/
theorem setjEnd_eq_gramEnd (p : Bytes) :
    setjEnd p = if p.headD dicSegTerm = hinsiBlkTerm then p else gramEnd p := by
  induction p using List.twoStepInduction with
  | nil => exact (if_pos rfl).symm
  | singleton c =>
      by_cases hc : c = hinsiBlkTerm
      · rw [setjEnd_cons]
        exact (if_pos hc).trans (if_pos hc).symm
      · refine Eq.trans ?_ (if_neg hc).symm
        by_cases hs : codesize c = 1
        · rw [setjEnd_short hc hs, gramEnd_short hs]
          rfl
        · rw [setjEnd_cons, gramEnd.eq_def]
          simp only [if_neg hc, if_neg hs, setjSize_eq_codesize]
  | cons_cons c c' p ih ih' =>
      by_cases hc : c = hinsiBlkTerm
      · rw [setjEnd_cons]
        exact (if_pos hc).trans (if_pos hc).symm
      · refine Eq.trans ?_ (if_neg hc).symm
        by_cases hs : codesize c = 1
        · rw [setjEnd_short hc hs, gramEnd_short hs]
          exact ih' c'
        · rw [setjEnd_long hc hs, gramEnd_long hs]
          exact ih

/-- The bytes that steps of `codesize` through `p` come to. -/
def codeHeads : Bytes → Bytes
  | [] => []
  | c :: p =>
      if codesize c = 1 then c :: codeHeads p
      else
        match p with
        | [] => [c]
        | _ :: p => c :: codeHeads p

theorem codeHeads_cons (c : UInt8) (p : Bytes) :
    codeHeads (c :: p) =
      if codesize c = 1 then c :: codeHeads p
      else
        match p with
        | [] => [c]
        | _ :: p => c :: codeHeads p :=
  codeHeads.eq_def (c :: p)

theorem codeHeads_short {c : UInt8} (hs : codesize c = 1) (p : Bytes) :
    codeHeads (c :: p) = c :: codeHeads p := by
  rw [codeHeads_cons]
  exact if_pos hs

theorem codeHeads_long {c : UInt8} (hs : codesize c ≠ 1) (c' : UInt8) (p : Bytes) :
    codeHeads (c :: c' :: p) = c :: codeHeads p := by
  rw [codeHeads_cons]
  exact if_neg hs

theorem codeHeads_subset (p : Bytes) : codeHeads p ⊆ p := by
  induction p using List.twoStepInduction with
  | nil => exact List.Subset.refl _
  | singleton c =>
      by_cases hs : codesize c = 1
      · rw [codeHeads_short hs]
        exact List.Subset.refl _
      · rw [codeHeads_cons]
        simp only [if_neg hs]
        exact List.Subset.refl _
  | cons_cons c c' p ih ih' =>
      by_cases hs : codesize c = 1
      · rw [codeHeads_short hs]
        exact List.cons_subset_cons c (ih' c')
      · rw [codeHeads_long hs]
        exact List.cons_subset_cons c (List.Subset.trans ih (List.subset_cons_self c' p))

theorem mem_codeHeads_head (c : UInt8) (p : Bytes) : c ∈ codeHeads (c :: p) := by
  rw [codeHeads_cons]
  by_cases hs : codesize c = 1
  · simp only [if_pos hs, List.mem_cons_self]
  · cases p with
    | nil => simp only [if_neg hs, List.mem_cons_self]
    | cons c' p => simp only [if_neg hs, List.mem_cons_self]

/-- A walk to the terminator gets there exactly when it comes to no other. In front of the
terminator is the end of a string, which no walk steps over together with what is behind. -/
theorem setjEnd_tail_iff (w rest : Bytes) :
    (setjEnd (w ++ kanjiStrEnd :: hinsiBlkTerm :: rest)).tail = rest ↔
      hinsiBlkTerm ∉ codeHeads (w ++ [kanjiStrEnd]) := by
  have hterm : (setjEnd (hinsiBlkTerm :: rest)).tail = rest := by
    rw [setjEnd_cons]
    exact congrArg List.tail (if_pos rfl)
  have hend : (setjEnd (kanjiStrEnd :: hinsiBlkTerm :: rest)).tail = rest := by
    rw [setjEnd_short (by decide) (by decide)]
    exact hterm
  -- a terminator on the way is where the walk stops, too early
  have hstop : ∀ c : UInt8, ∀ w' : Bytes, c = hinsiBlkTerm →
      ((setjEnd (c :: (w' ++ kanjiStrEnd :: hinsiBlkTerm :: rest))).tail = rest ↔
        hinsiBlkTerm ∉ codeHeads (c :: (w' ++ [kanjiStrEnd]))) := by
    intro c w' hc
    subst hc
    have hlong : (setjEnd (hinsiBlkTerm :: (w' ++ kanjiStrEnd :: hinsiBlkTerm :: rest))).tail ≠
        rest := by
      rw [setjEnd_cons]
      intro h
      have hlen := congrArg List.length h
      simp only [if_true, List.tail_cons, List.length_append, List.length_cons] at hlen
      omega
    exact iff_of_false hlong (fun h => h (mem_codeHeads_head _ _))
  induction w using List.twoStepInduction with
  | nil => exact iff_of_true hend (by decide)
  | singleton c =>
      by_cases hc : c = hinsiBlkTerm
      · exact hstop c [] hc
      rw [List.singleton_append, List.singleton_append]
      by_cases hs : codesize c = 1
      · rw [setjEnd_short hc hs, codeHeads_short hs]
        exact iff_of_true hend (List.not_mem_cons_of_ne_of_not_mem (Ne.symm hc) (by decide))
      · rw [setjEnd_long hc hs, codeHeads_long hs]
        exact iff_of_true hterm (by simpa [codeHeads] using Ne.symm hc)
  | cons_cons c c' w ih ih' =>
      by_cases hc : c = hinsiBlkTerm
      · exact hstop c (c' :: w) hc
      rw [List.cons_append, List.cons_append, List.cons_append, List.cons_append]
      by_cases hs : codesize c = 1
      · rw [setjEnd_short hc hs, codeHeads_short hs, List.mem_cons, not_or]
        exact (ih' c').trans (and_iff_right (Ne.symm hc)).symm
      · rw [setjEnd_long hc hs, codeHeads_long hs, List.mem_cons, not_or]
        exact ih.trans (and_iff_right (Ne.symm hc)).symm

/-- Steps of `codesize` through the kanji strings come to no `0xff`, neither from the code of the
grammar block nor from behind it. -/
structure HinsiBlk.MeetsNoTerm (h : HinsiBlk) : Prop where
  gram : hinsiBlkTerm ∉ codeHeads (h.hinsi :: knjBytes h.kanji)
  knjs : hinsiBlkTerm ∉ codeHeads (knjBytes h.kanji)

theorem HinsiBlk.IsClean.meetsNoTerm {h : HinsiBlk} (hc : h.IsClean) : h.MeetsNoTerm := by
  have hknjs : hinsiBlkTerm ∉ knjBytes h.kanji := by
    intro hm
    obtain ⟨k, hk, hm⟩ := List.mem_flatMap.mp hm
    rcases List.mem_append.mp hm with hm | hm
    · exact hc k hk hm
    · exact absurd (List.mem_singleton.mp hm) (by decide)
  refine ⟨fun hm => ?_, fun hm => hknjs (codeHeads_subset _ hm)⟩
  rcases List.mem_cons.mp (codeHeads_subset _ hm) with he | hm
  · exact h.hinsi_ne he.symm
  · exact hknjs hm

theorem HinsiBlk.exists_knjBytes_concat (h : HinsiBlk) :
    ∃ w, knjBytes h.kanji = w ++ [kanjiStrEnd] := by
  obtain ⟨ks, k, hk⟩ := List.eq_nil_or_concat'.{0} h.kanji |>.resolve_left h.kanji_ne
  refine ⟨knjBytes ks ++ k, ?_⟩
  rw [hk, knjBytes_append, knjBytes_singleton, List.append_assoc]

theorem setjNext_bytes_iff (h : HinsiBlk) (rest : Bytes) :
    setjNext (h.bytes ++ rest) = rest ↔ hinsiBlkTerm ∉ codeHeads (knjBytes h.kanji) := by
  obtain ⟨w, hw⟩ := h.exists_knjBytes_concat
  rw [setjNext, h.bytes_append, List.tail_cons, hw, List.append_assoc, List.singleton_append]
  exact setjEnd_tail_iff w rest

theorem gramNext_bytes_iff (h : HinsiBlk) (rest : Bytes) :
    gramNext (h.bytes ++ rest) = rest ↔
      hinsiBlkTerm ∉ codeHeads (h.hinsi :: knjBytes h.kanji) := by
  obtain ⟨w, hw⟩ := h.exists_knjBytes_concat
  have hsetj := setjEnd_eq_gramEnd (h.hinsi :: (knjBytes h.kanji ++ hinsiBlkTerm :: rest))
  rw [if_neg (show ¬(h.hinsi :: _).headD dicSegTerm = hinsiBlkTerm from h.hinsi_ne)] at hsetj
  rw [gramNext, h.bytes_append, ← hsetj, hw, List.append_assoc, List.singleton_append]
  exact setjEnd_tail_iff (h.hinsi :: w) rest

/-! ## The blocks of a homophone block -/

/-- Where grammar blocks in a row start. -/
def blkStarts (rest : Bytes) : List HinsiBlk → List Bytes
  | [] => []
  | h :: hs => (hinsiBytes (h :: hs) ++ rest) :: blkStarts rest hs

theorem length_blkStarts (rest : Bytes) (hs : List HinsiBlk) :
    (blkStarts rest hs).length = hs.length := by
  induction hs with
  | nil => rfl
  | cons h hs ih => rw [blkStarts, List.length_cons, List.length_cons, ih]

/-- A walk that gets from every block to the next visits all of them. -/
theorem visits_hinsiBytes {next : Bytes → Bytes} {hs : List HinsiBlk} {rest : Bytes}
    (hnext : ∀ h ∈ hs, ∀ r, next (h.bytes ++ r) = r) {n : ℕ} (hn : hs.length < n) :
    visits next rest n (hinsiBytes hs ++ rest) = (blkStarts rest hs, rest) := by
  induction hs generalizing n with
  | nil =>
      obtain ⟨n, rfl⟩ := Nat.exists_eq_succ_of_ne_zero (Nat.ne_of_gt hn)
      exact if_neg (Nat.lt_irrefl _)
  | cons h hs ih =>
      obtain ⟨n, rfl⟩ := Nat.exists_eq_succ_of_ne_zero (Nat.ne_of_gt (Nat.zero_lt_of_lt hn))
      have hmore : (hinsiBytes (h :: hs) ++ rest).length > rest.length := by
        have := h.length_pos
        rw [hinsiBytes_cons, List.length_append, List.length_append]
        omega
      have hstep : next (hinsiBytes (h :: hs) ++ rest) = hinsiBytes hs ++ rest := by
        rw [hinsiBytes_cons, List.append_assoc]
        exact hnext h List.mem_cons_self _
      rw [visits, if_pos hmore, hstep,
        ih (fun h' hh' => hnext h' (List.mem_cons_of_mem _ hh')) (Nat.lt_of_succ_lt_succ hn),
        blkStarts]

/-- The visits tell where the walk was. -/
theorem visits_start {next : Bytes → Bytes} {hs : List HinsiBlk} {rest p : Bytes} {n : ℕ}
    (h : visits next rest n p = (blkStarts rest hs, rest)) : p = hinsiBytes hs ++ rest := by
  cases n with
  | zero =>
      cases hs with
      | nil => exact congrArg Prod.snd h
      | cons h' hs => cases congrArg Prod.fst h
  | succ n =>
      rw [visits] at h
      by_cases hmore : p.length > rest.length
      · rw [if_pos hmore] at h
        cases hs with
        | nil => cases congrArg Prod.fst h
        | cons h' hs => exact (List.cons.inj (congrArg Prod.fst h)).1
      · rw [if_neg hmore] at h
        cases hs with
        | nil => exact congrArg Prod.snd h
        | cons h' hs => cases congrArg Prod.fst h

theorem visits_hinsiBytes_iff {next : Bytes → Bytes} {P : HinsiBlk → Prop}
    (hnext : ∀ h : HinsiBlk, ∀ r, next (h.bytes ++ r) = r ↔ P h) {hs : List HinsiBlk}
    {rest : Bytes} {n : ℕ} (hn : hs.length < n) :
    visits next rest n (hinsiBytes hs ++ rest) = (blkStarts rest hs, rest) ↔ ∀ h ∈ hs, P h := by
  refine ⟨fun hv => ?_, fun hP =>
    visits_hinsiBytes (fun h hh r => (hnext h r).mpr (hP h hh)) hn⟩
  induction hs generalizing n with
  | nil => exact fun h hh => absurd hh List.not_mem_nil
  | cons h hs ih =>
      obtain ⟨n, rfl⟩ := Nat.exists_eq_succ_of_ne_zero (Nat.ne_of_gt (Nat.zero_lt_of_lt hn))
      have hmore : (hinsiBytes (h :: hs) ++ rest).length > rest.length := by
        have := h.length_pos
        rw [hinsiBytes_cons, List.length_append, List.length_append]
        omega
      rw [visits, if_pos hmore, blkStarts] at hv
      have hend : (visits next rest n (next (hinsiBytes (h :: hs) ++ rest))).2 = rest := by
        simpa only using congrArg Prod.snd hv
      have hv' : visits next rest n (next (hinsiBytes (h :: hs) ++ rest)) =
          (blkStarts rest hs, rest) :=
        Prod.ext (List.cons.inj (congrArg Prod.fst hv)).2 hend
      have hstep := visits_start hv'
      rw [hstep] at hv'
      rw [hinsiBytes_cons, List.append_assoc] at hstep
      intro h' hh'
      rcases List.mem_cons.mp hh' with rfl | hh'
      · exact (hnext _ _).mp hstep
      · exact ih (Nat.lt_of_succ_lt_succ hn) hv' h' hh'

/-- The last of the visited blocks with a code. -/
def lastWith (hinsi : UInt8) (ptrs : List Bytes) (found : Option Bytes) : Option Bytes :=
  ptrs.foldl (fun found ptr => if ptr.headD dicSegTerm = hinsi then some ptr else found) found

/-- `srchgram` counts its visits. -/
theorem srchgramLoop_visits (hinsi : UInt8) (endp : Bytes) {n : ℕ} {ptr : Bytes}
    (hn : (visits gramNext endp n ptr).1.length < n) (found : Option Bytes) (cnt : ℕ) :
    srchgramLoop hinsi endp n ptr found cnt =
      match lastWith hinsi (visits gramNext endp n ptr).1 found with
      | some dst => (cnt + (visits gramNext endp n ptr).1.length, dst)
      | none => (0, (visits gramNext endp n ptr).2) := by
  induction n generalizing ptr found cnt with
  | zero => exact absurd hn (Nat.not_lt_zero _)
  | succ n ih =>
      rw [visits] at hn
      rw [srchgramLoop.eq_def, visits]
      simp only
      by_cases hmore : ptr.length > endp.length
      · simp only [if_pos hmore, List.length_cons] at hn ⊢
        rw [← gramNext, ih (Nat.lt_of_succ_lt_succ hn), lastWith, lastWith, List.foldl_cons]
        split
        · rw [Nat.add_assoc, Nat.add_comm 1]
        · rfl
      · simp only [if_neg hmore]
        cases found <;> rfl

theorem lastWith_blkStarts_none {hinsi : UInt8} {hs : List HinsiBlk} {rest : Bytes}
    (hne : ∀ h ∈ hs, h.hinsi ≠ hinsi) (found : Option Bytes) :
    lastWith hinsi (blkStarts rest hs) found = found := by
  induction hs generalizing found with
  | nil => rfl
  | cons h hs ih =>
      have hhead : (hinsiBytes (h :: hs) ++ rest).headD dicSegTerm ≠ hinsi :=
        hne h List.mem_cons_self
      rw [blkStarts, lastWith, List.foldl_cons, if_neg hhead]
      exact ih (fun h' hh' => hne h' (List.mem_cons_of_mem _ hh')) found

theorem lastWith_blkStarts {hinsi : UInt8} {l r : List HinsiBlk} {h : HinsiBlk} {rest : Bytes}
    (hh : h.hinsi = hinsi) (hr : ∀ h' ∈ r, h'.hinsi ≠ hinsi) (found : Option Bytes) :
    lastWith hinsi (blkStarts rest (l ++ h :: r)) found =
      some (hinsiBytes (h :: r) ++ rest) := by
  induction l generalizing found with
  | nil =>
      have hhead : (hinsiBytes (h :: r) ++ rest).headD dicSegTerm = hinsi := hh
      rw [List.nil_append, blkStarts, lastWith, List.foldl_cons, if_pos hhead]
      exact lastWith_blkStarts_none hr _
  | cons h' l ih =>
      rw [List.cons_append, blkStarts, lastWith, List.foldl_cons]
      exact ih _

/-- There is a last block with a code, or none. -/
theorem exists_last_hinsi (hinsi : UInt8) (hs : List HinsiBlk) :
    (∀ h ∈ hs, h.hinsi ≠ hinsi) ∨
      ∃ l h r, hs = l ++ h :: r ∧ h.hinsi = hinsi ∧ ∀ h' ∈ r, h'.hinsi ≠ hinsi := by
  induction hs with
  | nil => exact .inl (by simp)
  | cons h hs ih =>
      rcases ih with hnone | ⟨l, h', r, rfl, hh, hr⟩
      · by_cases hh : h.hinsi = hinsi
        · exact .inr ⟨[], h, hs, rfl, hh, hnone⟩
        · refine .inl ?_
          intro h' hh'
          rcases List.mem_cons.mp hh' with rfl | hh'
          · exact hh
          · exact hnone h' hh'
      · exact .inr ⟨h :: l, h', r, rfl, hh, hr⟩

/-- What `srchgram` returns for a homophone block in front of `rest`: the number of its grammar
blocks and the last one with the code, or zero and the end. -/
def SrchgramFinds (hs : List HinsiBlk) (hinsi : UInt8) (rest : Bytes) (r : ℕ × Bytes) : Prop :=
  ((∀ h ∈ hs, h.hinsi ≠ hinsi) ∧ r = (0, rest)) ∨
    ∃ pre h post, hs = pre ++ h :: post ∧ h.hinsi = hinsi ∧ (∀ h' ∈ post, h'.hinsi ≠ hinsi) ∧
      r = (hs.length, hinsiBytes (h :: post) ++ rest)

/-- A homophone block: of its reading, `plen` codes are those of the block in front and `stored`
is here. -/
structure Hblk where
  plen : ℕ
  stored : Bytes
  hinsi : List HinsiBlk
  plen_le : plen ≤ maxWdYomiLen
  stored_le : stored.length ≤ maxWdYomiLen
  size_le : douonBlkSizeNumber + stored.length + (hinsiBytes hinsi).length ≤ maxDouonBlk

namespace Hblk

def size (b : Hblk) : ℕ := douonBlkSizeNumber + b.stored.length + (hinsiBytes b.hinsi).length

def bytes (b : Hblk) : Bytes :=
  setSize b.size b.plen b.stored.length ++ (b.stored ++ hinsiBytes b.hinsi)

theorem length_bytes (b : Hblk) : b.bytes.length = b.size := by
  rw [bytes, size, List.length_append, List.length_append, length_setSize, Nat.add_assoc]

theorem setSize_bytes (b : Hblk) (rest : Bytes) :
    getsize (b.bytes ++ rest) = b.size ∧ getnlen (b.bytes ++ rest) = b.stored.length ∧
      segend (b.bytes ++ rest) = false := by
  have h := setSize_spec b.size_le b.plen_le b.stored_le (b.stored ++ hinsiBytes b.hinsi ++ rest)
  rw [← List.append_assoc] at h
  exact ⟨h.1, h.2.2.1, h.2.2.2⟩

theorem getntag_bytes (b : Hblk) (rest : Bytes) : getntag (b.bytes ++ rest) = rest := by
  obtain ⟨hsize, -, hend⟩ := b.setSize_bytes rest
  simp only [segend, decide_eq_false_iff_not] at hend
  rw [getntag, if_neg hend, hsize, ← length_bytes, List.drop_left]

theorem drop_bytes (b : Hblk) (rest : Bytes) :
    (b.bytes ++ rest).drop (douonBlkSizeNumber + getnlen (b.bytes ++ rest)) =
      hinsiBytes b.hinsi ++ rest := by
  have hhead : (setSize b.size b.plen b.stored.length ++ b.stored).length =
      douonBlkSizeNumber + b.stored.length := by
    rw [List.length_append, length_setSize]
  rw [(b.setSize_bytes rest).2.1, bytes, ← List.append_assoc, List.append_assoc, ← hhead,
    List.drop_left]

theorem length_hinsi_lt (b : Hblk) (rest : Bytes) :
    b.hinsi.length < (b.bytes ++ rest).length + 1 := by
  have := length_le_hinsiBytes b.hinsi
  rw [List.length_append, length_bytes, size]
  omega

theorem hblkVisits_bytes_iff {next : Bytes → Bytes} {P : HinsiBlk → Prop}
    (hnext : ∀ h : HinsiBlk, ∀ r, next (h.bytes ++ r) = r ↔ P h) (b : Hblk) (rest : Bytes) :
    hblkVisits next (b.bytes ++ rest) = (blkStarts rest b.hinsi, rest) ↔ ∀ h ∈ b.hinsi, P h := by
  rw [hblkVisits, b.getntag_bytes, b.drop_bytes]
  exact visits_hinsiBytes_iff hnext (b.length_hinsi_lt rest)

/-- What `srchgram` returns is told by its visits. -/
theorem srchgram_finds {b : Hblk} {rest : Bytes}
    (hgram : hblkVisits gramNext (b.bytes ++ rest) = (blkStarts rest b.hinsi, rest))
    (hinsi : UInt8) : SrchgramFinds b.hinsi hinsi rest (srchgram (b.bytes ++ rest) hinsi) := by
  rw [hblkVisits] at hgram
  have hn : (visits gramNext (getntag (b.bytes ++ rest)) ((b.bytes ++ rest).length + 1)
      ((b.bytes ++ rest).drop (douonBlkSizeNumber + getnlen (b.bytes ++ rest)))).1.length <
      (b.bytes ++ rest).length + 1 := by
    rw [hgram, length_blkStarts]
    exact b.length_hinsi_lt rest
  rw [srchgram, srchgramLoop_visits hinsi _ hn, hgram]
  rcases exists_last_hinsi hinsi b.hinsi with hnone | ⟨pre, h, post, hsplit, hh, hpost⟩
  · refine .inl ⟨hnone, ?_⟩
    simp only [lastWith_blkStarts_none hnone]
  · refine .inr ⟨pre, h, post, hsplit, hh, hpost, ?_⟩
    simp only [length_blkStarts, Nat.zero_add]
    rw [hsplit, lastWith_blkStarts hh hpost]

/-- The three walks visit the grammar blocks of a homophone block, and `srchgram` finds the one
with a code. -/
def WalkAligned (b : Hblk) (hinsi : UInt8) (rest : Bytes) : Prop :=
  (hblkVisits gramNext (b.bytes ++ rest) = (blkStarts rest b.hinsi, rest) ∧
    hblkVisits skiphblk (b.bytes ++ rest) = (blkStarts rest b.hinsi, rest) ∧
    hblkVisits setjNext (b.bytes ++ rest) = (blkStarts rest b.hinsi, rest)) ∧
    SrchgramFinds b.hinsi hinsi rest (srchgram (b.bytes ++ rest) hinsi)

/-- Out of step or not, `srchgram` visits the grammar blocks that the other walks do, as long as
they come to no `0xff` on the way. -/
theorem walkAligned_iff (b : Hblk) (hinsi : UInt8) (rest : Bytes) :
    b.WalkAligned hinsi rest ↔ ∀ h ∈ b.hinsi, h.MeetsNoTerm := by
  have hgram := hblkVisits_bytes_iff gramNext_bytes_iff b rest
  have hsetj := hblkVisits_bytes_iff setjNext_bytes_iff b rest
  have hskip := hblkVisits_bytes_iff (P := fun _ => True)
    (fun h r => iff_true_intro (skiphblk_bytes h r)) b rest
  constructor
  · intro hw h hh
    exact ⟨hgram.mp hw.1.1 h hh, hsetj.mp hw.1.2.2 h hh⟩
  · intro hmeets
    have hvisits := hgram.mpr fun h hh => (hmeets h hh).gram
    exact ⟨⟨hvisits, hskip.mpr fun _ _ => trivial, hsetj.mpr fun h hh => (hmeets h hh).knjs⟩,
      srchgram_finds hvisits hinsi⟩

/-- What `cvtknj` makes of a half-width character with the second byte `0xff` and a kanji. -/
def hankakuKnj : Bytes := cvtknj (fun _ => 0) (fun _ => 0) [0xa4, 0xa2] [0x8e, 0xff, 0xb1, 0xa1]

theorem hankakuKnj_eq : hankakuKnj = [0xd0, 0xff, 0x31, 0x21] := by decide

/-- The block of a user dictionary with such a word. -/
def hankaku : Hblk where
  plen := 0
  stored := [0x4f]
  hinsi :=
    [{ hinsi := 0x11
       kanji := [hankakuKnj]
       hinsi_ne := by decide
       kanji_ne := by simp
       isKnjStr := by
        intro k hk
        rw [List.mem_singleton.mp hk, hankakuKnj_eq]
        exact ⟨.long (by decide) (by decide) (.long (by decide) (by decide) .nil), by simp,
          by decide⟩ }]
  plen_le := by decide
  stored_le := by decide
  size_le := by simp [HinsiBlk.bytes, douonBlkSizeNumber, maxDouonBlk, hankakuKnj_eq]

/-- The byte of the half-width character is the terminator to a walk that is out of step. -/
theorem not_walkAligned : ¬∀ (b : Hblk) (hinsi : UInt8) (rest : Bytes),
    b.WalkAligned hinsi rest := by
  intro h
  have hall := (h hankaku 0x11 [dicSegTerm]).2
  have hcount : (srchgram (hankaku.bytes ++ [dicSegTerm]) 0x11).1 = 2 := by decide +kernel
  rcases hall with ⟨-, hr⟩ | ⟨_, _, _, -, -, -, hr⟩
  · rw [hr] at hcount
    exact absurd hcount (by decide)
  · rw [hr] at hcount
    have hone : (1 : ℕ) = 2 := hcount
    exact absurd hone (by decide)

end Hblk

end Sj3
