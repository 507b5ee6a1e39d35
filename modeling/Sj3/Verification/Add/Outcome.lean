import Sj3.Verification.Add.Loop

/-! # How registration ends

From a well-formed dictionary the loop of `adddic` stores the word, refuses it and leaves the
dictionary alone, or gives up after it has split a segment in front of the word's own block. -/

namespace Sj3

open FrontCoding

variable {env : Env} {d : Dict} {segs pre post : List Seg} {free : ℕ} {w : Word} {kptr : Bytes}
  {s : Seg} {l r : List DouonBlk} {old : Option DouonBlk} {st : Option Stdy} {n : ℕ}

/-- Something is stored, and the dictionary is well-formed if that is the word and the way there
was regular. -/
def Stores (env : Env) (d : Dict) (free : ℕ) (w : Word) (kptr : Bytes) (pre : List Seg) (s : Seg)
    (post : List Seg) (l : List DouonBlk) (old : Option DouonBlk) (r : List DouonBlk)
    (res : Result) : Prop :=
  ∃ d' st' way, res = ⟨some adDone, d', st'⟩ ∧
    Course env w (d.cap free) s.idx post l old r way ∧
    (way.Regular w old → kptr = w.kanji →
      Holds d' ((blocks pre ++ l) ++ w.into old :: (r ++ blocks post)))

/-- The result of the loop from segment `seg` on. -/
def addRun (env : Env) (w : Word) (kptr : Bytes) (n : ℕ) (d : Dict) (st : Option Stdy)
    (seg : ℕ) : Result :=
  (addLoop env w.yomi kptr w.hinsi n d st seg).finish w kptr

/-- The request is refused for want of a segment, and nothing is changed. -/
def Refuses (env : Env) (d : Dict) (free : ℕ) (st : Option Stdy) (res : Result) : Prop :=
  ∃ ret, OverflowCode ret ∧ (d.cap free).Tight env ∧ res = ⟨some ret, d, st⟩

theorem length_headYomi_le (l : List DouonBlk) : (headYomi l).length ≤ maxWdYomiLen := by
  cases l with
  | nil => exact Nat.zero_le _
  | cons u l => exact u.isYomi.length_le

namespace AddState

/-! ## The ends of the loop -/

theorem store_here (h : AddState d segs free w pre s post l old r)
    (hk : Lacks w kptr old r) (hlen : minSegLen ≤ d.seglen)
    (hf : Fits (d.cap free) w l old r) :
    Stores env d free w kptr pre s post l old r (addRun env w kptr (n + 1) d st pre.length) := by
  obtain ⟨pos, hp, he⟩ := (h.turn hk).loop_here env hf st n
  have htarget := h.target hf
  refine ⟨_, _, _, by rw [addRun, he]; rfl, .here hf, ?_⟩
  rintro hreg rfl
  exact htarget.holds hp h.sorted h.fit h.isUsr hlen [] hreg st

theorem store_behind {u : DouonBlk} {r' : List DouonBlk}
    (h : AddState d segs free w pre s post l old (u :: r')) (hk : Lacks w kptr old (u :: r'))
    (hlen : minSegLen ≤ d.seglen) (hf : ¬ Fits (d.cap free) w l old (u :: r'))
    (hcl : Clears (d.cap free) w l old) (hg : (d.cap free).Grants env u.yomi) :
    Stores env d free w kptr pre s post l old (u :: r')
      (addRun env w kptr (n + 1) d st pre.length) := by
  obtain ⟨pos, hp, he⟩ := (h.turn hk).loop_behind env hf hcl hg st n
  obtain ⟨segs', left, right, htarget, hidx, hb, hfit⟩ := h.behind rfl hcl hg.2.1 st
  obtain ⟨hfront, hback⟩ := h.spot.front_eq htarget.spot hb
  refine ⟨_, _, _, by rw [addRun, he]; rfl, .behind hf hcl hg, ?_⟩
  rintro hreg rfl
  have hgain : gain w (lastYomi [] l) old [] = 0 := by cases old <;> rfl
  have hholds := htarget.holds hp (hb ▸ h.sorted) (hfit (hreg.moved u (by simp))) (hb ▸ h.isUsr)
    hlen [u] (by rw [hidx]; exact hreg)
    (Sj3.sprtSeg d st pre.length (blkOfs (l ++ old.toList))).2
  rw [hgain, hback] at hholds
  exact hholds

theorem refuse (h : AddState d segs free w pre s post l old r) (hk : Lacks w kptr old r)
    (hf : ¬ Fits (d.cap free) w l old r) (hpost : ¬ (old.toList ++ r = [] ∧ post ≠ []))
    (hcl : Clears (d.cap free) w l old → ¬ (d.cap free).Grants env (headYomi r))
    (happ : ¬ Clears (d.cap free) w l old → old.toList ++ r = [] →
      ¬ (d.cap free).Grants env w.yomi)
    (hfr : ¬ Clears (d.cap free) w l old → old.toList ++ r ≠ [] →
      ¬ (d.cap free).Grants env (headYomi (old.toList ++ r)))
    (st : Option Stdy) (n : ℕ) :
    Refuses env d free st (addRun env w kptr (n + 1) d st pre.length) := by
  obtain ⟨ret, hret, he⟩ := (h.turn hk).loop_refuse env hf hpost hcl happ hfr st n
  refine ⟨ret, hret, ?_, by rw [addRun, he]; rfl⟩
  by_cases hclear : Clears (d.cap free) w l old
  · exact ⟨_, length_headYomi_le _, hcl hclear⟩
  by_cases hnil : old.toList ++ r = []
  · exact ⟨_, w.isYomi.length_le, happ hclear hnil⟩
  · exact ⟨_, length_headYomi_le _, hfr hclear hnil⟩

/-! ## The branches on which it goes on -/

theorem stores_next {s' : Seg} {res : Result}
    (h : AddState d segs free w pre s (s' :: post) l none []) (hf : ¬ Fits (d.cap free) w l none [])
    (hres : Stores env d free w kptr (pre ++ [s]) s' post [] none s'.blks res) :
    Stores env d free w kptr pre s (s' :: post) l none [] res := by
  obtain ⟨d', st', way, rfl, hc, hkeep⟩ := hres
  refine ⟨d', st', way, rfl, .next hf hc, fun hreg hkptr => ?_⟩
  have hholds := hkeep hreg hkptr
  have hs : s.blks = l := by simpa using h.spot.blks_eq
  simpa [hs] using hholds

theorem stores_append (h : AddState d segs free w pre s [] l none [])
    (hk : Lacks w kptr none []) (hl : l ≠ []) (hlen : minSegLen ≤ d.seglen)
    (hf : ¬ Fits (d.cap free) w l none [])
    (hg : (d.cap free).Grants env w.yomi)
    (hf' : Fits ((appendSeg d).cap (free - 1)) w [] none []) :
    Stores env d free w kptr pre s [] l none [] (addRun env w kptr (n + 2) d st pre.length) := by
  have hfree := hg.2.1
  have hs : s.blks = l := by simpa using h.spot.blks_eq
  have hfree : w.yomi.length + 1 ≤ free := hfree
  have hnew := h.append hl (by omega)
  obtain ⟨pos, hp, he⟩ := (hnew.turn hk).loop_here env hf' st n
  have htarget := hnew.target hf'
  have hloop := (h.turn hk).loop_append env hf hg st (n + 1)
  rw [show pre.length + 1 = (pre ++ [s]).length by simp, he] at hloop
  refine ⟨_, _, _, by rw [addRun, hloop]; rfl, .append hf hg, ?_⟩
  rintro hreg rfl
  have hholds := htarget.holds hp hnew.sorted hnew.fit hnew.isUsr hlen [] hreg st
  simpa [hs] using hholds

theorem stores_front {segs' : List Seg} {left right : Seg} {d₁ : Dict} {free₁ : ℕ} {u : DouonBlk}
    {r' : List DouonBlk} {res : Result} (h : AddState d segs free w pre s post l old r)
    (hl : l ≠ []) (hf : ¬ Fits (d.cap free) w l old r) (hcl : ¬ Clears (d.cap free) w l old)
    (hr : old.toList ++ r = u :: r') (hg : (d.cap free).Grants env u.yomi)
    (h₁ : AddState d₁ segs' free₁ w (pre ++ [left]) right post [] old r)
    (hcap : d₁.cap free₁ = (d.cap free).split u.yomi) (hidx : right.idx = u.yomi)
    (hb : blocks segs' = blocks segs)
    (hres : Stores env d₁ free₁ w kptr (pre ++ [left]) right post [] old r res) :
    Stores env d free w kptr pre s post l old r res := by
  obtain ⟨d', st', way, rfl, hc, hkeep⟩ := hres
  rw [hcap, hidx] at hc
  refine ⟨d', st', _, rfl, .front hl hf hcl hr hg hc, fun hreg hkptr => ?_⟩
  obtain ⟨hfront, -⟩ := h.spot.front_eq h₁.spot hb
  rw [← hfront]
  exact hkeep ⟨fun v hv => hreg.moved v (by simp [hv]), hreg.size, hreg.chg⟩ hkptr

end AddState


/-! ## A new reading -/

/-- A new block fits into any segment of which it is the only one. -/
theorem clears_new {c : Cap} (w : Word) (hlen : minSegLen ≤ c.seglen) : Clears c w [] none := by
  have h := w.size_into_none_le []
  have hlen : 512 ≤ c.seglen := hlen
  simp only [Clears, List.nil_append, blkOfs_cons, douonBytes, List.length_nil]
  omega

/-- Where a new block does not even fit at the end, the blocks from there on leave it plenty
of room in a segment of their own. -/
theorem fits_front {c : Cap} {u : DouonBlk} {r' : List DouonBlk} (hlen : minSegLen ≤ c.seglen)
    (hroom : blkOfs (l ++ u :: r') ≤ c.seglen) (hcl : ¬ Clears c w l none) :
    Fits c w [] none (u :: r') ∧ u.size [] ≤ maxDouonBlk := by
  have hlen : 512 ≤ c.seglen := hlen
  have h₁ := w.size_into_none_le (lastYomi [] l)
  have h₂ := w.size_into_none_le []
  have h₃ := size_nil (lastYomi [] l) u
  have h₄ := u.plen_le_max (lastYomi [] l)
  have h₅ := size_nil w.yomi u
  have hy : (w.into none).yomi = w.yomi := rfl
  simp only [Clears, blkOfs_concat, not_le] at hcl
  simp only [blkOfs_append, length_douonBytes_cons] at hroom
  simp only [maxWdYomiLen] at h₄
  refine ⟨?_, ?_⟩
  · simp only [Fits, List.nil_append, blkOfs_cons, hy, length_douonBytes_cons]
    omega
  · simp only [maxDouonBlk]
    omega

theorem AddState.outcome_fresh {s' : Seg} {u : DouonBlk} {r' : List DouonBlk}
    (h : AddState d segs free w pre s' post [] none (u :: r'))
    (hk : Lacks w kptr none (u :: r')) (hlen : minSegLen ≤ d.seglen)
    (env : Env) (st : Option Stdy) (n : ℕ) :
    Stores env d free w kptr pre s' post [] none (u :: r')
      (addRun env w kptr (n + 1) d st pre.length) ∨
      Refuses env d free st (addRun env w kptr (n + 1) d st pre.length) := by
  have hcl := clears_new w (c := d.cap free) hlen
  by_cases hf : Fits (d.cap free) w [] none (u :: r')
  · exact .inl (h.store_here hk hlen hf)
  by_cases hg : (d.cap free).Grants env u.yomi
  · exact .inl (h.store_behind hk hlen hf hcl hg)
  · exact .inr (h.refuse hk hf (by simp) (fun _ => hg) (fun hn => absurd hcl hn)
      (fun hn => absurd hcl hn) st n)

/-- A word with a new reading is stored or refused. -/
theorem AddState.outcome_new (h : AddState d segs free w pre s post l none r)
    (hk : Lacks w kptr none r) (hlen : minSegLen ≤ d.seglen) (env : Env)
    (st : Option Stdy) (n : ℕ) :
    Stores env d free w kptr pre s post l none r (addRun env w kptr (n + 2) d st pre.length) ∨
      Refuses env d free st (addRun env w kptr (n + 2) d st pre.length) := by
  by_cases hf : Fits (d.cap free) w l none r
  · exact .inl (h.store_here hk hlen hf)
  cases r with
  | nil =>
      have hl : l ≠ [] := by
        rintro rfl
        exact hf (clears_new w hlen)
      cases post with
      | nil =>
          by_cases hg : (d.cap free).Grants env w.yomi
          · exact .inl (h.stores_append hk hl hlen hf hg (clears_new w hlen))
          · exact .inr (h.refuse hk hf (by simp) (fun hcl => absurd hcl hf)
              (fun _ _ => hg) (fun _ hne => absurd rfl hne) st (n + 1))
      | cons s' post =>
          have hnext := h.next hl
          have hloop : addRun env w kptr (n + 2) d st pre.length =
              addRun env w kptr (n + 1) d st (pre ++ [s]).length := by
            rw [addRun, (h.turn hk).loop_next env hf (by simp) st (n + 1), addRun,
              List.length_append, List.length_singleton]
          rw [hloop]
          obtain ⟨u, r', hu⟩ := List.exists_cons_of_ne_nil (h.others s' (by simp)).2
          rw [hu] at hnext
          rcases hnext.outcome_fresh (hk.none _) hlen env st n with hst | href
          · exact .inl (h.stores_next hf (hu ▸ hst))
          · exact .inr href
  | cons u r' =>
      by_cases hcl : Clears (d.cap free) w l none
      · by_cases hg : (d.cap free).Grants env u.yomi
        · exact .inl (h.store_behind hk hlen hf hcl hg)
        · exact .inr (h.refuse hk hf (by simp) (fun _ => hg) (fun hn => absurd hcl hn)
            (fun hn => absurd hcl hn) st (n + 1))
      · have hl : l ≠ [] := by
          rintro rfl
          exact hcl (clears_new w hlen)
        by_cases hg : (d.cap free).Grants env u.yomi
        · have hroom : blkOfs (l ++ u :: r') ≤ d.seglen := by
            have := h.layout_eq.blkOfs_le
            rwa [h.spot.blks_eq] at this
          obtain ⟨hf', hu⟩ := fits_front (c := d.cap free) hlen hroom hcl
          obtain ⟨segs', left, right, h₁, hidx, hb⟩ := h.front rfl hl hg.2.1 hu st
          have hloop : addRun env w kptr (n + 2) d st pre.length =
              addRun env w kptr (n + 1) (Sj3.sprtSeg d st pre.length (blkOfs l)).1
                (Sj3.sprtSeg d st pre.length (blkOfs l)).2 (pre ++ [left]).length := by
            rw [addRun, (h.turn hk).loop_front env hf hcl rfl hg st (n + 1), addRun,
              List.length_append, List.length_singleton]
          rw [hloop]
          exact .inl (h.stores_front hl hf hcl rfl hg h₁ rfl hidx hb
            (h₁.store_here hk hlen hf'))
        · exact .inr (h.refuse hk hf (by simp) (fun hn => absurd hn hcl)
            (fun _ hn => absurd hn (by simp)) (fun _ _ => hg) st (n + 1))


/-! ## A reading that has a block -/

/-- The loop goes on in the second half of a segment, which starts with the word's block. -/
theorem Turn.front {t : DouonBlk} (h : Turn d segs free w kptr pre s post l (some t) r)
    (hfree : t.yomi.length + 1 ≤ free) (hs : t.size [] ≤ maxDouonBlk) (st : Option Stdy) :
    ∃ segs' left right, Turn (Sj3.sprtSeg d st pre.length (blkOfs l)).1 segs'
      (free - (t.yomi.length + 1)) w kptr (pre ++ [left]) right post [] (some t) r := by
  have hblks : s.blks = l ++ t :: r := h.spot.blks_eq
  have hc := h.coded
  rw [hblks] at hc
  obtain ⟨left, right, -, hlb, -, hrb, hlay⟩ :=
    (h.spot.segs_eq ▸ h.layout).sprtSeg hblks h.coded hfree st
  refine ⟨_, left, right, hlay, ⟨by simp, hrb, ?_, h.spot.after, h.spot.old_yomi⟩, ?_, h.isUsr,
    h.lacks⟩
  · simpa [hlb] using h.spot.before
  · rw [hrb]
    exact ⟨t.nil_lt, hs, (coded_append.mp hc).2.2.2⟩

theorem Turn.size_nil {t : DouonBlk} (h : Turn d segs free w kptr pre s post [] (some t) r) :
    t.size [] ≤ maxDouonBlk := by
  have hblks : s.blks = t :: r := h.spot.blks_eq
  have hc := h.coded
  rw [hblks] at hc
  exact hc.2.1

/-- Once the word's block is the first of its segment and fills it, splitting in front of it
changes nothing, and the loop ends with an error. -/
theorem Turn.loop_fails {t : DouonBlk} (h : Turn d segs free w kptr pre s post [] (some t) r)
    (hf : ¬ Fits (d.cap free) w [] (some t) r)
    (hcl : ¬ (Clears (d.cap free) w [] (some t) ∧ (d.cap free).Grants env (headYomi r)))
    (hn : 2 * (d.maxunit - d.segunit) + (d.segunit - pre.length) ≤ n) (st : Option Stdy) :
    ∃ ret d' st', OverflowCode ret ∧ d.segunit ≤ d'.segunit ∧
      addRun env w kptr n d st pre.length = ⟨some ret, d', st'⟩ := by
  have hseg : pre.length < d.segunit := by
    rw [h.layout.segunit, h.spot.segs_eq, List.length_append, List.length_cons]
    omega
  induction n generalizing d segs free pre s st with
  | zero => omega
  | succ n ih =>
      by_cases hgo : ¬ Clears (d.cap free) w [] (some t) ∧ (d.cap free).Grants env t.yomi
      · obtain ⟨hcl', hg⟩ := hgo
        obtain ⟨segs', left, right, h₁⟩ := h.front hg.2.1 h.size_nil st
        have hloop : addRun env w kptr (n + 1) d st pre.length =
            addRun env w kptr n (Sj3.sprtSeg d st pre.length (blkOfs [])).1
              (Sj3.sprtSeg d st pre.length (blkOfs [])).2 (pre ++ [left]).length := by
          rw [addRun, h.loop_front env hf hcl' rfl hg st n, addRun, List.length_append,
            List.length_singleton]
        have hunit := (sprtSeg_frame d st pre.length (blkOfs [])).2
        obtain ⟨ret, d', st', hret, hle, he⟩ := ih h₁ hf (fun hc => hcl' hc.1)
          (by simp only [hunit, List.length_append, List.length_singleton]
              have hlt : d.segunit < d.maxunit := hg.1
              omega)
          (Sj3.sprtSeg d st pre.length (blkOfs [])).2
          (by simp only [hunit, List.length_append, List.length_singleton]; omega)
        exact ⟨ret, d', st', hret, by omega, hloop.trans he⟩
      · obtain ⟨ret, hret, he⟩ := h.loop_refuse env hf (by simp)
          (fun hc hg => hcl ⟨hc, hg⟩) (fun _ hnil => absurd hnil (by simp))
          (fun hc _ hg => hgo ⟨hc, hg⟩) st n
        exact ⟨ret, d, st, hret, le_rfl, by rw [addRun, he]; rfl⟩

/-- The split in front of the word's block is made, and then the loop fails. -/
theorem Turn.front_fails {t : DouonBlk} (h : Turn d segs free w kptr pre s post l (some t) r)
    (hsp : SplitsHere env (d.cap free) w l (some t) r) (hs : t.size [] ≤ maxDouonBlk)
    (hf : ¬ Fits (d.cap free) w [] (some t) r)
    (hcl : ¬ (Clears (d.cap free) w [] (some t) ∧
      ((d.cap free).split w.yomi).Grants env (headYomi r)))
    (hn : 2 * (d.maxunit - d.segunit) + (d.segunit - pre.length) ≤ n + 1) (st : Option Stdy) :
    ∃ ret d' st', OverflowCode ret ∧ d.segunit < d'.segunit ∧
      addRun env w kptr (n + 1) d st pre.length = ⟨some ret, d', st'⟩ := by
  obtain ⟨hf₀, hcl₀, -, hg⟩ := hsp
  have hg : (d.cap free).Grants env t.yomi := hg
  rw [← h.spot.old_yomi t rfl] at hcl
  have hunit : d.segunit < d.maxunit := hg.1
  have hseg : pre.length < d.segunit := by
    rw [h.layout.segunit, h.spot.segs_eq, List.length_append, List.length_cons]
    omega
  obtain ⟨segs', left, right, h₁⟩ := h.front hg.2.1 hs st
  have hframe := (sprtSeg_frame d st pre.length (blkOfs l)).2
  obtain ⟨ret, d', st', hret, hle, he⟩ := h₁.loop_fails hf hcl
    (show _ ≤ n by simp only [hframe, List.length_append, List.length_singleton]; omega)
    (Sj3.sprtSeg d st pre.length (blkOfs l)).2
  refine ⟨ret, d', st', hret, by omega, ?_⟩
  rw [addRun, h.loop_front env hf₀ hcl₀ rfl hg st n]
  rw [addRun, List.length_append, List.length_singleton] at he
  exact he

/-- A state in which the word's reading has a block is a well-formed dictionary. -/
theorem AddState.usrDict {t : DouonBlk} (h : AddState d segs free w pre s post l (some t) r)
    (hlen : minSegLen ≤ d.seglen) : UsrDict d segs free := by
  have hs : s.idx = headYomi s.blks ∧ s.blks ≠ [] := by
    refine ⟨h.idx_eq (.inr (by simp)), ?_⟩
    rw [h.spot.blks_eq]
    simp
  have hall : ∀ u ∈ segs, u.idx = headYomi u.blks ∧ u.blks ≠ [] := by
    intro u hu
    rw [h.spot.segs_eq] at hu
    rcases List.mem_append.mp hu with hu | hu
    · exact h.others u (by simp [hu])
    · rcases List.mem_cons.mp hu with rfl | hu
      · exact hs
      · exact h.others u (by simp [hu])
  exact ⟨h.layout, ⟨List.ne_nil_of_mem h.mem, fun u hu => (hall u hu).1,
    .inr fun u hu => (hall u hu).2, h.sorted, h.fit, h.isUsr⟩, hlen⟩

/-- A word with a reading that has a block is stored or refused, or the loop strands. -/
theorem AddState.outcome_old {t : DouonBlk} (h : AddState d segs free w pre s post l (some t) r)
    (hk : Lacks w kptr (some t) r) (hlen : minSegLen ≤ d.seglen)
    (hov : ¬ Overflows env (d.cap free) w l (some t) r)
    (hn : 2 * (d.maxunit - d.segunit) + (d.segunit - pre.length) ≤ n) (hn₂ : 2 ≤ n) :
    Outcome env d free st w kptr s post l (some t) r (blocks pre ++ l) (r ++ blocks post)
      (addRun env w kptr n d st pre.length) := by
  have ht : t.yomi = w.yomi := h.spot.old_yomi t rfl
  have hstored : ∀ {res : Result}, Stores env d free w kptr pre s post l (some t) r res →
      ¬ Strands env (d.cap free) w l (some t) r →
      Outcome env d free st w kptr s post l (some t) r (blocks pre ++ l)
        (r ++ blocks post) res := by
    rintro res ⟨d', st', way, rfl, hc, hkeep⟩ hs
    exact .stored hs hc hkeep
  have hrefused : ∀ {res : Result}, Refuses env d free st res →
      ¬ Strands env (d.cap free) w l (some t) r →
      Outcome env d free st w kptr s post l (some t) r (blocks pre ++ l)
        (r ++ blocks post) res := by
    rintro res ⟨ret, hret, htight, rfl⟩ hs
    exact .refused hret hs htight
  obtain ⟨n, rfl⟩ : ∃ m, n = m + 2 := ⟨n - 2, by omega⟩
  by_cases hf : Fits (d.cap free) w l (some t) r
  · exact hstored (h.store_here hk hlen hf) fun hs => hs.2.1.1 hf
  by_cases hcl : Clears (d.cap free) w l (some t)
  · cases r with
    | nil => exact absurd hcl hf
    | cons u r' =>
        by_cases hg : (d.cap free).Grants env u.yomi
        · exact hstored (h.store_behind hk hlen hf hcl hg) fun hs => hs.2.1.2.1 hcl
        · exact hrefused (h.refuse hk hf (by simp) (fun _ => hg) (fun hn => absurd hcl hn)
            (fun hn => absurd hcl hn) st (n + 1)) fun hs => hs.2.1.2.1 hcl
  by_cases hg : (d.cap free).Grants env t.yomi
  swap
  · exact hrefused (h.refuse hk hf (by simp) (fun hn => absurd hn hcl)
      (fun _ hn => absurd hn (by simp)) (fun _ _ => hg) st (n + 1)) fun hs => hg hs.2.1.2.2.2
  have hsplit : SplitsHere env (d.cap free) w l (some t) r := ⟨hf, hcl, by simp, hg⟩
  have hu : t.size [] ≤ maxDouonBlk := by
    by_contra hgt
    exact hov ⟨hsplit, t, by simp, not_le.mp hgt⟩
  by_cases hs : Strands env (d.cap free) w l (some t) r
  · have ⟨_, _, hf', hcl'⟩ := hs
    by_cases htop : TopSplits env (d.cap free) w l (some t) r
    · obtain ⟨ret, d', st', hret, hunit, he⟩ :=
        (h.turn hk).front_fails hsplit hu hf' hcl' hn st
      rw [he]
      exact .stranded hret hs hunit fun hn => absurd htop hn
    · -- the second turn refuses
      have hl : l ≠ [] := fun hl => htop ⟨hsplit, .inl hl⟩
      obtain ⟨segs', left, right, h₁, hidx, hb⟩ := h.front rfl hl hg.2.1 hu st
      obtain ⟨ret, hret, htight, he⟩ :=
        h₁.refuse hk hf' (by simp) (fun hc hg' => hcl' ⟨hc, ht ▸ hg'⟩)
        (fun _ hnil => absurd hnil (by simp))
        (fun hc hne hg' => htop ⟨hsplit, .inr ⟨hf', hc, hne, ht ▸ hg'⟩⟩)
        (Sj3.sprtSeg d st pre.length (blkOfs l)).2 n
      have hloop : addRun env w kptr (n + 2) d st pre.length =
          addRun env w kptr (n + 1) (Sj3.sprtSeg d st pre.length (blkOfs l)).1
            (Sj3.sprtSeg d st pre.length (blkOfs l)).2 (pre ++ [left]).length := by
        rw [addRun, (h.turn hk).loop_front env hf hcl rfl hg st (n + 1), addRun,
          List.length_append, List.length_singleton]
      rw [hloop, he]
      refine .stranded hret hs (by rw [(sprtSeg_frame _ _ _ _).2.2]; omega) fun _ => ?_
      exact ⟨⟨segs', _, h₁.usrDict hlen, hb.trans h.spot.blocks_eq⟩, t.yomi, t.isYomi.length_le,
        htight⟩
  · have hl : l ≠ [] := by
      rintro rfl
      exact hs ⟨by simp, hsplit, hf, fun hc => hcl hc.1⟩
    have hs' : Fits (d.cap free) w [] (some t) r ∨ Clears (d.cap free) w [] (some t) ∧
        ((d.cap free).split t.yomi).Grants env (headYomi r) := by
      by_contra hno
      rw [not_or] at hno
      exact hs ⟨by simp, hsplit, hno.1, fun hc => hno.2 ⟨hc.1, ht.symm ▸ hc.2⟩⟩
    obtain ⟨segs', left, right, h₁, hidx, hb⟩ := h.front rfl hl hg.2.1 hu st
    have hloop : addRun env w kptr (n + 2) d st pre.length =
        addRun env w kptr (n + 1) (Sj3.sprtSeg d st pre.length (blkOfs l)).1
          (Sj3.sprtSeg d st pre.length (blkOfs l)).2 (pre ++ [left]).length := by
      rw [addRun, (h.turn hk).loop_front env hf hcl rfl hg st (n + 1), addRun,
        List.length_append, List.length_singleton]
    rw [hloop]
    refine hstored (h.stores_front hl hf hcl rfl hg h₁ rfl hidx hb ?_) hs
    by_cases hf' : Fits (d.cap free) w [] (some t) r
    · exact h₁.store_here hk hlen hf'
    · obtain ⟨hcl', hg'⟩ := hs'.resolve_left hf'
      cases r with
      | nil => exact absurd hcl' hf'
      | cons v r' => exact h₁.store_behind hk hlen hf' hcl' hg'

/-! ## Any reading -/

/-- How the loop of `adddic` ends when the dictionary is well-formed and does not have the
word. -/
theorem UsrDict.outcome (h : UsrDict d segs free) (hsp : Spot segs w.yomi pre s post l old r)
    (hk : Lacks w kptr old r) (hov : ¬ Overflows env (d.cap free) w l old r)
    (hmax : d.maxunit ≠ 0) :
    Outcome env d free st w kptr s post l old r (blocks pre ++ l) (r ++ blocks post)
      (addRun env w kptr (addFuel d) d st pre.length) := by
  have hfuel : 2 ≤ addFuel d := by
    simp only [addFuel]
    omega
  have hstate := h.addState hsp
  cases old with
  | some t =>
      exact hstate.outcome_old hk h.seglen_ge hov (by simp only [addFuel]; omega) hfuel
  | none =>
      obtain ⟨n, hn⟩ : ∃ n, addFuel d = n + 2 := ⟨addFuel d - 2, by omega⟩
      have hs : ¬ Strands env (d.cap free) w l none r := fun hs => hs.1 rfl
      rw [hn]
      rcases hstate.outcome_new hk h.seglen_ge env st n with
        ⟨d', st', way, he, hc, hkeep⟩ | ⟨ret, hret, htight, he⟩
      · rw [he]
        exact .stored hs hc hkeep
      · rw [he]
        exact .refused hret hs htight

/-! ## Regular ways -/

/-- Where the segments are no longer than a block may be and the index has room for two
readings, every way is regular. -/
theorem Course.regular {c : Cap} {idx : Bytes} {way : Way}
    (hc : Course env w c idx post l old r way) (hmin : minSegLen ≤ c.seglen)
    (hmax : c.seglen ≤ maxDouonBlk) (hroom : blkOfs (l ++ (old.toList ++ r)) ≤ c.seglen)
    (hpost : ∀ s ∈ post, blkOfs s.blks ≤ c.seglen ∧ s.idx.length ≤ maxWdYomiLen)
    (hidx : idx.length ≤ maxWdYomiLen)
    (hfree : old = none → maxWdYomiLen + 1 ≤ c.free ∧
      (2 * (maxWdYomiLen + 1) ≤ c.free ∨ Fits c w l none r)) :
    way.Regular w old := by
  have hx := w.isYomi.length_le
  have hmin' : 512 ≤ c.seglen := hmin
  have hmoved : ∀ (a : List DouonBlk) (u : DouonBlk) (b : List DouonBlk),
      blkOfs (a ++ u :: b) ≤ c.seglen → u.size [] ≤ c.seglen := by
    intro a u b hab
    have h₁ := plen_lt_blkOfs a u
    have h₂ := size_nil (lastYomi [] a) u
    rw [blkOfs_append, length_douonBytes_cons] at hab
    omega
  have hsize : ∀ (a : List DouonBlk) (b : List DouonBlk),
      blkOfs (a ++ w.into old :: b) ≤ c.seglen →
        (w.into old).size (lastYomi [] a) ≤ maxDouonBlk := by
    intro a b hab
    rw [blkOfs_append, length_douonBytes_cons] at hab
    omega
  simp only [maxWdYomiLen] at *
  induction hc with
  | here hf =>
      refine ⟨by simp, hsize _ _ hf, ?_⟩
      intro o ho
      split at ho
      · rename_i hnew
        obtain rfl : _ = o := by simpa using ho
        have := (hfree hnew.2).1
        simp only [ChgOk]
        omega
      · simp at ho
  | @next c idx s post l way hf hc ih =>
      have hs := hpost s (by simp)
      exact ih hmin hmax hs.1 (fun s' hs' => hpost s' (by simp [hs'])) hs.2
        (fun _ => ⟨(hfree rfl).1, .inl ((hfree rfl).2.resolve_right hf)⟩) hmin' hmoved hsize
  | append hf hg =>
      have hsz := w.size_into_none_le []
      have hroomy := (hfree rfl).2.resolve_right hf
      refine ⟨by simp, ?_, ?_⟩
      · simp only [maxDouonBlk]
        omega
      · intro o ho
        obtain rfl : [] = o := by simpa using ho
        simp only [ChgOk, List.length_nil]
        omega
  | @behind c idx post l r old u hf hcl hg =>
      rw [← List.append_assoc] at hroom
      refine ⟨?_, hsize _ _ hcl, ?_⟩
      · intro v hv
        obtain rfl : v = u := by simpa using hv
        exact (hmoved _ _ _ hroom).trans hmax
      · intro o ho
        split at ho
        · rename_i hnew
          obtain rfl : _ = o := by simpa using ho
          obtain rfl := hnew.2
          have hroomy := (hfree rfl).2.resolve_right hf
          have hu := u.isYomi.length_le
          simp only [maxWdYomiLen] at hu
          simp only [ChgOk, Cap.split]
          omega
        · simp at ho
  | @front c idx post l r r' old u way hl hf hcl he hg hc ih =>
      rw [he] at hroom
      have hu := u.isYomi.length_le
      have hright : blkOfs (u :: r') ≤ c.seglen := by
        have h₁ := plen_lt_blkOfs l u
        have h₂ := size_nil (lastYomi [] l) u
        rw [blkOfs_append, length_douonBytes_cons] at hroom
        rw [blkOfs_cons]
        omega
      have hreg := ih hmin hmax (by rw [List.nil_append, he]; exact hright) hpost hu
        (by
          rintro rfl
          obtain rfl : r = u :: r' := he
          have hroomy := (hfree rfl).2.resolve_right hf
          simp only [maxWdYomiLen] at hu
          refine ⟨?_, .inr (fits_front hmin hroom hcl).1⟩
          simp only [Cap.split]
          omega) hmin' hmoved hsize
      refine ⟨?_, hreg.size, hreg.chg⟩
      intro v hv
      rcases List.mem_cons.mp hv with rfl | hv
      · exact (hmoved _ _ _ hroom).trans hmax
      · exact hreg.moved v hv

end Sj3
