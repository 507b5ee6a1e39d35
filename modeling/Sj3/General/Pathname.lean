import Mathlib.Data.List.DropRight
import Mathlib.Tactic.Common

/-! # Path names

A path name is a list of characters whose components stand between separators. It is
resolved without a file system: empty components and `.` stay where they are, `..` goes to
the parent. -/

namespace Pathname

variable {α : Type*} [DecidableEq α] (sep dot : α)

/-- The nonempty components of a path, where `cur` is what has been read of the first. -/
def componentsFrom (cur : List α) : List α → List (List α)
  | [] => if cur = [] then [] else [cur]
  | c :: p =>
      if c = sep then (if cur = [] then [] else [cur]) ++ componentsFrom [] p
      else componentsFrom (cur ++ [c]) p

def components (p : List α) : List (List α) := componentsFrom sep [] p

/-- The last component, empty behind a separator. -/
def lastName (p : List α) : List α := p.rtakeWhile (· ≠ sep)

/-- One component further from the place `stack`, innermost name first. The root is its
own parent; the parent of a relative place may have to be spelled out. -/
def enter (absolute : Bool) (stack : List (List α)) (c : List α) : List (List α) :=
  if c = [dot] then stack
  else if c = [dot, dot] then
    match stack with
    | [] => if absolute then [] else [c]
    | name :: above => if name = c then c :: stack else above
  else c :: stack

/-- Where a path leads: from the root or from the current directory through `names`. -/
structure Location (α : Type*) where
  absolute : Bool
  names : List (List α)
  deriving DecidableEq

def resolve (p : List α) : Location α where
  absolute := p.head? = some sep
  names := ((components sep p).foldl (enter dot (p.head? = some sep)) []).reverse

/-- `p` is `d` itself or lies below it. -/
def Within (d p : Location α) : Prop :=
  d.absolute = p.absolute ∧ ∃ below, p.names = d.names ++ below ∧ [dot, dot] ∉ below

/-! ## Components -/

variable {sep dot}

theorem componentsFrom_append_sep (cur p q : List α) :
    componentsFrom sep cur (p ++ sep :: q) =
      componentsFrom sep cur p ++ components sep q := by
  induction p generalizing cur with
  | nil => simp [componentsFrom, components]
  | cons c p ih =>
      rw [List.cons_append, componentsFrom, componentsFrom]
      split
      · rw [ih, List.append_assoc]
      · exact ih _

/-- Without a separator the component goes on. -/
theorem componentsFrom_append (cur e q : List α) (he : sep ∉ e) :
    componentsFrom sep cur (e ++ q) = componentsFrom sep (cur ++ e) q := by
  induction e generalizing cur with
  | nil => simp
  | cons c e ih =>
      rw [List.mem_cons, not_or] at he
      rw [List.cons_append, componentsFrom, if_neg (Ne.symm he.1), ih _ he.2,
        List.append_assoc, List.singleton_append]

theorem componentsFrom_eq_cons {cur p : List α} (hcur : cur ≠ [])
    (hp : p = [] ∨ p.head? = some sep) :
    componentsFrom sep cur p = cur :: components sep p := by
  cases p with
  | nil => simp [componentsFrom, components, hcur]
  | cons c p =>
      have hc : c = sep := by simpa using hp
      simp [componentsFrom, components, hcur, hc]

theorem components_sep_cons (q : List α) : components sep (sep :: q) = components sep q := by
  simp [components, componentsFrom]

theorem components_append_sep (p q : List α) :
    components sep (p ++ sep :: q) = components sep p ++ components sep q :=
  componentsFrom_append_sep [] p q

/-- The components of two paths follow one another where a separator is between them. -/
theorem components_append {p q : List α}
    (h : lastName sep p = [] ∨ q = [] ∨ q.head? = some sep) :
    components sep (p ++ q) = components sep p ++ components sep q := by
  rcases h with hlast | hq | hq
  · rw [lastName, List.rtakeWhile_eq_nil_iff] at hlast
    cases p using List.reverseRecOn with
    | nil => simp [components, componentsFrom]
    | append_singleton p c =>
        have hc : c = sep := by simpa using hlast (by simp)
        rw [hc, List.append_assoc, List.singleton_append, components_append_sep,
          components_append_sep]
        simp [components, componentsFrom]
  · simp [hq, components, componentsFrom]
  · cases q with
    | nil => simp at hq
    | cons c q =>
        have hc : c = sep := by simpa using hq
        rw [hc, components_append_sep, components_sep_cons]

theorem sep_notMem_lastName (p : List α) : sep ∉ lastName sep p := by
  intro h
  simpa using List.mem_rtakeWhile_imp h

/-- What stands in front of the last component ends in a separator. -/
theorem lastName_rdropWhile (p : List α) :
    lastName sep (p.rdropWhile (· ≠ sep)) = [] := by
  rw [lastName, List.rtakeWhile_eq_nil_iff]
  exact fun hl => List.rdropWhile_last_not _ _ hl

/-- The last component of `p` goes on in `q` up to the first separator. -/
theorem components_append_lastName {p : List α} (hp : lastName sep p ≠ []) (q : List α) :
    components sep (p ++ q) =
      components sep (p.rdropWhile (· ≠ sep)) ++
        (lastName sep p ++ q.takeWhile (· ≠ sep)) ::
          components sep (q.dropWhile (· ≠ sep)) := by
  have hp_eq : p.rdropWhile (· ≠ sep) ++ lastName sep p = p :=
    List.rdropWhile_append_rtakeWhile
  have hfree : sep ∉ lastName sep p ++ q.takeWhile (· ≠ sep) := by
    rw [List.mem_append, not_or]
    exact ⟨sep_notMem_lastName p, fun h => by simpa using List.mem_takeWhile_imp h⟩
  have hrest : q.dropWhile (· ≠ sep) = [] ∨ (q.dropWhile (· ≠ sep)).head? = some sep := by
    cases h : q.dropWhile (· ≠ sep) with
    | nil => exact Or.inl rfl
    | cons c t =>
        have hc := List.head?_dropWhile_not (p := (· ≠ sep)) (l := q)
        rw [h] at hc
        exact Or.inr (by simpa using hc)
  calc components sep (p ++ q)
      = components sep (p.rdropWhile (· ≠ sep) ++ (lastName sep p ++ q)) := by
        rw [← List.append_assoc, hp_eq]
    _ = components sep (p.rdropWhile (· ≠ sep)) ++
          components sep (lastName sep p ++ q) :=
        components_append (Or.inl (lastName_rdropWhile p))
    _ = _ := by
        congr 1
        rw [components, ← List.takeWhile_append_dropWhile (p := (· ≠ sep)) (l := q),
          ← List.append_assoc, componentsFrom_append _ _ _ hfree,
          componentsFrom_eq_cons (by simp [hp]) hrest]
        simp

/-! ## Resolution -/

theorem enter_name {absolute : Bool} {stack : List (List α)} {c : List α}
    (hdot : c ≠ [dot]) (hdots : c ≠ [dot, dot]) :
    enter dot absolute stack c = c :: stack := by
  rw [enter.eq_def, if_neg hdot, if_neg hdots]

/-- Without `..` the names are only collected. -/
theorem foldl_enter (absolute : Bool) (stack cs : List (List α)) (h : [dot, dot] ∉ cs) :
    cs.foldl (enter dot absolute) stack = (cs.filter (· ≠ [dot])).reverse ++ stack := by
  induction cs generalizing stack with
  | nil => rfl
  | cons c cs ih =>
      rw [List.mem_cons, not_or] at h
      rw [List.foldl_cons, ih _ h.2]
      by_cases hc : c = [dot]
      · simp [enter, hc]
      · rw [enter_name hc (Ne.symm h.1)]
        simp [hc]

theorem resolve_names {p : List α} (h : [dot, dot] ∉ components sep p) :
    (resolve sep dot p).names = (components sep p).filter (· ≠ [dot]) := by
  simp [resolve, foldl_enter _ _ _ h]

theorem not_mem_filter_dots {cs : List (List α)} (h : [dot, dot] ∉ cs) :
    [dot, dot] ∉ cs.filter (· ≠ [dot]) :=
  fun hmem => h (List.mem_of_mem_filter hmem)

/-- Further components without `..` lead downwards. -/
theorem within_of_components {d p : List α} {cs : List (List α)}
    (habs : (d.head? = some sep) ↔ (p.head? = some sep))
    (hcomp : components sep p = components sep d ++ cs) (hcs : [dot, dot] ∉ cs) :
    Within dot (resolve sep dot d) (resolve sep dot p) := by
  refine ⟨by simp [resolve, habs], cs.filter (· ≠ [dot]), ?_, not_mem_filter_dots hcs⟩
  simp only [resolve, hcomp, habs, List.foldl_append]
  rw [foldl_enter _ _ _ hcs]
  simp

/-- A step to the parent from a place whose names are all proper. -/
theorem enter_parent {names : List (List α)} (h : [dot, dot] ∉ names) :
    (enter dot true names.reverse [dot, dot]).reverse = names.dropLast := by
  cases names using List.reverseRecOn with
  | nil => simp [enter]
  | append_singleton names name =>
      have hname : name ≠ [dot, dot] := by
        rintro rfl
        simp at h
      simp [enter, hname]

/-- A place reached over the components `names` and `name` has the place below itself that
`names` and a longer component lead to only if `name` is no name. -/
theorem exists_below_iff {names rest : List (List α)} {name more : List α}
    (hnames : [dot, dot] ∉ names) (hname : name ≠ []) (hmore : more ≠ [])
    (hup : [dot, dot] ∉ (name ++ more) :: rest) :
    (∃ below, names ++ ((name ++ more) :: rest).filter (· ≠ [dot]) =
        (enter dot true names.reverse name).reverse ++ below ∧ [dot, dot] ∉ below) ↔
      name ∈ [[], [dot], [dot, dot]] := by
  have hbelow := not_mem_filter_dots hup
  constructor
  · rintro ⟨below, heq, -⟩
    by_contra hno
    obtain ⟨-, hdot, hdots⟩ : name ≠ [] ∧ name ≠ [dot] ∧ name ≠ [dot, dot] := by
      simpa [not_or] using hno
    -- the longer component is kept, and it is another name
    have hlong : name ++ more ≠ [dot] := by
      intro h
      rcases List.append_eq_singleton_iff.mp h with h | h
      · exact hname h.1
      · exact hmore h.2
    rw [enter_name hdot hdots, List.reverse_cons, List.reverse_reverse,
      List.append_assoc, List.append_cancel_left_eq,
      List.filter_cons_of_pos (by simpa using hlong), List.singleton_append,
      List.cons.injEq] at heq
    exact hmore (List.append_right_eq_self.mp heq.1)
  · intro h
    have hcases : name = [dot] ∨ name = [dot, dot] := by simpa [hname] using h
    rcases hcases with rfl | rfl
    · exact ⟨_, by simp [enter], hbelow⟩
    · rw [enter_parent hnames]
      cases names using List.reverseRecOn with
      | nil => exact ⟨_, by simp, hbelow⟩
      | append_singleton names last =>
          refine ⟨last :: ((([dot, dot] ++ more) :: rest).filter (· ≠ [dot])), by simp, ?_⟩
          rw [List.mem_cons, not_or]
          refine ⟨?_, hbelow⟩
          rintro rfl
          simp at hnames

/-- A path that starts with the characters of an absolute path `d` stays within `d` exactly
if they end where a component does, unless the last component of `d` is no name. -/
theorem within_append_iff {d : List α} (hd : d.head? = some sep) (q : List α)
    (hup : [dot, dot] ∉ components sep (d ++ q)) :
    Within dot (resolve sep dot d) (resolve sep dot (d ++ q)) ↔
      q = [] ∨ q.head? = some sep ∨ lastName sep d ∈ [[], [dot], [dot, dot]] := by
  have habs : (d ++ q).head? = some sep := by
    rw [List.head?_append, hd]
    rfl
  by_cases hsplit : lastName sep d = [] ∨ q = [] ∨ q.head? = some sep
  · have hcomp := components_append hsplit
    have hq : [dot, dot] ∉ components sep q := by
      rw [hcomp, List.mem_append, not_or] at hup
      exact hup.2
    refine iff_of_true (within_of_components (iff_of_true hd habs) hcomp hq) ?_
    rcases hsplit with h | h | h
    · exact Or.inr (Or.inr (by simp [h]))
    · exact Or.inl h
    · exact Or.inr (Or.inl h)
  · obtain ⟨hlast, hq, hqs⟩ : lastName sep d ≠ [] ∧ q ≠ [] ∧ q.head? ≠ some sep := by
      simpa [not_or] using hsplit
    -- the last component of `d` and the first of the rest are one component of the path
    have hdir := components_append_lastName hlast []
    have hpath := components_append_lastName hlast q
    rw [List.append_nil, List.takeWhile_nil, List.append_nil, List.dropWhile_nil] at hdir
    have hmore : q.takeWhile (· ≠ sep) ≠ [] := by
      cases q with
      | nil => exact absurd rfl hq
      | cons c q =>
          have hc : c ≠ sep := by simpa using hqs
          simp [hc]
    have hnames := resolve_names hup
    rw [hpath, List.mem_append, not_or] at hup
    have hdnames : (resolve sep dot d).names =
        (enter dot true
          ((components sep (d.rdropWhile (· ≠ sep))).filter (· ≠ [dot])).reverse
          (lastName sep d)).reverse := by
      rw [resolve, hdir, List.foldl_append, foldl_enter _ _ _ hup.1]
      simp [hd, components, componentsFrom]
    rw [Within, hdnames, hnames, hpath, List.filter_append,
      exists_below_iff (not_mem_filter_dots hup.1) hlast hmore hup.2]
    simp [resolve, hd, habs, hq, hqs]

end Pathname
