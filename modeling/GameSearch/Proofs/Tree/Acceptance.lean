/-
  GameSearch.Proofs.Tree.Acceptance

  Which specifications have a tree, and what is told about the others.  A specification is
  acceptable if nothing is wrong with any of its positions; otherwise the first position with a
  fault, counted breadth first, decides.

    * `Acceptable`                   — the conditions, position by position
    * `acceptable_iff_faultless`     — they hold if no position has a fault
    * `pathText_injective`           — the text of a path leads to one position only
    * `build_reports_first_fault`    — acceptance, and the fault that is told
-/
import Std.Data.String.ToNat
import GameSearch.Proofs.Tree.Entry

namespace GameSearch.Tree

/-- What a specification with a tree looks like. -/
structure Acceptable (limits : Limits) (spec : Spec) : Prop where
  /-- Every position has an identifier. -/
  named : ∀ path s, spec.at? path = some s → s.id ≠ none
  /-- No two positions have the same one. -/
  distinct : ∀ path path' s s', spec.at? path = some s → spec.at? path' = some s' →
    s.id = s'.id → path = path'
  shallow : ∀ path s, spec.at? path = some s → path.length ≤ limits.maxDepth
  internal : ∀ path s, spec.at? path = some s → s.children ≠ [] → s.value = none
  /-- Every leaf has a value, unless it may come without. -/
  leaf : limits.valuelessLeaves = false →
    ∀ path s, spec.at? path = some s → s.children = [] → s.value ≠ none
  finite : ∀ path s v, spec.at? path = some s → s.children = [] → s.value = some v →
    v.isFinite = true

variable {limits : Limits} {spec s s' : Spec} {path path' : List Nat} {id : String} {fault : Fault}

-- ============================================================================
-- Acceptable specifications are those without fault
-- ============================================================================

/-- Paths differ between places of the order. -/
theorem path_ne_of_before {before after : List Position} {p q : Position}
    (horder : spec.breadthFirst = before ++ p :: after) (hq : q ∈ before) : q.path ≠ p.path := by
  have hpairwise := spec.pairwise_breadthFirst
  rw [horder, List.pairwise_append] at hpairwise
  intro hpath
  rcases hpairwise.2.2 q hq p List.mem_cons_self with hdepth | ⟨-, hlt⟩
  · rw [Position.depth, Position.depth, hpath] at hdepth
    exact Nat.lt_irrefl _ hdepth
  · rw [hpath] at hlt
    exact List.lt_irrefl _ hlt

theorem Acceptable.faultless (h : Acceptable limits spec) :
    Faultless limits spec.breadthFirst := by
  intro before p after horder fault hfault
  have hp : spec.at? p.path = some p.spec := Spec.mem_breadthFirst_iff.1 (by simp [horder])
  cases hfault with
  | missingId hnone => exact h.named _ _ hp hnone
  | tooDeep _ hdeep => exact Nat.not_lt_of_le (h.shallow _ _ hp) hdeep
  | duplicateId hid hused =>
    obtain ⟨q, hq, hname⟩ := hused
    have hq' : spec.at? q.path = some q.spec := Spec.mem_breadthFirst_iff.1 (by simp [horder, hq])
    exact path_ne_of_before horder hq (h.distinct _ _ _ _ hq' hp (hname.trans hid.symm))
  | valueOnInternalNode _ hinner hvalue => exact hvalue (h.internal _ _ hp hinner)
  | leafWithoutValue _ hleaf hvalue hstrict => exact h.leaf hstrict _ _ hp hleaf hvalue
  | nonFiniteValue _ hleaf hvalue hinfinite =>
    rw [h.finite _ _ _ hp hleaf hvalue] at hinfinite
    cases hinfinite

/-- Every position has its place in the order, and no fault there. -/
theorem Faultless.exists_split (h : Faultless limits spec.breadthFirst)
    (hat : spec.at? path = some s) :
    ∃ before after, spec.breadthFirst = before ++ ⟨s, path⟩ :: after ∧
      ∀ fault, ¬ HasFault limits before ⟨s, path⟩ fault := by
  have hp : (⟨s, path⟩ : Position) ∈ spec.breadthFirst := Spec.mem_breadthFirst_iff.2 hat
  obtain ⟨before, after, horder⟩ := List.append_of_mem hp
  exact ⟨before, after, horder, h before _ after horder⟩

/-- So it has an identifier, and nothing else is wrong with it either. -/
theorem Faultless.exists_id (h : Faultless limits spec.breadthFirst)
    (hat : spec.at? path = some s) :
    ∃ earlier id, s.id = some id ∧ ∀ fault, ¬ HasFault limits earlier ⟨s, path⟩ fault := by
  obtain ⟨before, after, -, hnone⟩ := h.exists_split hat
  obtain ⟨id, hid⟩ := Option.ne_none_iff_exists'.1 fun hid => hnone _ (.missingId hid)
  exact ⟨before, id, hid, hnone⟩

/-- Of two positions with the same identifier the later one would be at fault. -/
theorem Faultless.distinct (h : Faultless limits spec.breadthFirst)
    (hat : spec.at? path = some s) (hat' : spec.at? path' = some s') (hid : s.id = s'.id) :
    path = path' := by
  obtain ⟨-, id, hname, -⟩ := h.exists_id hat
  obtain ⟨before, after, horder, hnone⟩ := h.exists_split hat
  have hmem : (⟨s', path'⟩ : Position) ∈ spec.breadthFirst := Spec.mem_breadthFirst_iff.2 hat'
  rw [horder] at hmem
  rcases List.mem_append.1 hmem with hbefore | htail
  · exact absurd (.duplicateId hname ⟨_, hbefore, hid.symm.trans hname⟩) (hnone _)
  rcases List.mem_cons.1 htail with heq | hafter
  · exact (congrArg Position.path heq).symm
  · obtain ⟨middle, rest, rfl⟩ := List.append_of_mem hafter
    refine absurd (.duplicateId (hid.symm.trans hname) ⟨⟨s, path⟩, by simp, hname⟩)
      (h (before ++ ⟨s, path⟩ :: middle) ⟨s', path'⟩ rest ?_ (.duplicateId id))
    rw [horder, List.append_assoc, List.cons_append]

theorem Faultless.acceptable (h : Faultless limits spec.breadthFirst) :
    Acceptable limits spec := by
  constructor
  case named =>
    intro path s hat hnone
    obtain ⟨-, id, hid, -⟩ := h.exists_id hat
    rw [hid] at hnone
    cases hnone
  case distinct => exact fun path path' s s' hat hat' hid => h.distinct hat hat' hid
  case shallow =>
    intro path s hat
    obtain ⟨earlier, id, hid, hnone⟩ := h.exists_id hat
    exact Nat.le_of_not_lt fun hdeep => hnone _ (.tooDeep hid hdeep)
  case internal =>
    intro path s hat hinner
    obtain ⟨earlier, id, hid, hnone⟩ := h.exists_id hat
    exact Classical.byContradiction fun hvalue =>
      hnone _ (.valueOnInternalNode hid hinner hvalue)
  case leaf =>
    intro hstrict path s hat hleaf hvalue
    obtain ⟨earlier, id, hid, hnone⟩ := h.exists_id hat
    exact hnone _ (.leafWithoutValue hid hleaf hvalue hstrict)
  case finite =>
    intro path s v hat hleaf hvalue
    obtain ⟨earlier, id, hid, hnone⟩ := h.exists_id hat
    exact eq_true_of_ne_false fun hinfinite =>
      hnone _ (.nonFiniteValue hid hleaf hvalue hinfinite)

theorem acceptable_iff_faultless :
    Acceptable limits spec ↔ Faultless limits spec.breadthFirst :=
  ⟨Acceptable.faultless, Faultless.acceptable⟩

-- ============================================================================
-- The outcome of the builder
-- ============================================================================

theorem exists_build_iff : (∃ t, build limits spec = .ok t) ↔ Acceptable limits spec := by
  rw [acceptable_iff_faultless]
  have houtcome := build_outcome limits spec
  cases hbuild : build limits spec with
  | ok t =>
    rw [hbuild] at houtcome
    exact ⟨fun _ => houtcome.1, fun _ => ⟨t, rfl⟩⟩
  | error fault =>
    rw [hbuild] at houtcome
    constructor
    · rintro ⟨t, h⟩
      cases h
    · exact fun h => absurd h houtcome.not_faultless

theorem build_eq_error_iff :
    build limits spec = .error fault ↔ FirstFault limits spec.breadthFirst fault := by
  have houtcome := build_outcome limits spec
  cases hbuild : build limits spec with
  | ok t =>
    rw [hbuild] at houtcome
    constructor
    · intro h
      cases h
    · exact fun h => absurd houtcome.1 h.not_faultless
  | error first =>
    rw [hbuild] at houtcome
    constructor
    · rintro ⟨⟩
      exact houtcome
    · exact fun h => congrArg Except.error (houtcome.unique h)

-- ============================================================================
-- The text of a path
-- ============================================================================

/-- What a path shows of one of its steps. -/
def stepText (i : Nat) : String := ".children[" ++ toString i ++ "]"

theorem toList_stepText (i : Nat) :
    (stepText i).toList = ".children[".toList ++ ((toString i).toList ++ "]".toList) := by
  rw [stepText, String.toList_append, String.toList_append, List.append_assoc]

theorem pathText_concat (path : List Nat) (i : Nat) :
    pathText (path ++ [i]) = pathText path ++ ".children[" ++ toString i ++ "]" := by
  rw [pathText, List.foldl_append]
  rfl

theorem toList_pathText (path : List Nat) :
    (pathText path).toList = "root".toList ++ path.flatMap fun i => (stepText i).toList := by
  have hfold : ∀ start : String,
      (path.foldl (fun text i => text ++ ".children[" ++ toString i ++ "]") start).toList =
        start.toList ++ path.flatMap fun i => (stepText i).toList := by
    induction path with
    | nil => exact fun start => (List.append_nil _).symm
    | cons i path ih =>
      intro start
      rw [List.foldl_cons, ih, List.flatMap_cons, toList_stepText]
      simp only [String.toList_append, List.append_assoc]
  exact hfold "root"

/-- No number is written with a bracket. -/
theorem not_mem_toString (i : Nat) : ']' ∉ (toString i).toList := by
  intro h
  have hdigit : Char.isDigit ']' = true := by
    refine Nat.isDigit_of_mem_toDigits (b := 10) (n := i) (by decide) (by decide) ?_
    simpa [toString, Nat.repr] using h
  exact absurd hdigit (by decide)

/-- Up to the first separator two texts can be compared. -/
theorem append_cons_inj {c : Char} {xs ys rest rest' : List Char} (hx : c ∉ xs) (hy : c ∉ ys)
    (h : xs ++ c :: rest = ys ++ c :: rest') : xs = ys ∧ rest = rest' := by
  induction xs generalizing ys with
  | nil =>
    cases ys with
    | nil => exact ⟨rfl, (List.cons.inj h).2⟩
    | cons y ys => exact absurd (List.cons.inj h).1 fun heq => hy (heq ▸ List.mem_cons_self)
  | cons x xs ih =>
    cases ys with
    | nil => exact absurd (List.cons.inj h).1 fun heq => hx (heq ▸ List.mem_cons_self)
    | cons y ys =>
      obtain ⟨rfl, htail⟩ := List.cons.inj h
      obtain ⟨rfl, hrest⟩ := ih (fun hm => hx (List.mem_cons_of_mem _ hm))
        (fun hm => hy (List.mem_cons_of_mem _ hm)) htail
      exact ⟨rfl, hrest⟩

theorem flatMap_stepText_ne_nil (i : Nat) (path : List Nat) :
    ((i :: path).flatMap fun i => (stepText i).toList) ≠ [] := by
  rw [List.flatMap_cons, toList_stepText, List.append_assoc]
  exact List.append_ne_nil_of_left_ne_nil (by decide) _

theorem flatMap_stepText_injective {path path' : List Nat}
    (h : (path.flatMap fun i => (stepText i).toList) =
      path'.flatMap fun i => (stepText i).toList) : path = path' := by
  induction path generalizing path' with
  | nil =>
    cases path' with
    | nil => rfl
    | cons i path' => exact absurd h.symm (flatMap_stepText_ne_nil i path')
  | cons i path ih =>
    cases path' with
    | nil => exact absurd h (flatMap_stepText_ne_nil i path)
    | cons j path' =>
      rw [List.flatMap_cons, List.flatMap_cons, toList_stepText i, toList_stepText j] at h
      simp only [List.append_assoc] at h
      obtain ⟨hnumber, hrest⟩ := append_cons_inj (not_mem_toString i) (not_mem_toString j)
        (List.append_cancel_left h)
      have hij : i = j := Nat.repr_inj.1 (String.ext hnumber)
      rw [hij, ih hrest]

/-- Different paths have different texts. -/
theorem pathText_injective : Function.Injective pathText := by
  intro path path' h
  have htext := congrArg String.toList h
  rw [toList_pathText, toList_pathText] at htext
  exact flatMap_stepText_injective (List.append_cancel_left htext)

-- ============================================================================
-- Acceptance and refusal
-- ============================================================================

/-- A specification has a tree if it is acceptable.  Otherwise the fault that is told is the
    decisive one of the first position with a fault, breadth first; if that is a missing
    identifier, the text of the path leads to this position and to no other. -/
theorem build_reports_first_fault (limits : Limits) (spec : Spec) :
    ((∃ t, build limits spec = .ok t) ↔ Acceptable limits spec) ∧
    (∀ fault, build limits spec = .error fault ↔ FirstFault limits spec.breadthFirst fault) ∧
    (∀ path, build limits spec = .error (.missingId path) →
      ∃ before p after, spec.breadthFirst = before ++ p :: after ∧ Faultless limits before ∧
        p.spec.id = none ∧ p.path = path ∧ spec.at? path = some p.spec) ∧
    (∀ path, (Fault.missingId path).message = "node at " ++ pathText path ++ " has no id") ∧
    pathText [] = "root" ∧
    (∀ path i, pathText (path ++ [i]) = pathText path ++ ".children[" ++ toString i ++ "]") ∧
    Function.Injective pathText := by
  refine ⟨exists_build_iff, fun fault => build_eq_error_iff, ?_, fun path => rfl, rfl,
    pathText_concat, pathText_injective⟩
  intro path h
  obtain ⟨before, p, after, horder, hnone, hp, -⟩ := build_eq_error_iff.1 h
  cases hp with
  | missingId hid =>
    exact ⟨before, p, after, horder, hnone, hid, rfl,
      Spec.mem_breadthFirst_iff.1 (by simp [horder])⟩

end GameSearch.Tree
