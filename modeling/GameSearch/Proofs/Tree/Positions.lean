/-
  GameSearch.Proofs.Tree.Positions

  The positions of a nested specification.  A position is known by its path, the child
  numbers that lead to it from the root.  In breadth-first order the positions come level by
  level, and those of one level from left to right: the successors of the positions of the level
  above, one after the other.

    * `Spec.at?`                  — what stands at the end of a path
    * `Spec.breadthFirst`         — all positions, breadth first
    * `mem_breadthFirst_iff`      — it holds every position of the specification and no other
    * `pairwise_breadthFirst`     — upper levels come first, and in a level smaller paths
    * `breadthFirst_eq_successors` — after the root come the successors of what comes
-/
import Mathlib.Data.List.Basic
import GameSearch.Tree.Spec

namespace GameSearch

/-- A place in a specification: what stands there, and the child numbers that lead there. -/
structure Position where
  spec : Spec
  path : List Nat

namespace Position

/-- The number of steps from the root. -/
def depth (p : Position) : Nat := p.path.length

/-- The positions one step further, in the order of the specification. -/
def successors (p : Position) : List Position :=
  p.spec.children.mapIdx fun i s => ⟨s, p.path ++ [i]⟩

/-- Upper levels come before lower ones; on one level the paths decide. -/
def Before (p q : Position) : Prop := p.depth < q.depth ∨ p.depth = q.depth ∧ p.path < q.path

end Position

namespace Spec

/-- What stands at the end of a path, if the path leads to a position. -/
def at? (s : Spec) : List Nat → Option Spec
  | [] => some s
  | i :: path => s.children[i]?.bind fun c => at? c path

mutual

/-- The number of steps to the deepest position. -/
def height : Spec → Nat
  | ⟨_, _, children⟩ => heightAll children

/-- The number of levels in a list of specifications. -/
def heightAll : List Spec → Nat
  | [] => 0
  | s :: rest => max (height s + 1) (heightAll rest)

end

/-- The positions that are so many steps away from the root, from left to right. -/
def level (root : Spec) : Nat → List Position
  | 0 => [⟨root, []⟩]
  | d + 1 => (level root d).flatMap Position.successors

/-- All positions, level by level from the root down. -/
def breadthFirst (root : Spec) : List Position := (List.range (root.height + 1)).flatMap root.level

-- ============================================================================
-- Paths
-- ============================================================================

variable {root s c : Spec} {path : List Nat} {p q : Position} {d : Nat}

theorem at?_append (s : Spec) (path rest : List Nat) :
    s.at? (path ++ rest) = (s.at? path).bind fun c => c.at? rest := by
  induction path generalizing s with
  | nil => rfl
  | cons i path ih =>
    rw [List.cons_append, at?, at?, Option.bind_assoc]
    congr 1
    funext c
    exact ih c

theorem at?_child (s : Spec) (path : List Nat) (i : Nat) :
    s.at? (path ++ [i]) = (s.at? path).bind fun c => c.children[i]? := by
  rw [at?_append]
  congr 1
  funext c
  rw [at?]
  exact Option.bind_fun_some _

theorem mem_successors_iff :
    q ∈ p.successors ↔ ∃ i, p.spec.children[i]? = some q.spec ∧ q.path = p.path ++ [i] := by
  rw [Position.successors, List.mem_mapIdx]
  constructor
  · rintro ⟨i, hi, rfl⟩
    exact ⟨i, List.getElem?_eq_getElem hi, rfl⟩
  · rintro ⟨i, hspec, hpath⟩
    obtain ⟨hi, hspec⟩ := List.getElem?_eq_some_iff.1 hspec
    refine ⟨i, hi, ?_⟩
    rw [hspec, ← hpath]

theorem depth_of_mem_successors (h : q ∈ p.successors) : q.depth = p.depth + 1 := by
  obtain ⟨i, -, hpath⟩ := mem_successors_iff.1 h
  rw [Position.depth, hpath, List.length_append, List.length_singleton, Position.depth]

theorem length_successors (p : Position) : p.successors.length = p.spec.children.length := by
  rw [Position.successors, List.length_mapIdx]

-- ============================================================================
-- Levels
-- ============================================================================

/-- A level holds the positions with paths of its length. -/
theorem mem_level_iff : p ∈ root.level d ↔ root.at? p.path = some p.spec ∧ p.depth = d := by
  induction d generalizing p with
  | zero =>
    rw [level, List.mem_singleton]
    constructor
    · rintro rfl
      exact ⟨rfl, rfl⟩
    · rintro ⟨hat, hdepth⟩
      obtain ⟨spec, path⟩ := p
      obtain rfl : path = [] := List.eq_nil_of_length_eq_zero hdepth
      cases hat
      rfl
  | succ d ih =>
    rw [level, List.mem_flatMap]
    constructor
    · rintro ⟨q, hq, hp⟩
      obtain ⟨hat, hdepth⟩ := ih.1 hq
      obtain ⟨i, hspec, hpath⟩ := mem_successors_iff.1 hp
      refine ⟨?_, by rw [depth_of_mem_successors hp, hdepth]⟩
      rw [hpath, at?_child, hat, Option.bind_some, hspec]
    · rintro ⟨hat, hdepth⟩
      -- the last child number leads from the position above
      have hne : p.path ≠ [] := List.ne_nil_of_length_eq_add_one hdepth
      have hsplit := List.dropLast_append_getLast hne
      rw [← hsplit, at?_child, Option.bind_eq_some_iff] at hat
      obtain ⟨above, habove, hspec⟩ := hat
      refine ⟨⟨above, p.path.dropLast⟩, ih.2 ⟨habove, ?_⟩, ?_⟩
      · rw [Position.depth] at hdepth
        rw [Position.depth, List.length_dropLast, hdepth, Nat.add_sub_cancel]
      · exact mem_successors_iff.2 ⟨p.path.getLast hne, hspec, hsplit.symm⟩

theorem height_eq (s : Spec) : s.height = heightAll s.children := by
  cases s; simp [height]

theorem height_lt_heightAll {specs : List Spec} (h : s ∈ specs) : s.height < heightAll specs := by
  induction specs with
  | nil => cases h
  | cons first rest ih =>
    rw [heightAll]
    rcases List.mem_cons.1 h with rfl | h
    · omega
    · have := ih h
      omega

/-- Some specification of a list reaches down to the last level. -/
theorem exists_height_of_heightAll {specs : List Spec} (h : specs ≠ []) :
    ∃ s ∈ specs, heightAll specs = s.height + 1 := by
  induction specs with
  | nil => exact absurd rfl h
  | cons first rest ih =>
    rw [heightAll]
    by_cases hrest : rest = []
    · subst hrest
      exact ⟨first, List.mem_singleton_self first, by rw [heightAll]; omega⟩
    · obtain ⟨s, hs, heq⟩ := ih hrest
      by_cases hfirst : s.height ≤ first.height
      · exact ⟨first, List.mem_cons_self, by omega⟩
      · exact ⟨s, List.mem_cons_of_mem _ hs, by omega⟩

/-- No path leads deeper than the height. -/
theorem length_le_height (h : s.at? path = some c) : path.length ≤ s.height := by
  induction path generalizing s with
  | nil => exact Nat.zero_le _
  | cons i path ih =>
    rw [at?, Option.bind_eq_some_iff] at h
    obtain ⟨child, hchild, hat⟩ := h
    have hle := ih hat
    have hlt := height_lt_heightAll (List.mem_of_getElem? hchild)
    rw [height_eq s, List.length_cons]
    omega

/-- Some path leads as deep as the height. -/
theorem exists_length_eq_height (s : Spec) :
    ∃ path c, s.at? path = some c ∧ path.length = s.height := by
  by_cases hleaf : s.children = []
  · exact ⟨[], s, rfl, by rw [height_eq, hleaf, heightAll]; rfl⟩
  · obtain ⟨child, hchild, heq⟩ := exists_height_of_heightAll hleaf
    obtain ⟨path, c, hat, hlength⟩ := exists_length_eq_height child
    obtain ⟨i, hi⟩ := List.getElem?_of_mem hchild
    refine ⟨i :: path, c, ?_, ?_⟩
    · rw [at?, hi, Option.bind_some, hat]
    · rw [height_eq, heq, List.length_cons, hlength]
termination_by s.height
decreasing_by
  rw [height_eq s]
  exact height_lt_heightAll hchild

-- ============================================================================
-- Breadth-first order
-- ============================================================================

/-- The order holds each position of the specification and nothing else. -/
theorem mem_breadthFirst_iff : p ∈ root.breadthFirst ↔ root.at? p.path = some p.spec := by
  rw [breadthFirst, List.mem_flatMap]
  constructor
  · rintro ⟨d, -, hp⟩
    exact (mem_level_iff.1 hp).1
  · intro hat
    refine ⟨p.depth, ?_, mem_level_iff.2 ⟨hat, rfl⟩⟩
    have : p.depth ≤ root.height := length_le_height hat
    rw [List.mem_range]
    omega

theorem level_height_succ (root : Spec) : root.level (root.height + 1) = [] := by
  rw [List.eq_nil_iff_forall_not_mem]
  intro p hp
  obtain ⟨hat, hdepth⟩ := mem_level_iff.1 hp
  have : p.depth ≤ root.height := length_le_height hat
  omega

/-- The root comes first; then follow the successors of all positions, in their order. -/
theorem breadthFirst_eq_successors (root : Spec) :
    root.breadthFirst = ⟨root, []⟩ :: root.breadthFirst.flatMap Position.successors := by
  have hlevels : (List.range (root.height + 1)).flatMap (fun d => root.level (d + 1)) =
      (List.range root.height).flatMap fun d => root.level (d + 1) := by
    rw [List.range_succ, List.flatMap_append, List.flatMap_singleton, level_height_succ,
      List.append_nil]
  calc root.breadthFirst
      = root.level 0 ++ (List.range root.height).flatMap fun d => root.level (d + 1) := by
        rw [breadthFirst, List.range_succ_eq_map, List.flatMap_cons, List.flatMap_map]
    _ = ⟨root, []⟩ :: (List.range (root.height + 1)).flatMap fun d => root.level (d + 1) := by
        rw [hlevels, level, List.singleton_append]
    _ = ⟨root, []⟩ :: root.breadthFirst.flatMap Position.successors := by
        rw [breadthFirst, List.flatMap_assoc]
        rfl

theorem append_lt_append {xs ys : List Nat} (hlt : xs < ys) (hlength : xs.length = ys.length)
    (as bs : List Nat) : xs ++ as < ys ++ bs := by
  induction xs generalizing ys with
  | nil =>
    obtain rfl : ys = [] := List.eq_nil_of_length_eq_zero hlength.symm
    exact absurd hlt (List.not_lt_nil _)
  | cons x xs ih =>
    obtain ⟨y, ys, rfl⟩ := List.exists_cons_of_length_eq_add_one hlength.symm
    rw [List.cons_append, List.cons_append, List.cons_lt_cons_iff]
    rcases List.cons_lt_cons_iff.1 hlt with hhead | ⟨rfl, htail⟩
    · exact .inl hhead
    · exact .inr ⟨rfl, ih htail (by simpa using hlength)⟩

theorem pairwise_successors (p : Position) :
    p.successors.Pairwise fun a b => a.path < b.path := by
  rw [List.pairwise_iff_getElem]
  intro i j hi hj hij
  simp only [Position.successors, List.getElem_mapIdx]
  exact List.append_left_lt (List.cons_lt_cons_iff.2 (.inl hij))

/-- On one level the paths grow from left to right. -/
theorem pairwise_level (root : Spec) (d : Nat) :
    (root.level d).Pairwise fun p q => p.path < q.path := by
  induction d with
  | zero => exact List.pairwise_singleton _ _
  | succ d ih =>
    rw [level, List.pairwise_flatMap]
    refine ⟨fun p _ => pairwise_successors p, ih.imp_of_mem ?_⟩
    intro p q hp hq hlt a ha b hb
    obtain ⟨i, -, hai⟩ := mem_successors_iff.1 ha
    obtain ⟨j, -, hbj⟩ := mem_successors_iff.1 hb
    have hdepth : p.depth = q.depth := (mem_level_iff.1 hp).2.trans (mem_level_iff.1 hq).2.symm
    rw [hai, hbj]
    exact append_lt_append hlt hdepth [i] [j]

theorem pairwise_breadthFirst (root : Spec) : root.breadthFirst.Pairwise Position.Before := by
  rw [breadthFirst, List.pairwise_flatMap]
  constructor
  · intro d _
    refine (pairwise_level root d).imp_of_mem ?_
    intro p q hp hq hlt
    exact .inr ⟨(mem_level_iff.1 hp).2.trans (mem_level_iff.1 hq).2.symm, hlt⟩
  · refine List.pairwise_lt_range.imp ?_
    intro d e hlt p hp q hq
    have hpd := (mem_level_iff.1 hp).2
    have hqe := (mem_level_iff.1 hq).2
    exact .inl (by omega)

end Spec

end GameSearch
