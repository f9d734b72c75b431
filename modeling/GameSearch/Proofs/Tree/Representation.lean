/-
  GameSearch.Proofs.Tree.Representation

  What a tree is to the specification it was built from.  The table holds the positions of the
  specification in breadth-first order, so the successors of a position stand next to
  each other and the specification can be read back from the links alone.

    * `Tree.toSpec`              — the specification read off a tree
    * `toSpec_of_entered`        — it is the one whose positions were entered
    * `flatMap_children_range`   — every place but the root's is a child once
    * `build_represents`         — all this of what the loop of the builder leaves
-/
import GameSearch.Proofs.Tree.Entry
import GameSearch.Proofs.Tree.Queries
import GameSearch.Proofs.Tree.WellFormed

namespace GameSearch

namespace Spec

variable {spec : Spec} {k i : Nat} {p : Position}

theorem breadthFirst_eq_cons_of_getElem? (h : spec.breadthFirst[k]? = some p) :
    spec.breadthFirst = spec.breadthFirst.take k ++ p :: spec.breadthFirst.drop (k + 1) := by
  obtain ⟨hk, rfl⟩ := List.getElem?_eq_some_iff.1 h
  rw [List.getElem_cons_drop, List.take_append_drop]

/-- The successors of a position stand next to each other. -/
theorem getElem?_firstSuccessor (h : spec.breadthFirst[k]? = some p)
    (hi : i < p.spec.children.length) :
    spec.breadthFirst[spec.firstSuccessor k + i]? = p.successors[i]? := by
  have hsuccessors : spec.breadthFirst.flatMap Position.successors =
      (spec.breadthFirst.take k).flatMap Position.successors ++
        (p.successors ++ (spec.breadthFirst.drop (k + 1)).flatMap Position.successors) := by
    conv_lhs => rw [breadthFirst_eq_cons_of_getElem? h]
    rw [List.flatMap_append, List.flatMap_cons]
  rw [breadthFirst_eq_successors, hsuccessors, firstSuccessor, Nat.add_right_comm,
    List.getElem?_cons_succ, List.getElem?_append_right (Nat.le_add_right _ _),
    Nat.add_sub_cancel_left, List.getElem?_append_left (by rwa [length_successors])]

theorem firstSuccessor_succ (h : spec.breadthFirst[k]? = some p) :
    spec.firstSuccessor (k + 1) = spec.firstSuccessor k + p.spec.children.length := by
  rw [firstSuccessor, firstSuccessor, List.take_add_one, h, List.flatMap_append, List.length_append]
  simp only [Option.toList_some, List.flatMap_singleton, length_successors]
  omega

/-- After the successors of all positions the order ends. -/
theorem firstSuccessor_length (spec : Spec) :
    spec.firstSuccessor spec.breadthFirst.length = spec.breadthFirst.length := by
  have h := congrArg List.length spec.breadthFirst_eq_successors
  rw [List.length_cons] at h
  rw [firstSuccessor, List.take_length, ← h]

end Spec

namespace Tree

/-- The specification that is read off a tree from a node on, down the lists of children. -/
def toSpec (t : Tree) (i : Nat) : Spec :=
  ⟨some (t.id i), (t.node i).value, (t.children i).attach.map fun ⟨c, _⟩ => toSpec t c⟩
termination_by t.size - i
decreasing_by exact size_sub_lt ‹_›

theorem toSpec_eq (t : Tree) (i : Nat) :
    t.toSpec i = ⟨some (t.id i), (t.node i).value, (t.children i).map t.toSpec⟩ := by
  rw [toSpec, List.attach_map_val]

variable {t : Tree} {spec : Spec} {p : Position} {i j k : Nat}

-- ============================================================================
-- Trees that hold the positions of a specification
-- ============================================================================

section

variable (h : Entered spec spec.breadthFirst t.nodes)

include h

theorem exists_position (hk : k < t.size) : ∃ p, spec.breadthFirst[k]? = some p :=
  ⟨_, List.getElem?_eq_getElem (by rwa [← h.size])⟩

/-- From every node on, what is read off is what stands at its position. -/
theorem toSpec_of_entered (hp : spec.breadthFirst[k]? = some p) : t.toSpec k = p.spec := by
  induction k using childInduction (t := t) generalizing p with
  | step k ih =>
    have hentry := h.entry k p hp
    have hchildren : t.children k =
        List.range' (spec.firstSuccessor k) p.spec.children.length := hentry.children
    have hread : (t.children k).map t.toSpec = p.spec.children := by
      refine List.ext_getElem? fun i => ?_
      by_cases hi : i < p.spec.children.length
      · have hmem : spec.firstSuccessor k + i ∈ t.children k := by
          rw [hchildren, List.mem_range'_1]
          omega
        have hposition : spec.breadthFirst[spec.firstSuccessor k + i]? =
            some ⟨p.spec.children[i], p.path ++ [i]⟩ := by
          rw [Spec.getElem?_firstSuccessor hp hi]
          simp [Position.successors, hi]
        rw [List.getElem?_map, hchildren, List.getElem?_range' hi, Option.map_some, Nat.one_mul,
          ih _ hmem hposition, List.getElem?_eq_getElem hi]
      · simp [hchildren, hi]
    rw [toSpec_eq, hread]
    obtain ⟨⟨name, value, children⟩, path⟩ := p
    exact congrArg₂ (Spec.mk · · children) hentry.id.symm hentry.value

theorem depth_le_of_le (hij : i ≤ j) (hj : j < t.size) : (t.node i).depth ≤ (t.node j).depth := by
  rcases Nat.eq_or_lt_of_le hij with rfl | hlt
  · exact Nat.le_refl _
  have hj' : j < spec.breadthFirst.length := by rwa [← h.size]
  have hi' : i < spec.breadthFirst.length := Nat.lt_trans hlt hj'
  have hbefore := List.pairwise_iff_getElem.1 spec.pairwise_breadthFirst i j hi' hj' hlt
  have hi := (h.entry i _ (List.getElem?_eq_getElem hi')).depth
  have hj := (h.entry j _ (List.getElem?_eq_getElem hj')).depth
  rw [node, node, hi, hj]
  rcases hbefore with hdepth | ⟨hdepth, -⟩
  · exact Nat.le_of_lt hdepth
  · exact Nat.le_of_eq hdepth

/-- The lists of children, one after the other, are all places but the root's in their order. -/
theorem flatMap_children_range :
    (List.range t.size).flatMap t.children = List.range' 1 (t.size - 1) := by
  have hplaces : ∀ n ≤ t.size,
      (List.range n).flatMap t.children = List.range' 1 (spec.firstSuccessor n - 1) := by
    intro n
    induction n with
    | zero => simp [Spec.firstSuccessor]
    | succ n ih =>
      intro hn
      obtain ⟨p, hp⟩ := exists_position h hn
      have hchildren : t.children n =
          List.range' (spec.firstSuccessor n) p.spec.children.length := (h.entry n p hp).children
      have hpos : 0 < spec.firstSuccessor n := Nat.succ_pos _
      rw [List.range_succ, List.flatMap_append, ih (by omega), List.flatMap_singleton, hchildren,
        Spec.firstSuccessor_succ hp]
      rw [show spec.firstSuccessor n + p.spec.children.length - 1 =
        spec.firstSuccessor n - 1 + p.spec.children.length by omega, ← List.range'_append_1,
        Nat.add_sub_cancel' hpos]
  have hsize : t.size = spec.breadthFirst.length := h.size
  rw [hplaces t.size (Nat.le_refl _), hsize, Spec.firstSuccessor_length]

theorem height_of_entered : t.height = spec.height := by
  refine Nat.le_antisymm (height_le_iff.2 fun i hi => ?_) ?_
  · obtain ⟨p, hp⟩ := exists_position h hi
    rw [node, (h.entry i p hp).depth]
    exact Spec.length_le_height (Spec.mem_breadthFirst_iff.1 (List.mem_of_getElem? hp))
  · obtain ⟨path, s, hat, hlength⟩ := spec.exists_length_eq_height
    obtain ⟨k, hk⟩ := List.getElem?_of_mem
      (Spec.mem_breadthFirst_iff (p := ⟨s, path⟩).2 hat)
    have hsize : k < t.size := by
      rw [size, h.size]
      exact (List.getElem?_eq_some_iff.1 hk).1
    have hdepth := height_le_iff.1 (Nat.le_refl t.height) k hsize
    rw [node, (h.entry k _ hk).depth] at hdepth
    exact hlength ▸ hdepth

end

-- ============================================================================
-- The tree of a specification
-- ============================================================================

/-- A tree holds a specification, position by position and with nothing else. -/
structure Represents (t : Tree) (spec : Spec) : Prop where
  /-- Read from the root through the lists of children the tree is the specification. -/
  reads_back : t.toSpec t.root = spec
  size_eq : t.size = spec.breadthFirst.length
  /-- At each place stands the position that has this place breadth first. -/
  breadth_first : ∀ k p, spec.breadthFirst[k]? = some p →
    t.toSpec k = p.spec ∧ (t.node k).depth = p.depth
  depth_mono : ∀ i j, i ≤ j → j < t.size → (t.node i).depth ≤ (t.node j).depth
  root_eq : t.root = 0
  parent_eq_none_iff : ∀ i < t.size, t.parent i = none ↔ i = t.root
  parent_lt : ∀ i p, t.parent i = some p → p < i
  /-- Every other place is in one list of children, once. -/
  children_partition : (List.range t.size).flatMap t.children = List.range' 1 (t.size - 1)
  mem_children_iff : ∀ p c, c ∈ t.children p ↔ t.parent c = some p
  depth_child : ∀ p c, c ∈ t.children p → (t.node c).depth = (t.node p).depth + 1
  find_iff : ∀ id n, t.find? id = some n ↔ n < t.size ∧ t.id n = id
  leafValues_fails_iff : (∃ fault, t.leafValues = .error fault) ↔ ∃ n, t.Valueless n
  leafValues_fault : ∀ fault, t.leafValues = .error fault ↔
    ∃ n, t.Valueless n ∧ (∀ m < n, ¬ t.Valueless m) ∧ fault = .leafWithoutValue (t.id n)
  height_eq : t.height = spec.height

theorem entered_of_build {limits : Limits} (h : build limits spec = .ok t) :
    Entered spec spec.breadthFirst t.nodes := by
  have houtcome := build_outcome limits spec
  rw [h] at houtcome
  exact houtcome.2

theorem parent_eq_none_iff (hi : i < t.size) : t.parent i = none ↔ i = t.root := by
  constructor
  · intro hnone
    by_cases hpos : 0 < i
    · exact absurd hnone (t.wellFormed.has_parent i hpos hi)
    · exact Nat.eq_zero_of_not_pos hpos
  · rintro rfl
    exact t.wellFormed.root_parent

theorem represents_of_build {limits : Limits} (h : build limits spec = .ok t) :
    t.Represents spec := by
  have hentered := entered_of_build h
  constructor
  case reads_back =>
    have hroot : spec.breadthFirst[0]? = some ⟨spec, []⟩ := by
      rw [Spec.breadthFirst_eq_successors, List.getElem?_cons_zero]
    exact toSpec_of_entered hentered hroot
  case size_eq => exact hentered.size
  case breadth_first =>
    exact fun k p hp => ⟨toSpec_of_entered hentered hp, (hentered.entry k p hp).depth⟩
  case depth_mono => exact fun i j => depth_le_of_le hentered
  case root_eq => rfl
  case parent_eq_none_iff => exact fun i => parent_eq_none_iff
  case parent_lt => exact fun i p => lt_of_parent
  case children_partition => exact flatMap_children_range hentered
  case mem_children_iff => exact fun p c => mem_children_iff
  case depth_child => exact fun p c hc => depth_of_mem_children hc
  case find_iff => exact fun id n => find?_eq_some_iff
  case leafValues_fails_iff => exact exists_leafValues_error_iff
  case leafValues_fault => exact fun fault => leafValues_eq_error_iff
  case height_eq => exact height_of_entered hentered

/-- Whenever a specification has a tree, the tree holds the specification.  Its table, its index
    and its note of a leaf without a value are those that the loop of the builder leaves, and the
    table is the planned one. -/
theorem build_represents {limits : Limits} (h : build limits spec = .ok t) :
    Arena.ofSpec limits spec = .ok ⟨t.nodes, t.index, t.valuelessLeaf?⟩ ∧
    fill limits #[] ∅ 1 [⟨spec, none, 0, []⟩] [] = .ok t.nodes ∧
    t.Represents spec := by
  refine ⟨ofSpec_of_build h, ?_, represents_of_build h⟩
  rw [← map_build, h]
  rfl

/-- A tree with the planned table is the one that is built. -/
theorem build_eq_ok_of_fill {limits : Limits} {spec : Spec} {t : Tree}
    (h : fill limits #[] ∅ 1 [⟨spec, none, 0, []⟩] [] = .ok t.nodes) :
    build limits spec = .ok t := by
  have hmap := map_build limits spec
  rw [h] at hmap
  cases hbuild : build limits spec with
  | ok t' =>
    rw [hbuild] at hmap
    rw [eq_of_nodes_eq (Except.ok.inj hmap)]
  | error fault =>
    rw [hbuild] at hmap
    cases hmap

/-- What `Tree.small` was built from. -/
def smallSpec : Spec :=
  .inner "R" [
    .inner "A" [.leaf "A1" 4.0, .leaf "A2" 6.0],
    .inner "B" [.leaf "B1" 3.0, .leaf "B2" 9.0]]

theorem build_smallSpec : build {} smallSpec = .ok small := by
  have hfinite : Float.isFinite 4.0 = true ∧ Float.isFinite 6.0 = true ∧
      Float.isFinite 3.0 = true ∧ Float.isFinite 9.0 = true := by decide
  have hfill : fill {} #[] ∅ 1 [⟨smallSpec, none, 0, []⟩] [] = .ok small.nodes := by
    simp [fill, smallSpec, Spec.inner, Spec.leaf, Pending.check, Pending.successors,
      Pending.node, small, hfinite, List.range']
  exact build_eq_ok_of_fill hfill

theorem build_represents_small :
    build {} smallSpec = .ok small ∧
    Arena.ofSpec {} smallSpec = .ok ⟨small.nodes, small.index, small.valuelessLeaf?⟩ ∧
    fill {} #[] ∅ 1 [⟨smallSpec, none, 0, []⟩] [] = .ok small.nodes ∧
    small.Represents smallSpec :=
  ⟨build_smallSpec, build_represents build_smallSpec⟩

end Tree

end GameSearch
