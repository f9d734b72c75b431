/-
  GameSearch.Proofs.Tree.Walks

  The two walks over a tree that was built from a specification.  The walk down is a loop over a
  stack, on which the children of a node are laid in reverse; it takes as many turns as there
  are nodes and comes to them in the depth-first order of the specification.  The walk up follows
  the parents; it takes one turn for each level, and it comes to those nodes whose subtrees
  hold the node it started from.

    * `Spec.depthFirst`       — the positions of a specification, depth first
    * `tour_spec`             — what the loop over the stack has come to after some turns
    * `subtree_of_entered`    — the walk down, against the specification
    * `mem_ancestors_iff`     — the walk up, against the subtrees
    * `build_walked`          — all this of the tree of a specification
-/
import Mathlib.Data.List.Forall2
import Mathlib.Logic.Function.Iterate
import Mathlib.Logic.Relation
import GameSearch.Proofs.Tree.Preorder

namespace GameSearch

-- ============================================================================
-- Depth-first order of a specification
-- ============================================================================

/-- A position and all that follows it: first the position, then its successors from left to right,
    each with all that follows it. -/
def Position.depthFirst (p : Position) : List Position :=
  p :: p.successors.attach.flatMap fun ⟨q, _⟩ => q.depthFirst
termination_by p.spec.height
decreasing_by
  rw [Spec.height_eq p.spec]
  obtain ⟨i, hi, -⟩ := Spec.mem_successors_iff.1 ‹_›
  exact Spec.height_lt_heightAll (List.mem_of_getElem? hi)

theorem Position.depthFirst_eq (p : Position) :
    p.depthFirst = p :: p.successors.flatMap Position.depthFirst := by
  rw [depthFirst, List.flatMap_subtype fun _ _ => rfl, List.unattach_attach]

/-- All positions of a specification, depth first and from left to right. -/
def Spec.depthFirst (spec : Spec) : List Position := Position.depthFirst ⟨spec, []⟩

namespace Tree

variable {t : Tree} {spec : Spec} {p : Position} {a b c i j k n : Nat}

-- ============================================================================
-- The walk down as a loop
-- ============================================================================

/-- What the loop over the stack carries: the nodes it came to, and the stack with its top at the
    end. -/
structure Tour where
  order : List Nat
  stack : List Nat

/-- A turn takes the top off the stack and lays its children there in reverse. -/
def turn (t : Tree) (tour : Tour) : Tour :=
  match tour.stack.getLast? with
  | none => tour
  | some i => ⟨tour.order ++ [i], tour.stack.dropLast ++ (t.children i).reverse⟩

/-- Before the first turn the root alone is on the stack. -/
def outset (t : Tree) : Tour := ⟨[], [t.root]⟩

theorem turn_reverse_cons (order : List Nat) (i : Nat) (places : List Nat) :
    t.turn ⟨order, (i :: places).reverse⟩ =
      ⟨order ++ [i], (t.children i ++ places).reverse⟩ := by
  rw [turn, List.reverse_cons, List.getLast?_concat, List.dropLast_concat, List.reverse_append]

theorem turn_nil (order : List Nat) : t.turn ⟨order, []⟩ = ⟨order, []⟩ := rfl

/-- After some turns the loop has come to as many nodes of the walk, and the stack is empty as soon
    as it has come to all of them. -/
theorem tour_spec (order places : List Nat) (k : Nat) :
    (t.turn^[k] ⟨order, places.reverse⟩).order = order ++ (t.walk places).take k ∧
      ((t.turn^[k] ⟨order, places.reverse⟩).stack = [] ↔ (t.walk places).length ≤ k) := by
  induction k generalizing order places with
  | zero =>
    rw [Function.iterate_zero_apply, List.take_zero, List.append_nil, List.reverse_eq_nil_iff]
    refine ⟨rfl, ?_⟩
    cases places with
    | nil => simp [walk_nil]
    | cons i places => simp [walk_cons]
  | succ k ih =>
    rw [Function.iterate_succ_apply]
    cases places with
    | nil => simpa [turn_nil, walk_nil] using ih order []
    | cons i places =>
      obtain ⟨horder, hstack⟩ := ih (order ++ [i]) (t.children i ++ places)
      rw [turn_reverse_cons, walk_cons, List.take_succ_cons, List.length_cons, horder, hstack,
        List.append_assoc, Nat.add_le_add_iff_right]
      exact ⟨rfl, Iff.rfl⟩

/-- From the root on the loop comes to the nodes in preorder, one in each turn. -/
theorem tour_outset (t : Tree) (k : Nat) :
    (t.turn^[k] t.outset).order = t.preorder.take k ∧
      ((t.turn^[k] t.outset).stack = [] ↔ t.size ≤ k) := by
  have htour := tour_spec (t := t) [] [t.root] k
  rwa [List.nil_append, ← preorder, length_preorder] at htour

-- ============================================================================
-- The walk down against the specification
-- ============================================================================

section

variable (h : Entered spec spec.breadthFirst t.nodes)

include h

/-- The places of the children are those of the successors. -/
theorem forall₂_children_of_entered (hp : spec.breadthFirst[k]? = some p) :
    List.Forall₂ (fun c q => c ∈ t.children k ∧ spec.breadthFirst[c]? = some q)
      (t.children k) p.successors := by
  have hchildren : t.children k =
      List.range' (spec.firstSuccessor k) p.spec.children.length := (h.entry k p hp).children
  have hlength : (t.children k).length = p.successors.length := by
    rw [hchildren, List.length_range', Spec.length_successors]
  refine List.forall₂_iff_get.2 ⟨hlength, fun i hi hi' => ⟨List.get_mem _ _, ?_⟩⟩
  have hlt : i < p.spec.children.length := by rwa [← Spec.length_successors]
  have hplace : (t.children k).get ⟨i, hi⟩ = spec.firstSuccessor k + i := by
    simp [hchildren]
  rw [hplace, Spec.getElem?_firstSuccessor hp hlt, List.get_eq_getElem,
    List.getElem?_eq_getElem hi']

/-- Below each node the walk comes to the positions that follow its own. -/
theorem subtree_of_entered (hp : spec.breadthFirst[k]? = some p) :
    List.Forall₂ (fun i q => spec.breadthFirst[i]? = some q) (t.subtree k) p.depthFirst := by
  induction k using childInduction (t := t) generalizing p with
  | step k ih =>
    rw [subtree_eq, Position.depthFirst_eq]
    refine .cons hp (List.rel_flatMap (forall₂_children_of_entered h hp) ?_)
    rintro c q ⟨hc, hq⟩
    exact ih c hc hq

theorem preorder_of_entered :
    List.Forall₂ (fun i p => spec.breadthFirst[i]? = some p) t.preorder spec.depthFirst := by
  have hroot : spec.breadthFirst[0]? = some ⟨spec, []⟩ := by
    rw [Spec.breadthFirst_eq_successors, List.getElem?_cons_zero]
  exact subtree_of_entered h hroot

/-- What is read off the tree along the walk is what stands in the specification along it. -/
theorem toSpec_preorder_of_entered :
    t.preorder.map t.toSpec = spec.depthFirst.map Position.spec := by
  rw [← List.forall₂_eq_eq_eq, List.forall₂_map_left_iff, List.forall₂_map_right_iff]
  exact (preorder_of_entered h).imp fun i p hp => toSpec_of_entered h hp

end

-- ============================================================================
-- Subtrees
-- ============================================================================

/-- A node is the top of the subtree, or is reached from there down the lists of children. -/
def InSubtree (t : Tree) (top : Nat) : Nat → Prop :=
  Relation.ReflTransGen (fun p c => c ∈ t.children p) top

/-- The walk up comes to those nodes whose subtrees hold the node. -/
theorem mem_ancestors_iff : a ∈ t.ancestors i ↔ t.InSubtree a i := by
  constructor
  · induction i using parentInduction (t := t) with
    | top i hi =>
      rw [ancestors_of_root hi, List.mem_singleton]
      rintro rfl
      exact .refl
    | step i p hi ih =>
      rw [mem_ancestors_iff_of_parent hi]
      rintro (rfl | ha)
      · exact .refl
      · exact (ih ha).tail (mem_children_iff.2 hi)
  · intro hbelow
    induction hbelow with
    | refl => exact t.self_mem_ancestors a
    | tail _ hc ih => exact (mem_ancestors_iff_of_parent (mem_children_iff.1 hc)).2 (.inr ih)

/-- In the preorder a subtree is one segment, which starts with its top. -/
theorem exists_segment (hi : i < t.size) :
    ∃ left below right, t.preorder = left ++ i :: below ++ right ∧
      ∀ j, j ∈ i :: below ↔ t.InSubtree i j := by
  obtain ⟨left, right, hblock, -⟩ := exists_block (i := t.root) (mem_preorder_iff.2 hi)
  refine ⟨left, (t.children i).flatMap t.subtree, right, ?_, fun j => ?_⟩
  · rw [← subtree_eq]
    exact hblock
  · rw [← subtree_eq, mem_subtree_iff, mem_ancestors_iff]

-- ============================================================================
-- The walk up
-- ============================================================================

/-- The walk up takes the parent of a node, the parent of that, and so on, as long as there is
    one. -/
theorem getElem?_ancestors (t : Tree) (i k : Nat) :
    (t.ancestors i)[k]? = (·.bind t.parent)^[k] (some i) := by
  induction k generalizing i with
  | zero => cases hi : t.parent i <;> simp [ancestors_of_root, ancestors_of_parent, hi]
  | succ k ih =>
    rw [Function.iterate_succ_apply, Option.bind_some]
    cases hi : t.parent i with
    | none =>
      rw [ancestors_of_root hi, Function.iterate_fixed rfl]
      rfl
    | some p => rw [ancestors_of_parent hi, List.getElem?_cons_succ, ih]

/-- From level to level, the walk up ends at the root. -/
theorem depths_ancestors (hi : i < t.size) :
    (t.ancestors i).map (fun a => (t.node a).depth) =
      (List.range ((t.node i).depth + 1)).reverse ∧
      (t.ancestors i).getLast? = some t.root := by
  induction i using parentInduction (t := t) with
  | top i hnone =>
    obtain rfl := (parent_eq_none_iff hi).1 hnone
    have hdepth : (t.node t.root).depth = 0 := t.wellFormed.root_depth
    rw [ancestors_of_root hnone, List.map_singleton, hdepth]
    exact ⟨rfl, rfl⟩
  | step i p hp ih =>
    obtain ⟨hdepths, hlast⟩ := ih (Nat.lt_trans (lt_of_parent hp) hi)
    have hdepth : (t.node i).depth = (t.node p).depth + 1 :=
      depth_of_mem_children (mem_children_iff.2 hp)
    constructor
    · rw [ancestors_of_parent hp, List.map_cons, hdepths, hdepth,
        List.range_succ (n := (t.node p).depth + 1), List.reverse_concat]
    · rw [ancestors_of_parent hp, List.getLast?_cons, hlast, Option.getD_some]

theorem pairwise_ancestors (t : Tree) (i : Nat) : (t.ancestors i).Pairwise (· > ·) := by
  induction i using parentInduction (t := t) with
  | top i hi =>
    rw [ancestors_of_root hi]
    exact List.pairwise_singleton _ i
  | step i p hi ih =>
    rw [ancestors_of_parent hi]
    refine List.Pairwise.cons (fun a ha => ?_) ih
    exact Nat.lt_of_le_of_lt (le_of_mem_ancestors ha) (lt_of_parent hi)

theorem length_ancestors (hi : i < t.size) :
    (t.ancestors i).length = (t.node i).depth + 1 := by
  have hlength := congrArg List.length (depths_ancestors hi).1
  rwa [List.length_map, List.length_reverse, List.length_range] at hlength

theorem head?_ancestors (t : Tree) (i : Nat) : (t.ancestors i).head? = some i := by
  rw [List.head?_eq_getElem?, getElem?_ancestors, Function.iterate_zero_apply]

-- ============================================================================
-- The tree of a specification
-- ============================================================================

/-- Where the walks over a tree lead, against the specification of the tree. -/
structure Walked (t : Tree) (spec : Spec) : Prop where
  /-- A turn of the loop over the stack comes to the next node of the preorder, and after so many
      turns as there are nodes the loop is at its end. -/
  loop : ∀ k, (t.turn^[k] t.outset).order = t.preorder.take k ∧
    ((t.turn^[k] t.outset).stack = [] ↔ t.size ≤ k)
  /-- Place by place, the preorder is the depth-first order of the specification. -/
  depth_first :
    List.Forall₂ (fun i p => spec.breadthFirst[i]? = some p) t.preorder spec.depthFirst
  reads_along : t.preorder.map t.toSpec = spec.depthFirst.map Position.spec
  once : t.preorder.Perm (List.range t.size)
  /-- Each subtree is one segment, and its top comes first. -/
  segment : ∀ i < t.size, ∃ left below right, t.preorder = left ++ i :: below ++ right ∧
    ∀ j, j ∈ i :: below ↔ t.InSubtree i j
  /-- The walk up has come to an end when there is no parent. -/
  parents : ∀ i k, (t.ancestors i)[k]? = (·.bind t.parent)^[k] (some i)
  length_up : ∀ i < t.size, (t.ancestors i).length = (t.node i).depth + 1
  places_fall : ∀ i < t.size, (t.ancestors i).Pairwise (· > ·)
  depths_fall : ∀ i < t.size, (t.ancestors i).map (fun a => (t.node a).depth) =
    (List.range ((t.node i).depth + 1)).reverse
  from_to : ∀ i < t.size,
    (t.ancestors i).head? = some i ∧ (t.ancestors i).getLast? = some t.root
  above : ∀ i < t.size, ∀ a, a ∈ t.ancestors i ↔ t.InSubtree a i

/-- Over the tree of a specification the walk down comes to every node once and in the depth-first
    order of the specification, the walk up to those nodes whose subtrees hold the one it started
    from; both end. -/
theorem build_walked {limits : Limits} (h : build limits spec = .ok t) : t.Walked spec := by
  have hentered := entered_of_build h
  constructor
  case loop => exact t.tour_outset
  case depth_first => exact preorder_of_entered hentered
  case reads_along => exact toSpec_preorder_of_entered hentered
  case once => exact t.perm_preorder
  case segment => exact fun i hi => exists_segment hi
  case parents => exact t.getElem?_ancestors
  case length_up => exact fun i hi => length_ancestors hi
  case places_fall => exact fun i _ => t.pairwise_ancestors i
  case depths_fall => exact fun i hi => (depths_ancestors hi).1
  case from_to => exact fun i hi => ⟨t.head?_ancestors i, (depths_ancestors hi).2⟩
  case above => exact fun i _ a => mem_ancestors_iff

theorem build_walked_small : build {} smallSpec = .ok small ∧ small.Walked smallSpec :=
  ⟨build_smallSpec, build_walked build_smallSpec⟩

end Tree

end GameSearch
