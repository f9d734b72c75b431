/-
  GameSearch.Proofs.Tree.Mirror

  The mirror image of a tree.  All values change their sign, and the tree hangs below a new
  root as its only child, so that the sides change places at every node.  A node moves one
  place up in the table.

    * `Tree.mirror`             — the mirror image, which is a tree again
    * `kind_mirror`             — the other side moves
    * `toSpec_mirror`           — read off, it is the specification with all values turned
    * `leavesValued_mirror`     — its leaves have values if those of the tree have
-/
import GameSearch.Proofs.Minimax.Value
import GameSearch.Proofs.Score.Negation
import GameSearch.Proofs.Tree.Representation

namespace GameSearch

/-- The side that is not to move. -/
def Kind.other : Kind → Kind
  | .max => .min
  | .min => .max

theorem Kind.atDepth_succ (depth : Nat) : atDepth (depth + 1) = (atDepth depth).other := by
  unfold atDepth
  rcases Nat.mod_two_eq_zero_or_one depth with h | h
  · have hnext : ¬ (depth + 1) % 2 = 0 := by omega
    rw [if_pos h, if_neg hnext]
    rfl
  · have hnext : (depth + 1) % 2 = 0 := by omega
    have hodd : ¬ depth % 2 = 0 := by omega
    rw [if_neg hodd, if_pos hnext]
    rfl

namespace Spec

mutual

/-- The specification with the signs of all values changed. -/
def negate : Spec → Spec
  | ⟨id, value, children⟩ => ⟨id, value.map (- ·), negateAll children⟩

/-- Several specifications with the signs of all values changed. -/
def negateAll : List Spec → List Spec
  | [] => []
  | s :: rest => negate s :: negateAll rest

end

theorem negateAll_eq_map (specs : List Spec) : negateAll specs = specs.map negate := by
  induction specs with
  | nil => rfl
  | cons s rest ih => rw [negateAll, ih, List.map_cons]

end Spec

/-- The node with the sign of its value changed, one place further up in the table and one level
    further down in the tree.  A root comes below the new root. -/
def Node.mirror (n : Node) : Node where
  id := n.id
  value := n.value.map (- ·)
  children := n.children.map (· + 1)
  parent := some (n.parent.elim 0 (· + 1))
  depth := n.depth + 1

/-- The table with a new root in front. -/
def mirrorNodes (fresh : String) (nodes : Array Node) : Array Node :=
  #[⟨fresh, none, [1], none, 0⟩] ++ nodes.map Node.mirror

section Table

variable {fresh : String} {nodes : Array Node}

theorem size_mirrorNodes : (mirrorNodes fresh nodes).size = nodes.size + 1 := by
  simp [mirrorNodes, Nat.add_comm]

theorem nodeAt_mirrorNodes_zero :
    nodeAt (mirrorNodes fresh nodes) 0 = ⟨fresh, none, [1], none, 0⟩ := by
  simp [nodeAt, mirrorNodes]

theorem nodeAt_mirrorNodes_succ {i : Nat} (hi : i < nodes.size) :
    nodeAt (mirrorNodes fresh nodes) (i + 1) = (nodeAt nodes i).mirror := by
  simp [nodeAt, mirrorNodes, hi, Array.getElem?_append]

/-- What holds of the new root and of the nodes after it holds of all. -/
theorem forall_mirrorNodes {P : Nat → Node → Prop} (hroot : P 0 ⟨fresh, none, [1], none, 0⟩)
    (hrest : ∀ i < nodes.size, P (i + 1) (nodeAt nodes i).mirror) :
    ∀ i < (mirrorNodes fresh nodes).size, P i (nodeAt (mirrorNodes fresh nodes) i) := by
  intro i hi
  rw [size_mirrorNodes] at hi
  cases i with
  | zero =>
    rw [nodeAt_mirrorNodes_zero]
    exact hroot
  | succ i =>
    have hlt : i < nodes.size := Nat.lt_of_succ_lt_succ hi
    rw [nodeAt_mirrorNodes_succ hlt]
    exact hrest i hlt

/-- The parent of a node is the parent it had, or the new root. -/
theorem parent_mirror (h : WellFormed nodes) {i p : Nat} (hi : i < nodes.size)
    (hp : (nodeAt nodes i).mirror.parent = some p) :
    i = 0 ∧ p = 0 ∨ ∃ q, p = q + 1 ∧ (nodeAt nodes i).parent = some q := by
  cases hparent : (nodeAt nodes i).parent with
  | none =>
    rw [Node.mirror, hparent, Option.some.injEq] at hp
    exact .inl ⟨(Tree.parent_eq_none_iff (t := { nodes, wellFormed := h }) hi).1 hparent, hp.symm⟩
  | some q =>
    rw [Node.mirror, hparent, Option.some.injEq] at hp
    exact .inr ⟨q, hp.symm, rfl⟩

/-- The table of a tree stays one if the new root has an identifier of its own. -/
theorem wellFormed_mirrorNodes (h : WellFormed nodes)
    (hfresh : ∀ i < nodes.size, (nodeAt nodes i).id ≠ fresh) :
    WellFormed (mirrorNodes fresh nodes) := by
  rw [wellFormed_iff_bounded]
  refine ⟨⟨?_, ?_, ?_⟩, ?_, ?_, ?_, ?_, ?_, ?_, ?_⟩
  · rw [size_mirrorNodes]
    exact Nat.succ_pos _
  · rw [nodeAt_mirrorNodes_zero]
  · rw [nodeAt_mirrorNodes_zero]
  · -- the children of a node name it as their parent
    apply forall_mirrorNodes (P := fun i n => ∀ c ∈ n.children,
      (nodeAt (mirrorNodes fresh nodes) c).parent = some i)
    · intro c hc
      rw [List.mem_singleton.1 hc, nodeAt_mirrorNodes_succ h.nonempty, Node.mirror, h.root_parent]
      rfl
    · intro i hi c hc
      obtain ⟨d, hd, rfl⟩ := List.mem_map.1 hc
      have hd' : d < nodes.size := Tree.lt_size_of_mem_children (t := { nodes, wellFormed := h }) hd
      rw [nodeAt_mirrorNodes_succ hd', Node.mirror, (h.mem_children i d).1 hd]
      rfl
  · -- and the other way around
    apply forall_mirrorNodes (P := fun i n => ∀ p ∈ n.parent,
      i ∈ (nodeAt (mirrorNodes fresh nodes) p).children ∧ p < i ∧
        n.depth = (nodeAt (mirrorNodes fresh nodes) p).depth + 1)
    · intro p hp
      cases hp
    · intro i hi p hp
      rcases parent_mirror h hi hp with ⟨rfl, rfl⟩ | ⟨q, rfl, hq⟩
      · rw [nodeAt_mirrorNodes_zero, Node.mirror, h.root_depth]
        exact ⟨List.mem_singleton.2 rfl, Nat.one_pos, rfl⟩
      · have hlt := h.parent_lt q i hq
        rw [nodeAt_mirrorNodes_succ (Nat.lt_trans hlt hi)]
        refine ⟨List.mem_map_of_mem ((h.mem_children q i).2 hq), Nat.succ_lt_succ hlt, ?_⟩
        exact congrArg (· + 1) (h.parent_depth q i hq)
  · apply forall_mirrorNodes (P := fun i n => 0 < i → n.parent ≠ none)
    · exact fun hpos => absurd hpos (Nat.lt_irrefl 0)
    · exact fun i hi _ => Option.some_ne_none _
  · apply forall_mirrorNodes (P := fun _ n => n.children.Pairwise (· < ·))
    · exact List.pairwise_singleton _ _
    · exact fun i hi =>
        List.pairwise_map.2 ((h.children_sorted i).imp fun hab => Nat.add_lt_add_right hab 1)
  · -- identifiers are distinct: those of the tree among each other, and the new one from them
    apply forall_mirrorNodes (P := fun i n => ∀ j < (mirrorNodes fresh nodes).size,
      n.id = (nodeAt (mirrorNodes fresh nodes) j).id → i = j)
    · apply forall_mirrorNodes (P := fun j n => fresh = n.id → 0 = j)
      · exact fun _ => rfl
      · exact fun j hj hid => absurd hid.symm (hfresh j hj)
    · intro i hi
      apply forall_mirrorNodes (P := fun j n => (nodeAt nodes i).id = n.id → i + 1 = j)
      · exact fun hid => absurd hid (hfresh i hi)
      · exact fun j hj hid => congrArg (· + 1) (h.ids_distinct i j hi hj hid)
  · apply forall_mirrorNodes (P := fun _ n => n.children ≠ [] → n.value = none)
    · exact fun _ => rfl
    · intro i hi hchildren
      rw [Node.mirror, h.internal_value i fun hnil => hchildren (by rw [Node.mirror, hnil]; rfl)]
      rfl
  · apply forall_mirrorNodes (P := fun _ n => ∀ v ∈ n.value, v.isFinite = true)
    · intro v hv
      cases hv
    · intro i hi v hv
      obtain ⟨x, hx, rfl⟩ := Option.map_eq_some_iff.1 hv
      rw [Score.isFinite_neg]
      exact h.value_finite i x hx

end Table

namespace Tree

/-- The tree with the signs of all values changed, as the only child of a new root. -/
def mirror (t : Tree) (fresh : String) (hfresh : ∀ i < t.size, t.id i ≠ fresh) : Tree where
  nodes := mirrorNodes fresh t.nodes
  wellFormed := wellFormed_mirrorNodes t.wellFormed hfresh

variable {t : Tree} {fresh : String} {hfresh : ∀ i < t.size, t.id i ≠ fresh} {i : Nat}

theorem size_mirror : (t.mirror fresh hfresh).size = t.size + 1 := size_mirrorNodes

theorem node_mirror (hi : i < t.size) :
    (t.mirror fresh hfresh).node (i + 1) = (t.node i).mirror :=
  nodeAt_mirrorNodes_succ hi

theorem children_mirror (hi : i < t.size) :
    (t.mirror fresh hfresh).children (i + 1) = (t.children i).map (· + 1) := by
  rw [children, node_mirror hi]
  rfl

theorem kind_mirror (hi : i < t.size) :
    (t.mirror fresh hfresh).kind (i + 1) = (t.kind i).other := by
  rw [kind, node_mirror hi]
  exact Kind.atDepth_succ _

/-- From every node on, the mirror image reads as the specification with all values turned. -/
theorem toSpec_mirror_succ (hi : i < t.size) :
    (t.mirror fresh hfresh).toSpec (i + 1) = (t.toSpec i).negate := by
  induction i using childInduction (t := t) with
  | step i ih =>
    have hchildren : (t.children i).map (fun c => (t.mirror fresh hfresh).toSpec (c + 1)) =
        (t.children i).map fun c => (t.toSpec c).negate :=
      List.map_congr_left fun c hc => ih c hc (lt_size_of_mem_children hc)
    rw [toSpec_eq, toSpec_eq t i, children_mirror hi, Spec.negate, Spec.negateAll_eq_map,
      List.map_map, List.map_map, id, node_mirror hi]
    exact congrArg (Spec.mk _ _) hchildren

theorem toSpec_mirror :
    (t.mirror fresh hfresh).toSpec (t.mirror fresh hfresh).root =
      .inner fresh [(t.toSpec t.root).negate] := by
  have hroot : (t.mirror fresh hfresh).node 0 = ⟨fresh, none, [1], none, 0⟩ :=
    nodeAt_mirrorNodes_zero
  rw [root, toSpec_eq, id, children, hroot]
  show Spec.mk _ _ [(t.mirror fresh hfresh).toSpec (0 + 1)] = _
  rw [toSpec_mirror_succ t.wellFormed.nonempty]
  rfl

theorem leavesValued_mirror (ht : t.LeavesValued) : (t.mirror fresh hfresh).LeavesValued := by
  intro i hi hleaf
  rw [size_mirror] at hi
  cases i with
  | zero =>
    have hroot : (t.mirror fresh hfresh).children 0 = [1] :=
      congrArg Node.children nodeAt_mirrorNodes_zero
    rw [hroot] at hleaf
    cases hleaf
  | succ i =>
    rw [children_mirror (by omega), List.map_eq_nil_iff] at hleaf
    rw [node_mirror (by omega), Node.mirror, Option.isSome_map]
    exact ht i (by omega) hleaf

/-- The value that stands with a node changes its sign. -/
theorem minimaxValue_mirror_of_value {value : Score} (hi : i < t.size)
    (h : (t.node i).value = some value) :
    (t.mirror fresh hfresh).minimaxValue (i + 1) = -t.minimaxValue i := by
  have hmirror : ((t.mirror fresh hfresh).node (i + 1)).value = some (-value) := by
    rw [node_mirror hi, Node.mirror, h]
    rfl
  rw [minimaxValue_of_value hmirror, minimaxValue_of_value h]

end Tree

end GameSearch
