/-
  GameSearch.Tree.Walk

  Walks over a tree: up to the root, down in preorder, and along the table.  The
  walks down end because the subtrees still to be visited shrink, the walk up
  because a parent stands before its children.
-/
import GameSearch.Arithmetic
import GameSearch.Tree.Basic
import GameSearch.Tree.Fault

namespace GameSearch.Tree

attribute [local instance] Arithmetic.zero

/-- The number of nodes at or below a place. -/
def subtreeSize (t : Tree) (i : Nat) : Nat :=
  ((t.children i).attach.map fun ⟨c, _⟩ => subtreeSize t c).sum + 1
termination_by t.size - i
decreasing_by exact size_sub_lt ‹_›

/-- The number of nodes in the subtrees at the given places. -/
def subtreeSizes (t : Tree) (places : List Nat) : Nat := (places.map t.subtreeSize).sum

theorem subtreeSize_eq (t : Tree) (i : Nat) :
    t.subtreeSize i = t.subtreeSizes (t.children i) + 1 := by
  rw [subtreeSize, subtreeSizes]
  simp

theorem subtreeSizes_nil (t : Tree) : t.subtreeSizes [] = 0 := rfl

theorem subtreeSizes_cons (t : Tree) (i : Nat) (rest : List Nat) :
    t.subtreeSizes (i :: rest) = t.subtreeSize i + t.subtreeSizes rest := by
  simp [subtreeSizes]

theorem subtreeSizes_append (t : Tree) (xs ys : List Nat) :
    t.subtreeSizes (xs ++ ys) = t.subtreeSizes xs + t.subtreeSizes ys := by
  simp [subtreeSizes]

/-- The nodes of the subtrees at the places of a stack, each subtree depth first and from left
    to right. -/
def walk (t : Tree) : List Nat → List Nat
  | [] => []
  | i :: stack => i :: walk t (t.children i ++ stack)
termination_by stack => t.subtreeSizes stack
decreasing_by
  rw [subtreeSizes_append, subtreeSizes_cons, subtreeSize_eq]
  omega

/-- All nodes, depth first and from left to right. -/
def preorder (t : Tree) : List Nat := t.walk [t.root]

/-- A node, its parent, and so on up to the root. -/
def ancestors (t : Tree) (i : Nat) : List Nat :=
  match _h : t.parent i with
  | none => [i]
  | some p => i :: ancestors t p
termination_by i
decreasing_by exact lt_of_parent _h

/-- The greatest depth of a node. -/
def height (t : Tree) : Nat := t.nodes.foldl (fun h n => max h n.depth) 0

/-- The places of the leaves, in the order of the table. -/
def leaves (t : Tree) : List Nat := (List.range t.size).filter fun i => (t.node i).isLeaf

/-- Makes sure that all leaves have values.  The fault is that of the leaf noted by the builder. -/
def leafValues (t : Tree) : Except Fault Unit :=
  match t.valuelessLeaf? with
  | some i => .error (.leafWithoutValue (t.id i))
  | none => .ok ()

end GameSearch.Tree
