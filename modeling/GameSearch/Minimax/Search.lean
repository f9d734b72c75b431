/-
  GameSearch.Minimax.Search

  Depth-first evaluation by recursion on the tree.  The children of a node are
  evaluated from left to right, each with the window that its elder siblings left,
  until there are no more or a cutoff makes the others irrelevant.
-/
import GameSearch.Minimax.Run

namespace GameSearch.Minimax

variable {σ : Type} [Sink σ]

mutual

/-- Evaluates the subtree of a node with a window. -/
def search (e : Engine) (i : Nat) (w : Window) (r : Run σ) : Except Tree.Fault Score × Run σ :=
  match r.enter e i w with
  | (.error fault, r) => (.error fault, r)
  | (.ok (some value), r) => (.ok value, r)
  | (.ok none, r) => searchChildren e (e.opened i w) r
termination_by 2 * e.tree.subtreeSize i
decreasing_by
  rw [e.work_opened i w]
  omega

/-- Evaluates the children that an open node has left, and then settles the node. -/
def searchChildren (e : Engine) (o : Open) (r : Run σ) : Except Tree.Fault Score × Run σ :=
  match _h : o.takeChild (e.tree.children o.frame.node) with
  | none =>
    let (value, r) := r.close e o.frame
    (.ok value, r)
  | some (c, o) =>
    match search e c o.frame.window r with
    | (.error fault, r) => (.error fault, r)
    | (.ok value, r) =>
      let absorbed := r.absorb e c value o
      searchChildren e absorbed.1 absorbed.2
termination_by 2 * e.work o + 1
decreasing_by
  all_goals
    have h := Engine.work_takeChild _h
    have hpos := Tree.subtreeSize_eq e.tree c
  · omega
  · have hle := e.work_absorb_le c value o r
    omega

end

/-- An open node with no child left is settled. -/
theorem searchChildren_of_takeChild_none {e : Engine} {o : Open}
    (h : o.takeChild (e.tree.children o.frame.node) = none) (r : Run σ) :
    searchChildren e o r = (.ok o.frame.value, (r.close e o.frame).2) := by
  rw [searchChildren]
  split
  · rfl
  · rename_i h'
    rw [h] at h'
    cases h'

/-- An open node searches the child it takes, and goes on after taking its value. -/
theorem searchChildren_of_takeChild {e : Engine} {o o' : Open} {c : Nat}
    (h : o.takeChild (e.tree.children o.frame.node) = some (c, o')) (r : Run σ) :
    searchChildren e o r =
      match search e c o'.frame.window r with
      | (.error fault, r) => (.error fault, r)
      | (.ok value, r) =>
        searchChildren e (r.absorb e c value o').1 (r.absorb e c value o').2 := by
  rw [searchChildren]
  split
  · rename_i h'
    rw [h] at h'
    cases h'
  · rename_i h'
    rw [h] at h'
    cases h'
    rfl

end GameSearch.Minimax
