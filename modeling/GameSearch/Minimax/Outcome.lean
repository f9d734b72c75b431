/-
  GameSearch.Minimax.Outcome

  What a minimax run leaves behind: for every node whether it was entered, with
  which window, and with what value and best child; which edges were cut; and the
  order of visits.
-/
import GameSearch.Minimax.Frame

namespace GameSearch.Minimax

/-- What is recorded of a node that was entered. -/
structure Record where
  /-- The window with which the node was entered. -/
  window : Window
  /-- The value of the node, once it is known. -/
  value : Option Score
  /-- The child that the value came from; leaves have none. -/
  best : Option Nat

/-- The table of a run. -/
structure Outcome where
  start : Nat
  /-- The value of the start node. -/
  value : Score
  records : Array (Option Record)
  pruned : Array Bool
  /-- The edges that were cut, in order, each from parent to child. -/
  prunedEdges : Array (Nat × Nat)
  /-- The nodes in the order in which they were entered. -/
  visitOrder : Array Nat

namespace Outcome

/-- The table before any node was entered. -/
def empty (size start : Nat) : Outcome where
  start := start
  value := Score.unknown
  records := Array.replicate size none
  pruned := Array.replicate size false
  prunedEdges := #[]
  visitOrder := #[]

/-- What is recorded of a node, if it was entered. -/
def record? (o : Outcome) (i : Nat) : Option Record := o.records[i]?.join

/-- The value of a node, if it is known. -/
def value? (o : Outcome) (i : Nat) : Option Score := (o.record? i).bind (·.value)

/-- The child that the value of a node came from. -/
def best? (o : Outcome) (i : Nat) : Option Nat := (o.record? i).bind (·.best)

/-- The node was entered. -/
def isVisited (o : Outcome) (i : Nat) : Bool := (o.record? i).isSome

/-- The edge into the node was cut. -/
def isPruned (o : Outcome) (i : Nat) : Bool := o.pruned.getD i false

/-- Records that a node was entered. -/
def enter (i : Nat) (window : Window) (o : Outcome) : Outcome :=
  { o with
    records := o.records.setIfInBounds i (some ⟨window, none, none⟩)
    visitOrder := o.visitOrder.push i }

/-- Records the value of a node that was entered. -/
def resolve (i : Nat) (value : Score) (best : Option Nat) (o : Outcome) : Outcome :=
  { o with
    records := o.records.modify i fun record =>
      record.map fun r => { r with value := some value, best := best } }

/-- Records that the edge from a parent to a child was cut. -/
def prune (parent child : Nat) (o : Outcome) : Outcome :=
  { o with
    pruned := o.pruned.setIfInBounds child true
    prunedEdges := o.prunedEdges.push (parent, child) }

/-- Records the value of the start node. -/
def finish (value : Score) (o : Outcome) : Outcome := { o with value := value }

/-- A node, its best child, the best child of that, and so on, for so many steps at most. -/
def bestLine (o : Outcome) : Nat → Nat → List Nat
  | 0, i => [i]
  | steps + 1, i =>
    match o.best? i with
    | none => [i]
    | some c => i :: o.bestLine steps c

/-- The line of best play from the start node.  A line has no more edges than the tree has
    nodes. -/
def principalVariation (o : Outcome) : List Nat := o.bestLine o.records.size o.start

end Outcome

end GameSearch.Minimax
