/-
  GameSearch.Minimax.Run

  The steps of which a minimax run is made: entering a node, taking the value of a
  child into account, and settling the value of a node.  Each step writes to the
  table of the run and tells the channel.  Entering a leaf without a value fails.
-/
import GameSearch.Minimax.Outcome
import GameSearch.Sink
import GameSearch.Tree.Walk

namespace GameSearch.Minimax

/-- A minimax engine: what stays fixed during its runs. -/
structure Engine where
  tree : Tree
  /-- Cutoffs are wanted.  Without them every node has the full window. -/
  pruning : Bool

namespace Engine

/-- The node has no children. -/
def isLeaf (e : Engine) (i : Nat) : Bool := (e.tree.node i).isLeaf

/-- An internal node that is entered with a window. -/
def opened (e : Engine) (i : Nat) (w : Window) : Open := Open.start i (e.tree.kind i) w

/-- The children of the node of a frame that are still to be taken. -/
def rest (e : Engine) (o : Open) : List Nat := o.rest (e.tree.children o.frame.node)

end Engine

/-- The state of a run. -/
structure Run (σ : Type) where
  outcome : Outcome
  channel : Channel σ

namespace Run

variable {σ : Type} [Sink σ]

/-- Notes that a node is entered with a window. -/
def arrive (e : Engine) (i : Nat) (w : Window) (r : Run σ) : Run σ where
  outcome := r.outcome.enter i w
  channel := r.channel.emit (.nodeEntered (e.tree.id i) w.alpha w.beta)

/-- Settles the value of a node. -/
def resolve (e : Engine) (i : Nat) (value : Score) (best : Option Nat) (r : Run σ) : Run σ where
  outcome := r.outcome.resolve i value best
  channel := r.channel.emit (.valueComputed (e.tree.id i) value)

/-- Cuts the edge from a parent to a child. -/
def cut (e : Engine) (parent child : Nat) (r : Run σ) : Run σ where
  outcome := r.outcome.prune parent child
  channel := r.channel.emit (.childPruned (e.tree.id parent) (e.tree.id child))

/-- Cuts the edges to the children that remain after a cutoff. -/
def prune (e : Engine) (f : Frame) (rest : List Nat) (r : Run σ) : Run σ :=
  let message := Message.cutoff f.kind (e.tree.id f.node) f.window.alpha f.window.beta rest.length
  rest.foldl (fun r c => r.cut e f.node c) { r with channel := r.channel.log message }

/-- Enters a node.  A leaf is settled at once and its value delivered; an internal node has no
    value before its children are done. -/
def enter (e : Engine) (i : Nat) (w : Window) (r : Run σ) :
    Except Tree.Fault (Option Score) × Run σ :=
  let r := r.arrive e i w
  if e.isLeaf i then
    match (e.tree.node i).value with
    | some value => (.ok (some value), r.resolve e i value none)
    | none => (.error (.leafWithoutValue (e.tree.id i)), r)
  else (.ok none, r)

/-- Takes the value of a child into account, and cuts the edges to the other children if they
    cannot matter any more. -/
def absorb (e : Engine) (child : Nat) (value : Score) (o : Open) (r : Run σ) : Open × Run σ :=
  let f := o.frame.absorb e.pruning child value
  if f.isCutoff e.pruning then
    (Open.skipRest (e.tree.children f.node) { o with frame := f }, r.prune e f (e.rest o))
  else ({ o with frame := f }, r)

/-- Settles a node whose children are done and delivers its value. -/
def close (e : Engine) (f : Frame) (r : Run σ) : Score × Run σ :=
  (f.value, r.resolve e f.node f.value f.best)

variable {e : Engine} {child : Nat} {value : Score} {o : Open} {r : Run σ}

theorem absorb_of_cutoff
    (h : (o.frame.absorb e.pruning child value).isCutoff e.pruning = true) :
    r.absorb e child value o =
      (Open.skipRest (e.tree.children o.frame.node)
          { o with frame := o.frame.absorb e.pruning child value },
        r.prune e (o.frame.absorb e.pruning child value) (e.rest o)) := by
  rw [absorb, if_pos h, Frame.absorb_node]

theorem absorb_of_not_cutoff
    (h : (o.frame.absorb e.pruning child value).isCutoff e.pruning = false) :
    r.absorb e child value o = ({ o with frame := o.frame.absorb e.pruning child value }, r) := by
  rw [absorb, h]
  rfl

end Run

-- ============================================================================
-- What is left to do
-- ============================================================================

namespace Engine

/-- The children left depend on the frame only through its node. -/
theorem rest_frame {e : Engine} {o : Open} {f : Frame} (h : f.node = o.frame.node) :
    e.rest { o with frame := f } = e.rest o := by
  rw [rest, rest, h]
  rfl

/-- Nothing is left of the children that were passed over. -/
theorem rest_skipRest {e : Engine} {o : Open} {f : Frame} (h : f.node = o.frame.node) :
    e.rest (Open.skipRest (e.tree.children o.frame.node) { o with frame := f }) = [] := by
  rw [← h]
  exact Open.rest_skipRest _ _

/-- The nodes that may still be entered below an open node. -/
def work (e : Engine) (o : Open) : Nat := e.tree.subtreeSizes (e.rest o)

variable {σ : Type} [Sink σ]

/-- Taking in a value leaves the children that were left, or none after a cutoff. -/
theorem rest_absorb (e : Engine) (child : Nat) (value : Score) (o : Open) (r : Run σ) :
    e.rest (r.absorb e child value o).1 = e.rest o ∨ e.rest (r.absorb e child value o).1 = [] := by
  have hnode := o.frame.absorb_node e.pruning child value
  cases h : (o.frame.absorb e.pruning child value).isCutoff e.pruning with
  | true =>
    right
    rw [Run.absorb_of_cutoff h, rest_skipRest hnode]
  | false =>
    left
    rw [Run.absorb_of_not_cutoff h, rest_frame hnode]

theorem work_absorb_le (e : Engine) (child : Nat) (value : Score) (o : Open) (r : Run σ) :
    e.work (r.absorb e child value o).1 ≤ e.work o := by
  have hzero := e.tree.subtreeSizes_nil
  have hrest := e.rest_absorb child value o r
  unfold work
  rcases hrest with h | h
  · exact Nat.le_of_eq (congrArg e.tree.subtreeSizes h)
  · have hempty := congrArg e.tree.subtreeSizes h
    omega

/-- Taking a child takes its subtree from the work. -/
theorem work_takeChild {e : Engine} {o o' : Open} {c : Nat}
    (h : o.takeChild (e.tree.children o.frame.node) = some (c, o')) :
    e.work o = e.tree.subtreeSize c + e.work o' := by
  have hframe := Open.frame_of_takeChild h
  have hrest := Open.rest_of_takeChild h
  rw [work, work, rest, rest, hframe, hrest, Tree.subtreeSizes_cons]

theorem work_opened (e : Engine) (i : Nat) (w : Window) :
    e.tree.subtreeSize i = e.work (e.opened i w) + 1 := by
  rw [Tree.subtreeSize_eq]
  rfl

end Engine

end GameSearch.Minimax
