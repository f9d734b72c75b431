/-
  GameSearch.Minimax.Engine

  Evaluations by the minimax engine.  Each first makes sure that every leaf of the
  tree has a value and that the window is in order.
-/
import GameSearch.Minimax.Search
import GameSearch.Minimax.Stack

namespace GameSearch.Minimax

/-- Why an evaluation was refused. -/
inductive Error where
  | tree (fault : Tree.Fault)
  | invalidWindow (window : Window)

/-- The words for a refusal. -/
def Error.message : Error → String
  | .tree fault => fault.message
  | .invalidWindow w =>
    "invalid search window (alpha=" ++ Decimal.plain.float w.alpha ++ ", beta="
      ++ Decimal.plain.float w.beta ++ "): bounds must be ordered and not NaN"

namespace Engine

/-- The first window of a run. -/
def prepare (e : Engine) (w : Window) : Except Error Window :=
  match e.tree.leafValues with
  | .error fault => .error (.tree fault)
  | .ok _ =>
    if !e.pruning then .ok .full
    else if w.isOrdered then .ok w
    else .error (.invalidWindow w)

variable {σ : Type} [Sink σ]

/-- The message at the end of a run. -/
def summary (e : Engine) (o : Outcome) : Message :=
  .minimaxFinished e.pruning (e.tree.id o.start) o.value o.visitOrder.size o.prunedEdges.size

/-- Evaluates the subtree of a node with a window by the given traversal. -/
def evaluateBy (traverse : Engine → Nat → Window → Run σ → Except Tree.Fault Score × Run σ)
    (e : Engine) (start : Nat) (w : Window) (ch : Channel σ) : Except Error Outcome × Channel σ :=
  match e.prepare w with
  | .error err => (.error err, ch)
  | .ok w =>
    match traverse e start w ⟨Outcome.empty e.tree.size start, ch⟩ with
    | (.error fault, r) => (.error (.tree fault), r.channel)
    | (.ok value, r) =>
      let o := r.outcome.finish value
      (.ok o, r.channel.log (e.summary o))

/-- Evaluates the subtree of a node by recursion. -/
def evaluate (e : Engine) (start : Nat) (w : Window) (ch : Channel σ) :
    Except Error Outcome × Channel σ :=
  e.evaluateBy search start w ch

/-- Evaluates the subtree of a node with an explicit stack. -/
def evaluateIterative (e : Engine) (start : Nat) (w : Window) (ch : Channel σ) :
    Except Error Outcome × Channel σ :=
  e.evaluateBy searchStack start w ch

/-- Evaluates the whole tree by recursion. -/
def run (e : Engine) (ch : Channel σ) : Except Error Outcome × Channel σ :=
  e.evaluate e.tree.root .full ch

/-- Evaluates the whole tree with an explicit stack. -/
def runIterative (e : Engine) (ch : Channel σ) : Except Error Outcome × Channel σ :=
  e.evaluateIterative e.tree.root .full ch

end Engine

end GameSearch.Minimax
