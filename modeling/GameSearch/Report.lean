/-
  GameSearch.Report

  Finished searches as text.  One line per node in preorder, indented by depth;
  below it, for minimax, the value and the line of best play.
-/
import GameSearch.Decimal.Fixed
import GameSearch.Mcts.Tally
import GameSearch.Minimax.Outcome
import GameSearch.Tree.Walk

namespace GameSearch.Report

/-- A number in a report. -/
def number (x : Score) : String := Decimal.plain.float x

/-- A bound in a report: both infinities carry a sign. -/
def bound (x : Score) : String :=
  if x == Score.top then "+inf"
  else if x == Score.bottom then "-inf"
  else number x

/-- Two spaces for each step down from the root. -/
def indent (depth : Nat) : String := String.ofList (List.replicate (2 * depth) ' ')

-- ============================================================================
-- Minimax
-- ============================================================================

/-- What is said of a node that was entered: its value and its window. -/
def visitText (r : Minimax.Record) : String :=
  " = " ++ (match r.value with
    | some value => number value
    | none => "?") ++ "  (α=" ++ bound r.window.alpha ++ ", β=" ++ bound r.window.beta ++ ")"

/-- What is said of a node. -/
def nodeText (o : Minimax.Outcome) (i : Nat) : String :=
  if o.isPruned i then " pruned"
  else match o.record? i with
    | some r => visitText r
    | none => " not visited"

/-- The line of a node. -/
def minimaxLine (t : Tree) (o : Minimax.Outcome) (i : Nat) : String :=
  let n := t.node i
  indent n.depth ++ n.id ++ " [" ++ n.kind.label ++ "]" ++ nodeText o i

/-- The lines of a minimax report. -/
def minimaxLines (t : Tree) (o : Minimax.Outcome) : List String :=
  t.preorder.map (minimaxLine t o) ++ [
    "value: " ++ number o.value,
    "principal variation: " ++ " -> ".intercalate (o.principalVariation.map t.id)]

/-- Lines as text, each with its line break. -/
def unlines (lines : List String) : String :=
  String.join (lines.map fun line => line ++ "\n")

/-- A minimax report. -/
def minimax (t : Tree) (o : Minimax.Outcome) : String := unlines (minimaxLines t o)

-- ============================================================================
-- Monte Carlo
-- ============================================================================

/-- The score of a node in a report: three places, or an infinity with its sign. -/
def scoreText (x : Score) : String := if x.isInf then bound x else Decimal.fixed 3 x

/-- The line of a node.  Scores of the root and of nodes without visits mean nothing and are left
    out. -/
def mctsLine (t : Tree) (tally : Mcts.Tally) (i : Nat) : String :=
  let n := t.node i
  let e := tally.entry i
  indent n.depth ++ n.id ++ " visits=" ++ toString e.visits ++ " wins=" ++ toString e.wins
    ++ " rate=" ++ Decimal.fixed 2 e.winRate
    ++ (if !n.isRoot && e.visits != 0 then " ucb=" ++ scoreText e.score else "")

/-- A report of the counters of a Monte Carlo search. -/
def mcts (t : Tree) (tally : Mcts.Tally) : String := unlines (t.preorder.map (mctsLine t tally))

end GameSearch.Report
