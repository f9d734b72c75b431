/-
  GameSearch.Event

  What the search engines tell about their work.  An event has a name and named
  fields; both of its written forms are made from these.
-/
import GameSearch.Json.Value
import GameSearch.Score
import GameSearch.Text.Quoted

namespace GameSearch

/-- A step of a search. -/
inductive Event where
  /-- A node was entered with a window. -/
  | nodeEntered (id : String) (alpha beta : Score)
  /-- The value of a node was found. -/
  | valueComputed (id : String) (value : Score)
  /-- A child was skipped after a cutoff at its parent. -/
  | childPruned (parent child : String)
  /-- An iteration began; the first has number one. -/
  | iterationStarted (iteration : Nat)
  /-- Selection moved to a child with this score. -/
  | selectionStep (source target : String) (score : Score)
  /-- A child without visits was chosen. -/
  | expansionChosen (parent child : String)
  /-- A playout ended at a leaf. -/
  | simulationResult (leaf : String) (result : Score)
  /-- The counters of a node were raised. -/
  | backpropagationStep (id : String) (visits wins : Nat)
  /-- A child of the root was recommended. -/
  | bestChildChosen (id : String) (winRate : Score)

namespace Event

/-- The value of a field. -/
inductive Value where
  | text (s : String)
  | count (n : Nat)
  | number (x : Score)

/-- The name of an event. -/
def name : Event → String
  | .nodeEntered .. => "NodeEntered"
  | .valueComputed .. => "ValueComputed"
  | .childPruned .. => "ChildPruned"
  | .iterationStarted .. => "IterationStarted"
  | .selectionStep .. => "SelectionStep"
  | .expansionChosen .. => "ExpansionChosen"
  | .simulationResult .. => "SimulationResult"
  | .backpropagationStep .. => "BackpropagationStep"
  | .bestChildChosen .. => "BestChildChosen"

/-- The fields of an event, in the order in which they are written. -/
def fields : Event → List (String × Value)
  | .nodeEntered id alpha beta =>
    [("id", .text id), ("alpha", .number alpha), ("beta", .number beta)]
  | .valueComputed id value => [("id", .text id), ("value", .number value)]
  | .childPruned parent child => [("parent_id", .text parent), ("child_id", .text child)]
  | .iterationStarted iteration => [("iteration", .count iteration)]
  | .selectionStep source target score =>
    [("from_id", .text source), ("to_id", .text target), ("ucb", .number score)]
  | .expansionChosen parent child => [("parent_id", .text parent), ("child_id", .text child)]
  | .simulationResult leaf result => [("leaf_id", .text leaf), ("result", .number result)]
  | .backpropagationStep id visits wins =>
    [("id", .text id), ("visits", .count visits), ("wins", .count wins)]
  | .bestChildChosen id winRate => [("id", .text id), ("win_rate", .number winRate)]

-- ============================================================================
-- As JSON
-- ============================================================================

/-- A field as JSON; a number that is not finite becomes null. -/
def Value.toJson : Value → Json
  | .text s => .string s
  | .count n => .integer n
  | .number x => .ofFloat x

/-- An event as a JSON object: its name under the key `event`, then its fields. -/
def toJson (e : Event) : Json :=
  .object (("event", .string e.name) :: e.fields.map fun (key, value) => (key, value.toJson))

-- ============================================================================
-- For diagnostics
-- ============================================================================

/-- Numbers in diagnostics: positional from `1e-4` up to below `1e16`, a point and zero after
    whole numbers, no plus sign on exponents. -/
def diagnosticNotation : Decimal.Notation where
  positionalFrom := some (-4)
  positionalUpTo := some 15
  wholeMark := ['.', '0']
  exponentPlus := []
  tie := .up

/-- A field in diagnostics. -/
def Value.describe : Value → String
  | .text s => Text.quoted s
  | .count n => toString n
  | .number x => diagnosticNotation.float x

/-- An event in diagnostics: its name, and its fields between braces. -/
def describe (e : Event) : String :=
  e.name ++ " \x7b " ++
    ", ".intercalate (e.fields.map fun (key, value) => key ++ ": " ++ value.describe) ++ " \x7d"

end Event

end GameSearch
