/-
  GameSearch.Journal

  Messages for the user that go along with a search.  A message is data; its text is
  made when it is shown.  A journal keeps the messages that are severe enough, in
  order, and no decision of a search depends on it.
-/
import GameSearch.Decimal.Fixed
import GameSearch.Event
import GameSearch.Recording.Fault
import GameSearch.Tree.Basic

namespace GameSearch

/-- How severe a message is, from the most severe on. -/
inductive Level where
  | error
  | warn
  | info
  | debug
  | trace
deriving DecidableEq

namespace Level

/-- Larger for less severe levels. -/
def rank : Level → Nat
  | .error => 0
  | .warn => 1
  | .info => 2
  | .debug => 3
  | .trace => 4

def label : Level → String
  | .error => "ERROR"
  | .warn => "WARN"
  | .info => "INFO"
  | .debug => "DEBUG"
  | .trace => "TRACE"

end Level

/-- A message for the user. -/
inductive Message where
  | treeBuilt (nodes leaves height : Nat)
  | treeLoading (path : String)
  | treeReady (root : String) (nodes height : Nat)
  | configLoaded (path summary : String)
  | cutoff (kind : Kind) (id : String) (alpha beta : Score) (skipped : Nat)
  | minimaxFinished (pruning : Bool) (start : String) (value : Score) (entered pruned : Nat)
  | selectionMoved (source target : String) (score : Score) (visits wins : Nat)
  | fallbackResult (leaf : String) (result : Score)
  | iterationDone (iteration : Nat) (selected expanded leaf : String) (result : Score)
  | stoppedEarly (done planned : Nat)
  | neverVisited (id : String)
  | mctsFinished (done : Nat) (best : String) (winRate : Score) (visits : Nat)
  | mctsWithoutMove (done : Nat)
  | seedChosen (seed : Nat) (summary : String)
  | event (e : Event)
  | recordingTo (path : String)
  | recordFailed (event : String) (fault : StorageFault)
  | recorderFinished (events : Nat)
  | eventsRecorded (events : Nat)

namespace Message

/-- How severe a message is. -/
def level : Message → Level
  | .recordFailed .. => .error
  | .fallbackResult .. | .neverVisited .. => .warn
  | .treeLoading .. | .treeReady .. | .configLoaded .. | .minimaxFinished .. | .stoppedEarly ..
  | .mctsFinished .. | .mctsWithoutMove .. | .seedChosen .. | .recordingTo ..
  | .eventsRecorded .. => .info
  | .treeBuilt .. | .cutoff .. | .iterationDone .. | .event .. | .recorderFinished .. => .debug
  | .selectionMoved .. => .trace

/-- A number in a message. -/
def number (x : Score) : String := Decimal.plain.float x

/-- The words of a message. -/
def text : Message → String
  | .treeBuilt nodes leaves height =>
    "built game tree: " ++ toString nodes ++ " nodes, " ++ toString leaves ++ " leaves, height "
      ++ toString height
  | .treeLoading path => "loading game tree from " ++ path
  | .treeReady root nodes height =>
    "🌳 tree '" ++ root ++ "': " ++ toString nodes ++ " nodes, height " ++ toString height
  | .configLoaded path summary => "loaded search config from " ++ path ++ ": " ++ summary
  | .cutoff kind id alpha beta skipped =>
    "cutoff at " ++ kind.label ++ " " ++ id ++ " (alpha=" ++ number alpha ++ ", beta="
      ++ number beta ++ "): pruning " ++ toString skipped ++ " children"
  | .minimaxFinished pruning start value entered pruned =>
    "minimax" ++ (if pruning then " (alpha-beta)" else "") ++ " finished at '" ++ start
      ++ "': value " ++ number value ++ ", " ++ toString entered ++ " nodes entered, "
      ++ toString pruned ++ " edges pruned"
  | .selectionMoved source target score visits wins =>
    "selection: " ++ source ++ " -> " ++ target ++ " (ucb " ++ Decimal.fixed 3 score
      ++ ", visits " ++ toString visits ++ ", wins " ++ toString wins ++ ")"
  | .fallbackResult leaf result =>
    "leaf '" ++ leaf ++ "' has no value, rollout falls back to random result " ++ number result
  | .iterationDone iteration selected expanded leaf result =>
    "iteration " ++ toString iteration ++ ": selected " ++ selected ++ ", expanded " ++ expanded
      ++ ", rollout " ++ leaf ++ " -> " ++ number result
  | .stoppedEarly done planned =>
    "MCTS stopped early after " ++ toString done ++ "/" ++ toString planned ++ " iterations"
  | .neverVisited id =>
    "recommended child '" ++ id ++ "' was never visited; run more iterations"
  | .mctsFinished done best winRate visits =>
    "MCTS finished " ++ toString done ++ " iterations: best move " ++ best ++ " (win rate "
      ++ Decimal.fixed 2 winRate ++ ", " ++ toString visits ++ " visits)"
  | .mctsWithoutMove done =>
    "MCTS finished " ++ toString done ++ " iterations: root is a leaf, no move to recommend"
  | .seedChosen seed summary => "🎲 MCTS seed " ++ toString seed ++ " (" ++ summary ++ ")"
  | .event e => e.describe
  | .recordingTo path => "recording search events to " ++ path
  | .recordFailed name fault => "failed to record " ++ name ++ " event: " ++ fault.message
  | .recorderFinished events => "event recorder finished after " ++ toString events ++ " events"
  | .eventsRecorded events => "✅ " ++ toString events ++ " events recorded"

end Message

/-- The messages kept so far. -/
structure Journal where
  /-- The least severe level that is kept; nothing is kept if absent. -/
  threshold : Option Level
  entries : Array Message

namespace Journal

/-- A journal that keeps nothing. -/
def silent : Journal := ⟨none, #[]⟩

/-- An empty journal that keeps messages from the given level on. -/
def keeping (threshold : Level) : Journal := ⟨some threshold, #[]⟩

/-- Messages of the level are kept. -/
def keeps (j : Journal) (level : Level) : Bool := j.threshold.any (level.rank ≤ ·.rank)

/-- Adds a message if its level is kept. -/
def add (j : Journal) (m : Message) : Journal :=
  if j.keeps m.level then { j with entries := j.entries.push m } else j

/-- Adds messages in order. -/
def addAll (j : Journal) (messages : List Message) : Journal := messages.foldl add j

end Journal

end GameSearch
