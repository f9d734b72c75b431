/-
  GameSearch.Mcts.Engine

  Monte Carlo tree search over a given tree.  An iteration selects a node, moves to
  a child without visits if there is one, plays at random down to a leaf, and counts
  the result from the node it played from up to the root.  A run starts from zero,
  iterates, and recommends a child of the root.
-/
import GameSearch.Config
import GameSearch.Mcts.Selection

namespace GameSearch.Mcts

/-- A Monte Carlo engine. -/
structure Engine where
  tree : Tree
  /-- Iterations of a run. -/
  iterations : Nat
  /-- Weight of the exploration term. -/
  weight : Score

/-- What one iteration did. -/
structure Playout where
  /-- Where selection ended. -/
  selected : Nat
  /-- Where the random play began. -/
  expanded : Nat
  /-- The leaf that was reached. -/
  leaf : Nat
  result : Score

/-- Only the result one is a win. -/
def isWin (result : Score) : Bool := result == 1

/-- A child of the root, with its counters. -/
structure Recommendation where
  node : Nat
  id : String
  winRate : Score
  visits : Nat
  wins : Nat

/-- What a run delivers. -/
structure Result where
  /-- Absent if the root is a leaf. -/
  best : Option Recommendation
  iterations : Nat
  /-- The run ended before its last iteration. -/
  aborted : Bool
  tally : Tally

namespace Engine

/-- An engine, unless the number of iterations or the weight is out of range. -/
def create (t : Tree) (iterations : Nat) (weight : Score) : Except ConfigFault Engine :=
  if iterations < 1 then .error (.iterationsBelowOne 0)
  else (Config.checkWeight weight).map fun _ => ⟨t, iterations, weight⟩

/-- An engine with the given settings, unless they are out of range. -/
def ofConfig (t : Tree) (c : Config) : Except ConfigFault Engine :=
  match c.validate with
  | .error fault => .error fault
  | .ok _ =>
    match c.iterationCount with
    | .error fault => .error fault
    | .ok iterations => create t iterations c.weight

variable {γ σ : Type}

/-- A session before any iteration. -/
def start (e : Engine) (source : γ) (channel : Channel σ) : Session γ σ :=
  ⟨Tally.zero e.tree.size, 0, source, channel⟩

/-- Sets all counters to zero. -/
def reset (s : Session γ σ) : Session γ σ := { s with tally := s.tally.reset, completed := 0 }

variable [RandomSource γ] [Sink σ]

/-- A child without visits, drawn from all such children; the node itself if there is none. -/
def expand (e : Engine) (i : Nat) (s : Session γ σ) : Nat × Session γ σ :=
  match s.choose ((e.tree.children i).filter fun c => s.tally.visits c == 0) with
  | (some c, s) => (c, s.emit (.expansionChosen (e.tree.id i) (e.tree.id c)))
  | (none, s) => (i, s)

/-- Walks down at random to a leaf. -/
def descend (e : Engine) (i : Nat) (s : Session γ σ) : Nat × Session γ σ :=
  match _h : s.choose (e.tree.children i) with
  | (some c, s) => descend e c s
  | (none, s) => (i, s)
termination_by e.tree.size - i
decreasing_by
  simp only [Session.choose, Prod.mk.injEq] at _h
  exact Tree.size_sub_lt (RandomSource.mem_of_choose _h.1)

omit [Sink σ] in
theorem descend_of_choose {e : Engine} {i c : Nat} {s s' : Session γ σ}
    (h : s.choose (e.tree.children i) = (some c, s')) : e.descend i s = e.descend c s' := by
  rw [descend]
  split <;> rename_i h' <;> rw [h] at h' <;> cases h'
  rfl

omit [Sink σ] in
theorem descend_of_choose_none {e : Engine} {i : Nat} {s s' : Session γ σ}
    (h : s.choose (e.tree.children i) = (none, s')) : e.descend i s = (i, s') := by
  rw [descend]
  split <;> rename_i h' <;> rw [h] at h' <;> cases h'
  rfl

/-- The result at a leaf: its value, or zero or one at random if it has none. -/
def resultAt (e : Engine) (leaf : Nat) (s : Session γ σ) : Score × Session γ σ :=
  match (e.tree.node leaf).value with
  | some value => (value, s)
  | none =>
    let (k, source) := RandomSource.upTo 1 s.source
    let result := Float.ofNat k
    (result, { s with source := source }.log (.fallbackResult (e.tree.id leaf) result))

/-- Plays at random from a node down to a leaf. -/
def simulate (e : Engine) (i : Nat) (s : Session γ σ) : (Nat × Score) × Session γ σ :=
  let (leaf, s) := e.descend i s
  let (result, s) := e.resultAt leaf s
  ((leaf, result), s.emit (.simulationResult (e.tree.id leaf) result))

/-- Counts a visit of one node, and a win if there was one. -/
def visit (e : Engine) (win : Bool) (s : Session γ σ) (i : Nat) : Session γ σ :=
  let s := { s with tally := s.tally.recordVisit i win }
  s.emit (.backpropagationStep (e.tree.id i) (s.tally.visits i) (s.tally.wins i))

/-- Counts a result at a node and at all its ancestors, from the node up. -/
def backpropagate (e : Engine) (i : Nat) (result : Score) (s : Session γ σ) : Session γ σ :=
  (e.tree.ancestors i).foldl (e.visit (isWin result)) s

variable [Logarithm]

/-- One iteration. -/
def iterate (e : Engine) (s : Session γ σ) : Playout × Session γ σ :=
  let iteration := s.completed + 1
  let s := { s with completed := iteration }.emit (.iterationStarted iteration)
  let (selected, s) := select e.tree e.weight e.tree.root s
  let (expanded, s) := e.expand selected s
  let ((leaf, result), s) := e.simulate expanded s
  let s := e.backpropagate expanded result s
  let message := Message.iterationDone iteration (e.tree.id selected) (e.tree.id expanded)
    (e.tree.id leaf) result
  (⟨selected, expanded, leaf, result⟩, s.log message)

/-- A child of the root with the greatest share of wins, drawn from all such children; a child
    without visits comes before all others. -/
def recommend (e : Engine) (s : Session γ σ) : Option Recommendation × Session γ σ :=
  match bestChild e.tree 0 e.tree.root s with
  | (none, s) => (none, s)
  | (some (c, _), s) =>
    let entry := s.tally.entry c
    let s := if entry.visits = 0 then s.log (.neverVisited (e.tree.id c)) else s
    (some ⟨c, e.tree.id c, entry.winRate, entry.visits, entry.wins⟩, s)

/-- Iterates so many times, as long as `ask` agrees; tells whether it was stopped.  Before each
    iteration `ask` is given the number of iterations done and the counters. -/
def iterateWhile {π : Type} (e : Engine) (ask : Nat → Tally → π → Bool × π) :
    Nat → π → Session γ σ → Bool × π × Session γ σ
  | 0, p, s => (false, p, s)
  | remaining + 1, p, s =>
    let (goOn, p) := ask s.completed s.tally p
    if goOn then iterateWhile e ask remaining p (e.iterate s).2
    else (true, p, s.log (.stoppedEarly s.completed e.iterations))

/-- The end of a run: the recommendation, announced. -/
def conclude (e : Engine) (aborted : Bool) (s : Session γ σ) : Result × Session γ σ :=
  let done := s.completed
  let (best, s) := e.recommend s
  let s := match best with
    | some b => (s.log (.mctsFinished done b.id b.winRate b.visits)).emit
        (.bestChildChosen b.id b.winRate)
    | none => s.log (.mctsWithoutMove done)
  (⟨best, done, aborted, s.tally⟩, s)

/-- A run from zeroed counters that goes on as long as `ask` agrees. -/
def runWhile {π : Type} (e : Engine) (ask : Nat → Tally → π → Bool × π) (p : π)
    (s : Session γ σ) : Result × π × Session γ σ :=
  let (aborted, p, s) := e.iterateWhile ask e.iterations p (reset s)
  let (result, s) := e.conclude aborted s
  (result, p, s)

/-- A run of all iterations from zeroed counters. -/
def run (e : Engine) (s : Session γ σ) : Result × Session γ σ :=
  let (result, _, s) := e.runWhile (fun _ _ p => (true, p)) () s
  (result, s)

end Engine

end GameSearch.Mcts
