/-
  GameSearch.Mcts.Tally

  Counters of a Monte Carlo search: for every node the visits, the wins among them,
  and the score it was given last.  They stand apart from the tree, so one table
  can be read against another tree of the same size.
-/
import GameSearch.Score

namespace GameSearch.Mcts

/-- The counters of one node. -/
structure Entry where
  /-- Playouts that passed through the node. -/
  visits : Nat
  /-- Those of them that were won. -/
  wins : Nat
  /-- The last score; no decision is based on it. -/
  score : Score

namespace Entry

/-- The counters of a node that no playout reached. -/
def zero : Entry := ⟨0, 0, 0⟩

/-- The share of playouts that were won; zero if there were none. -/
def winRate (e : Entry) : Score :=
  if e.visits = 0 then 0 else Float.ofNat e.wins / Float.ofNat e.visits

end Entry

/-- The counters of all nodes. -/
structure Tally where
  entries : Array Entry

namespace Tally

/-- The counters for so many nodes before any playout. -/
def zero (size : Nat) : Tally := ⟨Array.replicate size Entry.zero⟩

/-- The counters of a node; zero outside the table. -/
def entry (t : Tally) (i : Nat) : Entry := t.entries.getD i Entry.zero

def visits (t : Tally) (i : Nat) : Nat := (t.entry i).visits

def wins (t : Tally) (i : Nat) : Nat := (t.entry i).wins

/-- The last score of a node. -/
def score (t : Tally) (i : Nat) : Score := (t.entry i).score

/-- The share of playouts through a node that were won. -/
def winRate (t : Tally) (i : Nat) : Score := (t.entry i).winRate

/-- Counts one more visit of a node, and a win if there was one. -/
def recordVisit (i : Nat) (win : Bool) (t : Tally) : Tally where
  entries := t.entries.modify i fun e =>
    { e with visits := e.visits + 1, wins := if win then e.wins + 1 else e.wins }

/-- Keeps the score of a node. -/
def keepScore (i : Nat) (score : Score) (t : Tally) : Tally where
  entries := t.entries.modify i fun e => { e with score := score }

/-- All counters at zero again. -/
def reset (t : Tally) : Tally := zero t.entries.size

end Tally

end GameSearch.Mcts
