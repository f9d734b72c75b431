/-
  GameSearch.Tree.Spec

  Specifications of game trees: nested positions as they are written down, before
  any check.  An identifier or a value may be missing, and nothing says yet that
  identifiers are distinct.
-/
import GameSearch.Score

namespace GameSearch

/-- A position with what follows it. -/
structure Spec where
  id : Option String
  value : Option Score
  children : List Spec

namespace Spec

mutual

/-- The number of positions in a specification. -/
def count : Spec → Nat
  | ⟨_, _, children⟩ => countAll children + 1

/-- The number of positions in a list of specifications. -/
def countAll : List Spec → Nat
  | [] => 0
  | s :: rest => count s + countAll rest

end

/-- A position without successors. -/
def leaf (id : String) (value : Score) : Spec := ⟨some id, some value, []⟩

/-- A position with successors. -/
def inner (id : String) (children : List Spec) : Spec := ⟨some id, none, children⟩

theorem count_eq (s : Spec) : s.count = countAll s.children + 1 := by
  cases s; simp [count]

end Spec

end GameSearch
