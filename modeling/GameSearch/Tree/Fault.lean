/-
  GameSearch.Tree.Fault

  What can be wrong with a specification, and how it is told to the user.
-/
import GameSearch.Score
import GameSearch.Decimal.Notation

namespace GameSearch.Tree

/-- The first fault of a specification. -/
inductive Fault where
  /-- A position has no identifier; the path holds the child numbers that lead to it. -/
  | missingId (path : List Nat)
  | duplicateId (id : String)
  | valueOnInternalNode (id : String)
  | leafWithoutValue (id : String)
  | nonFiniteValue (id : String) (value : Score)
  | tooDeep (id : String) (depth limit : Nat)

/-- The path to a position, from the root down. -/
def pathText (path : List Nat) : String :=
  path.foldl (fun text i => text ++ ".children[" ++ toString i ++ "]") "root"

/-- The wording of a fault. -/
def Fault.message : Fault → String
  | .missingId path => "node at " ++ pathText path ++ " has no id"
  | .duplicateId id => "duplicate node id '" ++ id ++ "'"
  | .valueOnInternalNode id => "internal node '" ++ id ++ "' carries a static value"
  | .leafWithoutValue id => "leaf node '" ++ id ++ "' has no value"
  | .nonFiniteValue id value =>
    "node '" ++ id ++ "' has non-finite value " ++ Decimal.plain.float value
  | .tooDeep id depth limit =>
    "node '" ++ id ++ "' at depth " ++ toString depth ++ " exceeds the depth limit of "
      ++ toString limit

end GameSearch.Tree
