/-
  GameSearch.Error

  Failures of operations that do several things in turn, such as reading a file,
  parsing it and building a tree.  The wording tells at which stage it happened.
-/
import GameSearch.Config
import GameSearch.Json.Failure
import GameSearch.Minimax.Engine
import GameSearch.Recording.Fault
import GameSearch.Tree.Fault

namespace GameSearch

/-- A failure, by stage. -/
inductive Error where
  | tree (fault : Tree.Fault)
  | minimax (error : Minimax.Error)
  | config (fault : ConfigFault)
  | storage (fault : StorageFault)
  | json (error : Json.Error)

/-- The words for a failure, its stage first. -/
def Error.message : Error → String
  | .tree fault => "Tree format error: " ++ fault.message
  | .minimax error => "Minimax error: " ++ error.message
  | .config fault => "Config error: " ++ fault.message
  | .storage fault => "IO error: " ++ fault.message
  | .json error => "JSON error: " ++ error.message

end GameSearch
