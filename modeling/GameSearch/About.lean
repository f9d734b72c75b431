/-
  GameSearch.About

  What the program says of itself.
-/
namespace GameSearch.About

def name : String := "game_tree_search"

def version : String := "0.1.0"

def description : String :=
  "Game-tree search engine: minimax with optional alpha-beta pruning and UCB1 Monte Carlo Tree "
    ++ "Search over statically-known trees"

end GameSearch.About
