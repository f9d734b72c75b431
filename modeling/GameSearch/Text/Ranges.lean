/-
  GameSearch.Text.Ranges

  Sets of code points, given by ascending ranges with both ends included.
-/
namespace GameSearch.Text

/-- The code point lies in one of the ranges. -/
def inRanges (ranges : List (Nat × Nat)) (c : Nat) : Bool :=
  ranges.any fun r => r.1 ≤ c && c ≤ r.2

end GameSearch.Text
