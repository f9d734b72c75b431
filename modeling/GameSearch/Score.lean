/-
  GameSearch.Score

  Scores of positions and bounds of search windows.  Both are doubles; the two
  infinities stand for "no bound on this side".
-/

namespace GameSearch

/-- A score of a position, or a bound on one. -/
abbrev Score := Float

namespace Score

/-- Positive infinity, above every number. -/
def top : Score := Float.ofBits 0x7FF0000000000000

/-- Negative infinity, below every number. -/
def bottom : Score := Float.ofBits 0xFFF0000000000000

/-- Not a number; it stands for a value that is not known yet. -/
def unknown : Score := Float.ofBits 0x7FF8000000000000

/-- The larger of two scores, neither of them NaN; the first if they are equal. -/
def larger (x y : Score) : Score := if x < y then y else x

/-- The smaller of two scores, neither of them NaN; the first if they are equal. -/
def smaller (x y : Score) : Score := if y < x then y else x

end Score

/-- A natural logarithm of scores. -/
class Logarithm where
  log : Score → Score

/-- The logarithm of the machine. -/
instance : Logarithm := ⟨Float.log⟩

end GameSearch
