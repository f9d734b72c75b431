/-
  GameSearch.Decimal.Fixed

  Numbers with a set count of decimal places.  The exact value of the double is
  rounded, and a tie goes to the even neighbour.
-/
import GameSearch.Decimal.Notation

namespace GameSearch.Decimal

/-- The text of `n / 10 ^ places`. -/
def placed (places n : Nat) : List Char :=
  let digits := digitsOf n
  let padded := List.replicate (places + 1 - digits.length) '0' ++ digits
  let whole := padded.length - places
  padded.take whole ++ '.' :: padded.drop whole

/-- The text of a double with the given count of decimal places, at least one. -/
def fixed (places : Nat) (x : Float) : String :=
  match Reading.ofFloat x with
  | .nan => "NaN"
  | .infinite negative => if negative then "-inf" else "inf"
  | .finite negative magnitude =>
    let value := magnitude.significand * magnitude.numerator places
    let unit := magnitude.denominator places
    let text := placed places (Tie.toEven.nearer value unit (value / unit))
    String.ofList (if negative then '-' :: text else text)

end GameSearch.Decimal
