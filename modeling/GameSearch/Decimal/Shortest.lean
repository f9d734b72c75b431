/-
  GameSearch.Decimal.Shortest

  The fewest decimal digits that identify a double.  The reals that round to a
  double form an interval around it, with its ends included exactly when the
  significand is even.  A grid of `n` digits is tried for `n = 1, 2, …`, and on
  each grid only the two neighbours of the value matter: if any point of a grid
  lies in the interval, one of the neighbours does.
-/
import GameSearch.Decimal.Binary

namespace GameSearch.Decimal

attribute [local instance] Arithmetic.power

/-- A decimal number, `digits * 10 ^ exponent`. -/
structure Scaled where
  digits : Nat
  exponent : Int
deriving DecidableEq, Repr

/-- Which of two neighbours is taken when the value lies halfway between them. -/
inductive Tie where
  /-- The greater one. -/
  | up
  /-- The one whose last digit is even. -/
  | toEven
deriving DecidableEq, Repr

/-- Of `below` and its successor the one nearer to `value / unit`. -/
def Tie.nearer (tie : Tie) (value unit below : Nat) : Nat :=
  let twice := 2 * value
  let middle := (2 * below + 1) * unit
  if twice < middle then below
  else if middle < twice then below + 1
  else match tie with
    | .up => below + 1
    | .toEven => if below % 2 = 0 then below else below + 1

namespace Binary

/-- The value is below `10 ^ k`. -/
def belowPowerOfTen (x : Binary) (k : Int) : Bool :=
  x.significand * x.numerator (-k) < x.denominator (-k)

/-- The least `k` with the value below `10 ^ k`: an estimate from the binary logarithm,
    corrected by exact comparison. -/
def decimalScale (x : Binary) : Int :=
  let estimate := (((x.significand.log2 : Int) + x.exponent) * 30103) / 100000 - 1
  ([estimate, estimate + 1, estimate + 2].find? x.belowPowerOfTen).getD (estimate + 3)

/-- The decimal `candidate * 10 ^ (-scale)` lies among the reals that round to the value. -/
def readsBack (x : Binary) (scale : Int) (candidate : Nat) : Bool :=
  let unit := x.numerator scale
  let low := (if x.narrowBelow then 4 * x.significand - 1 else 4 * x.significand - 2) * unit
  let high := (4 * x.significand + 2) * unit
  let point := 4 * candidate * x.denominator scale
  if x.significand % 2 == 0 then low ≤ point && point ≤ high else low < point && point < high

/-- The neighbour of the value on the grid `10 ^ (-scale)` that reads back; the nearer one if
    both do. -/
def hit? (tie : Tie) (x : Binary) (scale : Int) : Option Nat :=
  let value := x.significand * x.numerator scale
  let unit := x.denominator scale
  let below := value / unit
  match x.readsBack scale below, x.readsBack scale (below + 1) with
  | true, true => some (tie.nearer value unit below)
  | true, false => some below
  | false, true => some (below + 1)
  | false, false => none

end Binary

/-- Moves the trailing zeros of the digits into the exponent. -/
def Scaled.strip (d : Scaled) : Scaled :=
  if h : d.digits ≠ 0 ∧ d.digits % 10 = 0 then
    strip ⟨d.digits / 10, d.exponent + 1⟩
  else d
termination_by d.digits
decreasing_by omega

/-- The value itself as a decimal, with every digit it has. -/
def Binary.exact (x : Binary) : Scaled :=
  if x.exponent < 0 then
    ⟨x.significand * 5 ^ (-x.exponent).toNat, x.exponent⟩
  else
    ⟨x.significand * 2 ^ x.exponent.toNat, 0⟩

/-- The shortest decimal that reads back to the value, and of those the nearest.  Seventeen
    digits always suffice. -/
def Binary.shortest (tie : Tie) (x : Binary) : Scaled :=
  if x.significand = 0 then ⟨0, 0⟩
  else
    let k := x.decimalScale
    let attempt (n : Nat) : Option Scaled :=
      (x.hit? tie (n - k)).map fun digits => ⟨digits, k - n⟩
    (((List.range' 1 17).findSome? attempt).getD x.exact).strip

end GameSearch.Decimal
