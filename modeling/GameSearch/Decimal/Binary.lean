/-
  GameSearch.Decimal.Binary

  What the bits of a double stand for: a sign and a natural number times a
  power of two.  All number text of this library is computed from this view, in
  exact arithmetic on natural numbers.
-/
import GameSearch.Arithmetic

namespace GameSearch.Decimal

attribute [local instance] Arithmetic.power

/-- A finite non-negative double, `significand * 2 ^ exponent`. -/
structure Binary where
  significand : Nat
  exponent : Int
  /-- The gap to the next double below is half the gap to the next one above. -/
  narrowBelow : Bool

namespace Binary

/-- Numerator of the factor `2 ^ exponent * 10 ^ scale`, written as a fraction of natural
    numbers. -/
def numerator (x : Binary) (scale : Int) : Nat :=
  2 ^ x.exponent.toNat * 10 ^ scale.toNat

/-- Denominator of the factor `2 ^ exponent * 10 ^ scale`. -/
def denominator (x : Binary) (scale : Int) : Nat :=
  2 ^ (-x.exponent).toNat * 10 ^ (-scale).toNat

end Binary

/-- What a double stands for. -/
inductive Reading where
  | nan
  | infinite (negative : Bool)
  | finite (negative : Bool) (magnitude : Binary)

/-- Takes a double apart: one sign bit, eleven bits of exponent, fifty-two of fraction. -/
def Reading.ofFloat (x : Float) : Reading :=
  let bits := x.toBits
  let negative := bits >>> 63 == 1
  let biased := ((bits >>> 52) &&& 0x7FF).toNat
  let fraction := (bits &&& 0xFFFFFFFFFFFFF).toNat
  if biased == 0x7FF then
    if fraction == 0 then .infinite negative else .nan
  else if biased == 0 then
    .finite negative ⟨fraction, -1074, false⟩
  else
    .finite negative ⟨2 ^ (52 : Nat) + fraction, (biased : Int) - 1075, fraction == 0 && biased > 1⟩

end GameSearch.Decimal
