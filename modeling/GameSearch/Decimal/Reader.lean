/-
  GameSearch.Decimal.Reader

  From decimal digits to doubles.  `scaled?` multiplies or divides the rounded
  digits by a rounded power of ten, and refuses what lies out of range;
  `nearest` gives the double nearest to the exact decimal value.
-/
namespace GameSearch.Decimal

/-- The double nearest to `10 ^ k`. -/
def powerOfTen (k : Nat) : Float := Float.ofScientific 1 false k

/-- `x * 10 ^ (-k)`, by steps that divide by a power of ten within the range of doubles. -/
def shrink (x : Float) (k : Nat) : Float :=
  if k ≤ 308 then x / powerOfTen k
  else if x == 0 then x
  else shrink (x / powerOfTen 308) (k - 308)
termination_by k

/-- The double for `significand * 10 ^ exponent`; absent if that lies out of range.  Too small a
    number becomes zero. -/
def scaled? (significand : Nat) (exponent : Int) : Option Float :=
  let x := Float.ofNat significand
  match exponent with
  | .ofNat k =>
    if k ≤ 308 then
      let y := x * powerOfTen k
      if y.isInf then none else some y
    else if x == 0 then some x
    else none
  | .negSucc k => some (shrink x (k + 1))

/-- The double nearest to `digits * 10 ^ exponent`; infinite if that lies out of range. -/
def nearest (digits : Nat) (exponent : Int) : Float :=
  if digits = 0 then Float.ofBits 0
  else if exponent > 310 then Float.ofBits 0x7FF0000000000000
  else if exponent + digits.log2 < -1100 then Float.ofBits 0
  else match exponent with
    | .ofNat k => Float.ofScientific digits false k
    | .negSucc k => Float.ofScientific digits true (k + 1)

end GameSearch.Decimal
