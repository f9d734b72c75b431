/-
  GameSearch.Decimal.Notation

  Layout of decimal numbers.  A number has the fewest digits that identify it; a
  `Notation` says the rest: which numbers are written positionally, what marks a
  whole number, how an exponent is signed, and which way a tie between two equally
  short texts goes.
-/
import GameSearch.Decimal.Shortest

namespace GameSearch.Decimal

/-- The decisions of a number format. -/
structure Notation where
  /-- Least power of ten of the leading digit that is written positionally; no limit if absent. -/
  positionalFrom : Option Int
  /-- Greatest power of ten of the leading digit that is written positionally. -/
  positionalUpTo : Option Int
  /-- What follows the digits of a whole number in positional form. -/
  wholeMark : List Char
  /-- The sign of an exponent that is not negative. -/
  exponentPlus : List Char
  /-- Which of two equally short and equally near texts is written. -/
  tie : Tie

/-- The decimal digits of a natural number. -/
def digitsOf (n : Nat) : List Char := Nat.toDigits 10 n

/-- Digits with the point after the first `point` of them; zeros fill what is missing. -/
def positional (wholeMark digits : List Char) (point : Int) : List Char :=
  if point ≤ 0 then
    '0' :: '.' :: (List.replicate (-point).toNat '0' ++ digits)
  else if digits.length ≤ point.toNat then
    digits ++ List.replicate (point.toNat - digits.length) '0' ++ wholeMark
  else
    digits.take point.toNat ++ '.' :: digits.drop point.toNat

theorem mem_positional {wholeMark digits : List Char} {point : Int} {c : Char}
    (h : c ∈ positional wholeMark digits point) :
    c ∈ digits ∨ c ∈ wholeMark ∨ c = '0' ∨ c = '.' := by
  unfold positional at h
  split at h
  · simp only [List.mem_cons, List.mem_append, List.mem_replicate] at h
    grind
  · split at h
    · simp only [List.mem_append, List.mem_replicate] at h
      grind
    · rw [List.mem_append, List.mem_cons] at h
      grind [List.mem_of_mem_take, List.mem_of_mem_drop]

/-- One digit before the point, the others after it, and the power of ten of the first. -/
def exponential (plus digits : List Char) (power : Int) : List Char :=
  let fraction := digits.drop 1
  let sign := if power < 0 then ['-'] else plus
  digits.take 1 ++ (if fraction.isEmpty then [] else '.' :: fraction) ++
    'e' :: (sign ++ digitsOf power.natAbs)

/-- The text of a decimal number. -/
def Notation.render (style : Notation) (d : Scaled) : List Char :=
  let digits := digitsOf d.digits
  let power : Int := if d.digits = 0 then 0 else digits.length + d.exponent - 1
  let lowEnough := style.positionalUpTo.all (power ≤ ·)
  let highEnough := style.positionalFrom.all (· ≤ power)
  if lowEnough && highEnough then positional style.wholeMark digits (power + 1)
  else exponential style.exponentPlus digits power

/-- Positional always, and no mark on whole numbers: `3`, `0.1`, `-0`. -/
def plain : Notation where
  positionalFrom := none
  positionalUpTo := none
  wholeMark := []
  exponentPlus := []
  tie := .up

/-- The text of a double: its shortest digits in the given layout. -/
def Notation.float (style : Notation) (x : Float) : String :=
  match Reading.ofFloat x with
  | .nan => "NaN"
  | .infinite negative => if negative then "-inf" else "inf"
  | .finite negative magnitude =>
    let text := style.render (magnitude.shortest style.tie)
    String.ofList (if negative then '-' :: text else text)

end GameSearch.Decimal
