/-
  GameSearch.CommandLine.Number

  Numbers as they are given on the command line: a sign may precede them, and no
  blanks are allowed.
-/
import GameSearch.Arithmetic
import GameSearch.Decimal.Reader

namespace GameSearch.CommandLine

attribute [local instance] Arithmetic.power

/-- The value of a non-empty list of decimal digits. -/
def digitsValue? (digits : List Char) : Option Nat :=
  if digits.isEmpty || !digits.all Char.isDigit then none
  else some (digits.foldl (fun n c => n * 10 + (c.toNat - 48)) 0)

/-- A natural number below `2 ^ 64`, with an optional plus sign. -/
def readNat64? (text : String) : Option Nat :=
  let digits := match text.toList with
    | '+' :: rest => rest
    | chars => chars
  (digitsValue? digits).filter (· < 2 ^ (64 : Nat))

/-- A signed integer of 64 bits, with an optional sign. -/
def readInt64? (text : String) : Option Int :=
  let value : Option Int := match text.toList with
    | '+' :: rest => (digitsValue? rest).map Int.ofNat
    | '-' :: rest => (digitsValue? rest).map fun n => -(n : Int)
    | chars => (digitsValue? chars).map Int.ofNat
  value.filter fun n => -2 ^ (63 : Nat) ≤ n && n < 2 ^ (63 : Nat)

/-- An exponent with its mark, or nothing. -/
def exponent? : List Char → Option Int
  | [] => some 0
  | c :: rest =>
    if c = 'e' || c = 'E' then
      match rest with
      | '+' :: digits => (digitsValue? digits).map Int.ofNat
      | '-' :: digits => (digitsValue? digits).map fun n => -(n : Int)
      | digits => (digitsValue? digits).map Int.ofNat
    else none

/-- A decimal without sign: digits on at least one side of an optional point, then an optional
    exponent. -/
def decimal? (chars : List Char) : Option Float :=
  let whole := chars.takeWhile Char.isDigit
  let rest := chars.dropWhile Char.isDigit
  let (fraction, rest) := match rest with
    | '.' :: more => (more.takeWhile Char.isDigit, more.dropWhile Char.isDigit)
    | _ => ([], rest)
  match digitsValue? (whole ++ fraction), exponent? rest with
  | some digits, some e => some (Decimal.nearest digits (e - fraction.length))
  | _, _ => none

/-- A word for a number that no digits can give; case does not matter. -/
def wordValue? (chars : List Char) : Option Float :=
  let word := String.ofList (chars.map Char.toLower)
  if word = "nan" then some (Float.ofBits 0x7FF8000000000000)
  else if word = "inf" || word = "infinity" then some (Float.ofBits 0x7FF0000000000000)
  else none

/-- A double: a decimal, an infinity or NaN, with an optional sign. -/
def readFloat? (text : String) : Option Float :=
  let unsigned (chars : List Char) : Option Float := (decimal? chars).or (wordValue? chars)
  match text.toList with
  | '+' :: rest => unsigned rest
  | '-' :: rest => (unsigned rest).map (- ·)
  | chars => unsigned chars

end GameSearch.CommandLine
