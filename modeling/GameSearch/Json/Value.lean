/-
  GameSearch.Json.Value

  JSON values and their compact text.  Integers and other numbers are kept apart,
  since they are read and written differently.
-/
import GameSearch.Decimal.Notation

namespace GameSearch

/-- A JSON value.  The fields of an object stand in the order in which they are written. -/
inductive Json where
  | null
  | bool (b : Bool)
  | integer (n : Int)
  | real (x : Float)
  | string (s : String)
  | list (items : List Json)
  | object (fields : List (String × Json))

namespace Json

/-- Numbers that are not whole, or were not written as integers: positional from `1e-5` up to
    below `1e16`, a point and zero after whole numbers, a sign on every exponent. -/
def realNotation : Decimal.Notation where
  positionalFrom := some (-5)
  positionalUpTo := some 15
  wholeMark := ['.', '0']
  exponentPlus := ['+']
  tie := .toEven

/-- A number, or null if it is not finite. -/
def ofFloat (x : Float) : Json := if x.isFinite then .real x else .null

/-- The text of a number that was not written as an integer. -/
def realText (x : Float) : List Char :=
  if x.isFinite then (realNotation.float x).toList else "null".toList

/-- A character inside a JSON string. -/
def escapeChar (c : Char) : List Char :=
  if c = '"' || c = '\\' then ['\\', c]
  else if 0x20 ≤ c.toNat then [c]
  else if c = '\x08' then ['\\', 'b']
  else if c = '\x0c' then ['\\', 'f']
  else if c = '\n' then ['\\', 'n']
  else if c = '\r' then ['\\', 'r']
  else if c = '\t' then ['\\', 't']
  else '\\' :: 'u' :: '0' :: '0' :: [Nat.digitChar (c.toNat / 16), Nat.digitChar (c.toNat % 16)]

/-- A JSON string with its quotes. -/
def quote (s : String) : List Char := '"' :: (s.toList.flatMap escapeChar ++ ['"'])

/-- The decimal text of an integer. -/
def integerText : Int → List Char
  | .ofNat n => Decimal.digitsOf n
  | .negSucc n => '-' :: Decimal.digitsOf (n + 1)

mutual

/-- The compact text of a value: no blanks, fields in order. -/
def chars : Json → List Char
  | .null => "null".toList
  | .bool b => if b then "true".toList else "false".toList
  | .integer n => integerText n
  | .real x => realText x
  | .string s => quote s
  | .list [] => ['[', ']']
  | .list (x :: rest) => '[' :: (x.chars ++ itemChars rest)
  | .object [] => ['\x7b', '\x7d']
  | .object ((k, x) :: rest) => '\x7b' :: (quote k ++ ':' :: (x.chars ++ fieldChars rest))

/-- The items of a list after the first, and its end. -/
def itemChars : List Json → List Char
  | [] => [']']
  | x :: rest => ',' :: (x.chars ++ itemChars rest)

/-- The fields of an object after the first, and its end. -/
def fieldChars : List (String × Json) → List Char
  | [] => ['\x7d']
  | (k, x) :: rest => ',' :: (quote k ++ ':' :: (x.chars ++ fieldChars rest))

end

/-- The compact text of a value. -/
def text (j : Json) : String := String.ofList j.chars

end Json

end GameSearch
