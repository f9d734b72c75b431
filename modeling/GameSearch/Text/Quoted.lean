/-
  GameSearch.Text.Quoted

  Text between double quotes, for diagnostics.  Quotes, backslashes and the common
  controls are escaped by a letter; other characters that cannot be seen, or that
  would attach themselves to what stands before them, are shown by code point.
-/
import GameSearch.Text.Extending
import GameSearch.Text.Unprintable

namespace GameSearch.Text

/-- A character as it is written between the quotes. -/
def quotedChar (c : Char) : List Char :=
  if c = '\x00' then ['\\', '0']
  else if c = '\t' then ['\\', 't']
  else if c = '\r' then ['\\', 'r']
  else if c = '\n' then ['\\', 'n']
  else if c = '\\' || c = '"' then ['\\', c]
  else if isExtending c || isUnprintable c then
    '\\' :: 'u' :: '\x7b' :: (Nat.toDigits 16 c.toNat ++ ['\x7d'])
  else [c]

/-- The text between quotes. -/
def quoted (s : String) : String :=
  String.ofList ('"' :: (s.toList.flatMap quotedChar ++ ['"']))

end GameSearch.Text
