/-
  GameSearch.Json.Failure

  Why a text is no JSON, or not the JSON that was asked for, and where.  Readers
  work on the bytes of a text; a failure keeps the bytes that follow the place it
  points at, from which line and column are counted.
-/
import GameSearch.Json.Value
import GameSearch.Text.Quoted

namespace GameSearch.Json

/-- A text as a list of bytes. -/
abbrev Bytes := List UInt8

/-- The words for a value that was found where another was wanted.  Lists and objects are named by
    their form alone. -/
def describe : Json → String
  | .null => "null"
  | .bool b => "boolean `" ++ (if b then "true" else "false") ++ "`"
  | .integer n => "integer `" ++ String.ofList (integerText n) ++ "`"
  | .real x => "floating point `" ++ String.ofList (realText x) ++ "`"
  | .string s => "string " ++ Text.quoted s
  | .list _ => "sequence"
  | .object _ => "map"

/-- The reason of a failure. -/
inductive Cause where
  | eofInValue
  | eofInString
  | eofInList
  | eofInObject
  | expectedValue
  | expectedIdent
  | expectedColon
  | expectedListCommaOrEnd
  | expectedObjectCommaOrEnd
  | invalidNumber
  | numberOutOfRange
  | controlCharacter
  | invalidEscape
  | loneSurrogate
  | unpairedSurrogate
  | keyNotString
  | trailingComma
  | trailingCharacters
  | tooDeep
  | wrongType (found : Json) (wanted : String)
  | outOfRange (n : Int) (wanted : String)
  | duplicateField (name : String)

/-- The words for a reason. -/
def Cause.describe : Cause → String
  | .eofInValue => "EOF while parsing a value"
  | .eofInString => "EOF while parsing a string"
  | .eofInList => "EOF while parsing a list"
  | .eofInObject => "EOF while parsing an object"
  | .expectedValue => "expected value"
  | .expectedIdent => "expected ident"
  | .expectedColon => "expected `:`"
  | .expectedListCommaOrEnd => "expected `,` or `]`"
  | .expectedObjectCommaOrEnd => "expected `,` or `\x7d`"
  | .invalidNumber => "invalid number"
  | .numberOutOfRange => "number out of range"
  | .controlCharacter => "control character (\\u0000-\\u001F) found while parsing a string"
  | .invalidEscape => "invalid escape"
  | .loneSurrogate => "lone leading surrogate in hex escape"
  | .unpairedSurrogate => "unexpected end of hex escape"
  | .keyNotString => "key must be a string"
  | .trailingComma => "trailing comma"
  | .trailingCharacters => "trailing characters"
  | .tooDeep => "recursion limit exceeded"
  | .wrongType found wanted => "invalid type: " ++ found.describe ++ ", expected " ++ wanted
  | .outOfRange n wanted =>
    "invalid value: integer `" ++ String.ofList (integerText n) ++ "`, expected " ++ wanted
  | .duplicateField name => "duplicate field `" ++ name ++ "`"

/-- A reason, and the bytes after the place it points at. -/
structure Failure where
  cause : Cause
  rest : Bytes

/-- A reason with its place in the text. -/
structure Error where
  cause : Cause
  line : Nat
  column : Nat

/-- The place of a failure: lines are counted from one, and the column is the number of bytes
    since the last line break. -/
def Failure.locate (source : Bytes) (f : Failure) : Error :=
  let consumed := source.take (source.length - f.rest.length)
  { cause := f.cause
    line := consumed.count 0x0A + 1
    column := (consumed.reverse.takeWhile (· != 0x0A)).length }

/-- The words for a reason and its place. -/
def Error.message (e : Error) : String :=
  e.cause.describe ++ " at line " ++ toString e.line ++ " column " ++ toString e.column

end GameSearch.Json
