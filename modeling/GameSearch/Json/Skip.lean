/-
  GameSearch.Json.Skip

  Passing over a value without reading it.  Only the form is checked: numbers have
  no range, surrogates need no partner, and nesting has no limit, since the open
  brackets are kept on a stack.
-/
import GameSearch.Json.Scalar

namespace GameSearch.Json

-- ============================================================================
-- Scalars
-- ============================================================================

/-- Passes over what follows the letter that announces an exponent. -/
def skipExponent (s : Bytes) : Except Failure Bytes :=
  match (exponentSign s).2 with
  | [] => .error ⟨.invalidNumber, []⟩
  | b :: s => if isDigit b then .ok (s.dropWhile isDigit) else .error ⟨.invalidNumber, s⟩

/-- Passes over what follows the digits before or after the point. -/
def skipOptionalExponent : Bytes → Except Failure Bytes
  | [] => .ok []
  | b :: s => if isExponentMark b then skipExponent s else .ok (b :: s)

/-- Passes over what follows the digits before the point. -/
def skipTail : Bytes → Except Failure Bytes
  | [] => .ok []
  | b :: s =>
    if b == 0x2E then
      if startsWithDigit s then skipOptionalExponent (s.dropWhile isDigit)
      else .error ⟨.invalidNumber, s.drop 1⟩
    else skipOptionalExponent (b :: s)

/-- Passes over a number after its sign. -/
def skipUnsigned : Bytes → Except Failure Bytes
  | [] => .error ⟨.invalidNumber, []⟩
  | b :: s =>
    if b == 0x30 then
      if startsWithDigit s then .error ⟨.invalidNumber, s.drop 1⟩ else skipTail s
    else if isDigit b then skipTail (s.dropWhile isDigit)
    else .error ⟨.invalidNumber, s⟩

/-- Passes over a number. -/
def skipNumber : Bytes → Except Failure Bytes
  | 0x2D :: s => skipUnsigned s
  | s => skipUnsigned s

/-- Passes over what follows a backslash. -/
def skipEscape : Bytes → Except Failure Bytes
  | [] => .error ⟨.eofInString, []⟩
  | b :: s =>
    if (escapedByte b).isSome then .ok s
    else if b == 0x75 then (readHex s).map (·.2)
    else .error ⟨.invalidEscape, s⟩

theorem skipEscape_shorter {s r : Bytes} (h : skipEscape s = .ok r) : r.length < s.length := by
  unfold skipEscape at h
  split at h
  · cases h
  · split at h
    · cases h; simp
    · split at h
      · rename_i s' _ _
        cases hx : readHex s' with
        | error f => rw [hx] at h; cases h
        | ok x =>
          rw [hx] at h
          cases h
          have := readHex_shorter hx
          simp only [List.length_cons]; omega
      · cases h

/-- Passes over a string after its opening quote. -/
def skipString (s : Bytes) : Except Failure Bytes :=
  match s with
  | [] => .error ⟨.eofInString, []⟩
  | b :: s =>
    if b == 0x22 then .ok s
    else if b == 0x5C then
      match _h : skipEscape s with
      | .error f => .error f
      | .ok r => skipString r
    else if b < 0x20 then .error ⟨.controlCharacter, b :: s⟩
    else skipString s
termination_by s.length
decreasing_by
  · have := skipEscape_shorter _h
    simp only [List.length_cons]; omega
  · simp

-- ============================================================================
-- Nested values
-- ============================================================================

/-- A bracket that is still open. -/
inductive Bracket where
  | list
  | object
deriving DecidableEq

namespace Bracket

/-- The byte that closes a bracket. -/
def closing : Bracket → UInt8
  | .list => 0x5D
  | .object => 0x7D

/-- The end of the text inside a bracket. -/
def eof : Bracket → Cause
  | .list => .eofInList
  | .object => .eofInObject

/-- Something else than a comma or the closing byte after an element. -/
def unseparated : Bracket → Cause
  | .list => .expectedListCommaOrEnd
  | .object => .expectedObjectCommaOrEnd

end Bracket

/-- Passes over the key of a field and its colon. -/
def skipKey (s : Bytes) : Except Failure Bytes :=
  match skipSpace s with
  | [] => .error ⟨.eofInObject, []⟩
  | b :: s =>
    if b == 0x22 then
      match skipString s with
      | .error f => .error f
      | .ok s =>
        match skipSpace s with
        | [] => .error ⟨.eofInObject, []⟩
        | b :: s => if b == 0x3A then .ok s else .error ⟨.expectedColon, s⟩
    else .error ⟨.keyNotString, s⟩

/-- Passes over what stands before a value inside a bracket. -/
def skipToValue : Bracket → Bytes → Except Failure Bytes
  | .list, s => .ok s
  | .object, s => skipKey s

/-- Passes over the scalar that begins with the given byte; absent if none begins so. -/
def skipScalar? (b : UInt8) (s : Bytes) : Option (Except Failure Bytes) :=
  if b == 0x6E then some (expectWord "ull".toUTF8.data.toList s)
  else if b == 0x74 then some (expectWord "rue".toUTF8.data.toList s)
  else if b == 0x66 then some (expectWord "alse".toUTF8.data.toList s)
  else if startsNumber b then some (skipNumber (b :: s))
  else if b == 0x22 then some (skipString s)
  else none

/-- Where a walk over nested values stands. -/
inductive Standing where
  | beforeValue
  | afterValue

/-- Passes over a value inside the given open brackets, and over all that closes them.  Every turn
    consumes a byte, so one unit of fuel for each byte is enough. -/
def skipNested : Nat → Standing → List Bracket → Bytes → Except Failure Bytes
  | 0, _, _, s => .error ⟨.eofInValue, s⟩
  | _ + 1, .afterValue, [], s => .ok s
  | fuel + 1, .afterValue, bracket :: outer, s =>
    match skipSpace s with
    | [] => .error ⟨bracket.eof, []⟩
    | b :: s =>
      if b == 0x2C then
        match skipToValue bracket s with
        | .error f => .error f
        | .ok s => skipNested fuel .beforeValue (bracket :: outer) s
      else if b == bracket.closing then skipNested fuel .afterValue outer s
      else .error ⟨bracket.unseparated, s⟩
  | fuel + 1, .beforeValue, outer, s =>
    match skipSpace s with
    | [] => .error ⟨.eofInValue, []⟩
    | b :: s =>
      match skipScalar? b s with
      | some (.error f) => .error f
      | some (.ok s) => skipNested fuel .afterValue outer s
      | none =>
        if b == 0x5B || b == 0x7B then
          let bracket : Bracket := if b == 0x5B then .list else .object
          match skipSpace s with
          | [] => .error ⟨bracket.eof, []⟩
          | c :: s =>
            if c == bracket.closing then skipNested fuel .afterValue outer s
            else match skipToValue bracket (c :: s) with
              | .error f => .error f
              | .ok s => skipNested fuel .beforeValue (bracket :: outer) s
        else .error ⟨.expectedValue, s⟩

/-- Passes over a value. -/
def skipValue (s : Bytes) : Except Failure Bytes := skipNested (s.length + 2) .beforeValue [] s

end GameSearch.Json
