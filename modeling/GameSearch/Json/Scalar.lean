/-
  GameSearch.Json.Scalar

  Reading words, numbers and strings.  Every reader takes the bytes of the text from
  where it stands and gives back what it read with the bytes that follow.

  Bytes are written by code: 0x22 is a quote, 0x5C a backslash, 0x2C a comma, 0x3A a
  colon, 0x5B and 0x5D are brackets, 0x7B and 0x7D braces; digits start at 0x30.
-/
import GameSearch.Arithmetic
import GameSearch.Decimal.Reader
import GameSearch.Json.Failure

namespace GameSearch.Json

attribute [local instance] Arithmetic.power

/-- A reader of a value at the beginning of some bytes. -/
abbrev Reader (α : Type) := Bytes → Except Failure (α × Bytes)

/-- Blanks between tokens: space, line feed, tab, carriage return. -/
def isSpace (b : UInt8) : Bool := b == 0x20 || b == 0x0A || b == 0x09 || b == 0x0D

def skipSpace (s : Bytes) : Bytes := s.dropWhile isSpace

def isDigit (b : UInt8) : Bool := 0x30 ≤ b && b ≤ 0x39

def digitValue (b : UInt8) : Nat := b.toNat - 0x30

/-- The bytes begin with a digit. -/
def startsWithDigit : Bytes → Bool
  | [] => false
  | b :: _ => isDigit b

/-- Consumes the given bytes, which are all that remains of a word. -/
def expectWord : List UInt8 → Bytes → Except Failure Bytes
  | [], s => .ok s
  | _ :: _, [] => .error ⟨.eofInValue, []⟩
  | w :: word, b :: s => if b = w then expectWord word s else .error ⟨.expectedIdent, s⟩

-- ============================================================================
-- Numbers
-- ============================================================================

/-- A number as it was written: an integer that fits 64 bits, or a double. -/
inductive Number where
  | integer (n : Int)
  | real (x : Float)

/-- Takes digits into `n` as long as it stays below `2 ^ 64`.  Also counts the digits taken. -/
def takeDigits (n : Nat) : Bytes → Nat × Nat × Bytes
  | [] => (n, 0, [])
  | b :: s =>
    if isDigit b && n * 10 + digitValue b < 2 ^ (64 : Nat) then
      let (m, count, rest) := takeDigits (n * 10 + digitValue b) s
      (m, count + 1, rest)
    else (n, 0, b :: s)

/-- Takes digits of an exponent into `n` as long as it stays below `2 ^ 31`; otherwise gives the
    bytes after the digit that goes too far. -/
def takeExponent (n : Nat) : Bytes → Nat × Bytes ⊕ Bytes
  | [] => .inl (n, [])
  | b :: s =>
    if isDigit b then
      if n * 10 + digitValue b < 2 ^ (31 : Nat) then takeExponent (n * 10 + digitValue b) s
      else .inr s
    else .inl (n, b :: s)

/-- The double with the given sign and size. -/
def signed (negative : Bool) (x : Float) : Float := if negative then -x else x

/-- The double `significand * 10 ^ exponent`, refused if it is out of range. -/
def finishReal (negative : Bool) (significand : Nat) (exponent : Int) : Reader Number := fun s =>
  match Decimal.scaled? significand exponent with
  | some x => .ok (.real (signed negative x), s)
  | none => .error ⟨.numberOutOfRange, s⟩

/-- An optional sign; absent means plus. -/
def exponentSign : Bytes → Bool × Bytes
  | 0x2B :: s => (false, s)
  | 0x2D :: s => (true, s)
  | s => (false, s)

/-- What follows the letter that announces an exponent. -/
def readExponent (negative : Bool) (significand : Nat) (exponent : Int) : Reader Number := fun s =>
  let (downward, s) := exponentSign s
  match s with
  | [] => .error ⟨.eofInValue, []⟩
  | b :: s =>
    if isDigit b then
      match takeExponent (digitValue b) s with
      | .inl (e, s) =>
        finishReal negative significand (if downward then exponent - e else exponent + e) s
      | .inr s =>
        if significand != 0 && !downward then .error ⟨.numberOutOfRange, s⟩
        else .ok (.real (signed negative (Float.ofBits 0)), s.dropWhile isDigit)
    else .error ⟨.invalidNumber, s⟩

def isExponentMark (b : UInt8) : Bool := b == 0x65 || b == 0x45

/-- What follows the point of a number. -/
def readFraction (negative : Bool) (significand : Nat) (exponent : Int) : Reader Number := fun s =>
  if startsWithDigit s then
    let (significand, count, s) := takeDigits significand s
    let exponent := exponent - count
    match s.dropWhile isDigit with
    | [] => finishReal negative significand exponent []
    | b :: s =>
      if isExponentMark b then readExponent negative significand exponent s
      else finishReal negative significand exponent (b :: s)
  else match s with
    | [] => .error ⟨.eofInValue, []⟩
    | _ :: s => .error ⟨.invalidNumber, s⟩

/-- A number without point and exponent.  Minus zero, and what lies below the least integer of 64
    bits, is a double. -/
def wholeNumber (negative : Bool) (n : Nat) : Number :=
  if !negative then .integer n
  else if n == 0 || 2 ^ (63 : Nat) < n then .real (-(Float.ofNat n))
  else .integer (-n)

/-- What follows the digits before the point, the last `dropped` of which did not fit. -/
def readTail (negative : Bool) (significand dropped : Nat) : Reader Number := fun s =>
  match s with
  | b :: s' =>
    if b == 0x2E then readFraction negative significand dropped s'
    else if isExponentMark b then readExponent negative significand dropped s'
    else if dropped == 0 then .ok (wholeNumber negative significand, s)
    else finishReal negative significand dropped s
  | [] =>
    if dropped == 0 then .ok (wholeNumber negative significand, [])
    else finishReal negative significand dropped []

/-- A number after its sign. -/
def readUnsigned (negative : Bool) : Reader Number
  | [] => .error ⟨.eofInValue, []⟩
  | b :: s =>
    if b == 0x30 then
      if startsWithDigit s then .error ⟨.invalidNumber, s.drop 1⟩ else readTail negative 0 0 s
    else if isDigit b then
      let (significand, _, s) := takeDigits (digitValue b) s
      readTail negative significand (s.takeWhile isDigit).length (s.dropWhile isDigit)
    else .error ⟨.invalidNumber, s⟩

/-- The byte may begin a number. -/
def startsNumber (b : UInt8) : Bool := b == 0x2D || isDigit b

/-- A number. -/
def readNumber : Reader Number
  | 0x2D :: s => readUnsigned true s
  | s => readUnsigned false s

-- ============================================================================
-- Strings
-- ============================================================================

def hexValue (b : UInt8) : Option Nat :=
  if isDigit b then some (digitValue b)
  else if 0x61 ≤ b && b ≤ 0x66 then some (b.toNat - 0x57)
  else if 0x41 ≤ b && b ≤ 0x46 then some (b.toNat - 0x37)
  else none

/-- Four hexadecimal digits. -/
def readHex : Reader Nat
  | a :: b :: c :: d :: s =>
    match hexValue a, hexValue b, hexValue c, hexValue d with
    | some a, some b, some c, some d => .ok (((a * 16 + b) * 16 + c) * 16 + d, s)
    | _, _, _, _ => .error ⟨.invalidEscape, s⟩
  | _ => .error ⟨.eofInString, []⟩

/-- The bytes of a code point. -/
def encodeCodePoint (n : Nat) : List UInt8 := String.utf8EncodeChar (Char.ofNat n)

def isHighSurrogate (n : Nat) : Bool := 0xD800 ≤ n && n ≤ 0xDBFF

def isLowSurrogate (n : Nat) : Bool := 0xDC00 ≤ n && n ≤ 0xDFFF

/-- The second half of a surrogate pair. -/
def readLowSurrogate (high : Nat) : Reader (List UInt8)
  | [] => .error ⟨.eofInString, []⟩
  | b :: s =>
    if b != 0x5C then .error ⟨.unpairedSurrogate, s⟩
    else match s with
      | [] => .error ⟨.eofInString, []⟩
      | u :: s =>
        if u != 0x75 then .error ⟨.unpairedSurrogate, s⟩
        else match readHex s with
          | .error f => .error f
          | .ok (low, s) =>
            if isLowSurrogate low then
              .ok (encodeCodePoint ((high - 0xD800) * 0x400 + (low - 0xDC00) + 0x10000), s)
            else .error ⟨.loneSurrogate, s⟩

/-- What follows a backslash and the letter for a code point. -/
def readCodePoint : Reader (List UInt8) := fun s =>
  match readHex s with
  | .error f => .error f
  | .ok (n, s) =>
    if isLowSurrogate n then .error ⟨.loneSurrogate, s⟩
    else if isHighSurrogate n then readLowSurrogate n s
    else .ok (encodeCodePoint n, s)

/-- The byte that a backslash and the given letter stand for. -/
def escapedByte (b : UInt8) : Option UInt8 :=
  if b == 0x22 || b == 0x5C || b == 0x2F then some b
  else if b == 0x62 then some 0x08
  else if b == 0x66 then some 0x0C
  else if b == 0x6E then some 0x0A
  else if b == 0x72 then some 0x0D
  else if b == 0x74 then some 0x09
  else none

/-- What follows a backslash. -/
def readEscape : Reader (List UInt8)
  | [] => .error ⟨.eofInString, []⟩
  | b :: s =>
    match escapedByte b with
    | some x => .ok ([x], s)
    | none => if b == 0x75 then readCodePoint s else .error ⟨.invalidEscape, s⟩

theorem readHex_shorter {s r : Bytes} {n : Nat} (h : readHex s = .ok (n, r)) :
    r.length < s.length := by
  unfold readHex at h
  split at h
  · split at h
    · cases h; simp only [List.length_cons]; omega
    · cases h
  · cases h

theorem readLowSurrogate_shorter {high : Nat} {s r : Bytes} {x : List UInt8}
    (h : readLowSurrogate high s = .ok (x, r)) : r.length < s.length := by
  unfold readLowSurrogate at h
  split at h
  · cases h
  · split at h
    · cases h
    · split at h
      · cases h
      · split at h
        · cases h
        · split at h
          · cases h
          · rename_i hx
            have := readHex_shorter hx
            split at h
            · simp only [Except.ok.injEq, Prod.mk.injEq] at h
              rw [← h.2]; simp only [List.length_cons]; omega
            · cases h

/-- An escape consumes something. -/
theorem readEscape_shorter {s r : Bytes} {x : List UInt8} (h : readEscape s = .ok (x, r)) :
    r.length < s.length := by
  unfold readEscape at h
  split at h
  · cases h
  · split at h
    · cases h; simp
    · split at h
      · unfold readCodePoint at h
        split at h
        · cases h
        · rename_i hx
          have h₁ := readHex_shorter hx
          simp only [List.length_cons]
          split at h
          · cases h
          · split at h
            · have h₂ := readLowSurrogate_shorter h
              omega
            · simp only [Except.ok.injEq, Prod.mk.injEq] at h
              rw [← h.2]; omega
      · cases h

/-- The bytes of a string up to its closing quote, escapes resolved. -/
def readStringBytes (s : Bytes) : Except Failure (List UInt8 × Bytes) :=
  match s with
  | [] => .error ⟨.eofInString, []⟩
  | b :: s =>
    if b == 0x22 then .ok ([], s)
    else if b == 0x5C then
      match _h : readEscape s with
      | .error f => .error f
      | .ok (x, r) =>
        match readStringBytes r with
        | .error f => .error f
        | .ok (xs, r) => .ok (x ++ xs, r)
    else if b < 0x20 then .error ⟨.controlCharacter, s⟩
    else match readStringBytes s with
      | .error f => .error f
      | .ok (xs, r) => .ok (b :: xs, r)
termination_by s.length
decreasing_by
  · have := readEscape_shorter _h
    simp only [List.length_cons]; omega
  · simp

/-- Text from its bytes.  The pieces of a valid text between ASCII bytes are valid. -/
def textOfBytes (bytes : List UInt8) : String :=
  (String.fromUTF8? ⟨bytes.toArray⟩).getD ""

/-- The bytes of a text. -/
def bytesOfText (s : String) : Bytes := s.toUTF8.data.toList

/-- A string after its opening quote. -/
def readString : Reader String := fun s =>
  match readStringBytes s with
  | .error f => .error f
  | .ok (bytes, s) => .ok (textOfBytes bytes, s)

end GameSearch.Json
