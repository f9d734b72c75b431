/-
  GameSearch.Json.Reader

  Reading values.  Lists and objects are read by loops that take the reader of an
  element as an argument; the nesting of brackets is limited, so the readers of
  nested values recurse on the number of brackets that may still be opened.
-/
import GameSearch.Json.Scalar

namespace GameSearch.Json

/-- Brackets that a text may open inside each other. -/
def nestingLimit : Nat := 127

-- ============================================================================
-- Elements and fields
-- ============================================================================

/-- Passes over blanks and the comma that separates elements. -/
def nextItem (first : Bool) : Bytes → Except Failure Bytes
  | [] => .error ⟨.eofInList, []⟩
  | b :: s =>
    if first then .ok (b :: s)
    else if b == 0x2C then
      match skipSpace s with
      | [] => .error ⟨.eofInValue, []⟩
      | c :: s => if c == 0x5D then .error ⟨.trailingComma, s⟩ else .ok (c :: s)
    else .error ⟨.expectedListCommaOrEnd, s⟩

/-- The elements of a list up to its end.  Every element consumes a byte, so one unit of fuel for
    each byte is enough. -/
def readItemsFrom {α : Type} (item : Reader α) : Nat → Bool → Reader (List α)
  | 0, _, s => .error ⟨.eofInList, s⟩
  | fuel + 1, first, s =>
    match skipSpace s with
    | [] => .error ⟨.eofInList, []⟩
    | b :: s =>
      if b == 0x5D then .ok ([], s)
      else match nextItem first (b :: s) with
        | .error f => .error f
        | .ok s =>
          match item s with
          | .error f => .error f
          | .ok (x, s) =>
            match readItemsFrom item fuel false s with
            | .error f => .error f
            | .ok (xs, s) => .ok (x :: xs, s)

/-- The elements of a list after its opening bracket. -/
def readItems {α : Type} (item : Reader α) : Reader (List α) := fun s =>
  readItemsFrom item (s.length + 1) true s

/-- The key of the next field, after a comma unless it is the first. -/
def readKey (first : Bool) : Bytes → Except Failure (String × Bytes)
  | [] => .error ⟨.eofInObject, []⟩
  | b :: s =>
    if b == 0x2C && !first then
      match skipSpace s with
      | [] => .error ⟨.eofInValue, []⟩
      | c :: s =>
        if c == 0x22 then readString s
        else if c == 0x7D then .error ⟨.trailingComma, s⟩
        else .error ⟨.keyNotString, s⟩
    else if first then
      if b == 0x22 then readString s else .error ⟨.keyNotString, s⟩
    else .error ⟨.expectedObjectCommaOrEnd, s⟩

/-- The colon after a key. -/
def readColon (s : Bytes) : Except Failure Bytes :=
  match skipSpace s with
  | [] => .error ⟨.eofInObject, []⟩
  | b :: s => if b == 0x3A then .ok s else .error ⟨.expectedColon, s⟩

/-- The fields of an object up to its end.  `field` is given what was read so far and the key, and
    reads on from behind the key. -/
def readFieldsFrom {σ : Type} (field : σ → String → Reader σ) : Nat → Bool → σ → Reader σ
  | 0, _, _, s => .error ⟨.eofInObject, s⟩
  | fuel + 1, first, state, s =>
    match skipSpace s with
    | [] => .error ⟨.eofInObject, []⟩
    | b :: s =>
      if b == 0x7D then .ok (state, s)
      else match readKey first (b :: s) with
        | .error f => .error f
        | .ok (key, s) =>
          match field state key s with
          | .error f => .error f
          | .ok (state, s) => readFieldsFrom field fuel false state s

/-- The fields of an object after its opening brace. -/
def readFields {σ : Type} (field : σ → String → Reader σ) (start : σ) : Reader σ := fun s =>
  readFieldsFrom field (s.length + 1) true start s

-- ============================================================================
-- Values of any form
-- ============================================================================

/-- The scalar at the beginning of some bytes; absent if none begins there. -/
def readScalar? : Bytes → Option (Except Failure (Json × Bytes))
  | [] => none
  | b :: s =>
    if b == 0x6E then some ((expectWord "ull".toUTF8.data.toList s).map (Json.null, ·))
    else if b == 0x74 then some ((expectWord "rue".toUTF8.data.toList s).map (Json.bool true, ·))
    else if b == 0x66 then some ((expectWord "alse".toUTF8.data.toList s).map (Json.bool false, ·))
    else if startsNumber b then
      some <| (readNumber (b :: s)).map fun
        | (.integer n, s) => (Json.integer n, s)
        | (.real x, s) => (Json.real x, s)
    else if b == 0x22 then some ((readString s).map fun (text, s) => (Json.string text, s))
    else none

/-- Puts a field into fields sorted by key; a field with the same key is replaced. -/
def insertField (key : String) (value : Json) : List (String × Json) → List (String × Json)
  | [] => [(key, value)]
  | (k, v) :: rest =>
    if key < k then (key, value) :: (k, v) :: rest
    else if key = k then (key, value) :: rest
    else (k, v) :: insertField key value rest

/-- A value of any form, in which so many more brackets may be opened.  The fields of an object
    are sorted by key, and of fields with equal keys the last one stays. -/
def readValue : Nat → Reader Json
  | nesting, s =>
    match skipSpace s with
    | [] => .error ⟨.eofInValue, []⟩
    | b :: s =>
      match readScalar? (b :: s) with
      | some result => result
      | none =>
        if b == 0x5B then
          match nesting with
          | 0 => .error ⟨.tooDeep, s⟩
          | nesting + 1 => (readItems (readValue nesting) s).map fun (xs, s) => (.list xs, s)
        else if b == 0x7B then
          match nesting with
          | 0 => .error ⟨.tooDeep, s⟩
          | nesting + 1 =>
            let field (fields : List (String × Json)) (key : String) :
                Reader (List (String × Json)) := fun s =>
              match readColon s with
              | .error f => .error f
              | .ok s => (readValue nesting s).map fun (x, s) => (insertField key x fields, s)
            (readFields field [] s).map fun (fields, s) => (.object fields, s)
        else .error ⟨.expectedValue, s⟩

-- ============================================================================
-- Whole texts
-- ============================================================================

/-- Reads a whole text: a value, and nothing but blanks after it. -/
def readAll {α : Type} (value : Reader α) (source : Bytes) : Except Error α :=
  match value source with
  | .error f => .error (f.locate source)
  | .ok (x, s) =>
    match skipSpace s with
    | [] => .ok x
    | _ :: rest => .error (Failure.locate source ⟨.trailingCharacters, rest⟩)

/-- Reads a text that holds one value of any form. -/
def ofBytes (source : Bytes) : Except Error Json := readAll (readValue nestingLimit) source

end GameSearch.Json
