/-
  GameSearch.Json.Record

  Reading values of a given form.  A record is written as an object, or as a list of
  its fields in order, which may stop early; keys that it does not know are passed
  over, and a known key must not come twice.
-/
import GameSearch.Arithmetic
import GameSearch.Json.Reader
import GameSearch.Json.Skip

namespace GameSearch.Json

attribute [local instance] Arithmetic.power

/-- The failure for a value of another form than the wanted one.  A scalar is consumed, a list or
    an object is not. -/
def mismatch {α : Type} (wanted : String) : Reader α
  | [] => .error ⟨.eofInValue, []⟩
  | b :: s =>
    match readScalar? (b :: s) with
    | some (.error f) => .error f
    | some (.ok (found, s)) => .error ⟨.wrongType found wanted, s⟩
    | none =>
      if b == 0x5B then .error ⟨.wrongType (.list []) wanted, b :: s⟩
      else if b == 0x7B then .error ⟨.wrongType (.object []) wanted, b :: s⟩
      else .error ⟨.expectedValue, s⟩

/-- A string. -/
def readText : Reader String := fun s =>
  match skipSpace s with
  | 0x22 :: s => readString s
  | s => mismatch "a string" s

/-- The number at the beginning of some bytes, which must start one. -/
def readNumberOr {α : Type} (wanted : String) (use : Number → Bytes → Except Failure (α × Bytes)) :
    Reader α := fun s =>
  match skipSpace s with
  | [] => .error ⟨.eofInValue, []⟩
  | b :: s =>
    if startsNumber b then
      match readNumber (b :: s) with
      | .error f => .error f
      | .ok (n, s) => use n s
    else mismatch wanted (b :: s)

/-- A double; integers are converted. -/
def readFloat : Reader Float :=
  readNumberOr "f64" fun
    | .integer n, s => .ok (Float.ofInt n, s)
    | .real x, s => .ok (x, s)

/-- An integer from `low` up to `high`; other numbers are refused. -/
def readInteger (wanted : String) (low high : Int) : Reader Int :=
  readNumberOr wanted fun
    | .integer n, s =>
      if low ≤ n && n ≤ high then .ok (n, s) else .error ⟨.outOfRange n wanted, s⟩
    | .real x, s => .error ⟨.wrongType (.real x) wanted, s⟩

/-- A signed integer of 64 bits. -/
def readInt64 : Reader Int := readInteger "i64" (-2 ^ (63 : Nat)) (2 ^ (63 : Nat) - 1)

/-- An unsigned integer of 64 bits. -/
def readNat64 : Reader Nat := fun s =>
  (readInteger "u64" 0 (2 ^ (64 : Nat) - 1) s).map fun (n, s) => (n.toNat, s)

/-- A truth value. -/
def readBool : Reader Bool := fun s =>
  match skipSpace s with
  | 0x74 :: s => (expectWord "rue".toUTF8.data.toList s).map (true, ·)
  | 0x66 :: s => (expectWord "alse".toUTF8.data.toList s).map (false, ·)
  | s => mismatch "a boolean" s

/-- A value that may be null, which counts as absent. -/
def readNullable {α : Type} (value : Reader α) : Reader (Option α) := fun s =>
  match skipSpace s with
  | 0x6E :: s => (expectWord "ull".toUTF8.data.toList s).map (none, ·)
  | s => (value s).map fun (x, s) => (some x, s)

/-- A list in which so many more brackets may be opened, its own included. -/
def readList {α : Type} (nesting : Nat) (item : Reader α) : Reader (List α) := fun s =>
  match skipSpace s with
  | 0x5B :: s => if nesting = 0 then .error ⟨.tooDeep, s⟩ else readItems item s
  | s => mismatch "a sequence" s

-- ============================================================================
-- Records
-- ============================================================================

/-- A field of a record: its key, and how its value goes into what was read so far. -/
structure Field (σ : Type) where
  key : String
  read : σ → Reader σ

/-- A field whose value is stored by a setter. -/
def Field.of {σ α : Type} (key : String) (value : Reader α) (set : σ → α → σ) : Field σ where
  key := key
  read := fun state s => (value s).map fun (x, s) => (set state x, s)

/-- What follows a repeated key up to where the failure is reported: blanks, and the end of the
    object if it comes next. -/
def afterRepeated (s : Bytes) : Bytes :=
  match skipSpace s with
  | 0x7D :: s => s
  | s => s

/-- One field of a record that is written as an object.  The keys met so far are carried along. -/
def readRecordField {σ : Type} (fields : List (Field σ)) (state : σ × List String) (key : String) :
    Reader (σ × List String) := fun s =>
  match fields.find? (·.key == key) with
  | some field =>
    if state.2.contains key then .error ⟨.duplicateField key, afterRepeated s⟩
    else match readColon s with
      | .error f => .error f
      | .ok s => (field.read state.1 s).map fun (x, s) => ((x, key :: state.2), s)
  | none =>
    match readColon s with
    | .error f => .error f
    | .ok s => (skipValue s).map fun s => (state, s)

/-- The end of a record that is written as a list, after its last field. -/
def readListEnd (s : Bytes) : Except Failure Bytes :=
  match skipSpace s with
  | [] => .error ⟨.eofInList, []⟩
  | b :: s =>
    if b == 0x5D then .ok s
    else if b == 0x2C then
      match skipSpace s with
      | [] => .error ⟨.trailingCharacters, []⟩
      | c :: s => .error ⟨if c == 0x5D then .trailingComma else .trailingCharacters, s⟩
    else .error ⟨.trailingCharacters, s⟩

/-- The fields of a record that is written as a list. -/
def readPositional {σ : Type} : List (Field σ) → Bool → σ → Reader σ
  | [], _, state, s => (readListEnd s).map (state, ·)
  | field :: fields, first, state, s =>
    match skipSpace s with
    | [] => .error ⟨.eofInList, []⟩
    | b :: s =>
      if b == 0x5D then .ok (state, s)
      else match nextItem first (b :: s) with
        | .error f => .error f
        | .ok s =>
          match field.read state s with
          | .error f => .error f
          | .ok (state, s) => readPositional fields false state s

/-- A record in which so many more brackets may be opened, its own included. -/
def readRecord {σ : Type} (wanted : String) (nesting : Nat) (fields : List (Field σ)) (start : σ) :
    Reader σ := fun s =>
  match skipSpace s with
  | [] => .error ⟨.eofInValue, []⟩
  | b :: s =>
    if b == 0x5B then
      if nesting = 0 then .error ⟨.tooDeep, s⟩ else readPositional fields true start s
    else if b == 0x7B then
      if nesting = 0 then .error ⟨.tooDeep, s⟩
      else (readFields (readRecordField fields) (start, []) s).map fun (state, s) => (state.1, s)
    else mismatch wanted (b :: s)

end GameSearch.Json
