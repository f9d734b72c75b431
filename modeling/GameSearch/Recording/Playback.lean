/-
  GameSearch.Recording.Playback

  Reading a recording back: one JSON value per line, blank lines skipped.
-/
import GameSearch.Json.Reader
import GameSearch.Recording.Fault
import GameSearch.Text.Blank

namespace GameSearch.Recording

/-- Why a recording could not be read. -/
inductive Fault where
  /-- A line is no text. -/
  | storage (fault : StorageFault)
  /-- A line is no JSON; the position counts from the beginning of the line. -/
  | json (error : Json.Error)

/-- The words for a failure. -/
def Fault.message : Fault → String
  | .storage fault => fault.message
  | .json error => error.message

/-- The lines of some bytes, without their ends.  A line ends with a line feed, and a carriage
    return right before it belongs to the end; after the last line feed there is a line only if
    bytes follow. -/
def lines : List UInt8 → List (List UInt8)
  | [] => []
  | 0x0A :: rest => [] :: lines rest
  | 0x0D :: 0x0A :: rest => [] :: lines rest
  | b :: rest =>
    match lines rest with
    | [] => [[b]]
    | line :: more => (b :: line) :: more

/-- The value on a line; absent if the line is blank. -/
def readLine (line : List UInt8) : Except Fault (Option Json) :=
  match String.fromUTF8? ⟨line.toArray⟩ with
  | none => .error (.storage .notText)
  | some text =>
    if text.toList.all Text.isBlank then .ok none
    else
      match Json.ofBytes line with
      | .error e => .error (.json e)
      | .ok value => .ok (some value)

/-- The values on some lines, up to the first line that cannot be read. -/
def readLines : List (List UInt8) → Except Fault (List Json)
  | [] => .ok []
  | line :: rest =>
    match readLine line with
    | .error fault => .error fault
    | .ok value => (readLines rest).map fun values => value.toList ++ values

/-- The events in a recording, as JSON values. -/
def readEvents (bytes : List UInt8) : Except Fault (List Json) := readLines (lines bytes)

end GameSearch.Recording
