/-
  GameSearch.Recording.Store

  Where recorded bytes go: a store of limited or unlimited capacity.  A write that
  does not fit is cut at the limit; the next one fails.
-/
import GameSearch.Recording.Fault

namespace GameSearch

/-- A store of bytes. -/
structure Store where
  /-- The number of bytes that fit; no limit if absent. -/
  capacity : Option Nat
  /-- Whether a full store fails, or takes nothing without saying so. -/
  silentWhenFull : Bool
  /-- Flushing the store fails. -/
  flushFails : Bool
  /-- The bytes taken so far. -/
  bytes : Array UInt8 := #[]

namespace Store

/-- A store without limit that never fails. -/
def unlimited : Store := ⟨none, false, false, #[]⟩

/-- The number of bytes that still fit; no limit if absent. -/
def room (s : Store) : Option Nat := s.capacity.map (· - s.bytes.size)

/-- One write: takes as many bytes as fit and tells how many.  A store that is full fails, or
    takes none. -/
def write (s : Store) (bytes : List UInt8) : Except StorageFault Nat × Store :=
  match s.room with
  | none => (.ok bytes.length, { s with bytes := s.bytes ++ bytes })
  | some 0 => if s.silentWhenFull then (.ok 0, s) else (.error .full, s)
  | some room =>
    (.ok (min room bytes.length), { s with bytes := s.bytes ++ bytes.take room })

/-- Writes until all bytes are taken.  A write that takes nothing is a failure. -/
def writeAll (s : Store) (bytes : List UInt8) : Except StorageFault Unit × Store :=
  if bytes.isEmpty then (.ok (), s)
  else
    match s.write bytes with
    | (.error fault, s) => (.error fault, s)
    | (.ok 0, s) => (.error .nothingWritten, s)
    | (.ok (n + 1), s) => writeAll s (bytes.drop (n + 1))
termination_by bytes.length
decreasing_by
  simp only [List.isEmpty_iff] at *
  have := List.length_pos_iff.2 ‹¬bytes = []›
  simp only [List.length_drop]
  omega

/-- Flushes the store. -/
def flush (s : Store) : Except StorageFault Unit :=
  if s.flushFails then .error .flushFailed else .ok ()

end Store

end GameSearch
