/-
  GameSearch.Recording.Recorder

  A sink that writes each event as one line of JSON.  A sink cannot fail, so the
  first failure is kept until the end and later events are dropped.
-/
import GameSearch.Json.Scalar
import GameSearch.Recording.Store
import GameSearch.Sink

namespace GameSearch

namespace Event

/-- The bytes of an event as compact JSON. -/
def jsonBytes (e : Event) : List UInt8 := Json.bytesOfText e.toJson.text

/-- The line of an event in a recording, its line break included. -/
def line (e : Event) : List UInt8 := e.jsonBytes ++ [0x0A]

end Event

/-- A recorder. -/
structure Recorder where
  store : Store
  /-- Events written in full. -/
  written : Nat := 0
  /-- The first failure. -/
  fault : Option StorageFault := none

namespace Recorder

/-- Writes an event and then the line break. -/
def writeLine (store : Store) (e : Event) : Except StorageFault Unit × Store :=
  match store.writeAll e.jsonBytes with
  | (.error fault, store) => (.error fault, store)
  | (.ok _, store) => store.writeAll [0x0A]

/-- Records an event, unless there was a failure before. -/
def record (e : Event) (r : Recorder) : Recorder × List Message :=
  if r.fault.isSome then (r, [])
  else
    match writeLine r.store e with
    | (.ok _, store) => ({ r with store := store, written := r.written + 1 }, [])
    | (.error fault, store) =>
      ({ r with store := store, fault := some fault }, [.recordFailed e.name fault])

/-- The end of a recording: the first failure, or what comes of flushing the store. -/
def finish (r : Recorder) : Except StorageFault Unit × List Message :=
  match r.fault with
  | some fault => (.error fault, [])
  | none =>
    match r.store.flush with
    | .error fault => (.error fault, [])
    | .ok _ => (.ok (), [.recorderFinished r.written])

end Recorder

instance : Sink Recorder where
  enabled _ := true
  emit := Recorder.record

end GameSearch
