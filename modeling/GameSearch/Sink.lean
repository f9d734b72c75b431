/-
  GameSearch.Sink

  Consumers of events.  A sink has a state, says whether it wants events now, and
  takes one event at a time; taking an event may produce messages for the journal.
  Engines see a sink through a `Channel` and learn nothing from it but whether
  building an event is worth while.
-/
import GameSearch.Journal

namespace GameSearch

/-- A consumer of events with states in `σ`. -/
class Sink (σ : Type) where
  /-- The sink wants events in this state. -/
  enabled : σ → Bool
  /-- Takes an event. -/
  emit : Event → σ → σ × List Message

-- ============================================================================
-- Elementary sinks
-- ============================================================================

/-- Discards every event. -/
structure NullSink where

instance : Sink NullSink where
  enabled _ := false
  emit _ s := (s, [])

/-- Keeps every event, in order. -/
structure EventLog where
  events : Array Event := #[]

namespace EventLog

def size (log : EventLog) : Nat := log.events.size

/-- The number of events with the given name. -/
def count (log : EventLog) (name : String) : Nat := log.events.countP (·.name == name)

/-- Forgets every event. -/
def clear (_ : EventLog) : EventLog := {}

end EventLog

instance : Sink EventLog where
  enabled _ := true
  emit e log := ({ log with events := log.events.push e }, [])

/-- Keeps every event it is given, and wants no more once it holds `capacity` of them. -/
structure BoundedLog where
  capacity : Nat
  events : Array Event := #[]

instance : Sink BoundedLog where
  enabled log := log.events.size < log.capacity
  emit e log := ({ log with events := log.events.push e }, [])

/-- Turns events into messages of level `debug`.  It listens if such messages are kept. -/
structure MessageSink where
  listening : Bool

namespace MessageSink

/-- The sink that goes with a journal. -/
def of (j : Journal) : MessageSink := ⟨j.keeps .debug⟩

end MessageSink

instance : Sink MessageSink where
  enabled s := s.listening
  emit e s := (s, [.event e])

-- ============================================================================
-- Compositions
-- ============================================================================

/-- Sinks of one type put together.  An event given to a pair goes to each half that wants it. -/
inductive Composite (σ : Type) where
  | single (sink : σ)
  | pair (left right : Composite σ)
  /-- A sink behind an indirection, which changes nothing. -/
  | forward (sink : Composite σ)

namespace Composite

variable {σ : Type} [Sink σ]

def enabled : Composite σ → Bool
  | .single s => Sink.enabled s
  | .pair a b => a.enabled || b.enabled
  | .forward a => a.enabled

def emit (e : Event) : Composite σ → Composite σ × List Message
  | .single s =>
    let (s, messages) := Sink.emit e s
    (.single s, messages)
  | .pair a b =>
    let (a', first) := if a.enabled then a.emit e else (a, [])
    let (b', second) := if b.enabled then b.emit e else (b, [])
    (.pair a' b', first ++ second)
  | .forward a =>
    let (a, messages) := a.emit e
    (.forward a, messages)

/-- The elementary sinks, from left to right. -/
def singles : Composite σ → List σ
  | .single s => [s]
  | .pair a b => a.singles ++ b.singles
  | .forward a => a.singles

end Composite

instance {σ : Type} [Sink σ] : Sink (Composite σ) where
  enabled := Composite.enabled
  emit := Composite.emit

-- ============================================================================
-- Channels
-- ============================================================================

/-- Where an engine sends its events and messages. -/
structure Channel (σ : Type) where
  sink : σ
  journal : Journal

namespace Channel

variable {σ : Type}

/-- Adds a message to the journal. -/
def log (ch : Channel σ) (m : Message) : Channel σ := { ch with journal := ch.journal.add m }

variable [Sink σ]

/-- Gives an event to the sink, whether it wants it or not. -/
def force (ch : Channel σ) (e : Event) : Channel σ :=
  let (sink, messages) := Sink.emit e ch.sink
  ⟨sink, ch.journal.addAll messages⟩

/-- Gives an event to the sink if it wants events now. -/
def emit (ch : Channel σ) (e : Event) : Channel σ :=
  if Sink.enabled ch.sink then ch.force e else ch

end Channel

end GameSearch
