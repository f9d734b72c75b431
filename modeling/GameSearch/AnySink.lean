/-
  GameSearch.AnySink

  The elementary sinks of this library as one type, so that sinks of different
  kinds can be put together.
-/
import GameSearch.Recording.Recorder

namespace GameSearch

/-- An elementary sink of any kind. -/
inductive AnySink where
  | null
  | log (log : EventLog)
  | bounded (log : BoundedLog)
  | messages (sink : MessageSink)
  | recorder (recorder : Recorder)

namespace AnySink

def enabled : AnySink → Bool
  | .null => Sink.enabled NullSink.mk
  | .log s => Sink.enabled s
  | .bounded s => Sink.enabled s
  | .messages s => Sink.enabled s
  | .recorder s => Sink.enabled s

def emit (e : Event) : AnySink → AnySink × List Message
  | .null => (.null, (Sink.emit e NullSink.mk).2)
  | .log s => (Sink.emit e s).map .log id
  | .bounded s => (Sink.emit e s).map .bounded id
  | .messages s => (Sink.emit e s).map .messages id
  | .recorder s => (Sink.emit e s).map .recorder id

end AnySink

instance : Sink AnySink where
  enabled := AnySink.enabled
  emit := AnySink.emit

end GameSearch
