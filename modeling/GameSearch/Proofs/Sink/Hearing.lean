/-
  GameSearch.Proofs.Sink.Hearing

  What a sink makes of a stream of events.  It takes in those events at which it is enabled
  and no others.  A log is enabled always, so it holds the stream itself, and what any other
  sink has heard can be read off a log that went along with it.

    * `Sink.offer`, `Sink.hear` — one event, a whole stream
    * `hear_of_enabled`         — a sink that is always enabled takes in the whole stream
    * `toList_hear_boundedLog`  — a log of limited capacity holds the first events
    * `Channel.Follows`         — a sink has heard what a log holds
    * `Overheard`               — a call that pays no attention to its sink
-/
import GameSearch.Sink

namespace GameSearch

-- ============================================================================
-- Streams of events
-- ============================================================================

namespace Sink

variable {σ : Type} [Sink σ]

/-- The sink after an event was offered to it: it takes the event in if it wants events now. -/
def offer (s : σ) (e : Event) : σ := if enabled s then (emit e s).1 else s

/-- The sink after the events of a stream were offered to it one by one. -/
def hear (events : List Event) (s : σ) : σ := events.foldl offer s

@[simp]
theorem hear_nil (s : σ) : hear [] s = s := rfl

@[simp]
theorem hear_cons (e : Event) (events : List Event) (s : σ) :
    hear (e :: events) s = hear events (offer s e) := rfl

theorem hear_append (xs ys : List Event) (s : σ) : hear (xs ++ ys) s = hear ys (hear xs s) :=
  List.foldl_append

/-- The sink after it has taken in every event of a stream. -/
def takeAll (events : List Event) (s : σ) : σ := events.foldl (fun s e => (emit e s).1) s

/-- A sink that is always enabled takes in every event that it is offered. -/
theorem hear_of_enabled (h : ∀ s : σ, enabled s = true) (events : List Event) (s : σ) :
    hear events s = takeAll events s := by
  have hoffer : offer = fun (s : σ) e => (emit e s).1 := by
    funext s e
    rw [offer, if_pos (h s)]
  rw [hear, hoffer, takeAll]

/-- A log takes in events at its end. -/
theorem toList_takeAll_eventLog (events : List Event) (log : EventLog) :
    (takeAll events log).events.toList = log.events.toList ++ events := by
  induction events generalizing log with
  | nil => exact (List.append_nil _).symm
  | cons e events ih =>
    refine (ih _).trans ?_
    simp [emit]

/-- A log of limited capacity fills up with the first events and then stays as it is. -/
theorem toList_hear_boundedLog (events : List Event) (log : BoundedLog) :
    (hear events log).events.toList =
      log.events.toList ++ events.take (log.capacity - log.events.size) := by
  induction events generalizing log with
  | nil => simp
  | cons e events ih =>
    by_cases hroom : log.events.size < log.capacity
    · have htaken : offer log e = { log with events := log.events.push e } := by
        simp [offer, enabled, emit, hroom]
      have hleft : log.capacity - log.events.size =
          log.capacity - (log.events.size + 1) + 1 := by omega
      rw [hear_cons, htaken, ih, hleft]
      simp
    · have hfull : offer log e = log := by simp [offer, enabled, hroom]
      have hleft : log.capacity - log.events.size = 0 := by omega
      rw [hear_cons, hfull, ih, hleft]
      simp

end Sink

-- ============================================================================
-- Channels
-- ============================================================================

namespace Channel

variable {σ τ : Type}

/-- A channel on which nobody listens. -/
def deaf : Channel NullSink := ⟨NullSink.mk, Journal.silent⟩

/-- A channel on which a log listens that is still empty. -/
def recording : Channel EventLog := ⟨{}, Journal.silent⟩

/-- The channel with another sink in place of its own. -/
def map (f : σ → τ) (ch : Channel σ) : Channel τ := ⟨f ch.sink, ch.journal⟩

@[simp]
theorem sink_log (ch : Channel σ) (m : Message) : (ch.log m).sink = ch.sink := rfl

variable [Sink σ] {s : σ} {ch : Channel σ} {taped : Channel EventLog}

@[simp]
theorem sink_emit (ch : Channel σ) (e : Event) : (ch.emit e).sink = Sink.offer ch.sink e := by
  unfold emit Sink.offer
  split <;> rfl

@[simp]
theorem toList_emit_eventLog (taped : Channel EventLog) (e : Event) :
    (taped.emit e).sink.events.toList = taped.sink.events.toList ++ [e] := by
  simp [Sink.offer, Sink.enabled, Sink.emit]

/-- The sink of the channel was in the state `s` and has since heard what the log holds. -/
def Follows (s : σ) (ch : Channel σ) (taped : Channel EventLog) : Prop :=
  ch.sink = Sink.hear taped.sink.events.toList s

theorem follows_recording (ch : Channel σ) : Follows ch.sink ch recording := rfl

/-- Whatever happens on both channels keeps them together. -/
theorem Follows.emit (h : Follows s ch taped) (e : Event) :
    Follows s (ch.emit e) (taped.emit e) := by
  unfold Follows at h ⊢
  rw [sink_emit, toList_emit_eventLog, Sink.hear_append, ← h]
  rfl

theorem Follows.log (h : Follows s ch taped) (m : Message) :
    Follows s (ch.log m) (taped.log m) := h

end Channel

/-- What is to be said of a call that was made three times: with nobody listening, with a log, and
    with a sink in the state `s`.  Its result does not depend on the sink, and the sink hears the
    events that the log holds. -/
structure Overheard {α : Type u} {σ : Type} [Sink σ] (quiet : α × Channel NullSink)
    (taped : α × Channel EventLog) (s : σ) (heard : α × Channel σ) : Prop where
  result : heard.1 = quiet.1
  sink : heard.2.sink = Sink.hear taped.2.sink.events.toList s

end GameSearch
