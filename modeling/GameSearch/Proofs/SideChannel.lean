/-
  GameSearch.Proofs.SideChannel

  Events are a side channel.  Neither engine learns anything from its sink, so whoever
  listens hears the same stream, and two listeners that share a run are left as each of them
  would be left by a run of its own.

    * `Overheard.pair`     — a call with a pair of sinks, against the calls with each of them
    * `searches_overheard` — calls of both engines, with any sink
    * `sinks_fan_out`      — compositions of sinks, by themselves and in calls
-/
import GameSearch.Proofs.Minimax.Audience
import GameSearch.Proofs.Mcts.Audience
import GameSearch.Proofs.Sink.FanOut

namespace GameSearch

open Minimax Mcts

/-- What is to be said of a call that was overheard by a pair of sinks and by each of the two. -/
theorem Overheard.pair {α : Type u} {σ τ : Type} [Sink σ] [Sink τ] {quiet : α × Channel NullSink}
    {taped : α × Channel EventLog} {sinks : σ × τ} {left : α × Channel σ} {right : α × Channel τ}
    {shared : α × Channel (Composite (σ ⊕ τ))} (hleft : Overheard quiet taped sinks.1 left)
    (hright : Overheard quiet taped sinks.2 right)
    (hshared : Overheard quiet taped (Composite.both sinks) shared) :
    shared.2.sink = Composite.both (left.2.sink, right.2.sink) := by
  rw [hshared.sink, hleft.sink, hright.sink, Composite.hear_both]

namespace Minimax

variable {σ τ : Type} [Sink σ] [Sink τ]

theorem evaluate_both (e : Minimax.Engine) (i : Nat) (w : Window) (ch : Channel (σ × τ)) :
    (e.evaluate i w (ch.map Composite.both)).2.sink =
      Composite.both ((e.evaluate i w (ch.map Prod.fst)).2.sink,
        (e.evaluate i w (ch.map Prod.snd)).2.sink) :=
  Overheard.pair (overheard_evaluate e i w (ch.map Prod.fst))
    (overheard_evaluate e i w (ch.map Prod.snd))
    (overheard_evaluate e i w (ch.map Composite.both))

theorem evaluateIterative_both (e : Minimax.Engine) (i : Nat) (w : Window)
    (ch : Channel (σ × τ)) :
    (e.evaluateIterative i w (ch.map Composite.both)).2.sink =
      Composite.both ((e.evaluateIterative i w (ch.map Prod.fst)).2.sink,
        (e.evaluateIterative i w (ch.map Prod.snd)).2.sink) := by
  rw [evaluateIterative_eq_evaluate, evaluateIterative_eq_evaluate, evaluateIterative_eq_evaluate]
  exact evaluate_both e i w ch

end Minimax

namespace Mcts

variable {γ σ τ υ : Type} [RandomSource γ] [Logarithm] [Sink σ] [Sink τ]

omit [Sink σ] [Sink τ] in
/-- Operations whose channels are carried over to other sinks are overheard in the same way. -/
theorem overheard_report_via [Sink υ] (e : Mcts.Engine) (f : Channel σ → Channel υ)
    (ops : List (Op γ σ)) (s : Session γ σ) :
    Overheard (e.report (ops.map (.via fun _ => .deaf)) (s.via fun _ => .deaf))
      (e.report (ops.map (.via fun _ => .recording)) (s.via fun _ => .recording))
      (f (lastChannel ops s.channel)).sink (e.report (ops.map (.via f)) (s.via f)) := by
  have h := e.overheard_report (ops.map (.via f)) (s.via f)
  rw [Op.map_via_via, Op.map_via_via] at h
  have hlast : lastChannel (ops.map (.via f)) (s.via f).channel = f (lastChannel ops s.channel) :=
    lastChannel_via f ops s.channel
  rw [hlast] at h
  exact h

theorem report_both (e : Mcts.Engine) (ops : List (Op γ (σ × τ))) (s : Session γ (σ × τ)) :
    (e.report (ops.map (.via (.map Composite.both))) (s.via (.map Composite.both))).2.sink =
      Composite.both
        ((e.report (ops.map (.via (.map Prod.fst))) (s.via (.map Prod.fst))).2.sink,
          (e.report (ops.map (.via (.map Prod.snd))) (s.via (.map Prod.snd))).2.sink) :=
  Overheard.pair (overheard_report_via e (.map Prod.fst) ops s)
    (overheard_report_via e (.map Prod.snd) ops s)
    (overheard_report_via e (.map Composite.both) ops s)

end Mcts

-- ============================================================================
-- Whole calls
-- ============================================================================

section

variable {γ σ : Type} [RandomSource γ] [Logarithm] [Sink σ]

/-- Every call delivers what it delivers with nobody listening, and leaves the sink as if the
    stream that a log collects had been offered to it, event by event.  A sink that has room for
    some number of events thus holds the first ones of the stream. -/
theorem searches_overheard (e : Minimax.Engine) (i : Nat) (w : Window) (ch : Channel σ)
    (m : Mcts.Engine) (ops : List (Op γ σ)) (s : Session γ σ) :
    Overheard (e.evaluate i w .deaf) (e.evaluate i w .recording) ch.sink (e.evaluate i w ch) ∧
    Overheard (e.evaluateIterative i w .deaf) (e.evaluateIterative i w .recording) ch.sink
      (e.evaluateIterative i w ch) ∧
    Overheard (m.report (ops.map (.via fun _ => .deaf)) (s.via fun _ => .deaf))
      (m.report (ops.map (.via fun _ => .recording)) (s.via fun _ => .recording))
      (lastChannel ops s.channel).sink (m.report ops s) ∧
    ∀ (capacity : Nat) (events : List Event),
      (Sink.hear events (⟨capacity, #[]⟩ : BoundedLog)).events.toList = events.take capacity := by
  refine ⟨overheard_evaluate e i w ch, overheard_evaluateIterative e i w ch,
    m.overheard_report ops s, ?_⟩
  intro capacity events
  simp [Sink.toList_hear_boundedLog]

end

section

variable {γ κ σ τ : Type} [RandomSource γ] [Logarithm] [Sink κ] [Sink σ] [Sink τ]

/-- A composition passes events on to its elementary sinks as if each of them were alone, asked
    beforehand or not, and wants events as long as one of them does.  A call with a pair of sinks
    leaves each half as the call with that half alone. -/
theorem sinks_fan_out (c : Composite κ) (steps : List (Bool × Event)) (e : Minimax.Engine)
    (i : Nat) (w : Window) (ch : Channel (σ × τ)) (m : Mcts.Engine) (ops : List (Op γ (σ × τ)))
    (s : Session γ (σ × τ)) :
    (steps.foldl Sink.deliver c).paired = c.paired.map (Sink.hear (steps.map Prod.snd)) ∧
    Sink.enabled c = c.singles.any Sink.enabled ∧
    (e.evaluate i w (ch.map Composite.both)).2.sink =
      Composite.both ((e.evaluate i w (ch.map Prod.fst)).2.sink,
        (e.evaluate i w (ch.map Prod.snd)).2.sink) ∧
    (e.evaluateIterative i w (ch.map Composite.both)).2.sink =
      Composite.both ((e.evaluateIterative i w (ch.map Prod.fst)).2.sink,
        (e.evaluateIterative i w (ch.map Prod.snd)).2.sink) ∧
    (m.report (ops.map (.via (.map Composite.both))) (s.via (.map Composite.both))).2.sink =
      Composite.both
        ((m.report (ops.map (.via (.map Prod.fst))) (s.via (.map Prod.fst))).2.sink,
          (m.report (ops.map (.via (.map Prod.snd))) (s.via (.map Prod.snd))).2.sink) :=
  ⟨c.paired_foldl_deliver steps, c.enabled_eq_any, evaluate_both e i w ch,
    evaluateIterative_both e i w ch, report_both m ops s⟩

end

end GameSearch
