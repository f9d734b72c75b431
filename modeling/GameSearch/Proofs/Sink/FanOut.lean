/-
  GameSearch.Proofs.Sink.FanOut

  Sinks put together do not disturb each other.  A pair gives an event to each half that
  wants it, so below a pair every elementary sink goes through the stream on its own, as
  deep as the pairs may be nested, and also if nobody asked the composition beforehand.

    * `enabled_eq_any`    — a composition wants events if one of its elementary sinks does
    * `offer_pair`        — the halves of a pair are offered an event separately
    * `paired`            — the elementary sinks below a pair
    * `paired_deliver`, `paired_foldl_deliver` — one event, and a stream, given to a composition
    * `Composite.both`    — a pair of two sinks of different kinds
-/
import GameSearch.Proofs.Sink.Hearing

namespace GameSearch

namespace Sink

variable {σ : Type} [Sink σ]

/-- Gives an event to a sink, either after asking whether it wants events now or without
    asking. -/
def deliver (s : σ) (step : Bool × Event) : σ :=
  if step.1 then offer s step.2 else (emit step.2 s).1

end Sink

namespace Composite

section

variable {σ : Type} [Sink σ]

theorem enabled_eq_any (c : Composite σ) : Sink.enabled c = c.singles.any Sink.enabled := by
  show c.enabled = c.singles.any Sink.enabled
  induction c with
  | single s => simp [enabled, singles]
  | pair a b iha ihb => rw [enabled, singles, List.any_append, iha, ihb]
  | forward a ih => exact ih

/-- The elementary sinks that lie under at least one pair, from left to right. -/
def paired : Composite σ → List σ
  | .single _ => []
  | .pair a b => a.singles ++ b.singles
  | .forward a => a.paired

-- ============================================================================
-- One event
-- ============================================================================

/-- A pair asks its halves itself. -/
theorem emit_pair (a b : Composite σ) (e : Event) :
    (Sink.emit e (Composite.pair a b)).1 = .pair (Sink.offer a e) (Sink.offer b e) := by
  cases ha : a.enabled <;> cases hb : b.enabled <;>
    simp [Sink.offer, Sink.enabled, Sink.emit, emit, ha, hb]

theorem offer_pair (a b : Composite σ) (e : Event) :
    Sink.offer (Composite.pair a b) e = .pair (Sink.offer a e) (Sink.offer b e) := by
  by_cases h : Sink.enabled (Composite.pair a b) = true
  · rw [Sink.offer, if_pos h, emit_pair]
  · -- neither half wants the event
    have hneither : a.enabled = false ∧ b.enabled = false := by
      simpa [Sink.enabled, enabled] using h
    simp [Sink.offer, Sink.enabled, enabled, hneither]

theorem offer_forward (a : Composite σ) (e : Event) :
    Sink.offer (Composite.forward a) e = .forward (Sink.offer a e) := by
  cases h : a.enabled <;> simp [Sink.offer, Sink.enabled, Sink.emit, enabled, emit, h]

theorem offer_single (s : σ) (e : Event) :
    Sink.offer (Composite.single s) e = .single (Sink.offer s e) := by
  cases h : (Sink.enabled s : Bool) <;>
    simp [Sink.offer, Sink.enabled, Sink.emit, enabled, emit, h]

/-- If a composition is asked, each elementary sink is offered the event. -/
theorem singles_offer (c : Composite σ) (e : Event) :
    (Sink.offer c e).singles = c.singles.map (Sink.offer · e) := by
  induction c with
  | single s =>
    rw [offer_single]
    rfl
  | pair a b iha ihb => rw [offer_pair, singles, singles, List.map_append, iha, ihb]
  | forward a ih =>
    rw [offer_forward]
    exact ih

/-- Below a pair it makes no difference whether the composition is asked. -/
theorem paired_deliver (c : Composite σ) (step : Bool × Event) :
    (Sink.deliver c step).paired = c.paired.map (Sink.offer · step.2) := by
  obtain ⟨asked, e⟩ := step
  induction c with
  | single s =>
    cases asked
    · rfl
    · show (Sink.offer (Composite.single s) e).paired = []
      rw [offer_single]
      rfl
  | pair a b iha ihb =>
    have hpair : Sink.deliver (Composite.pair a b) (asked, e) =
        .pair (Sink.offer a e) (Sink.offer b e) := by
      cases asked
      · exact emit_pair a b e
      · exact offer_pair a b e
    rw [hpair, paired, paired, List.map_append, singles_offer, singles_offer]
  | forward a ih =>
    have hforward : Sink.deliver (Composite.forward a) (asked, e) =
        .forward (Sink.deliver a (asked, e)) := by
      cases asked
      · rfl
      · exact offer_forward a e
    rw [hforward]
    exact ih

-- ============================================================================
-- Streams
-- ============================================================================

/-- Below a pair each elementary sink goes through the stream on its own. -/
theorem paired_foldl_deliver (c : Composite σ) (steps : List (Bool × Event)) :
    (steps.foldl Sink.deliver c).paired = c.paired.map (Sink.hear (steps.map Prod.snd)) := by
  induction steps generalizing c with
  | nil =>
    show c.paired = c.paired.map id
    rw [List.map_id]
  | cons step steps ih =>
    rw [List.foldl_cons, ih, paired_deliver, List.map_map]
    rfl

theorem hear_pair (events : List Event) (a b : Composite σ) :
    Sink.hear events (Composite.pair a b) = .pair (Sink.hear events a) (Sink.hear events b) := by
  induction events generalizing a b with
  | nil => rfl
  | cons e events ih => rw [Sink.hear_cons, offer_pair, ih, Sink.hear_cons, Sink.hear_cons]

theorem hear_single (events : List Event) (s : σ) :
    Sink.hear events (Composite.single s) = .single (Sink.hear events s) := by
  induction events generalizing s with
  | nil => rfl
  | cons e events ih => rw [Sink.hear_cons, offer_single, ih, Sink.hear_cons]

end

-- ============================================================================
-- Two kinds of sinks
-- ============================================================================

variable {α β : Type} [Sink α] [Sink β]

/-- A sink of one of two kinds. -/
instance : Sink (α ⊕ β) where
  enabled
    | .inl a => Sink.enabled a
    | .inr b => Sink.enabled b
  emit e
    | .inl a => (Sink.emit e a).map .inl id
    | .inr b => (Sink.emit e b).map .inr id

theorem hear_inl (events : List Event) (a : α) :
    Sink.hear events (.inl a : α ⊕ β) = .inl (Sink.hear events a) := by
  induction events generalizing a with
  | nil => rfl
  | cons e events ih =>
    have hoffer : Sink.offer (.inl a : α ⊕ β) e = .inl (Sink.offer a e) := by
      unfold Sink.offer
      split <;> rename_i h <;> simp_all [Sink.enabled, Sink.emit]
    rw [Sink.hear_cons, hoffer, ih, Sink.hear_cons]

theorem hear_inr (events : List Event) (b : β) :
    Sink.hear events (.inr b : α ⊕ β) = .inr (Sink.hear events b) := by
  induction events generalizing b with
  | nil => rfl
  | cons e events ih =>
    have hoffer : Sink.offer (.inr b : α ⊕ β) e = .inr (Sink.offer b e) := by
      unfold Sink.offer
      split <;> rename_i h <;> simp_all [Sink.enabled, Sink.emit]
    rw [Sink.hear_cons, hoffer, ih, Sink.hear_cons]

/-- The pair of two sinks, whatever their kinds. -/
def both (sinks : α × β) : Composite (α ⊕ β) :=
  .pair (.single (.inl sinks.1)) (.single (.inr sinks.2))

theorem hear_both (events : List Event) (sinks : α × β) :
    Sink.hear events (both sinks) = both (Sink.hear events sinks.1, Sink.hear events sinks.2) := by
  rw [both, hear_pair, hear_single, hear_single, hear_inl, hear_inr]
  rfl

end Composite

end GameSearch
