/-
  GameSearch.Proofs.Mcts.Audience

  A Monte Carlo search does not depend on who listens.  Two sessions with the same counters,
  kept scores and source of choices, one with any sink and one with a log, are taken through
  the same operations side by side; at every step the two draw alike and emit alike.

    * `Session.Follows`    — two such sessions
    * `lockstep_follows`   — they go through every step of a search together
    * `Answer`, `report`   — what a caller learns from a sequence of operations
    * `agree_perform`      — sequences of operations
-/
import GameSearch.Proofs.Mcts.Lockstep
import GameSearch.Proofs.Mcts.Operations
import GameSearch.Proofs.Sink.Hearing

namespace GameSearch.Mcts

section Steps

variable {γ σ : Type} [Sink σ] {k : σ} {s : Session γ σ} {taped : Session γ EventLog}

namespace Session

/-- The sessions differ in their channels at most, and the sink, which was in the state `k`, has
    since heard what the log holds. -/
structure Follows (k : σ) (s : Session γ σ) (taped : Session γ EventLog) : Prop where
  tally : s.tally = taped.tally
  completed : s.completed = taped.completed
  source : s.source = taped.source
  channel : Channel.Follows k s.channel taped.channel

/-- Two steps with results: the results are the same too. -/
def Agree {α : Type*} (k : σ) (x : α × Session γ σ) (y : α × Session γ EventLog) : Prop :=
  x.1 = y.1 ∧ Follows k x.2 y.2

theorem Follows.emit (h : Follows k s taped) (e : Event) : Follows k (s.emit e) (taped.emit e) :=
  ⟨h.tally, h.completed, h.source, h.channel.emit e⟩

theorem Follows.log (h : Follows k s taped) (m : Message) : Follows k (s.log m) (taped.log m) :=
  ⟨h.tally, h.completed, h.source, h.channel.log m⟩

theorem Follows.reset (h : Follows k s taped) :
    Follows k (Engine.reset s) (Engine.reset taped) :=
  ⟨congrArg Tally.reset h.tally, rfl, h.source, h.channel⟩

/-- No step of a search breaks the relation. -/
theorem lockstep_follows (k : σ) :
    Lockstep fun _ => (Follows k : Session γ σ → Session γ EventLog → Prop) where
  counts h := h.tally ▸ Tally.SameCounts.refl _
  completed h := h.completed
  source h := h.source
  forget _ h := h
  emit h := h.emit
  log h := h.log
  draw h _ := ⟨h.tally, h.completed, rfl, h.channel⟩
  number h _ := ⟨h.tally, rfl, h.source, h.channel⟩
  record h i win := ⟨congrArg (Tally.recordVisit i win) h.tally, h.completed, h.source, h.channel⟩
  keep h scores := ⟨congrArg (keepScores scores) h.tally, h.completed, h.source, h.channel⟩

end Session

open Session

variable [RandomSource γ] [Logarithm]

namespace Engine

theorem agree_iterate (e : Engine) (h : Follows k s taped) :
    Agree k (e.iterate s) (e.iterate taped) :=
  (lockstep_follows k).iterate (fun _ => True) e h

theorem agree_recommend (e : Engine) (h : Follows k s taped) :
    Agree k (e.recommend s) (e.recommend taped) :=
  (lockstep_follows k).recommend (fun _ => True) e h

theorem agree_iterateWhile (e : Engine) {π : Type} (ask : Nat → Tally → π → Bool × π)
    (remaining : Nat) (p : π) (h : Follows k s taped) :
    (e.iterateWhile ask remaining p s).1 = (e.iterateWhile ask remaining p taped).1 ∧
      Agree k (e.iterateWhile ask remaining p s).2 (e.iterateWhile ask remaining p taped).2 := by
  induction remaining generalizing p s taped with
  | zero => exact ⟨rfl, rfl, h⟩
  | succ remaining ih =>
    unfold iterateWhile
    dsimp only
    rw [h.completed, h.tally]
    split
    · exact ih _ (e.agree_iterate h).2
    · exact ⟨rfl, rfl, h.log _⟩

theorem agree_conclude (e : Engine) (aborted : Bool) (h : Follows k s taped) :
    Agree k (e.conclude aborted s) (e.conclude aborted taped) := by
  have hbest := e.agree_recommend h
  unfold conclude
  rw [h.completed]
  revert hbest
  rcases e.recommend s with ⟨best, s⟩
  rcases e.recommend taped with ⟨best', taped⟩
  rintro ⟨rfl : best = best', h : Follows k s taped⟩
  cases best with
  | none =>
    refine ⟨?_, h.log _⟩
    show Result.mk none _ aborted s.tally = Result.mk none _ aborted taped.tally
    rw [h.tally]
  | some b =>
    refine ⟨?_, (h.log _).emit _⟩
    show Result.mk (some b) _ aborted s.tally = Result.mk (some b) _ aborted taped.tally
    rw [h.tally]

/-- Runs agree, and so do the states in which they leave the stopping rule. -/
theorem agree_runWhile (e : Engine) {π : Type} (ask : Nat → Tally → π → Bool × π) (p : π)
    (h : Follows k s taped) :
    (e.runWhile ask p s).1 = (e.runWhile ask p taped).1 ∧
      Agree k (e.runWhile ask p s).2 (e.runWhile ask p taped).2 := by
  obtain ⟨haborted, hrule, hloop⟩ := e.agree_iterateWhile ask e.iterations p h.reset
  have hend := e.agree_conclude (e.iterateWhile ask e.iterations p (reset s)).1 hloop
  rw [haborted] at hend
  unfold runWhile
  dsimp only
  rw [haborted]
  exact ⟨hend.1, hrule, hend.2⟩

end Engine

end Steps

-- ============================================================================
-- Sequences of operations
-- ============================================================================

variable {γ σ τ υ : Type}

/-- The session with another channel in place of its own. -/
def Session.via (f : Channel σ → Channel τ) (s : Session γ σ) : Session γ τ :=
  ⟨s.tally, s.completed, s.source, f s.channel⟩

/-- A session goes along with itself on a channel where an empty log listens. -/
theorem Session.follows_via [Sink σ] (s : Session γ σ) :
    s.Follows s.channel.sink (s.via fun _ => .recording) :=
  ⟨rfl, rfl, rfl, s.channel.follows_recording⟩

/-- The operation with another channel in place of the one that the caller hands over. -/
def Op.via (f : Channel σ → Channel τ) : Op γ σ → Op γ τ
  | .iterate => .iterate
  | .run => .run
  | .runWhile ask p => .runWhile ask p
  | .reset => .reset
  | .expand i => .expand i
  | .simulate i => .simulate i
  | .recommend => .recommend
  | .backpropagate i result => .backpropagate i result
  | .handOver source channel => .handOver source (f channel)

theorem Op.via_via (f : Channel σ → Channel τ) (g : Channel τ → Channel υ) (op : Op γ σ) :
    (op.via f).via g = op.via (g ∘ f) := by
  cases op <;> rfl

theorem Op.map_via_via (f : Channel σ → Channel τ) (g : Channel τ → Channel υ)
    (ops : List (Op γ σ)) : (ops.map (via f)).map (via g) = ops.map (via (g ∘ f)) := by
  rw [List.map_map]
  exact List.map_congr_left fun op _ => via_via f g op

/-- The channel that an operation works on, as it was handed over. -/
def Op.channel (ch : Channel σ) : Op γ σ → Channel σ
  | .handOver _ channel => channel
  | _ => ch

/-- The channel that was handed over last. -/
def lastChannel (ops : List (Op γ σ)) (ch : Channel σ) : Channel σ := ops.foldl Op.channel ch

theorem lastChannel_via (f : Channel σ → Channel τ) (ops : List (Op γ σ)) (ch : Channel σ) :
    lastChannel (ops.map (Op.via f)) (f ch) = f (lastChannel ops ch) := by
  induction ops generalizing ch with
  | nil => rfl
  | cons op ops ih =>
    have hop : (op.via f).channel (f ch) = f (op.channel ch) := by
      cases op <;> rfl
    show lastChannel (ops.map (Op.via f)) ((op.via f).channel (f ch)) = _
    rw [hop]
    exact ih (op.channel ch)

/-- What an operation delivers. -/
inductive Answer : Type 1 where
  | playout (p : Playout)
  | result (r : Result)
  /-- The result of a run, and the state in which it left its stopping rule. -/
  | stopped {π : Type} (r : Result) (p : π)
  | expanded (i : Nat)
  | simulated (leaf : Nat) (result : Score)
  | recommended (r : Option Recommendation)
  | nothing

namespace Engine

variable [RandomSource γ] [Logarithm] [Sink σ]

/-- What an operation on a session delivers. -/
def answer (e : Engine) (s : Session γ σ) : Op γ σ → Answer
  | .iterate => .playout (e.iterate s).1
  | .run => .result (e.run s).1
  | .runWhile ask p => .stopped (e.runWhile ask p s).1 (e.runWhile ask p s).2.1
  | .expand i => .expanded (e.expand i s).1
  | .simulate i => .simulated (e.simulate i s).1.1 (e.simulate i s).1.2
  | .recommend => .recommended (e.recommend s).1
  | .reset | .backpropagate _ _ | .handOver _ _ => .nothing

/-- What the operations of a sequence deliver. -/
def answers (e : Engine) : List (Op γ σ) → Session γ σ → List Answer
  | [], _ => []
  | op :: ops, s => e.answer s op :: answers e ops (e.apply s op)

/-- What a sequence of operations delivers, with the counters, the kept scores, the number of
    iterations and the source of choices at the end; and the channel. -/
def report (e : Engine) (ops : List (Op γ σ)) (s : Session γ σ) :
    (List Answer × Tally × Nat × γ) × Channel σ :=
  let last := e.perform ops s
  ((e.answers ops s, last.tally, last.completed, last.source), last.channel)

/-- One operation, with the channel that is handed over replaced by an empty log. -/
theorem agree_apply (e : Engine) (op : Op γ σ) {ch : Channel σ} {s : Session γ σ}
    {taped : Session γ EventLog} (h : s.Follows ch.sink taped) :
    e.answer s op = e.answer taped (op.via fun _ => .recording) ∧
      (e.apply s op).Follows (op.channel ch).sink
        (e.apply taped (op.via fun _ => .recording)) := by
  have hlockstep := Session.lockstep_follows (γ := γ) ch.sink
  cases op with
  | iterate =>
    obtain ⟨hanswer, hnext⟩ := e.agree_iterate h
    exact ⟨congrArg Answer.playout hanswer, hnext⟩
  | run =>
    obtain ⟨hanswer, -, hnext⟩ := e.agree_runWhile (fun _ _ p => (true, p)) () h
    exact ⟨congrArg Answer.result hanswer, hnext⟩
  | runWhile ask p =>
    obtain ⟨hanswer, hrule, hnext⟩ := e.agree_runWhile ask p h
    exact ⟨congrArg₂ Answer.stopped hanswer hrule, hnext⟩
  | reset => exact ⟨rfl, h.reset⟩
  | expand i =>
    obtain ⟨hanswer, hnext⟩ := hlockstep.expand (fun _ => True) e i h
    exact ⟨congrArg Answer.expanded hanswer, hnext⟩
  | simulate i =>
    obtain ⟨hanswer, hnext⟩ := hlockstep.simulate (fun _ => True) e i h
    exact ⟨congrArg (fun x : Nat × Score => Answer.simulated x.1 x.2) hanswer, hnext⟩
  | recommend =>
    obtain ⟨hanswer, hnext⟩ := e.agree_recommend h
    exact ⟨congrArg Answer.recommended hanswer, hnext⟩
  | backpropagate i result =>
    exact ⟨rfl, hlockstep.backpropagate (fun _ => True) e i result h⟩
  | handOver source channel =>
    exact ⟨rfl, h.tally, h.completed, rfl, channel.follows_recording⟩

/-- A sequence of operations, against the same sequence with a log. -/
theorem agree_perform (e : Engine) (ops : List (Op γ σ)) {ch : Channel σ} {s : Session γ σ}
    {taped : Session γ EventLog} (h : s.Follows ch.sink taped) :
    e.answers ops s = e.answers (ops.map (Op.via fun _ => .recording)) taped ∧
      (e.perform ops s).Follows (lastChannel ops ch).sink
        (e.perform (ops.map (Op.via fun _ => .recording)) taped) := by
  induction ops generalizing ch s taped with
  | nil => exact ⟨rfl, h⟩
  | cons op ops ih =>
    obtain ⟨hanswer, hnext⟩ := e.agree_apply op h
    obtain ⟨hanswers, hlast⟩ := ih hnext
    exact ⟨congrArg₂ List.cons hanswer hanswers, hlast⟩

/-- The report with any sinks, against the one with a log. -/
theorem agree_report (e : Engine) (ops : List (Op γ σ)) (s : Session γ σ) :
    let taped := e.report (ops.map (Op.via fun _ => .recording)) (s.via fun _ => .recording)
    (e.report ops s).1 = taped.1 ∧
      Channel.Follows (lastChannel ops s.channel).sink (e.report ops s).2 taped.2 := by
  obtain ⟨hanswers, htally, hcompleted, hsource, hchannel⟩ := e.agree_perform ops s.follows_via
  refine ⟨?_, hchannel⟩
  unfold report
  dsimp only
  rw [hanswers, htally, hcompleted, hsource]

/-- A sequence of operations pays no attention to the sinks that are handed over. -/
theorem overheard_report (e : Engine) (ops : List (Op γ σ)) (s : Session γ σ) :
    Overheard (e.report (ops.map (Op.via fun _ => .deaf)) (s.via fun _ => .deaf))
      (e.report (ops.map (Op.via fun _ => .recording)) (s.via fun _ => .recording))
      (lastChannel ops s.channel).sink (e.report ops s) := by
  obtain ⟨hresult, hsink⟩ := e.agree_report ops s
  have hquiet := (e.agree_report (ops.map (Op.via fun _ => .deaf)) (s.via fun _ => .deaf)).1
  rw [Op.map_via_via] at hquiet
  exact ⟨hresult.trans hquiet.symm, hsink⟩

end Engine

end GameSearch.Mcts
