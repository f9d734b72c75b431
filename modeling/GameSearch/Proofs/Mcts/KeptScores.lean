/-
  GameSearch.Proofs.Mcts.KeptScores

  No decision is based on a kept score.  Two sessions that differ in kept scores only, with equal
  sources and channels, deliver the same under any sequence of operations, and leave equal
  counters, sources and channels.  As soon as the score of a node is asked for, the score that is
  kept for it is the same in both.

    * `Session.SameOn`   — two such sessions, with the nodes whose kept scores are the same
    * `lockstep_sameOn`  — they go through every step of a search together
    * `sameOn_apply`     — and through every operation
    * `perform_ignores_kept_scores` — sequences of operations
-/
import GameSearch.Proofs.Mcts.Audience
import GameSearch.Proofs.Mcts.Ucb

namespace GameSearch.Mcts

-- ============================================================================
-- Tables with different scores
-- ============================================================================

/-- The same scores are kept in tables of one size.  Then the tables agree on these scores, and on
    all others on which they did. -/
theorem score_keepScores_congr {tally tally' : Tally}
    (hsize : tally'.entries.size = tally.entries.size) (scores : List (Nat × Score)) {n : Nat}
    (h : tally.score n = tally'.score n ∨ n ∈ scores.map (·.1)) :
    (keepScores scores tally).score n = (keepScores scores tally').score n := by
  induction scores generalizing tally tally' with
  | nil => exact h.resolve_right List.not_mem_nil
  | cons x scores ih =>
    show (keepScores scores (tally.keepScore x.1 x.2)).score n =
      (keepScores scores (tally'.keepScore x.1 x.2)).score n
    refine ih ?_ ?_
    · rw [Tally.size_keepScore, Tally.size_keepScore, hsize]
    · rw [List.map_cons, List.mem_cons, ← or_assoc] at h
      refine h.imp_left fun h => ?_
      rw [Tally.score_keepScore, Tally.score_keepScore, hsize]
      split
      · rfl
      · rename_i hout
        rcases h with h | rfl
        · exact h
        -- outside the tables all kept scores are the same
        · have hle : tally.entries.size ≤ x.1 := Nat.le_of_not_lt fun hlt => hout ⟨rfl, hlt⟩
          rw [Tally.score, Tally.score, Tally.entry_of_size_le hle,
            Tally.entry_of_size_le (hsize ▸ hle)]

variable {γ σ : Type}

namespace Session

/-- The sessions differ in kept scores at most, and not in those of the nodes that are given. -/
structure SameOn (p : Nat → Prop) (s s' : Session γ σ) : Prop where
  counts : Tally.SameCounts s.tally s'.tally
  completed : s.completed = s'.completed
  source : s.source = s'.source
  channel : s.channel = s'.channel
  scores : ∀ n, p n → s.tally.score n = s'.tally.score n

theorem SameOn.refl (p : Nat → Prop) (s : Session γ σ) : SameOn p s s :=
  ⟨Tally.SameCounts.refl s.tally, rfl, rfl, rfl, fun _ _ => rfl⟩

/-- No step of a search breaks the relation. -/
theorem lockstep_sameOn [Sink σ] : Lockstep (SameOn (γ := γ) (σ := σ)) where
  counts h := h.counts
  completed h := h.completed
  source h := h.source
  forget hle h := ⟨h.counts, h.completed, h.source, h.channel, fun n hn => h.scores n (hle n hn)⟩
  emit h e := ⟨h.counts, h.completed, h.source, congrArg (Channel.emit · e) h.channel, h.scores⟩
  log h m := ⟨h.counts, h.completed, h.source, congrArg (Channel.log · m) h.channel, h.scores⟩
  draw h _ := ⟨h.counts, h.completed, rfl, h.channel, h.scores⟩
  number h _ := ⟨h.counts, rfl, h.source, h.channel, h.scores⟩
  record {p s s'} h i win := by
    refine ⟨h.counts.recordVisit i win, h.completed, h.source, h.channel, fun n hn => ?_⟩
    show (s.tally.recordVisit i win).score n = (s'.tally.recordVisit i win).score n
    rw [Tally.score_recordVisit, Tally.score_recordVisit]
    exact h.scores n hn
  keep {p s s'} h scores := by
    have hcounts := (sameCounts_keepScores scores s.tally).symm.trans
      (h.counts.trans (sameCounts_keepScores scores s'.tally))
    exact ⟨hcounts, h.completed, h.source, h.channel, fun n hn =>
      score_keepScores_congr h.counts.size scores (hn.imp_left (h.scores n))⟩

/-- After a reset there is no difference left. -/
theorem SameOn.reset_eq {p : Nat → Prop} {s s' : Session γ σ} (h : SameOn p s s') :
    Engine.reset s = Engine.reset s' := by
  have htally : s.tally.reset = s'.tally.reset := congrArg Tally.zero h.counts.size.symm
  rw [Engine.reset, Engine.reset, htally, h.source, h.channel]

end Session

-- ============================================================================
-- Operations
-- ============================================================================

namespace Engine

open Session

variable [RandomSource γ] [Sink σ] [Logarithm] {p : Nat → Prop} {s s' : Session γ σ}

/-- One operation.  It may add to the nodes with the same kept score. -/
theorem sameOn_apply (e : Engine) (op : Op γ σ) (h : SameOn p s s') :
    e.answer s op = e.answer s' op ∧
      SameOn (fun n => p n ∨ Asks (e.acts s op) n) (e.apply s op) (e.apply s' op) := by
  have hrun : ∀ {π : Type} (ask : Nat → Tally → π → Bool × π) (q : π),
      e.runWhile ask q s = e.runWhile ask q s' := by
    intro π ask q
    rw [runWhile, runWhile, h.reset_eq]
  have hquiet : ∀ {as : List Act} {r r' : Session γ σ}, (∀ n, ¬ Asks as n) → SameOn p r r' →
      SameOn (fun n => p n ∨ Asks as n) r r' := fun hnone h =>
    lockstep_sameOn.forget (fun n hn => hn.resolve_right (hnone n)) h
  have hnoted : ∀ {α : Type} {x : Noted α} {f : α → Session γ σ} {r r' : Session γ σ},
      SameOn (fun n => p n ∨ Asks x.acts n) r r' →
      SameOn (fun n => p n ∨ Asks (x >>= fun y => pure (f y)).acts n) r r' := by
    intro α x f r r' h
    rwa [Noted.acts_bind, Noted.acts_pure, List.append_nil]
  cases op with
  | iterate =>
    obtain ⟨hanswer, hnext⟩ := lockstep_sameOn.iterate p e h
    exact ⟨congrArg Answer.playout hanswer, hnoted hnext⟩
  | run =>
    have hsame : e.run s = e.run s' := by
      rw [run, run, hrun]
    have hnext : e.apply s .run = e.apply s' .run := congrArg Prod.snd hsame
    rw [hnext]
    exact ⟨congrArg (fun r : Result × Session γ σ => Answer.result r.1) hsame, SameOn.refl _ _⟩
  | runWhile ask q =>
    have hnext : e.apply s (.runWhile ask q) = e.apply s' (.runWhile ask q) :=
      congrArg (fun r => r.2.2) (hrun ask q)
    rw [hnext]
    exact ⟨congrArg (fun r : Result × _ × Session γ σ => Answer.stopped r.1 r.2.1) (hrun ask q),
      SameOn.refl _ _⟩
  | reset =>
    have hnext : e.apply s .reset = e.apply s' .reset := h.reset_eq
    rw [hnext]
    exact ⟨rfl, SameOn.refl _ _⟩
  | expand i =>
    obtain ⟨hanswer, hnext⟩ := lockstep_sameOn.expand p e i h
    exact ⟨congrArg Answer.expanded hanswer, hquiet not_asks_nil hnext⟩
  | simulate i =>
    obtain ⟨hanswer, hnext⟩ := lockstep_sameOn.simulate p e i h
    exact ⟨congrArg (fun x : Nat × Score => Answer.simulated x.1 x.2) hanswer,
      hquiet not_asks_nil hnext⟩
  | recommend =>
    obtain ⟨hanswer, hnext⟩ := lockstep_sameOn.recommend p e h
    exact ⟨congrArg Answer.recommended hanswer, hnoted hnext⟩
  | backpropagate i result =>
    exact ⟨rfl, hquiet (not_asks_count _) (lockstep_sameOn.backpropagate p e i result h)⟩
  | handOver source channel =>
    exact ⟨rfl, hquiet not_asks_nil ⟨h.counts, h.completed, rfl, rfl, h.scores⟩⟩

/-- Kept scores do not steer a search.  Two sessions that differ in them at most answer the same
    under any sequence of operations; they end with the same counters, source and channel, and
    with the same kept score of every node whose score was asked for on the way. -/
theorem perform_ignores_kept_scores (e : Engine) (ops : List (Op γ σ)) (h : SameOn p s s') :
    e.answers ops s = e.answers ops s' ∧
      SameOn (fun n => p n ∨ Asks (e.history ops s) n) (e.perform ops s) (e.perform ops s') := by
  induction ops generalizing p s s' with
  | nil => exact ⟨rfl, lockstep_sameOn.forget (fun n hn => hn.resolve_right (not_asks_nil n)) h⟩
  | cons op ops ih =>
    obtain ⟨hanswer, hnext⟩ := e.sameOn_apply op h
    obtain ⟨hanswers, hlast⟩ := ih hnext
    refine ⟨congrArg₂ List.cons hanswer hanswers, ?_⟩
    simp only [history_cons, asks_append, ← or_assoc]
    exact hlast

omit [RandomSource γ] [Sink σ] [Logarithm] in
/-- In the second session two scores have been kept that are far from those of the nodes. -/
theorem perform_ignores_kept_scores_small :
    let ops : List (Op Random.Generator NullSink) :=
      [.iterate, .expand 0, .simulate 1, .backpropagate 3 1, .iterate, .iterate, .recommend]
    let s := smallStart
    let s' := { s with tally := keepScores [(1, -5), (4, Score.top)] s.tally }
    (s.tally.score 1 == s'.tally.score 1) = false ∧ SameOn (fun _ => False) s s' ∧
      @answers _ _ _ shortLogarithm _ small ops s = @answers _ _ _ shortLogarithm _ small ops s' ∧
      SameOn (fun n => False ∨ Asks (@history _ _ _ _ shortLogarithm small ops s) n)
        (@perform _ _ _ _ shortLogarithm small ops s)
        (@perform _ _ _ _ shortLogarithm small ops s') := by
  let := shortLogarithm
  intro ops s s'
  have hstart : SameOn (fun _ => False) s s' :=
    ⟨sameCounts_keepScores _ s.tally, rfl, rfl, rfl, fun _ hn => hn.elim⟩
  exact ⟨by decide, hstart, perform_ignores_kept_scores small ops hstart⟩

end Engine

end GameSearch.Mcts
