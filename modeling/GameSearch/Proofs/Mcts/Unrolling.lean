/-
  GameSearch.Proofs.Mcts.Unrolling

  A run with a stopping rule, taken apart.  The rule is asked before each iteration, with the
  number of iterations done and their counters, and keeps a state of its own.  The first time it
  says no, or after the last iteration, the run ends.  So a run is a reset, so many iterations and
  a recommendation; and as a reset forgets everything but the source of choices, what happened
  before the run makes no difference.

    * `Session.Alike`     — two calls that cannot be told apart
    * `alike_runWhile`    — a run does not depend on what was counted before it
    * `noting`            — a rule that writes down what it is asked
    * `Unrolled`          — a run compared with a reset, iterations and a recommendation
    * `runWhile_unrolled` — every run, after any history
-/
import GameSearch.Proofs.Mcts.Runs
import GameSearch.Proofs.Mcts.Audience

namespace GameSearch.Mcts

variable {γ σ τ π : Type} [RandomSource γ] [Sink σ] [Sink τ] [Logarithm]

-- ============================================================================
-- Calls that cannot be told apart
-- ============================================================================

omit [RandomSource γ] [Logarithm] in
/-- Two calls with the same answer.  They leave the same counters and scores, the same number of
    iterations and the same source; and their sinks, which were in the states `k` and `l`, were
    offered the same events. -/
structure Session.Alike {α : Type} (k : σ) (l : τ) (x : α × Session γ σ) (y : α × Session γ τ) :
    Prop where
  answer : x.1 = y.1
  tally : x.2.tally = y.2.tally
  completed : x.2.completed = y.2.completed
  source : x.2.source = y.2.source
  sinks : ∃ events, x.2.channel.sink = Sink.hear events k ∧ y.2.channel.sink = Sink.hear events l

omit [RandomSource γ] [Logarithm] in
/-- So are any two calls that went along with one log. -/
theorem Session.Agree.alike {α : Type} {k : σ} {l : τ} {x : α × Session γ σ}
    {y : α × Session γ τ} {taped : α × Session γ EventLog} (h : Session.Agree k x taped)
    (h' : Session.Agree l y taped) : Session.Alike k l x y where
  answer := h.1.trans h'.1.symm
  tally := h.2.tally.trans h'.2.tally.symm
  completed := h.2.completed.trans h'.2.completed.symm
  source := h.2.source.trans h'.2.source.symm
  sinks := ⟨_, h.2.channel, h'.2.channel⟩

namespace Engine

/-- A message before a recommendation changes nothing in it. -/
theorem alike_recommend_log (e : Engine) (m : Message) (s : Session γ σ) :
    Session.Alike s.channel.sink s.channel.sink (e.recommend (s.log m)) (e.recommend s) := by
  -- the log of events that goes along is the same with the message and without it
  have hlogged : (s.log m).Follows s.channel.sink (s.via fun _ => .recording) :=
    (s.log m).follows_via
  exact (e.agree_recommend hlogged).alike (e.agree_recommend s.follows_via)

/-- So being stopped makes no difference to the recommendation. -/
theorem alike_recommend_ended (e : Engine) (s : Session γ σ) (k : Nat) :
    Session.Alike (e.after s k).channel.sink (e.after s k).channel.sink
      (e.recommend (e.ended s k)) (e.recommend (e.after s k)) := by
  unfold ended
  split
  · exact e.alike_recommend_log _ _
  · exact ⟨rfl, rfl, rfl, rfl, [], (e.recommend_spec _).2.2, (e.recommend_spec _).2.2⟩

omit [RandomSource γ] [Sink σ] [Sink τ] [Logarithm] in
theorem reset_reset (s : Session γ σ) : reset (reset s) = reset s := by
  have htally : (reset s).tally.reset = (reset s).tally := by
    rw [reset_tally, Tally.reset, Tally.size_zero]
  rw [reset, htally]
  rfl

/-- What was counted before a run makes no difference to it: with equal sources, runs over tables
    of one size are alike. -/
theorem alike_runWhile (e : Engine) (ask : Nat → Tally → π → Bool × π) (p : π) {s : Session γ σ}
    {s' : Session γ τ} (hsize : s.tally.entries.size = s'.tally.entries.size)
    (hsource : s.source = s'.source) :
    (e.runWhile ask p s).1 = (e.runWhile ask p s').1 ∧
      Session.Alike s.channel.sink s'.channel.sink (e.runWhile ask p s).2
        (e.runWhile ask p s').2 := by
  have htaped : (reset s).Follows s.channel.sink ((reset s).via fun _ => .recording) :=
    (reset s).follows_via
  have htaped' : (reset s').Follows s'.channel.sink ((reset s).via fun _ => .recording) :=
    ⟨congrArg Tally.zero hsize.symm, rfl, hsource.symm, s'.channel.follows_recording⟩
  obtain ⟨hresult, hrun⟩ := e.agree_runWhile ask p htaped
  obtain ⟨hresult', hrun'⟩ := e.agree_runWhile ask p htaped'
  have hreset : e.runWhile ask p (reset s) = e.runWhile ask p s := by
    rw [runWhile, runWhile, reset_reset]
  have hreset' : e.runWhile ask p (reset s') = e.runWhile ask p s' := by
    rw [runWhile, runWhile, reset_reset]
  rw [hreset] at hresult hrun
  rw [hreset'] at hresult' hrun'
  exact ⟨hresult.trans hresult'.symm, hrun.alike hrun'⟩

end Engine

-- ============================================================================
-- What a rule is asked
-- ============================================================================

/-- A rule that also writes down what it is asked. -/
def noting (ask : Nat → Tally → π → Bool × π) (done : Nat) (tally : Tally)
    (q : List (Nat × Tally) × π) : Bool × (List (Nat × Tally) × π) :=
  ((ask done tally q.2).1, q.1 ++ [(done, tally)], (ask done tally q.2).2)

namespace Engine

variable (e : Engine) (ask : Nat → Tally → π → Bool × π) (p : π) (s : Session γ σ)

/-- What a rule is asked before each of so many iterations of a run. -/
def questions (k : Nat) : List (Nat × Tally) :=
  (List.range k).map fun i => (i, (e.after s i).tally)

theorem rule_noting (k : Nat) :
    e.rule (noting ask) ([], p) s k = (e.questions s k, e.rule ask p s k) := by
  induction k with
  | zero => rfl
  | succ k ih =>
    have hnext : e.questions s (k + 1) = e.questions s k ++ [(k, (e.after s k).tally)] := by
      rw [questions, List.range_succ, List.map_append]
      rfl
    rw [rule, ih, hnext]
    rfl

theorem stopAt_noting : e.stopAt (noting ask) ([], p) s = e.stopAt ask p s := by
  have hgoesOn : ∀ k, e.goesOn (noting ask) ([], p) s k = e.goesOn ask p s k := by
    intro k
    rw [goesOn, rule_noting]
    rfl
  simp only [stopAt, hgoesOn]

/-- To write down what is asked makes no difference to a run. -/
theorem runWhile_noting :
    e.runWhile (noting ask) ([], p) s =
      ((e.runWhile ask p s).1,
        (e.questions s (e.asked (e.stopAt ask p s)), (e.runWhile ask p s).2.1),
        (e.runWhile ask p s).2.2) := by
  rw [runWhile_eq, runWhile_eq, stopAt_noting, rule_noting]

-- ============================================================================
-- Runs after any history
-- ============================================================================

/-- A conclusion is a recommendation, announced. -/
theorem conclude_eq_recommend (aborted : Bool) :
    (e.conclude aborted s).1 =
        ⟨(e.recommend s).1, s.completed, aborted, (e.recommend s).2.tally⟩ ∧
      (e.recommend s).2.SameTable (e.conclude aborted s).2 ∧
      (e.conclude aborted s).2.source = (e.recommend s).2.source := by
  unfold conclude
  dsimp only
  generalize e.recommend s = recommended
  obtain ⟨best, t⟩ := recommended
  cases best with
  | none => exact ⟨rfl, Session.sameTable_log _ _, rfl⟩
  | some b => exact ⟨rfl, (Session.sameTable_log _ _).trans (Session.sameTable_emit _ _), rfl⟩

/-- A run of `k` iterations with a stopping rule, compared with a reset, as many iterations and a
    recommendation, one after the other. -/
structure Unrolled (k : Nat) : Prop where
  result : (e.runWhile ask p s).1 = ⟨(e.recommend (e.after s k)).1, k, decide (k < e.iterations),
    (e.recommend (e.after s k)).2.tally⟩
  tally : (e.runWhile ask p s).2.2.tally = (e.recommend (e.after s k)).2.tally
  completed : (e.runWhile ask p s).2.2.completed = k ∧ (e.recommend (e.after s k)).2.completed = k
  source : (e.runWhile ask p s).2.2.source = (e.recommend (e.after s k)).2.source
  /-- The run tells the same events, and then announces its recommendation. -/
  sink : (e.runWhile ask p s).2.2.channel.sink =
    Sink.hear (e.runWhile ask p s).1.announcement (e.recommend (e.after s k)).2.channel.sink
  /-- The rule is asked once for each iteration, and once more if it stops the run. -/
  noted : e.runWhile (noting ask) ([], p) s = ((e.runWhile ask p s).1,
    (e.questions s (if k < e.iterations then k + 1 else k), (e.runWhile ask p s).2.1),
    (e.runWhile ask p s).2.2)
  /-- When it is asked after `i` iterations, the root has as many visits. -/
  root : ∀ i, (e.after s i).tally.visits e.tree.root = i

variable {e ask p s}

theorem unrolled_runWhile (hsize : s.tally.entries.size = e.tree.size) :
    Unrolled e ask p s (e.stopAt ask p s) := by
  have hnoted := e.runWhile_noting ask p s
  have hrun := e.runWhile_eq ask p s
  generalize e.stopAt ask p s = k at *
  have hended := e.alike_recommend_ended s k
  have hcompleted : (e.recommend (e.after s k)).2.completed = k :=
    (e.sameCounts_recommend _).completed.trans (e.completed_after s k)
  obtain ⟨hresult, htable, hsource⟩ :=
    e.conclude_eq_recommend (e.ended s k) (decide (k < e.iterations))
  have hdone : (e.ended s k).completed = k :=
    (e.sameTable_ended s k).completed.trans (e.completed_after s k)
  constructor
  case result =>
    rw [hrun, hresult, hended.answer, hdone, hended.tally]
  case tally => rw [hrun, htable.tally, hended.tally]
  case completed =>
    rw [hrun, htable.completed, hended.completed]
    exact ⟨hcompleted, hcompleted⟩
  case source => rw [hrun, hsource, hended.source]
  case sink =>
    rw [hrun, (e.recommend_spec (e.after s k)).2.2, ← e.sink_ended]
    exact (e.conclude_spec _ _).2
  case noted => exact hnoted
  case root => exact fun i => (counted_after hsize i).root

variable (e ask p)

/-- Every run with a stopping rule is, after any sequence of operations, a reset, iterations up to
    the first one to which the rule says no, and a recommendation.  After any two sequences of
    operations, even with sinks of two kinds, runs from one source of choices are alike. -/
theorem runWhile_unrolled (source : γ) (channel : Channel σ) (ops : List (Op γ σ)) (source' : γ)
    (channel' : Channel τ) (ops' : List (Op γ τ)) :
    let s := e.perform ops (e.start source channel)
    let s' := e.perform ops' (e.start source' channel')
    Unrolled e ask p s (e.stopAt ask p s) ∧
      ∀ g : γ, (e.runWhile ask p { s with source := g }).1 =
          (e.runWhile ask p { s' with source := g }).1 ∧
        Session.Alike s.channel.sink s'.channel.sink (e.runWhile ask p { s with source := g }).2
          (e.runWhile ask p { s' with source := g }).2 := by
  intro s s'
  have hsize := e.size_perform source channel ops
  have hsize' := e.size_perform source' channel' ops'
  refine ⟨unrolled_runWhile hsize, fun g => e.alike_runWhile ask p ?_ rfl⟩
  exact hsize.trans hsize'.symm

end Engine

end GameSearch.Mcts
