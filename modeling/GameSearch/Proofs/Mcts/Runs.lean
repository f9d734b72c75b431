/-
  GameSearch.Proofs.Mcts.Runs

  What a run is made of.  It zeroes the counters, iterates as often as it may, and ends with
  a recommendation.  So the session of a run is at any time the one after so many iterations,
  and what its iterations pass on from zero counters holds when the recommendation is made.

    * `after`              — the session after so many iterations of a run
    * `Counted`            — the size of the counters after so many iterations
    * `rule`, `goesOn`     — the states and the answers of a stopping rule, as it is asked
    * `stopAt`             — the first number of iterations at which it says no
    * `iterateWhile_rule`, `runWhile_eq` — the loop of a run ends there
    * `Runs`               — a run delivers a result and leaves a session
    * `Concluded`          — the result that the end of a run makes of the counters
    * `Runs.concluded`     — every run comes to such an end
-/
import GameSearch.Proofs.Mcts.Ledger
import GameSearch.Proofs.Sink.Hearing

namespace GameSearch.Mcts

variable {γ σ : Type} [RandomSource γ] [Sink σ] [Logarithm]

-- ============================================================================
-- Iterations from zeroed counters
-- ============================================================================

/-- How large the counters are after so many iterations. -/
structure Counted (t : Tree) (tally : Tally) (completed : Nat) : Prop where
  size : tally.entries.size = t.size
  root : tally.visits t.root = completed
  visits_le : ∀ n, tally.visits n ≤ completed
  wins_le : ∀ n, tally.wins n ≤ tally.visits n

omit [RandomSource γ] [Sink σ] [Logarithm] in
theorem counted_zero (t : Tree) : Counted t (Tally.zero t.size) 0 where
  size := Tally.size_zero t.size
  root := Tally.visits_zero t.size t.root
  visits_le n := Nat.le_of_eq (Tally.visits_zero t.size n)
  wins_le n := by
    rw [Tally.wins_zero]
    exact Nat.zero_le _

omit [RandomSource γ] [Sink σ] [Logarithm] in
theorem Counted.congr {t : Tree} {tally tally' : Tally} {k : Nat} (h : Counted t tally k)
    (hcounts : Tally.SameCounts tally tally') : Counted t tally' k where
  size := hcounts.size.trans h.size
  root := (hcounts.visits t.root).trans h.root
  visits_le n := by
    rw [hcounts.visits]
    exact h.visits_le n
  wins_le n := by
    rw [hcounts.visits, hcounts.wins]
    exact h.wins_le n

namespace Engine

variable {e : Engine} {s : Session γ σ} {k : Nat}

theorem counted_iterate (h : Counted e.tree s.tally k) :
    Counted e.tree (e.iterate s).2.tally (k + 1) := by
  obtain ⟨hsize, hvisits, hwins⟩ := iterate_counts h.size
  refine ⟨hsize, ?_, fun n => ?_, fun n => ?_⟩
  · rw [hvisits, if_pos (Tree.root_mem_ancestors (expanded_lt e s)), h.root]
  · have := h.visits_le n
    rw [hvisits]
    split <;> omega
  · have := h.wins_le n
    rw [hvisits, hwins]
    by_cases hn : n ∈ e.tree.ancestors (e.iterate s).1.expanded
    · rw [if_pos hn]
      split <;> omega
    · rw [if_neg hn, if_neg fun h => hn h.1]
      exact this

/-- The session of a run after so many iterations. -/
def after (e : Engine) (s : Session γ σ) : Nat → Session γ σ
  | 0 => reset s
  | k + 1 => (e.iterate (e.after s k)).2

theorem after_succ (e : Engine) (s : Session γ σ) (k : Nat) :
    e.after s (k + 1) = (e.iterate (e.after s k)).2 := rfl

theorem completed_after (e : Engine) (s : Session γ σ) (k : Nat) :
    (e.after s k).completed = k := by
  induction k with
  | zero => rfl
  | succ k ih =>
    rw [after_succ, (iterate_spec e _).1, ih]

theorem counted_after (hsize : s.tally.entries.size = e.tree.size) (k : Nat) :
    Counted e.tree (e.after s k).tally k := by
  induction k with
  | zero =>
    show Counted e.tree (Tally.zero s.tally.entries.size) 0
    rw [hsize]
    exact counted_zero e.tree
  | succ k ih => exact counted_iterate ih

/-- Whatever was done with an engine before, its table has an entry for each node. -/
theorem size_perform (e : Engine) (source : γ) (channel : Channel σ) (ops : List (Op γ σ)) :
    (e.perform ops (e.start source channel)).tally.entries.size = e.tree.size := by
  have hstart : Balanced e.tree (e.start source channel).tally [] := Balanced.zero e.tree
  exact ((e.books_perform ops (e.start source channel)).balanced hstart).size

-- ============================================================================
-- Stopping rules
-- ============================================================================

section Rule

variable {π : Type} (e : Engine) (ask : Nat → Tally → π → Bool × π) (p : π) (s : Session γ σ)

/-- The state of a rule that was asked before each of so many iterations of a run. -/
def rule : Nat → π
  | 0 => p
  | k + 1 => (ask k (e.after s k).tally (rule k)).2

/-- Its answer when so many iterations are done. -/
def goesOn (k : Nat) : Bool := (ask k (e.after s k).tally (e.rule ask p s k)).1

/-- The first number of iterations at which the rule says no; all iterations if there is none. -/
def stopAt : Nat := ((List.range e.iterations).find? fun k => !e.goesOn ask p s k).getD e.iterations

/-- A rule is asked once for each iteration, and once more if it stops the run. -/
def asked (k : Nat) : Nat := if k < e.iterations then k + 1 else k

/-- The session in which the iterations of a run end.  Being stopped adds a message. -/
def ended (k : Nat) : Session γ σ :=
  if k < e.iterations then (e.after s k).log (.stoppedEarly k e.iterations) else e.after s k

theorem sameTable_ended (k : Nat) : (e.after s k).SameTable (e.ended s k) := by
  unfold ended
  split <;> exact ⟨rfl, rfl⟩

theorem sink_ended (k : Nat) : (e.ended s k).channel.sink = (e.after s k).channel.sink := by
  unfold ended
  split <;> rfl

theorem stopAt_spec :
    e.stopAt ask p s ≤ e.iterations ∧ (∀ j < e.stopAt ask p s, e.goesOn ask p s j = true) ∧
      (e.stopAt ask p s < e.iterations → e.goesOn ask p s (e.stopAt ask p s) = false) := by
  unfold stopAt
  cases hfind : (List.range e.iterations).find? fun k => !e.goesOn ask p s k with
  | none =>
    rw [List.find?_range_eq_none] at hfind
    refine ⟨Nat.le_refl _, fun j hj => ?_, fun hlt => absurd hlt (Nat.lt_irrefl _)⟩
    simpa using hfind j hj
  | some k =>
    rw [List.find?_range_eq_some] at hfind
    obtain ⟨hstops, hk, hbefore⟩ := hfind
    refine ⟨Nat.le_of_lt (List.mem_range.1 hk), fun j hj => ?_, fun _ => ?_⟩
    · simpa using hbefore j hj
    · simpa using hstops

/-- From any of its iterations the loop of a run goes on to where the rule says no. -/
theorem iterateWhile_rule {j remaining : Nat} (hj : j ≤ e.stopAt ask p s)
    (hremaining : j + remaining = e.iterations) :
    e.iterateWhile ask remaining (e.rule ask p s j) (e.after s j) =
      (decide (e.stopAt ask p s < e.iterations), e.rule ask p s (e.asked (e.stopAt ask p s)),
        e.ended s (e.stopAt ask p s)) := by
  obtain ⟨hle, hbefore, hstops⟩ := e.stopAt_spec ask p s
  generalize e.stopAt ask p s = k at *
  induction remaining generalizing j with
  | zero =>
    obtain rfl : j = k := by omega
    have hnot : ¬ j < e.iterations := by omega
    rw [iterateWhile, asked, ended, if_neg hnot, if_neg hnot, decide_eq_false hnot]
  | succ remaining ih =>
    have hanswer : ask (e.after s j).completed (e.after s j).tally (e.rule ask p s j) =
        (e.goesOn ask p s j, e.rule ask p s (j + 1)) := by
      rw [e.completed_after]
      rfl
    rw [iterateWhile, hanswer]
    dsimp only
    by_cases hlt : j < k
    · rw [if_pos (hbefore j hlt)]
      exact ih (j := j + 1) (by omega) hlt
    · -- here the rule says no
      obtain rfl : j = k := by omega
      have hearly : j < e.iterations := by omega
      rw [hstops hearly, asked, ended, if_pos hearly, if_pos hearly, decide_eq_true hearly,
        e.completed_after]
      rfl

/-- A run iterates up to there, from zeroed counters, and concludes. -/
theorem runWhile_eq :
    e.runWhile ask p s =
      ((e.conclude (decide (e.stopAt ask p s < e.iterations)) (e.ended s (e.stopAt ask p s))).1,
        e.rule ask p s (e.asked (e.stopAt ask p s)),
        (e.conclude (decide (e.stopAt ask p s < e.iterations))
          (e.ended s (e.stopAt ask p s))).2) := by
  have hloop := e.iterateWhile_rule ask p s (Nat.zero_le _) (Nat.zero_add e.iterations)
  have hstart : e.iterateWhile ask e.iterations p (reset s) = _ := hloop
  rw [runWhile, hstart]

end Rule

-- ============================================================================
-- The end of a run
-- ============================================================================

/-- The result is what the end of a run makes of the counters after so many iterations: it
    recommends a child of the root with the greatest share of wins, if there is one. -/
structure Concluded (e : Engine) (tally : Tally) (completed : Nat) (r : Result) : Prop where
  iterations : r.iterations = completed
  counts : Tally.SameCounts tally r.tally
  leader : ∀ b, r.best = some b → b.node ∈ leaders (childScores e.tree tally 0 e.tree.root)
  reported : ∀ b, r.best = some b →
    b.id = e.tree.id b.node ∧ b.visits = tally.visits b.node ∧ b.wins = tally.wins b.node ∧
      b.winRate = tally.winRate b.node
  leaderless : r.best = none → leaders (childScores e.tree tally 0 e.tree.root) = []

end Engine

/-- The last event of a run tells its recommendation. -/
def Result.announcement (r : Result) : List Event :=
  match r.best with
  | some b => [.bestChildChosen b.id b.winRate]
  | none => []

namespace Engine

variable {e : Engine} {s s' : Session γ σ} {r : Result}

omit [Sink σ] in
/-- A recommendation draws from the children of the root that lead, and leaves the sink alone. -/
theorem recommend_spec (e : Engine) (s : Session γ σ) :
    (∀ b, (e.recommend s).1 = some b →
      b.node ∈ leaders (childScores e.tree s.tally 0 e.tree.root) ∧
        b.id = e.tree.id b.node ∧ b.visits = s.tally.visits b.node ∧
        b.wins = s.tally.wins b.node ∧ b.winRate = s.tally.winRate b.node) ∧
      ((e.recommend s).1 = none → leaders (childScores e.tree s.tally 0 e.tree.root) = []) ∧
      (e.recommend s).2.channel.sink = s.channel.sink := by
  have hcounts := (sameCounts_bestChild e.tree 0 e.tree.root s).tally
  have hsink : (bestChild e.tree 0 e.tree.root s).2.channel.sink = s.channel.sink := rfl
  have hdrawn := bestChild_fst e.tree 0 e.tree.root s
  unfold recommend
  split
  · rename_i s' h
    rw [h] at hdrawn hsink
    refine ⟨fun b hb => (nomatch hb), fun _ => ?_, hsink⟩
    by_contra hne
    exact RandomSource.choose_ne_none hne (Option.map_eq_none_iff.1 hdrawn.symm)
  · rename_i c score s' h
    rw [h] at hdrawn hsink hcounts
    obtain ⟨d, hd, hpair⟩ := Option.map_eq_some_iff.1 hdrawn.symm
    cases hpair
    refine ⟨?_, fun hnone => (nomatch hnone), ?_⟩
    · intro b hb
      cases hb
      exact ⟨RandomSource.mem_of_choose hd, rfl, hcounts.visits c, hcounts.wins c,
        hcounts.winRate c⟩
    · dsimp only
      split <;> exact hsink

theorem conclude_spec (e : Engine) (aborted : Bool) (s : Session γ σ) :
    Concluded e s.tally s.completed (e.conclude aborted s).1 ∧
      (e.conclude aborted s).2.channel.sink =
        Sink.hear (e.conclude aborted s).1.announcement s.channel.sink := by
  have hcounts := (e.sameCounts_recommend s).tally
  obtain ⟨hsome, hnone, hsink⟩ := e.recommend_spec s
  unfold conclude
  dsimp only
  cases hbest : (e.recommend s).1 with
  | none =>
    exact ⟨⟨rfl, hcounts, fun b hb => (nomatch hb), fun b hb => (nomatch hb),
      fun _ => hnone hbest⟩, hsink⟩
  | some b =>
    have hreport := hsome b hbest
    refine ⟨⟨rfl, hcounts, fun d hd => ?_, fun d hd => ?_, fun h => (nomatch h)⟩, ?_⟩
    · cases hd
      exact hreport.1
    · cases hd
      exact hreport.2
    · refine (Channel.sink_emit _ _).trans ?_
      show Sink.offer (e.recommend s).2.channel.sink _ = _
      rw [hsink]
      rfl

-- ============================================================================
-- Runs
-- ============================================================================

/-- A run makes the iterations before the rule says no. -/
theorem iterations_runWhile {π : Type} (e : Engine) (ask : Nat → Tally → π → Bool × π) (p : π)
    (s : Session γ σ) : (e.runWhile ask p s).1.iterations = e.stopAt ask p s := by
  rw [runWhile_eq, (e.conclude_spec _ _).1.iterations, (e.sameTable_ended s _).completed,
    e.completed_after]

/-- A run of the engine, of all its iterations or as long as a predicate agrees, delivers the result
    and leaves the second session. -/
inductive Runs (e : Engine) (s : Session γ σ) : Result → Session γ σ → Prop where
  | run : Runs e s (e.run s).1 (e.run s).2
  | runWhile {π : Type} (ask : Nat → Tally → π → Bool × π) (p : π) :
    Runs e s (e.runWhile ask p s).1 (e.runWhile ask p s).2.2

/-- Every run makes so many iterations, at most as many as it may, and concludes. -/
theorem Runs.concluded (h : e.Runs s r s') :
    ∃ k, k ≤ e.iterations ∧ Concluded e (e.after s k).tally k r ∧
      s'.channel.sink = Sink.hear r.announcement (e.after s k).channel.sink := by
  -- a run of all iterations is one with a predicate that always agrees
  have hwhile : ∀ {π : Type} (ask : Nat → Tally → π → Bool × π) (p : π),
      ∃ k, k ≤ e.iterations ∧ Concluded e (e.after s k).tally k (e.runWhile ask p s).1 ∧
        (e.runWhile ask p s).2.2.channel.sink =
          Sink.hear (e.runWhile ask p s).1.announcement (e.after s k).channel.sink := by
    intro π ask p
    have hrun := e.runWhile_eq ask p s
    have hle := (e.stopAt_spec ask p s).1
    generalize e.stopAt ask p s = k at *
    obtain ⟨hconcluded, hheard⟩ := e.conclude_spec (decide (k < e.iterations)) (e.ended s k)
    have hended := e.sameTable_ended s k
    rw [hended.tally, hended.completed, e.completed_after] at hconcluded
    rw [e.sink_ended] at hheard
    rw [hrun]
    exact ⟨k, hle, hconcluded, hheard⟩
  cases h with
  | run => exact hwhile _ ()
  | runWhile ask p => exact hwhile ask p

end Engine

end GameSearch.Mcts
