/-
  GameSearch.Proofs.Mcts.Iteration

  One iteration, from whatever the counters are before it.  Results that were counted by hand may
  have left them uneven.  Selection still passes only nodes all of whose children were visited, and
  stops where expansion finds a child without visits, or at a leaf; the play ends at a leaf below;
  and one visit is counted on the line of the expanded node, and nothing elsewhere.

    * `Iterated`            — what an iteration did
    * `Balanced.isNaN_ucb1` — scores are numbers unless too many results were counted
    * `iterated_iterate`    — with such scores iterations do this
    * `iterate_from_any`    — after any sequence of operations
-/
import GameSearch.Proofs.Mcts.Chronicle

namespace GameSearch.Mcts

/-- What an iteration did, and how it led from one session to another. -/
structure Iterated {γ σ : Type} (t : Tree) (s s' : Session γ σ) (p : Playout) : Prop where
  /-- Every node above the selected one had children that were all visited. -/
  passed : t.root ∈ t.ancestors p.selected ∧ ∀ a ∈ t.ancestors p.selected, a ≠ p.selected →
    ∀ c ∈ t.children a, 0 < s.tally.visits c
  /-- The selected node is a leaf, or had a child without visits. -/
  stopped : t.children p.selected = [] ∨ ∃ c ∈ t.children p.selected, s.tally.visits c = 0
  stayed : t.children p.selected = [] → p.expanded = p.selected
  moved : t.children p.selected ≠ [] →
    p.expanded ∈ t.children p.selected ∧ s.tally.visits p.expanded = 0
  leaf : t.children p.leaf = [] ∧ p.leaf ∈ t.subtree p.expanded
  /-- The result is the value of the leaf, or zero or one if it has none. -/
  result : (t.node p.leaf).value = some p.result ∨
    (t.node p.leaf).value = none ∧ (p.result = 0 ∨ p.result = 1)
  /-- One visit is counted at the expanded node and above it, and none elsewhere. -/
  visits : ∀ n, s'.tally.visits n = s.tally.visits n + if n ∈ t.ancestors p.expanded then 1 else 0
  /-- So is one win if the result is one, and no win otherwise. -/
  wins : ∀ n, s'.tally.wins n =
    s.tally.wins n + if n ∈ t.ancestors p.expanded ∧ (p.result == 1) = true then 1 else 0
  completed : s'.completed = s.completed + 1

/-- Scores are numbers as long as fewer than 2^64 results were counted since the last reset. -/
theorem Balanced.isNaN_ucb1 [Logarithm] [LawfulLogarithm] {t : Tree} {tally : Tally}
    {ledger : List Booking} (h : Balanced t tally ledger) (hbound : ledger.length < 2 ^ 64)
    {weight : Score} (hweight : weight.isFinite = true) (i : Nat) :
    (ucb1 t tally weight i).isNaN = false := by
  have hvisits : ∀ j, tally.visits j < 2 ^ 64 := fun j =>
    Nat.lt_of_le_of_lt (h.visits_le_length j) hbound
  by_cases hi : i < t.size
  · exact Mcts.isNaN_ucb1 t hweight hvisits (Nat.lt_of_le_of_lt (h.wins_le hi) (hvisits i))
  · have hzero : tally.visits i = 0 := Tally.visits_of_size_le (h.size ▸ Nat.not_lt.1 hi)
    rw [ucb1, if_pos hzero]
    exact Score.isNaN_top

variable {γ σ : Type} [RandomSource γ] [Sink σ] [Logarithm]

namespace Engine

/-- Iterations do this as long as the table has an entry for each node and scores are numbers. -/
theorem iterated_iterate {e : Engine} {s : Session γ σ}
    (hsize : s.tally.entries.size = e.tree.size)
    (hscores : ∀ c, (ucb1 e.tree s.tally e.weight c).isNaN = false) :
    Iterated e.tree s (e.iterate s).2 (e.iterate s).1 := by
  obtain ⟨hcompleted, hpassed, hexpanded, -⟩ := iterate_spec e s
  obtain ⟨events, hblock, -⟩ := block_iterate hsize
  have hstopped := iterate_stops hscores
  have hselected := selected_lt e s
  constructor
  case passed =>
    refine ⟨hpassed.below, fun a ha hne => ?_⟩
    have hlt : a < e.tree.size := Nat.lt_of_le_of_lt (Tree.le_of_mem_ancestors ha) hselected
    exact hasUnvisited_eq_false_iff.1 (hpassed.visited a ha (Tree.root_mem_ancestors hlt) hne)
  case stopped => exact hstopped.imp_right hasUnvisited_iff.1
  case stayed =>
    intro hleaf
    refine (hexpanded.resolve_left fun h => ?_).1
    rw [hleaf] at h
    cases h.1
  case moved =>
    intro hinternal
    -- without a child to move to, selection would have gone on
    refine hexpanded.resolve_right fun h => ?_
    rw [hstopped.resolve_left hinternal] at h
    cases h.2
  case leaf => exact ⟨hblock.leaf.1, Tree.mem_subtree_iff.2 hblock.leaf.2⟩
  case result => exact hblock.result
  case visits => exact hblock.visits
  case wins => exact hblock.wins
  case completed => exact hcompleted

/-- After any sequence of operations, results counted by hand included, the next iteration selects,
    expands, plays and counts in this way.  The scores of the table that it finds are taken to be
    numbers. -/
theorem iterate_from_any (e : Engine) (source : γ) (channel : Channel σ) (ops : List (Op γ σ))
    (hscores : ∀ c, (ucb1 e.tree (e.perform ops (e.start source channel)).tally
      e.weight c).isNaN = false) :
    Iterated e.tree (e.perform ops (e.start source channel))
      (e.iterate (e.perform ops (e.start source channel))).2
      (e.iterate (e.perform ops (e.start source channel))).1 :=
  iterated_iterate (e.size_perform source channel ops) hscores

omit [RandomSource γ] [Sink σ] [Logarithm] in
/-- Two results counted by hand leave uneven counters; the scores are still numbers. -/
theorem iterate_from_any_small :
    let ops : List (Op Random.Generator NullSink) := [.backpropagate 3 1, .backpropagate 2 0.5]
    let s := @perform _ _ _ _ shortLogarithm small ops smallStart
    (∀ c, (@ucb1 shortLogarithm Tree.small s.tally small.weight c).isNaN = false) ∧
      Iterated Tree.small s (@iterate _ _ _ _ shortLogarithm small s).2
        (@iterate _ _ _ _ shortLogarithm small s).1 := by
  let := shortLogarithm
  have := lawful_shortLogarithm
  intro ops s
  have hbalanced : Balanced Tree.small s.tally (ledger (small.history ops smallStart)) :=
    (small.books_perform ops smallStart).balanced (Balanced.zero Tree.small)
  have hscores : ∀ c, (ucb1 Tree.small s.tally small.weight c).isNaN = false :=
    hbalanced.isNaN_ucb1 (by decide) accepted_small.weight
  exact ⟨hscores, iterate_from_any small _ _ ops hscores⟩

end Engine

end GameSearch.Mcts
