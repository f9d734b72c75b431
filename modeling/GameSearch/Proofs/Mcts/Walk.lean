/-
  GameSearch.Proofs.Mcts.Walk

  The walk of selection, from any node and over any table.  It is a loop that ends because every
  turn leads one level further down, whatever the counters say.  The nodes it leaves behind form a
  line of best children; their children have their scores kept, and the rest of the table stays
  as it is.

    * `move`           — one turn of the loop
    * `walkWithin`     — the loop with a bound on its turns
    * `walkWithin_eq`  — the height of the tree is bound enough
    * `Walked`         — what a walk leaves behind, where it ends and what it changes
    * `walked_select`  — every walk is of this kind
    * `select_walks`   — selection, for any tree, start, weight and table
-/
import Mathlib.Data.List.Chain
import GameSearch.Proofs.Mcts.BestChild
import GameSearch.Proofs.Tree.Representation
import GameSearch.Proofs.Tree.Subtree

namespace GameSearch

namespace Mcts

variable {γ σ : Type} [RandomSource γ] [Sink σ] [Logarithm]

-- ============================================================================
-- Turns
-- ============================================================================

/-- How a turn of the walk ends. -/
inductive Move (γ σ : Type) where
  /-- The walk is over. -/
  | stay (s : Session γ σ)
  /-- It has come to a child. -/
  | go (c : Nat) (s : Session γ σ)

/-- A turn of the walk at a node. -/
def move (t : Tree) (weight : Score) (i : Nat) (s : Session γ σ) : Move γ σ :=
  if (t.node i).isLeaf || hasUnvisited t s.tally i then .stay s
  else
    match bestChild t weight i s with
    | (none, s) => .stay s
    | (some (c, score), s) =>
      let message := Message.selectionMoved (t.id i) (t.id c) score (s.tally.visits c)
        (s.tally.wins c)
      .go c ((s.log message).emit (.selectionStep (t.id i) (t.id c) score))

/-- A walk of so many turns at most; absent if it is not over then. -/
def walkWithin (t : Tree) (weight : Score) : Nat → Nat → Session γ σ →
    Option (Nat × Session γ σ)
  | 0, _, _ => none
  | turns + 1, i, s =>
    match move t weight i s with
    | .stay s => some (i, s)
    | .go c s => walkWithin t weight turns c s

/-- The walk is over as soon as it has taken a turn on each level from its start on. -/
theorem walkWithin_eq (t : Tree) (weight : Score) {turns i : Nat} (s : Session γ σ)
    (hturns : t.height < (t.node i).depth + turns) :
    walkWithin t weight turns i s = some (select t weight i s) := by
  induction turns generalizing i s with
  | zero =>
    have := t.depth_le_height i
    omega
  | succ turns ih =>
    rw [walkWithin, move]
    by_cases hstop : ((t.node i).isLeaf || hasUnvisited t s.tally i) = true
    · rw [if_pos hstop, select_of_stop hstop]
    · rw [if_neg hstop]
      rcases hbest : bestChild t weight i s with ⟨_ | ⟨c, score⟩, s'⟩
      · rw [select_of_bestChild_none hstop hbest]
      · have hc : c ∈ t.children i := mem_children_of_bestChild (by rw [hbest])
        have hdepth := Tree.depth_of_mem_children hc
        rw [select_of_bestChild hstop hbest]
        exact ih _ (by omega)

-- ============================================================================
-- Lines of best children
-- ============================================================================

/-- A walk from `i` that leaves the nodes `left` behind and delivers `r`. -/
structure Walked (t : Tree) (weight : Score) (i : Nat) (s : Session γ σ) (left : List Nat)
    (r : Nat × Session γ σ) : Prop where
  start : (left ++ [r.1]).head? = some i
  below : ∀ a ∈ left ++ [r.1], a ∈ t.subtree i
  counts : s.SameCounts r.2
  /-- Every node left behind has children, and all of them were visited. -/
  visited : ∀ a ∈ left, t.children a ≠ [] ∧ ∀ c ∈ t.children a, 0 < s.tally.visits c
  /-- Every step leads to a child that no other child outdoes. -/
  steps : (left ++ [r.1]).IsChain (Tops t s.tally weight)
  /-- The walk ends at a leaf, at a node with a child without visits, or where no score is a
      number. -/
  stops : t.children r.1 = [] ∨ (∃ c ∈ t.children r.1, s.tally.visits c = 0) ∨
    ∀ c ∈ t.children r.1, (ucb1 t s.tally weight c).isNaN = true
  /-- The children of the nodes left behind have their scores kept. -/
  kept : ∀ a ∈ left, ∀ c ∈ t.children a, r.2.tally.score c = ucb1 t s.tally weight c
  /-- Nothing is written elsewhere, scores at the end of the walk apart that are not numbers. -/
  others : ∀ n, (∀ a ∈ left, n ∉ t.children a) →
    (n ∈ t.children r.1 → (ucb1 t s.tally weight n).isNaN = false) →
    r.2.tally.entry n = s.tally.entry n

section

variable {t : Tree} {weight : Score} {i c : Nat} {s s' : Session γ σ} {left : List Nat}
  {r : Nat × Session γ σ}

omit [RandomSource γ] [Sink σ] in
/-- A walk that is over at once. -/
theorem Walked.here (hcounts : s.SameCounts s')
    (hstops : t.children i = [] ∨ (∃ c ∈ t.children i, s.tally.visits c = 0) ∨
      ∀ c ∈ t.children i, (ucb1 t s.tally weight c).isNaN = true)
    (hothers : ∀ n, (n ∈ t.children i → (ucb1 t s.tally weight n).isNaN = false) →
      s'.tally.entry n = s.tally.entry n) :
    Walked t weight i s [] (i, s') where
  start := rfl
  below _ ha := List.mem_singleton.1 ha ▸ t.self_mem_subtree i
  counts := hcounts
  visited _ ha := nomatch ha
  steps := List.isChain_singleton i
  stops := hstops
  kept _ ha := nomatch ha
  others n _ hn := hothers n hn

omit [RandomSource γ] [Sink σ] in
/-- A walk with one more node in front, at which the scores of all children were kept. -/
theorem Walked.step (hvisited : ∀ c ∈ t.children i, 0 < s.tally.visits c)
    (htops : Tops t s.tally weight i c) (hcounts : s.SameCounts s')
    (hkept : ∀ d ∈ t.children i, s'.tally.score d = ucb1 t s.tally weight d)
    (hothers : ∀ n, n ∉ t.children i → s'.tally.entry n = s.tally.entry n)
    (h : Walked t weight c s' left r) : Walked t weight i s (i :: left) r := by
  have hc : c ∈ t.children i := htops.1
  have hscores := fun n => hcounts.tally.ucb1_eq t weight n
  -- the rest of the walk is below the child, so it meets no other child of the node
  have hparent : ∀ d ∈ t.children i, ∀ a ∈ left ++ [r.1], d ∉ t.children a := by
    intro d hd a ha hda
    have hai : a = i := Option.some.inj
      ((Tree.mem_children_iff.1 hda).symm.trans (Tree.mem_children_iff.1 hd))
    exact Tree.not_mem_subtree_child hc (hai ▸ h.below a ha)
  have hleft : ∀ a ∈ left, a ∈ left ++ [r.1] := fun a ha => List.mem_append_left _ ha
  have hend : r.1 ∈ left ++ [r.1] := List.mem_append_right _ (List.mem_singleton_self _)
  constructor
  case start => rfl
  case below =>
    intro a ha
    rcases List.mem_cons.1 ha with rfl | ha
    · exact t.self_mem_subtree a
    · exact Tree.mem_subtree_iff_child.2 (.inr ⟨c, hc, h.below a ha⟩)
  case counts => exact hcounts.trans h.counts
  case visited =>
    intro a ha
    rcases List.mem_cons.1 ha with rfl | ha
    · exact ⟨List.ne_nil_of_mem hc, hvisited⟩
    · obtain ⟨hne, hpos⟩ := h.visited a ha
      exact ⟨hne, fun d hd => hcounts.tally.visits d ▸ hpos d hd⟩
  case steps =>
    refine List.isChain_cons.2 ⟨fun d hd => ?_, ?_⟩
    · obtain rfl : c = d := Option.some.inj (h.start.symm.trans hd)
      exact htops
    · exact h.steps.imp fun a b => hcounts.tally.tops_iff.1
  case stops =>
    simp only [← hscores, ← hcounts.tally.visits]
    exact h.stops
  case kept =>
    intro a ha d hd
    rcases List.mem_cons.1 ha with rfl | ha
    · have hsame := h.others d (fun b hb => hparent d hd b (hleft b hb))
        fun hdend => absurd hdend (hparent d hd r.1 hend)
      exact (congrArg Entry.score hsame).trans (hkept d hd)
    · rw [← hscores]
      exact h.kept a ha d hd
  case others =>
    intro n hn hnum
    rw [← hscores] at hnum
    rw [h.others n (fun a ha => hn a (List.mem_cons_of_mem _ ha)) hnum]
    exact hothers n (hn i List.mem_cons_self)

end

/-- Every walk of selection is of this kind. -/
theorem walked_select (t : Tree) (weight : Score) (i : Nat) (s : Session γ σ)
    (hsize : s.tally.entries.size = t.size) :
    ∃ left, Walked t weight i s left (select t weight i s) := by
  fun_induction select t weight i s with
  | case1 i s h =>
    refine ⟨[], Walked.here (Session.SameCounts.refl s) ?_ fun n _ => rfl⟩
    rw [Bool.or_eq_true] at h
    exact h.imp List.isEmpty_iff.1 fun h => .inl (hasUnvisited_iff.1 h)
  | case2 i s h s' hbest =>
    obtain rfl : s' = (bestChild t weight i s).2 := by rw [hbest]
    have hnan : ∀ c ∈ t.children i, (ucb1 t s.tally weight c).isNaN = true :=
      fun c hc => isNaN_of_bestChild_none (by rw [hbest]) hc
    refine ⟨[], Walked.here (sameCounts_bestChild t weight i s) (.inr (.inr hnan)) ?_⟩
    intro n hnum
    exact entry_bestChild_of_not_mem fun hn => Bool.false_ne_true ((hnum hn).symm.trans (hnan n hn))
  | case3 i s h c score s' hbest message ih =>
    obtain rfl : s' = (bestChild t weight i s).2 := by rw [hbest]
    have hcounts := sameCounts_bestChild t weight i s
    have htops : Tops t s.tally weight i c := tops_of_bestChild (by rw [hbest])
    rw [Bool.not_eq_true, Bool.or_eq_false_iff] at h
    obtain ⟨left, hwalked⟩ := ih (hcounts.tally.size.trans hsize)
    refine ⟨i :: left, hwalked.step (hasUnvisited_eq_false_iff.1 h.2) htops ?_ ?_ ?_⟩
    · exact ⟨hcounts.tally, hcounts.completed⟩
    · exact fun d hd => score_bestChild hsize hd
    · exact fun n hn => entry_bestChild_of_not_mem hn

/-- Selection from any node and over any table ends, with a walk from best child to best child.  If
    all scores are numbers, as they are with any finite weight, it ends at a leaf or at a node with
    a child without visits, and only scores below nodes left behind are written. -/
theorem select_walks (t : Tree) (weight : Score) (i : Nat) (s : Session γ σ)
    (hsize : s.tally.entries.size = t.size) :
    let r := select t weight i s
    (∀ turns, t.height < (t.node i).depth + turns → walkWithin t weight turns i s = some r) ∧
    (∃ left, Walked t weight i s left r ∧
      ((∀ n, (ucb1 t s.tally weight n).isNaN = false) →
        (t.children r.1 = [] ∨ ∃ c ∈ t.children r.1, s.tally.visits c = 0) ∧
        ∀ n, (∀ a ∈ left, n ∉ t.children a) → r.2.tally.entry n = s.tally.entry n)) ∧
    (LawfulLogarithm → weight.isFinite = true →
      (∀ n, s.tally.visits n < 2 ^ 64 ∧ s.tally.wins n < 2 ^ 64) →
      ∀ n, (ucb1 t s.tally weight n).isNaN = false) := by
  obtain ⟨left, hwalked⟩ := walked_select t weight i s hsize
  refine ⟨fun turns => walkWithin_eq t weight s, ⟨left, hwalked, fun hnum => ⟨?_, ?_⟩⟩, ?_⟩
  · rcases hwalked.stops with hleaf | hunvisited | hnan
    · exact .inl hleaf
    · exact .inr hunvisited
    · refine .inl (List.eq_nil_iff_forall_not_mem.2 fun c hc => ?_)
      exact Bool.false_ne_true ((hnum c).symm.trans (hnan c hc))
  · exact fun n hn => hwalked.others n hn fun _ => hnum n
  · intro _ hweight hcounters n
    exact isNaN_ucb1 t hweight (fun j => (hcounters j).1) (hcounters n).2

omit [RandomSource γ] [Sink σ] [Logarithm] in
/-- A table that was not filled by a search: the root was never visited, its children were.  The
    walk ends below one of them or at the other, which has a child without visits. -/
theorem select_walks_small :
    let tally : Tally := ⟨#[⟨0, 3, 1⟩, ⟨4, 9, 0⟩, ⟨2, 1, -5⟩, ⟨1, 0, 0⟩, ⟨3, 2, 7⟩, ⟨0, 7, 5⟩,
      ⟨7, 7, -5⟩]⟩
    let s : Session Random.Generator NullSink := { Engine.smallStart with tally := tally }
    let r := @select _ _ _ shortLogarithm _ Tree.small 1.4 0 s
    s.tally.entries.size = Tree.small.size ∧
    @walkWithin _ _ _ _ shortLogarithm Tree.small 1.4 3 0 s = some r ∧
    ∃ left, @Walked _ _ shortLogarithm Tree.small 1.4 0 s left r ∧
      (Tree.small.children r.1 = [] ∨
        ∃ c ∈ Tree.small.children r.1, s.tally.visits c = 0) ∧
      ∀ n, (∀ a ∈ left, n ∉ Tree.small.children a) →
        r.2.tally.entry n = s.tally.entry n := by
  let := shortLogarithm
  intro tally s r
  have hsize : s.tally.entries.size = Tree.small.size := rfl
  have hcounters : ∀ n, s.tally.visits n < 2 ^ 64 ∧ s.tally.wins n < 2 ^ 64 := by
    have hinside : ∀ n < 7, s.tally.visits n < 2 ^ 64 ∧ s.tally.wins n < 2 ^ 64 := by
      decide
    intro n
    by_cases hn : n < 7
    · exact hinside n hn
    · have hentry := Tally.entry_of_size_le (t := s.tally) (Nat.le_of_not_lt hn)
      rw [Tally.visits, Tally.wins, hentry]
      decide
  have hweight : (1.4 : Score).isFinite = true := by decide
  obtain ⟨hends, ⟨left, hwalked, hsettled⟩, hscores⟩ := select_walks Tree.small 1.4 0 s hsize
  exact ⟨hsize, hends 3 (by decide), left, hwalked,
    hsettled (hscores lawful_shortLogarithm hweight hcounters)⟩

end Mcts

end GameSearch
