/-
  GameSearch.Proofs.Mcts.Selection

  Where selection ends.  The walk changes no counter, passes only nodes all of whose
  children were visited, and, as long as scores are numbers, it ends only at a leaf or
  at a node with a child that was not visited.  Expansion then moves to such a child.

    * `Passed`         — a line of nodes whose children were all visited
    * `select_spec`, `select_stops` — the walk of selection
    * `expand_cases`   — where expansion leads
    * `iterate_spec`, `iterate_counts` — what an iteration selects, and the line it counts
-/
import GameSearch.Proofs.Mcts.Survey

namespace GameSearch

theorem RandomSource.choose_ne_none {γ α : Type} [RandomSource γ] {xs : List α} {g : γ}
    (h : xs ≠ []) : (RandomSource.choose xs g).1 ≠ none := by
  cases xs with
  | nil => exact absurd rfl h
  | cons x rest => exact fun hnone => nomatch hnone

namespace Mcts

-- ============================================================================
-- The walk
-- ============================================================================

/-- The line from a node down to another one; the nodes above the last one have no child
    without visits. -/
structure Passed (t : Tree) (tally : Tally) (i j : Nat) : Prop where
  below : i ∈ t.ancestors j
  visited : ∀ a ∈ t.ancestors j, i ∈ t.ancestors a → a ≠ j → hasUnvisited t tally a = false

section

variable {t : Tree} {tally tally' : Tally} {weight : Score} {i j c : Nat}

theorem hasUnvisited_iff :
    hasUnvisited t tally i = true ↔ ∃ c ∈ t.children i, tally.visits c = 0 := by
  simp [hasUnvisited]

theorem hasUnvisited_eq_false_iff :
    hasUnvisited t tally i = false ↔ ∀ c ∈ t.children i, 0 < tally.visits c := by
  simp [hasUnvisited, Nat.pos_iff_ne_zero]

theorem Tally.SameCounts.hasUnvisited_eq (h : Tally.SameCounts tally tally') (t : Tree) (i : Nat) :
    hasUnvisited t tally' i = hasUnvisited t tally i := by
  unfold hasUnvisited
  simp only [h.visits]

theorem Tally.SameCounts.passed (h : Tally.SameCounts tally tally') (hp : Passed t tally' i j) :
    Passed t tally i j :=
  ⟨hp.below, fun a ha hia hne => (h.hasUnvisited_eq t a).symm.trans (hp.visited a ha hia hne)⟩

theorem Passed.refl (t : Tree) (tally : Tally) (i : Nat) : Passed t tally i i := by
  refine ⟨t.self_mem_ancestors i, fun a ha hia hne => absurd ?_ hne⟩
  have := Tree.le_of_mem_ancestors ha
  have := Tree.le_of_mem_ancestors hia
  omega

/-- One more node in front. -/
theorem Passed.cons (hc : c ∈ t.children i) (hi : hasUnvisited t tally i = false)
    (h : Passed t tally c j) : Passed t tally i j := by
  have hparent := Tree.mem_children_iff.1 hc
  refine ⟨Tree.mem_ancestors_parent hparent h.below, fun a ha hia hne => ?_⟩
  by_cases hai : a = i
  · rw [hai]
    exact hi
  · -- what is strictly below the node on this line is at or below the child
    obtain ⟨d, hd, hda⟩ := Tree.exists_child_mem_ancestors hia (fun h => hai h.symm)
    have hdc : d = c := Tree.eq_of_mem_ancestors (Tree.mem_children_iff.1 hd) hparent
      (Tree.mem_ancestors_trans hda ha) h.below
    exact h.visited a ha (hdc ▸ hda) hne

end

variable {γ σ : Type} [RandomSource γ] [Logarithm]

/-- Scoring the children keeps their scores and counts nothing. -/
theorem sameCounts_bestChild (t : Tree) (weight : Score) (i : Nat) (s : Session γ σ) :
    s.SameCounts (bestChild t weight i s).2 :=
  ⟨tally_bestChild t weight i s ▸ sameCounts_keepScores _ _, rfl⟩

/-- If none of the children is drawn, none has a score that is a number. -/
theorem isNaN_of_bestChild_none {t : Tree} {weight : Score} {i c : Nat} {s : Session γ σ}
    (h : (bestChild t weight i s).1 = none) (hc : c ∈ t.children i) :
    (ucb1 t s.tally weight c).isNaN = true := by
  by_contra hnum
  rw [Bool.not_eq_true] at hnum
  rw [bestChild_fst] at h
  exact RandomSource.choose_ne_none (leaders_ne_nil (mem_childScores hc) hnum)
    (Option.map_eq_none_iff.1 h)

variable [Sink σ]

/-- Selection counts nothing and passes only nodes all of whose children were visited. -/
theorem select_spec (t : Tree) (weight : Score) (i : Nat) (s : Session γ σ) :
    s.SameCounts (select t weight i s).2 ∧ Passed t s.tally i (select t weight i s).1 := by
  fun_induction select t weight i s with
  | case1 i s h => exact ⟨Session.SameCounts.refl s, Passed.refl t s.tally i⟩
  | case2 i s h s' hbest =>
    obtain rfl : s' = (bestChild t weight i s).2 := by rw [hbest]
    exact ⟨sameCounts_bestChild t weight i s, Passed.refl t s.tally i⟩
  | case3 i s h c score s' hbest message ih =>
    obtain rfl : s' = (bestChild t weight i s).2 := by rw [hbest]
    have hcounts := sameCounts_bestChild t weight i s
    have hc : c ∈ t.children i := mem_children_of_bestChild (by rw [hbest])
    have hvisited : hasUnvisited t s.tally i = false := by
      rw [Bool.not_eq_true, Bool.or_eq_false_iff] at h
      exact h.2
    have hlog := Session.sameTable_log message (bestChild t weight i s).2
    have hemit := hlog.trans (Session.sameTable_emit (.selectionStep (t.id i) (t.id c) score) _)
    obtain ⟨hrest, hpassed⟩ := ih
    exact ⟨hcounts.trans (hemit.sameCounts.trans hrest),
      (hcounts.tally.passed hpassed).cons hc hvisited⟩

/-- The walk ends at a leaf or at a node with a child that was not visited, provided all scores
    are numbers. -/
theorem select_stops {t : Tree} {weight : Score} {i : Nat} {s : Session γ σ}
    (hscores : ∀ c, (ucb1 t s.tally weight c).isNaN = false) :
    t.children (select t weight i s).1 = [] ∨
      hasUnvisited t s.tally (select t weight i s).1 = true := by
  fun_induction select t weight i s with
  | case1 i s h =>
    rw [Bool.or_eq_true] at h
    exact h.imp List.isEmpty_iff.1 id
  | case2 i s h s' hbest =>
    -- a node with children has a best one
    rw [Bool.or_eq_true, not_or] at h
    have hne : t.children i ≠ [] := fun hnil => h.1 (List.isEmpty_iff.2 hnil)
    obtain ⟨c, hc⟩ := List.exists_mem_of_ne_nil _ hne
    have hnan : (ucb1 t s.tally weight c).isNaN = true :=
      isNaN_of_bestChild_none (by rw [hbest]) hc
    rw [hscores c] at hnan
    cases hnan
  | case3 i s h c score s' hbest message ih =>
    obtain rfl : s' = (bestChild t weight i s).2 := by rw [hbest]
    have hcounts := sameCounts_bestChild t weight i s
    have hstop := ih fun d => by
      show (ucb1 t (bestChild t weight i s).2.tally weight d).isNaN = false
      rw [hcounts.tally.ucb1_eq t weight d]
      exact hscores d
    exact hstop.imp id fun h => (hcounts.tally.hasUnvisited_eq t _).symm.trans h

omit [Logarithm] in
/-- Expansion moves to a child without visits; it stays only if there is none. -/
theorem expand_cases (e : Engine) (i : Nat) (s : Session γ σ) :
    ((e.expand i s).1 ∈ e.tree.children i ∧ s.tally.visits (e.expand i s).1 = 0) ∨
      ((e.expand i s).1 = i ∧ hasUnvisited e.tree s.tally i = false) := by
  unfold Engine.expand
  split
  · rename_i c s' h
    have hc : c ∈ (e.tree.children i).filter fun c => s.tally.visits c == 0 :=
      RandomSource.mem_of_choose (g := s.source) (congrArg Prod.fst h)
    obtain ⟨hchild, hzero⟩ := List.mem_filter.1 hc
    exact .inl ⟨hchild, beq_iff_eq.1 hzero⟩
  · rename_i s' h
    refine .inr ⟨rfl, ?_⟩
    have hnil : (e.tree.children i).filter (fun c => s.tally.visits c == 0) = [] := by
      by_cases hnil : (e.tree.children i).filter (fun c => s.tally.visits c == 0) = []
      · exact hnil
      · exact absurd (congrArg Prod.fst h) (RandomSource.choose_ne_none (g := s.source) hnil)
    rw [hasUnvisited_eq_false_iff]
    intro c hc
    have := List.filter_eq_nil_iff.1 hnil c hc
    simpa [Nat.pos_iff_ne_zero] using this

-- ============================================================================
-- One iteration
-- ============================================================================

/-- The session in which selection starts. -/
def announced (s : Session γ σ) : Session γ σ :=
  { s with completed := s.completed + 1 }.emit (.iterationStarted (s.completed + 1))

/-- The steps of an iteration. -/
theorem iterate_eq (e : Engine) (s : Session γ σ) :
    let selected := select e.tree e.weight e.tree.root (announced s)
    let expanded := e.expand selected.1 selected.2
    let played := e.simulate expanded.1 expanded.2
    let message := Message.iterationDone (s.completed + 1) (e.tree.id selected.1)
      (e.tree.id expanded.1) (e.tree.id played.1.1) played.1.2
    e.iterate s = (⟨selected.1, expanded.1, played.1.1, played.1.2⟩,
      (e.backpropagate expanded.1 played.1.2 played.2).log message) := rfl

/-- An iteration goes past nodes whose children were all visited, then to a child without visits
    if there is one, and counts the line of the node it has come to. -/
theorem iterate_spec (e : Engine) (s : Session γ σ) :
    let r := e.iterate s
    r.2.completed = s.completed + 1 ∧
    Passed e.tree s.tally e.tree.root r.1.selected ∧
    (r.1.expanded ∈ e.tree.children r.1.selected ∧ s.tally.visits r.1.expanded = 0 ∨
      r.1.expanded = r.1.selected ∧ hasUnvisited e.tree s.tally r.1.selected = false) ∧
    ∃ tally, Tally.SameCounts s.tally tally ∧
      r.2.tally = tally.recordVisits (e.tree.ancestors r.1.expanded) (isWin r.1.result) := by
  rw [iterate_eq]
  dsimp only
  obtain ⟨⟨hcounts, hcompleted⟩, hpassed⟩ :=
    select_spec e.tree e.weight e.tree.root (announced s)
  generalize select e.tree e.weight e.tree.root (announced s) = selected at *
  have hexpand := expand_cases e selected.1 selected.2
  rw [hcounts.visits, hcounts.hasUnvisited_eq] at hexpand
  -- expansion and playout leave the table to backpropagation
  have hplayed := (e.sameTable_expand selected.1 selected.2).trans
    (e.sameTable_simulate (e.expand selected.1 selected.2).1 _)
  refine ⟨?_, hpassed, hexpand, _, hcounts, ?_⟩
  · rw [(Session.sameTable_log _ _).completed, Engine.backpropagate_completed, hplayed.completed,
      hcompleted]
    rfl
  · rw [(Session.sameTable_log _ _).tally, Engine.backpropagate_tally, hplayed.tally]

theorem selected_lt (e : Engine) (s : Session γ σ) :
    (e.iterate s).1.selected < e.tree.size := by
  obtain ⟨-, hpassed, -⟩ := iterate_spec e s
  exact Tree.lt_size_of_mem_ancestors hpassed.below e.tree.wellFormed.nonempty

theorem expanded_lt (e : Engine) (s : Session γ σ) :
    (e.iterate s).1.expanded < e.tree.size := by
  obtain ⟨-, -, ⟨hchild, -⟩ | ⟨hstay, -⟩, -⟩ := iterate_spec e s
  · exact Tree.lt_size_of_mem_children hchild
  · rw [hstay]
    exact selected_lt e s

/-- An iteration counts one visit on the line of the node it expanded to, and a win there if the
    result is one. -/
theorem iterate_counts {e : Engine} {s : Session γ σ}
    (hsize : s.tally.entries.size = e.tree.size) :
    let r := e.iterate s
    let line := e.tree.ancestors r.1.expanded
    r.2.tally.entries.size = e.tree.size ∧
    (∀ n, r.2.tally.visits n = s.tally.visits n + if n ∈ line then 1 else 0) ∧
    ∀ n, r.2.tally.wins n =
      s.tally.wins n + if n ∈ line ∧ isWin r.1.result = true then 1 else 0 := by
  obtain ⟨-, -, -, tally, hcounts, htally⟩ := iterate_spec e s
  have hlt := expanded_lt e s
  have hnodup := e.tree.nodup_ancestors (e.iterate s).1.expanded
  have hplaces : ∀ n ∈ e.tree.ancestors (e.iterate s).1.expanded, n < tally.entries.size := by
    intro n hn
    have := Tree.le_of_mem_ancestors hn
    rw [hcounts.size, hsize]
    omega
  refine ⟨?_, fun n => ?_, fun n => ?_⟩
  · rw [htally, Tally.size_recordVisits, hcounts.size, hsize]
  · rw [htally, Tally.visits_recordVisits hnodup hplaces, hcounts.visits]
  · rw [htally, Tally.wins_recordVisits hnodup hplaces, hcounts.wins]

/-- An iteration selects a leaf or a node with a child that was not visited, provided all scores
    are numbers. -/
theorem iterate_stops {e : Engine} {s : Session γ σ}
    (hscores : ∀ c, (ucb1 e.tree s.tally e.weight c).isNaN = false) :
    e.tree.children (e.iterate s).1.selected = [] ∨
      hasUnvisited e.tree s.tally (e.iterate s).1.selected = true :=
  select_stops (s := announced s) hscores

end Mcts

end GameSearch
