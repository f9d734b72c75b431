/-
  GameSearch.Proofs.Mcts.Survey

  What the pass over the children comes to.  It reads a score, keeps it, and goes on with the
  table it has just written; but no score depends on the kept ones, so all scores are
  those of the table before the pass.  In the end the leaders are the children with the
  greatest of these scores, infinite scores tie, and scores that are not numbers do not count.

    * `childScores`, `peak`, `leaders`, `keepScores` — scores, the greatest, who has it
    * `leaders_concat`, `leaders_ne_nil` — who leads after one more score, and that some node does
    * `survey_eq`      — what the pass has found and kept at its end
    * `bestChild_eq`   — so the choice is among the children with the greatest score
-/
import GameSearch.Proofs.Mcts.Counters
import GameSearch.Proofs.Score.Order

namespace GameSearch.Mcts

open Score

/-- The children of a node with their scores, in order. -/
def childScores [Logarithm] (t : Tree) (tally : Tally) (weight : Score) (i : Nat) :
    List (Nat × Score) :=
  (t.children i).map fun c => (c, ucb1 t tally weight c)

/-- The greatest of some scores; scores that are not numbers do not count. -/
def peak (scores : List (Nat × Score)) : Score :=
  scores.foldl (fun best x => best.larger x.2) Score.bottom

/-- The nodes with the greatest score. -/
def leaders (scores : List (Nat × Score)) : List Nat :=
  (scores.filter fun x => x.2 == peak scores).map (·.1)

/-- A table in which the given scores are kept. -/
def keepScores (scores : List (Nat × Score)) (tally : Tally) : Tally :=
  scores.foldl (fun tally x => tally.keepScore x.1 x.2) tally

-- ============================================================================
-- The greatest score
-- ============================================================================

theorem isNaN_larger {x y : Score} (hx : x.isNaN = false) : (larger x y).isNaN = false := by
  unfold larger
  split
  · rename_i hlt
    exact (isNaN_of_lt hlt).2
  · exact hx

theorem rank_le_larger {x y : Score} (hx : x.isNaN = false) : x.rank ≤ (larger x y).rank := by
  unfold larger
  split
  · rename_i hlt
    have := (lt_iff_rank hx (isNaN_of_lt hlt).2).1 hlt
    omega
  · omega

theorem rank_le_larger_right {x y : Score} (hx : x.isNaN = false) (hy : y.isNaN = false) :
    y.rank ≤ (larger x y).rank := by
  unfold larger
  split
  · omega
  · rename_i hlt
    have := mt (lt_iff_rank hx hy).2 hlt
    omega

/-- The greatest score so far is a number, no score is above it, and it is the first one or
    one of the scores. -/
theorem foldl_larger (scores : List (Nat × Score)) {x : Score} (hx : x.isNaN = false) :
    let best := scores.foldl (fun best y => best.larger y.2) x
    best.isNaN = false ∧ x.rank ≤ best.rank ∧
    (∀ y ∈ scores, y.2.isNaN = false → y.2.rank ≤ best.rank) ∧
    (best = x ∨ ∃ y ∈ scores, y.2 = best) := by
  induction scores generalizing x with
  | nil => exact ⟨hx, Int.le_refl _, fun y hy => absurd hy List.not_mem_nil, .inl rfl⟩
  | cons z scores ih =>
    obtain ⟨hnum, hfirst, hrest, hfrom⟩ := ih (isNaN_larger (y := z.2) hx)
    have hxz : x.rank ≤ (larger x z.2).rank := rank_le_larger hx
    refine ⟨hnum, Int.le_trans hxz hfirst, fun y hy hy' => ?_, ?_⟩
    · rcases List.mem_cons.1 hy with rfl | hy
      · exact Int.le_trans (rank_le_larger_right hx hy') hfirst
      · exact hrest y hy hy'
    · rcases hfrom with hfrom | ⟨y, hy, hfrom⟩
      · rw [List.foldl_cons, hfrom]
        unfold larger
        split
        · exact .inr ⟨z, List.mem_cons_self, rfl⟩
        · exact .inl rfl
      · exact .inr ⟨y, List.mem_cons_of_mem _ hy, hfrom⟩

/-- Some node leads if one of the scores is a number. -/
theorem leaders_ne_nil {scores : List (Nat × Score)} {x : Nat × Score} (hx : x ∈ scores)
    (hnum : x.2.isNaN = false) : leaders scores ≠ [] := by
  obtain ⟨hpeak, -, hle, hfrom⟩ := foldl_larger scores isNaN_bottom
  have hmem : ∀ y ∈ scores, y.2.isNaN = false → y.2.rank = (peak scores).rank →
      leaders scores ≠ [] := by
    intro y hy hy' hrank
    refine List.ne_nil_of_mem (List.mem_map_of_mem (List.mem_filter.2 ⟨hy, ?_⟩))
    exact (beq_iff_rank hy' hpeak).2 hrank
  rcases hfrom with hbottom | ⟨y, hy, hattained⟩
  -- nothing is above the lowest score, so all numbers among the scores are equal to it
  · refine hmem x hx hnum ?_
    have hlow := rank_bottom_le x.2
    have hhigh : x.2.rank ≤ (peak scores).rank := hle x hx hnum
    have hpeak' : (peak scores).rank = bottom.rank := congrArg rank hbottom
    omega
  · refine hmem y hy ?_ (congrArg rank hattained)
    rw [hattained]
    exact hpeak

/-- The greatest score is a number, and no other number among the scores is above it. -/
theorem rank_le_peak (scores : List (Nat × Score)) :
    (peak scores).isNaN = false ∧
      ∀ x ∈ scores, x.2.isNaN = false → x.2.rank ≤ (peak scores).rank := by
  obtain ⟨hnum, -, hle, -⟩ := foldl_larger scores Score.isNaN_bottom
  exact ⟨hnum, hle⟩

theorem peak_concat (scores : List (Nat × Score)) (x : Nat × Score) :
    peak (scores ++ [x]) = (peak scores).larger x.2 := by
  rw [peak, peak, List.foldl_concat]

theorem keepScores_concat (scores : List (Nat × Score)) (x : Nat × Score) (tally : Tally) :
    keepScores (scores ++ [x]) tally = (keepScores scores tally).keepScore x.1 x.2 := by
  rw [keepScores, keepScores, List.foldl_concat]

/-- Who leads after one more score. -/
theorem leaders_concat (scores : List (Nat × Score)) (x : Nat × Score) :
    leaders (scores ++ [x]) =
      if peak scores < x.2 then [x.1]
      else if x.2 == peak scores then leaders scores ++ [x.1] else leaders scores := by
  obtain ⟨hpeak, hle⟩ := rank_le_peak scores
  rw [leaders, peak_concat, List.filter_append, List.map_append, larger]
  split
  · rename_i hlt
    have hx := (isNaN_of_lt hlt).2
    -- none of the scores so far is as great as the new one
    have hnone : scores.filter (fun y => y.2 == x.2) = [] := by
      refine List.filter_eq_nil_iff.2 fun y hy hbeq => ?_
      have hy' := (isNaN_of_beq hbeq).1
      have hbound := hle y hy hy'
      have hsame := (beq_iff_rank hy' hx).1 hbeq
      have habove := (lt_iff_rank hpeak hx).1 hlt
      omega
    have hself : (x.2 == x.2) = true := (beq_iff_rank hx hx).2 rfl
    simp only [hnone, hself, List.filter_cons_of_pos, List.filter_nil, List.map_nil,
      List.nil_append, List.map_cons]
  · cases hbeq : x.2 == peak scores
    · simp [leaders, hbeq]
    · simp [leaders, hbeq]

-- ============================================================================
-- Scores of children
-- ============================================================================

theorem sameCounts_keepScores (scores : List (Nat × Score)) (tally : Tally) :
    Tally.SameCounts tally (keepScores scores tally) := by
  induction scores generalizing tally with
  | nil => exact Tally.SameCounts.refl tally
  | cons x scores ih => exact (Tally.sameCounts_keepScore tally x.1 x.2).trans (ih _)

section

variable [Logarithm] {t : Tree} {tally tally' : Tally} {weight : Score} {i c : Nat}

/-- Scores do not depend on the scores that were kept. -/
theorem Tally.SameCounts.ucb1_eq (h : Tally.SameCounts tally tally') (t : Tree)
    (weight : Score) (i : Nat) : ucb1 t tally' weight i = ucb1 t tally weight i := by
  unfold ucb1
  simp only [h.visits, h.wins]

/-- Every child is scored. -/
theorem mem_childScores (hc : c ∈ t.children i) :
    (c, ucb1 t tally weight c) ∈ childScores t tally weight i :=
  List.mem_map_of_mem hc

/-- The nodes that are scored are the children. -/
theorem map_fst_childScores (t : Tree) (tally : Tally) (weight : Score) (i : Nat) :
    (childScores t tally weight i).map (·.1) = t.children i := by
  rw [childScores, List.map_map]
  exact List.map_id _

theorem mem_children_of_leaders (h : c ∈ leaders (childScores t tally weight i)) :
    c ∈ t.children i := by
  rw [← map_fst_childScores t tally weight i]
  obtain ⟨x, hx, rfl⟩ := List.mem_map.1 h
  exact List.mem_map_of_mem (List.mem_filter.1 hx).1

/-- The score of a child that leads is the greatest one. -/
theorem beq_peak_of_mem_leaders (h : c ∈ leaders (childScores t tally weight i)) :
    (ucb1 t tally weight c == peak (childScores t tally weight i)) = true := by
  obtain ⟨x, hx, rfl⟩ := List.mem_map.1 h
  obtain ⟨hmem, hbeq⟩ := List.mem_filter.1 hx
  obtain ⟨d, -, rfl⟩ := List.mem_map.1 hmem
  exact hbeq

-- ============================================================================
-- The pass
-- ============================================================================

/-- After a pass the table keeps the scores that the children had before it, and the leaders are
    those among these scores. -/
theorem survey_eq (t : Tree) (tally : Tally) (weight : Score) (places : List Nat) :
    survey t tally weight places =
      let scores := places.map fun c => (c, ucb1 t tally weight c)
      ⟨keepScores scores tally, peak scores, leaders scores⟩ := by
  induction places using List.reverseRecOn with
  | nil => rfl
  | append_singleton places c ih =>
    have hpass : survey t tally weight (places ++ [c]) =
        (survey t tally weight places).visit t weight c := by
      rw [survey, survey, List.foldl_concat]
    have hscore := (sameCounts_keepScores
      (places.map fun c => (c, ucb1 t tally weight c)) tally).ucb1_eq t weight c
    rw [hpass, ih, Survey.visit, Survey.add]
    dsimp only
    rw [hscore, List.map_append, List.map_singleton, keepScores_concat, peak_concat,
      leaders_concat, larger]
    dsimp only
    split
    · rfl
    · split <;> rfl

variable {γ σ : Type} [RandomSource γ]

/-- The choice among the children of a node, by their scores before it. -/
theorem bestChild_eq (t : Tree) (weight : Score) (i : Nat) (s : Session γ σ) :
    bestChild t weight i s =
      let scores := childScores t s.tally weight i
      let drawn := { s with tally := keepScores scores s.tally }.choose (leaders scores)
      (drawn.1.map (·, peak scores), drawn.2) := by
  rw [bestChild, survey_eq]
  rfl

/-- It draws from the children that lead. -/
theorem bestChild_fst (t : Tree) (weight : Score) (i : Nat) (s : Session γ σ) :
    (bestChild t weight i s).1 =
      (RandomSource.choose (leaders (childScores t s.tally weight i)) s.source).1.map
        (·, peak (childScores t s.tally weight i)) := by
  rw [bestChild_eq]
  rfl

/-- The table keeps the scores of the children. -/
theorem tally_bestChild (t : Tree) (weight : Score) (i : Nat) (s : Session γ σ) :
    (bestChild t weight i s).2.tally = keepScores (childScores t s.tally weight i) s.tally := by
  rw [bestChild_eq]
  rfl

end

end GameSearch.Mcts
