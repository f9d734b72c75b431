/-
  GameSearch.Proofs.Mcts.BestChild

  The choice among the children of a node.  It draws from the children that no other child
  outdoes, whatever the counters: infinite scores tie, both zeros are equal, and a score that is
  not a number neither leads nor stands in the way.  Afterwards the scores of all children are
  kept, and no other entry of the table has changed.

    * `Tops`               — a child that no other child outdoes
    * `leaders_childScores` — these are the children that lead
    * `score_bestChild`    — the scores that are kept
    * `Choice`             — what a choice delivers and what it changes
    * `bestChild_chooses`  — the choice, from any table
-/
import GameSearch.Proofs.Mcts.Recommendation

namespace GameSearch.Mcts

open Score

-- ============================================================================
-- Scores that no other score exceeds
-- ============================================================================

/-- The greatest score is among the scores, unless none is above the lowest of all. -/
theorem peak_attained (scores : List (Nat × Score)) :
    peak scores = bottom ∨ ∃ x ∈ scores, x.2 = peak scores :=
  (foldl_larger scores isNaN_bottom).2.2.2

/-- A score equals the greatest one exactly if it is a number and no other score is above it. -/
theorem beq_peak_iff {scores : List (Nat × Score)} {x : Nat × Score} (hx : x ∈ scores) :
    (x.2 == peak scores) = true ↔ x.2.isNaN = false ∧ ∀ y ∈ scores, ¬ x.2 < y.2 := by
  obtain ⟨hpeak, hle⟩ := rank_le_peak scores
  constructor
  · intro hbeq
    have hnum := (isNaN_of_beq hbeq).1
    refine ⟨hnum, fun y hy hlt => ?_⟩
    have hy' := (isNaN_of_lt hlt).2
    have hrank := (beq_iff_rank hnum hpeak).1 hbeq
    have habove := (lt_iff_rank hnum hy').1 hlt
    have hbound := hle y hy hy'
    omega
  · rintro ⟨hnum, hmax⟩
    refine (beq_iff_rank hnum hpeak).2 (Int.le_antisymm (hle x hx hnum) ?_)
    rcases peak_attained scores with hbottom | ⟨y, hy, hattained⟩
    · rw [hbottom]
      exact rank_bottom_le x.2
    · have hy' : y.2.isNaN = false := by
        rw [hattained]
        exact hpeak
      have hnot := mt (lt_iff_rank hnum hy').2 (hmax y hy)
      rw [← hattained]
      omega

section

variable [Logarithm]

/-- A child of the node with a score that is a number and not exceeded by that of another child. -/
def Tops (t : Tree) (tally : Tally) (weight : Score) (i c : Nat) : Prop :=
  c ∈ t.children i ∧ (ucb1 t tally weight c).isNaN = false ∧
    ∀ d ∈ t.children i, ¬ ucb1 t tally weight c < ucb1 t tally weight d

instance (t : Tree) (tally : Tally) (weight : Score) (i c : Nat) :
    Decidable (Tops t tally weight i c) := inferInstanceAs (Decidable (_ ∧ _ ∧ _))

variable {t : Tree} {tally tally' : Tally} {weight : Score} {i c : Nat}

/-- Which children these are does not depend on the kept scores. -/
theorem Tally.SameCounts.tops_iff (h : Tally.SameCounts tally tally') :
    Tops t tally' weight i c ↔ Tops t tally weight i c := by
  unfold Tops
  simp only [h.ucb1_eq]

/-- The children that lead, in order. -/
theorem leaders_childScores :
    leaders (childScores t tally weight i) =
      (t.children i).filter fun c => Tops t tally weight i c := by
  have hscores : ∀ c ∈ t.children i,
      (ucb1 t tally weight c == peak (childScores t tally weight i)) =
        decide (Tops t tally weight i c) := by
    intro c hc
    rw [Bool.eq_iff_iff, decide_eq_true_iff, beq_peak_iff (mem_childScores hc), childScores]
    simp only [List.forall_mem_map]
    exact (and_iff_right hc).symm
  have hfilter : leaders (childScores t tally weight i) = (t.children i).filter fun c =>
      ucb1 t tally weight c == peak (childScores t tally weight i) := by
    rw [leaders]
    conv_lhs => rw [childScores, List.filter_map, List.map_map]
    exact List.map_id _
  rw [hfilter]
  exact List.filter_congr hscores

end

-- ============================================================================
-- Kept scores
-- ============================================================================

/-- Scores are kept at their own places only. -/
theorem entry_keepScores_of_not_mem {scores : List (Nat × Score)} {n : Nat}
    (hn : n ∉ scores.map (·.1)) (tally : Tally) :
    (keepScores scores tally).entry n = tally.entry n := by
  induction scores using List.reverseRecOn with
  | nil => rfl
  | append_singleton scores x ih =>
    rw [List.map_append, List.mem_append, not_or, List.map_singleton, List.mem_singleton] at hn
    rw [keepScores_concat, Tally.keepScore, Tally.entry_modify, if_neg fun h => hn.2 h.1.symm]
    exact ih hn.1

/-- They are kept at all these places, as far as the table goes. -/
theorem score_keepScores {places : List Nat} {n : Nat} (hn : n ∈ places) (f : Nat → Score)
    {tally : Tally} (hsize : n < tally.entries.size) :
    (keepScores (places.map fun c => (c, f c)) tally).score n = f n := by
  induction places using List.reverseRecOn with
  | nil => cases hn
  | append_singleton places c ih =>
    rw [List.map_append, List.map_singleton, keepScores_concat, Tally.score, Tally.keepScore,
      Tally.entry_modify, (sameCounts_keepScores _ tally).size]
    by_cases hc : c = n
    · rw [if_pos ⟨hc, hc ▸ hsize⟩, hc]
    · rw [if_neg fun h => hc h.1]
      refine ih ((List.mem_append.1 hn).resolve_right fun h => ?_)
      exact hc (List.mem_singleton.1 h).symm

-- ============================================================================
-- The choice
-- ============================================================================

variable {γ σ : Type} [RandomSource γ] [Logarithm]

section

variable {t : Tree} {weight : Score} {i c : Nat} {score : Score} {s : Session γ σ}

/-- A child that is drawn is not outdone. -/
theorem tops_of_bestChild (h : (bestChild t weight i s).1 = some (c, score)) :
    Tops t s.tally weight i c := by
  rw [bestChild_fst] at h
  obtain ⟨d, hd, hpair⟩ := Option.map_eq_some_iff.1 h
  obtain rfl : d = c := congrArg Prod.fst hpair
  have hmem : d ∈ leaders (childScores t s.tally weight i) := RandomSource.mem_of_choose hd
  rw [leaders_childScores] at hmem
  exact of_decide_eq_true (List.mem_filter.1 hmem).2

/-- The scores of all children are kept. -/
theorem score_bestChild (hsize : s.tally.entries.size = t.size) (hc : c ∈ t.children i) :
    (bestChild t weight i s).2.tally.score c = ucb1 t s.tally weight c := by
  rw [tally_bestChild]
  exact score_keepScores hc (ucb1 t s.tally weight) (hsize ▸ Tree.lt_size_of_mem_children hc)

/-- Nothing changes in the table elsewhere. -/
theorem entry_bestChild_of_not_mem (hc : c ∉ t.children i) :
    (bestChild t weight i s).2.tally.entry c = s.tally.entry c := by
  rw [← map_fst_childScores t s.tally weight i] at hc
  rw [tally_bestChild]
  exact entry_keepScores_of_not_mem hc s.tally

end

/-- What a choice among the children of a node delivers and what it changes.  It draws from the
    list `drawn` of children with the score `best`. -/
structure Choice (t : Tree) (weight : Score) (i : Nat) (s : Session γ σ) (drawn : List Nat)
    (best : Score) (r : Option (Nat × Score) × Session γ σ) : Prop where
  /-- The draw is among the children that no other child outdoes, in order. -/
  drawn_eq : drawn = (t.children i).filter fun c => Tops t s.tally weight i c
  nodup : drawn.Nodup
  /-- Their score is the greatest one. -/
  greatest : (∀ c ∈ drawn, (ucb1 t s.tally weight c == best) = true) ∧
    ∀ c ∈ t.children i, ¬ best < ucb1 t s.tally weight c
  draw : r.1 = (RandomSource.choose drawn s.source).1.map (·, best) ∧
    r.2.source = (RandomSource.choose drawn s.source).2
  none_iff : r.1 = none ↔ drawn = []
  /-- If all scores are numbers, nothing is drawn only at a leaf. -/
  none_iff_leaf : (∀ c ∈ t.children i, (ucb1 t s.tally weight c).isNaN = false) →
    (r.1 = none ↔ t.children i = [])
  mem_drawn : ∀ c score, r.1 = some (c, score) → c ∈ drawn ∧ score = best
  /-- The scores of all children are kept, and nothing else changes in the table. -/
  kept : ∀ c ∈ t.children i, r.2.tally.score c = ucb1 t s.tally weight c
  counts : s.SameCounts r.2
  others : ∀ n, n ∉ t.children i → r.2.tally.entry n = s.tally.entry n
  channel : r.2.channel = s.channel
  /-- One pass over the children finds the same. -/
  pass : survey t s.tally weight (t.children i) = ⟨r.2.tally, best, drawn⟩
  /-- However far a pass has come, all scores are still what they were. -/
  steady : ∀ seen n,
    ucb1 t (survey t s.tally weight seen).tally weight n = ucb1 t s.tally weight n

/-- The choice among the children of any node, whatever the table holds. -/
theorem bestChild_chooses (t : Tree) (weight : Score) (i : Nat) (s : Session γ σ)
    (hsize : s.tally.entries.size = t.size) :
    ∃ drawn best, Choice t weight i s drawn best (bestChild t weight i s) := by
  refine ⟨leaders (childScores t s.tally weight i), peak (childScores t s.tally weight i), ?_⟩
  have hnone : (bestChild t weight i s).1 = none ↔
      leaders (childScores t s.tally weight i) = [] := by
    rw [bestChild_fst]
    refine Option.map_eq_none_iff.trans ⟨fun hchoice => ?_, fun hnil => ?_⟩
    · by_contra hne
      exact RandomSource.choose_ne_none hne hchoice
    · show (RandomSource.choose (leaders (childScores t s.tally weight i)) s.source).1 = none
      rw [hnil]
      rfl
  constructor
  case drawn_eq => exact leaders_childScores
  case nodup =>
    rw [leaders_childScores]
    exact (t.nodup_children i).filter _
  case greatest =>
    obtain ⟨hpeak, hle⟩ := rank_le_peak (childScores t s.tally weight i)
    refine ⟨fun c hc => beq_peak_of_mem_leaders hc, fun c hc hlt => ?_⟩
    have hnum := (isNaN_of_lt hlt).2
    have habove := (lt_iff_rank hpeak hnum).1 hlt
    have hbound := hle _ (mem_childScores hc) hnum
    dsimp only at hbound
    omega
  case draw =>
    rw [bestChild_eq]
    exact ⟨rfl, rfl⟩
  case none_iff => exact hnone
  case none_iff_leaf =>
    intro hscores
    constructor
    · intro hnil
      refine List.eq_nil_iff_forall_not_mem.2 fun c hc => ?_
      have hnan := isNaN_of_bestChild_none hnil hc
      rw [hscores c hc] at hnan
      cases hnan
    · intro hleaf
      rw [hnone, leaders_childScores, hleaf]
      rfl
  case mem_drawn =>
    intro c score hsome
    rw [bestChild_fst] at hsome
    obtain ⟨d, hd, hpair⟩ := Option.map_eq_some_iff.1 hsome
    cases hpair
    exact ⟨RandomSource.mem_of_choose hd, rfl⟩
  case kept => exact fun c hc => score_bestChild hsize hc
  case counts => exact sameCounts_bestChild t weight i s
  case others => exact fun n hn => entry_bestChild_of_not_mem hn
  case channel => rfl
  case pass =>
    rw [survey_eq, tally_bestChild]
    rfl
  case steady =>
    intro seen n
    rw [survey_eq]
    exact (sameCounts_keepScores _ s.tally).ucb1_eq t weight n

omit [RandomSource γ] [Logarithm] in
/-- A table that was not filled by a search: a node has more wins than visits, and its children
    were visited while it was not. -/
theorem bestChild_chooses_small :
    let tally : Tally := ⟨#[⟨0, 3, 1⟩, ⟨4, 9, 0⟩, ⟨2, 0, bottom⟩, ⟨1, 0, 0⟩, ⟨0, 2, top⟩, ⟨7, 7, 5⟩,
      ⟨7, 7, -5⟩]⟩
    let s : Session Random.Generator NullSink := { Engine.smallStart with tally := tally }
    s.tally.entries.size = Tree.small.size ∧
      ∃ drawn best, @Choice _ _ _ shortLogarithm Tree.small 1.4 0 s drawn best
        (@bestChild _ _ _ shortLogarithm Tree.small 1.4 0 s) := by
  let := shortLogarithm
  intro tally s
  have hsize : s.tally.entries.size = Tree.small.size := rfl
  exact ⟨hsize, bestChild_chooses Tree.small 1.4 0 s hsize⟩

end GameSearch.Mcts
