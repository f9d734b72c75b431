/-
  GameSearch.Proofs.Mcts.Recommendation

  What the recommendation of a run means.  While a child of the root has no visits, selection
  stops at the root and expansion moves to such a child.  So the first iterations give one
  visit to one child of the root each, and only when all have one does any get a second.
  At the end a child without visits scores infinitely high, and the others do not.

    * `Spread`                — the visits of the children of the root after so many iterations
    * `spread_after`          — they are spread in this way at all times
    * `unvisited_of_leader`   — a child without visits comes before all others
    * `Recommended`           — the boundary between runs that are too short and the others
    * `run_recommends`        — every run is on one side of it
-/
import GameSearch.Proofs.Mcts.Runs
import GameSearch.Proofs.Mcts.Conservation

namespace GameSearch.Mcts

-- ============================================================================
-- The children of the root
-- ============================================================================

/-- How visits are spread over the children of the root after so many iterations.  The first ones
    visit a child each; once there are as many iterations as children, all were visited. -/
structure Spread (t : Tree) (tally : Tally) (completed : Nat) : Prop where
  early : completed ≤ (t.children t.root).length →
    childVisits t tally t.root = completed ∧ ∀ c ∈ t.children t.root, tally.visits c ≤ 1
  late : (t.children t.root).length ≤ completed → ∀ c ∈ t.children t.root, 0 < tally.visits c

/-- Numbers of which none is above one add up to how many of them are one. -/
theorem sum_eq_countP {xs : List Nat} {f : Nat → Nat} (h : ∀ x ∈ xs, f x ≤ 1) :
    (xs.map f).sum = xs.countP fun x => f x = 1 := by
  induction xs with
  | nil => rfl
  | cons x xs ih =>
    have hx := h x List.mem_cons_self
    have hrest := ih fun y hy => h y (List.mem_cons_of_mem x hy)
    rw [List.map_cons, List.sum_cons, List.countP_cons, hrest]
    by_cases hone : f x = 1
    · simp [hone, Nat.add_comm]
    · have hzero : f x = 0 := by omega
      simp [hzero]

namespace Spread

variable {t : Tree} {tally : Tally} {k : Nat}

theorem zero (t : Tree) : Spread t (Tally.zero t.size) 0 := by
  constructor
  · intro _
    refine ⟨?_, fun c _ => ?_⟩
    · rw [childVisits, List.map_congr_left fun c _ => Tally.visits_zero t.size c]
      simp
    · rw [Tally.visits_zero]
      exact Nat.zero_le 1
  · intro hnone c hc
    rw [List.eq_nil_of_length_eq_zero (Nat.le_zero.1 hnone)] at hc
    cases hc

theorem congr {tally' : Tally} (h : Spread t tally k) (hcounts : Tally.SameCounts tally tally') :
    Spread t tally' k := by
  constructor
  · rw [hcounts.childVisits_eq]
    simp only [hcounts.visits]
    exact h.early
  · simp only [hcounts.visits]
    exact h.late

/-- Before that, as many children have one visit as there were iterations. -/
theorem countP_eq (h : Spread t tally k) (hk : k ≤ (t.children t.root).length) :
    ((t.children t.root).countP fun c => tally.visits c = 1) = k := by
  obtain ⟨hsum, hone⟩ := h.early hk
  rw [← hsum, childVisits, sum_eq_countP hone]

/-- As long as there are fewer iterations than children, one has no visits. -/
theorem exists_unvisited (h : Spread t tally k) (hk : k < (t.children t.root).length) :
    ∃ c ∈ t.children t.root, tally.visits c = 0 := by
  obtain ⟨hsum, -⟩ := h.early (Nat.le_of_lt hk)
  by_contra hnone
  have hpos : ∀ n ∈ (t.children t.root).map tally.visits, 1 ≤ n := by
    intro n hn
    obtain ⟨c, hc, rfl⟩ := List.mem_map.1 hn
    exact Nat.pos_of_ne_zero fun hzero => hnone ⟨c, hc, hzero⟩
  have hle := List.length_le_sum_of_one_le _ hpos
  rw [List.length_map] at hle
  rw [childVisits] at hsum
  omega

/-- When there are as many, all have one. -/
theorem pos_of_countP (hcount : ((t.children t.root).countP fun c => tally.visits c = 1) =
    (t.children t.root).length) : ∀ c ∈ t.children t.root, 0 < tally.visits c := by
  intro c hc
  have hone := List.countP_eq_length.1 hcount c hc
  rw [decide_eq_true_eq] at hone
  omega

end Spread

variable {γ σ : Type} [RandomSource γ] [Sink σ] [Logarithm]

namespace Engine

variable {e : Engine} {s : Session γ σ} {k : Nat}

/-- While a child of the root has no visits, an iteration expands the root to such a child. -/
theorem expanded_of_unvisited {c : Nat} (hc : c ∈ e.tree.children e.tree.root)
    (hzero : s.tally.visits c = 0) :
    (e.iterate s).1.expanded ∈ e.tree.children e.tree.root ∧
      s.tally.visits (e.iterate s).1.expanded = 0 := by
  obtain ⟨-, hpassed, hexpanded, -⟩ := iterate_spec e s
  have hunvisited : hasUnvisited e.tree s.tally e.tree.root = true :=
    hasUnvisited_iff.2 ⟨c, hc, hzero⟩
  -- the walk does not get past the root
  have hselected : e.tree.root = (e.iterate s).1.selected := by
    by_contra hne
    have hroot := hpassed.visited e.tree.root hpassed.below (e.tree.self_mem_ancestors _) hne
    rw [hunvisited] at hroot
    cases hroot
  rw [← hselected, hunvisited] at hexpanded
  exact hexpanded.resolve_right fun h => Bool.noConfusion h.2

theorem spread_iterate (hsize : s.tally.entries.size = e.tree.size)
    (h : Spread e.tree s.tally k) : Spread e.tree (e.iterate s).2.tally (k + 1) := by
  obtain ⟨-, hvisits, -⟩ := iterate_counts hsize
  have hsum := childVisits_of_line hvisits e.tree.root
  by_cases hk : k < (e.tree.children e.tree.root).length
  · -- one more child gets its first visit
    obtain ⟨c, hc, hzero⟩ := h.exists_unvisited hk
    obtain ⟨hchild, hfresh⟩ := expanded_of_unvisited hc hzero
    obtain ⟨hbefore, hone⟩ := h.early (Nat.le_of_lt hk)
    have hroot : e.tree.root ∈ e.tree.ancestors (e.iterate s).1.expanded :=
      Tree.mem_ancestors_of_mem_children hchild
    have hne : e.tree.root ≠ (e.iterate s).1.expanded :=
      Nat.ne_of_lt (Tree.lt_of_mem_children hchild)
    rw [if_pos ⟨hroot, hne⟩, hbefore] at hsum
    have hle : ∀ d ∈ e.tree.children e.tree.root, (e.iterate s).2.tally.visits d ≤ 1 := by
      intro d hd
      rw [hvisits]
      split
      · rename_i hmem
        rw [Tree.eq_of_mem_ancestors (Tree.mem_children_iff.1 hd) (Tree.mem_children_iff.1 hchild)
          hmem (e.tree.self_mem_ancestors _), hfresh]
      · exact hone d hd
    refine ⟨fun _ => ⟨hsum, hle⟩, fun hlate => ?_⟩
    refine Spread.pos_of_countP ?_
    rw [← sum_eq_countP hle]
    show childVisits e.tree _ e.tree.root = _
    omega
  · -- all were visited before
    refine ⟨fun hearly => absurd hearly (by omega), fun _ c hc => ?_⟩
    have hpos := h.late (Nat.le_of_not_lt hk) c hc
    rw [hvisits]
    omega

theorem spread_after (hsize : s.tally.entries.size = e.tree.size) (k : Nat) :
    Spread e.tree (e.after s k).tally k := by
  induction k with
  | zero =>
    show Spread e.tree (Tally.zero s.tally.entries.size) 0
    rw [hsize]
    exact Spread.zero e.tree
  | succ k ih => exact spread_iterate (counted_after hsize k).size ih

end Engine

-- ============================================================================
-- The child that leads
-- ============================================================================

section Leaders

variable {t : Tree} {tally : Tally} {weight : Score} {i c d : Nat}

omit [RandomSource γ] [Sink σ]

/-- If a child has no visits and those with visits have finite scores, then only children without
    visits lead. -/
theorem unvisited_of_leader (hd : d ∈ t.children i) (hzero : tally.visits d = 0)
    (hfinite : ∀ x ∈ t.children i, 0 < tally.visits x →
      (ucb1 t tally weight x).isFinite = true)
    (hc : c ∈ leaders (childScores t tally weight i)) : tally.visits c = 0 := by
  by_contra hne
  have htop : ucb1 t tally weight d = Score.top := if_pos hzero
  obtain ⟨hpeak, hle⟩ := rank_le_peak (childScores t tally weight i)
  have habove := hle _ (mem_childScores hd)
  dsimp only at habove
  rw [htop] at habove
  obtain ⟨hnum, -, hbelow⟩ := Score.rank_of_isFinite
    (hfinite c (mem_children_of_leaders hc) (Nat.pos_of_ne_zero hne))
  have hsame := (Score.beq_iff_rank hnum hpeak).1 (beq_peak_of_mem_leaders hc)
  have := habove Score.isNaN_top
  omega

/-- Some child leads if those with visits have finite scores. -/
theorem leaders_childScores_ne_nil (hi : t.children i ≠ [])
    (hfinite : ∀ x ∈ t.children i, 0 < tally.visits x →
      (ucb1 t tally weight x).isFinite = true) :
    leaders (childScores t tally weight i) ≠ [] := by
  obtain ⟨c, hc⟩ := List.exists_mem_of_ne_nil _ hi
  have hnum : (ucb1 t tally weight c).isNaN = false := by
    by_cases hzero : tally.visits c = 0
    · rw [show ucb1 t tally weight c = Score.top from if_pos hzero]
      exact Score.isNaN_top
    · exact (Score.rank_of_isFinite (hfinite c hc (Nat.pos_of_ne_zero hzero))).1
  exact leaders_ne_nil (mem_childScores hc) hnum

end Leaders

/-- Without its exploration term the score of a visited child of a visited node is finite, as long
    as the counters do not overflow. -/
theorem Counted.isFinite_ucb1 [LawfulLogarithm] {t : Tree} {tally : Tally} {k p c : Nat}
    (h : Counted t tally k) (hbound : k < 2 ^ 64) (hc : c ∈ t.children p)
    (hp : 0 < tally.visits p) (hpos : 0 < tally.visits c) : (ucb1 t tally 0 c).isFinite = true := by
  have hvisits : ∀ j, tally.visits j < 2 ^ 64 := fun j =>
    Nat.lt_of_le_of_lt (h.visits_le j) hbound
  apply isFinite_ucb1_zero t hvisits (Nat.lt_of_le_of_lt (h.wins_le c) (hvisits c)) hpos
  intro q hq
  rw [Tree.mem_children_iff.1 hc] at hq
  cases hq
  exact hp

-- ============================================================================
-- Runs
-- ============================================================================

/-- What the recommendation of a result means. -/
structure Recommended (t : Tree) (r : Result) : Prop where
  /-- There is none exactly if the root is a leaf. -/
  none_iff : r.best = none ↔ t.children t.root = []
  /-- It is a child of the root with the counters of that child. -/
  reported : ∀ b, r.best = some b → b.node ∈ t.children t.root ∧ b.id = t.id b.node ∧
    b.visits = r.tally.visits b.node ∧ b.wins = r.tally.wins b.node
  /-- With as many iterations as children all children were visited, so this one was, too. -/
  settled : (t.children t.root).length ≤ r.iterations →
    (∀ c ∈ t.children t.root, 1 ≤ r.tally.visits c) ∧ ∀ b, r.best = some b → 1 ≤ b.visits
  /-- With fewer, each has given its one visit to a child of its own, and one that got none is
      recommended. -/
  early : r.iterations < (t.children t.root).length →
    ((t.children t.root).countP fun c => r.tally.visits c = 1) = r.iterations ∧
      (∀ c ∈ t.children t.root, r.tally.visits c = 0 ∨ r.tally.visits c = 1) ∧
      ∃ b, r.best = some b ∧ r.tally.visits b.node = 0 ∧ b.visits = 0 ∧ b.wins = 0 ∧ b.winRate = 0
  unvisited_iff : ∀ b, r.best = some b →
    (b.visits = 0 ↔ r.iterations < (t.children t.root).length)

namespace Engine

variable {e : Engine} {s s' : Session γ σ} {r : Result}

section Concluded

variable {tally : Tally}

/-- The children without visits come first, so none is left over by a short run. -/
theorem Concluded.visits_eq_zero (h : Concluded e tally k r) (hspread : Spread e.tree tally k)
    (hfinite : ∀ c ∈ e.tree.children e.tree.root, 0 < tally.visits c →
      (ucb1 e.tree tally 0 c).isFinite = true)
    (hk : k < (e.tree.children e.tree.root).length) {b : Recommendation}
    (hb : r.best = some b) : tally.visits b.node = 0 := by
  obtain ⟨c, hc, hzero⟩ := hspread.exists_unvisited hk
  exact unvisited_of_leader hc hzero hfinite (h.leader b hb)

theorem Concluded.one_le_visits (h : Concluded e tally k r) (hspread : Spread e.tree tally k)
    (hk : (e.tree.children e.tree.root).length ≤ k) {b : Recommendation} (hb : r.best = some b) :
    1 ≤ b.visits := by
  rw [(h.reported b hb).2.1]
  exact hspread.late hk b.node (mem_children_of_leaders (h.leader b hb))

/-- There is no recommendation exactly if there are no children. -/
theorem Concluded.none_iff (h : Concluded e tally k r)
    (hfinite : ∀ c ∈ e.tree.children e.tree.root, 0 < tally.visits c →
      (ucb1 e.tree tally 0 c).isFinite = true) :
    r.best = none ↔ e.tree.children e.tree.root = [] := by
  constructor
  · intro hnone
    by_contra hne
    exact leaders_childScores_ne_nil hne hfinite (h.leaderless hnone)
  · intro hleaf
    cases hbest : r.best with
    | none => rfl
    | some b =>
      have hmem := mem_children_of_leaders (h.leader b hbest)
      rw [hleaf] at hmem
      cases hmem

/-- A result whose visits are spread in this way recommends accordingly, if the scores of the
    children that were visited are finite. -/
theorem recommended_of_concluded (h : Concluded e tally k r) (hcounted : Counted e.tree tally k)
    (hspread : Spread e.tree tally k)
    (hfinite : ∀ c ∈ e.tree.children e.tree.root, 0 < tally.visits c →
      (ucb1 e.tree tally 0 c).isFinite = true) : Recommended e.tree r := by
  have hafter := hspread.congr h.counts
  have hcompleted := h.iterations
  subst hcompleted
  constructor
  case none_iff => exact h.none_iff hfinite
  case reported =>
    intro b hb
    obtain ⟨hid, hvisits, hwins, -⟩ := h.reported b hb
    refine ⟨mem_children_of_leaders (h.leader b hb), hid, ?_, ?_⟩
    · rw [hvisits, h.counts.visits]
    · rw [hwins, h.counts.wins]
  case settled => exact fun hk => ⟨hafter.late hk, fun b hb => h.one_le_visits hspread hk hb⟩
  case early =>
    intro hk
    refine ⟨hafter.countP_eq (Nat.le_of_lt hk), fun c hc => ?_, ?_⟩
    · have := (hafter.early (Nat.le_of_lt hk)).2 c hc
      omega
    · obtain ⟨b, hb⟩ := Option.ne_none_iff_exists'.1 fun hnone => by
        rw [(h.none_iff hfinite).1 hnone] at hk
        cases hk
      have hzero := h.visits_eq_zero hspread hfinite hk hb
      obtain ⟨-, hvisits, hwins, hrate⟩ := h.reported b hb
      have hle := hcounted.wins_le b.node
      refine ⟨b, hb, ?_, ?_, ?_, ?_⟩
      · rw [h.counts.visits, hzero]
      · rw [hvisits, hzero]
      · omega
      · rw [hrate]
        exact if_pos hzero
  case unvisited_iff =>
    intro b hb
    constructor
    · intro hzero
      by_contra hk
      have := h.one_le_visits hspread (Nat.le_of_not_lt hk) hb
      omega
    · intro hk
      rw [(h.reported b hb).2.1]
      exact h.visits_eq_zero hspread hfinite hk hb

end Concluded

/-- Every run, of all iterations or stopped by a predicate, whatever was done before, recommends
    an unvisited child exactly if it made fewer iterations than the root has children, and none
    exactly if the root is a leaf.  The score of a visited child of a visited root, without its
    exploration term, is taken to be finite. -/
theorem run_recommends (e : Engine) (source : γ) (channel : Channel σ) (ops : List (Op γ σ))
    (r : Result) (s' : Session γ σ) (h : e.Runs (e.perform ops (e.start source channel)) r s')
    (hfinite : ∀ c ∈ e.tree.children e.tree.root, 0 < r.tally.visits e.tree.root →
      0 < r.tally.visits c → (ucb1 e.tree r.tally 0 c).isFinite = true) :
    Recommended e.tree r := by
  have hsize := e.size_perform source channel ops
  obtain ⟨k, -, hconcluded, -⟩ := h.concluded
  have hcounts := hconcluded.counts
  have hcounted := counted_after hsize k
  refine recommended_of_concluded hconcluded hcounted (spread_after hsize k) fun c hc hpos => ?_
  rw [← hcounts.ucb1_eq]
  apply hfinite c hc
  · -- no node has more visits than there were iterations, and the root has as many
    rw [hcounts.visits, hcounted.root]
    exact Nat.lt_of_lt_of_le hpos (hcounted.visits_le c)
  · rw [hcounts.visits]
    exact hpos

/-- That is so at the end of every run of an engine that makes fewer than 2^64 iterations. -/
theorem Runs.isFinite_ucb1 [LawfulLogarithm] (h : e.Runs s r s')
    (hsize : s.tally.entries.size = e.tree.size) (hbound : e.iterations < 2 ^ 64) :
    ∀ c ∈ e.tree.children e.tree.root, 0 < r.tally.visits e.tree.root → 0 < r.tally.visits c →
      (ucb1 e.tree r.tally 0 c).isFinite = true := by
  obtain ⟨k, hle, hconcluded, -⟩ := h.concluded
  have hcounted := (counted_after hsize k).congr hconcluded.counts
  intro c hc hroot hpos
  exact hcounted.isFinite_ucb1 (Nat.lt_of_le_of_lt hle hbound) hc hroot hpos

omit [RandomSource γ] [Sink σ] [Logarithm] in
/-- Two runs of the small engine, with the logarithm of a table.  The one makes all its ten
    iterations; the other is stopped after one, with one child of the root not visited. -/
theorem run_recommends_small :
    let r := (@run _ _ _ _ shortLogarithm small smallStart).1
    let stopped := @runWhile _ _ _ _ shortLogarithm _ small (fun k _ u => (decide (k < 1), u)) ()
      smallStart
    (@Runs _ _ _ _ shortLogarithm small (@perform _ _ _ _ shortLogarithm small [] smallStart) r
        (@run _ _ _ _ shortLogarithm small smallStart).2 ∧
      (∀ c ∈ Tree.small.children Tree.small.root, 0 < r.tally.visits Tree.small.root →
        0 < r.tally.visits c → (@ucb1 shortLogarithm Tree.small r.tally 0 c).isFinite = true) ∧
      Recommended Tree.small r) ∧
    (@Runs _ _ _ _ shortLogarithm small (@perform _ _ _ _ shortLogarithm small [] smallStart)
        stopped.1 stopped.2.2 ∧
      (∀ c ∈ Tree.small.children Tree.small.root, 0 < stopped.1.tally.visits Tree.small.root →
        0 < stopped.1.tally.visits c →
          (@ucb1 shortLogarithm Tree.small stopped.1.tally 0 c).isFinite = true) ∧
      stopped.1.iterations = 1 ∧ (Tree.small.children Tree.small.root).length = 2 ∧
      Recommended Tree.small stopped.1) := by
  intro r stopped
  have hbound : small.iterations < 2 ^ 64 := by decide
  have hsize := @size_perform _ _ _ _ shortLogarithm small (Random.Generator.ofSeed 7)
    ⟨NullSink.mk, Journal.silent⟩ []
  have hruns := @Runs.run _ _ _ _ shortLogarithm small smallStart
  have hruns' := @Runs.runWhile _ _ _ _ shortLogarithm small smallStart _
    (fun k _ u => (decide (k < 1), u)) ()
  have hfinite := @Runs.isFinite_ucb1 _ _ _ _ shortLogarithm _ _ _ _ lawful_shortLogarithm hruns
    hsize hbound
  have hfinite' := @Runs.isFinite_ucb1 _ _ _ _ shortLogarithm _ _ _ _ lawful_shortLogarithm hruns'
    hsize hbound
  have hiterations : stopped.1.iterations = 1 :=
    @iterations_runWhile _ _ _ _ shortLogarithm _ small _ () smallStart
  exact ⟨⟨hruns, hfinite, @run_recommends _ _ _ _ shortLogarithm small _ _ [] _ _ hruns hfinite⟩,
    hruns', hfinite', hiterations, rfl,
    @run_recommends _ _ _ _ shortLogarithm small _ _ [] _ _ hruns' hfinite'⟩

end Engine

end GameSearch.Mcts
