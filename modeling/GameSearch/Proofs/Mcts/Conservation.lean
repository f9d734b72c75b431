/-
  GameSearch.Proofs.Mcts.Conservation

  Visits are conserved.  Every iteration counts one line from the root down, so what is
  counted at a node is counted at one of its children or is the one time that the node
  itself was played from.  The second happens once for an internal node, as selection
  never passes a node while a child of it was not visited.

    * `Conserved`           — the law, as a statement about the counters
    * `Landing`             — where an iteration may count
    * `Conserved.record`    — counting there keeps the law
    * `perform_conserves`   — the law holds after every sequence of operations
-/
import Mathlib.Algebra.Order.BigOperators.Group.List
import Mathlib.Algebra.Order.Group.Nat
import GameSearch.Proofs.Mcts.Operations
import GameSearch.Proofs.Mcts.Ucb

namespace GameSearch.Mcts

/-- The visits of the children of a node, taken together. -/
def childVisits (t : Tree) (tally : Tally) (i : Nat) : Nat :=
  ((t.children i).map tally.visits).sum

/-- The law of the counters after so many iterations. -/
structure Conserved (t : Tree) (tally : Tally) (completed : Nat) : Prop where
  root : tally.visits t.root = completed
  root_sum : t.children t.root ≠ [] → tally.visits t.root = childVisits t tally t.root
  /-- One visit of an internal node was not passed on to a child. -/
  inner_sum : ∀ i, i ≠ t.root → t.children i ≠ [] → 0 < tally.visits i →
    tally.visits i = 1 + childVisits t tally i
  below : ∀ i j, tally.visits i = 0 → i ∈ t.ancestors j → tally.visits j = 0
  /-- No node is visited twice before all its siblings were visited once. -/
  siblings : ∀ p, ∀ i ∈ t.children p, 2 ≤ tally.visits i →
    ∀ j ∈ t.children p, 1 ≤ tally.visits j

variable {t : Tree} {tally tally' : Tally} {completed i j y : Nat}

theorem Tally.SameCounts.childVisits_eq (h : Tally.SameCounts tally tally') (t : Tree) (i : Nat) :
    childVisits t tally' i = childVisits t tally i := by
  unfold childVisits
  rw [List.map_congr_left fun c _ => h.visits c]

theorem Conserved.congr (h : Conserved t tally completed)
    (hcounts : Tally.SameCounts tally tally') : Conserved t tally' completed := by
  constructor
  · rw [hcounts.visits]
    exact h.root
  · rw [hcounts.visits, hcounts.childVisits_eq]
    exact h.root_sum
  · intro i
    rw [hcounts.visits, hcounts.childVisits_eq]
    exact h.inner_sum i
  · intro i j
    rw [hcounts.visits, hcounts.visits]
    exact h.below i j
  · intro p i hi
    simp only [hcounts.visits]
    exact h.siblings p i hi

theorem conserved_zero (t : Tree) (size : Nat) : Conserved t (Tally.zero size) 0 := by
  have hzero : ∀ i, (Tally.zero size).visits i = 0 := Tally.visits_zero size
  have hsum : ∀ i, childVisits t (Tally.zero size) i = 0 := by
    intro i
    unfold childVisits
    rw [List.map_congr_left fun c _ => hzero c]
    simp
  constructor
  · exact hzero _
  · intro _
    rw [hzero, hsum]
  · intro i _ _ hpos
    rw [hzero] at hpos
    omega
  · exact fun _ j _ _ => hzero j
  · intro p i _ htwo
    rw [hzero] at htwo
    omega

-- ============================================================================
-- No node has more visits than there were iterations
-- ============================================================================

theorem Conserved.visits_le_parent (h : Conserved t tally completed) {p c : Nat}
    (hc : c ∈ t.children p) : tally.visits c ≤ tally.visits p := by
  have hle : tally.visits c ≤ childVisits t tally p :=
    List.le_sum_of_mem (List.mem_map_of_mem hc)
  have hne : t.children p ≠ [] := List.ne_nil_of_mem hc
  by_cases hp : tally.visits p = 0
  · have := h.below p c hp (Tree.mem_ancestors_of_mem_children hc)
    omega
  · by_cases hroot : p = t.root
    · rw [hroot] at hle hne ⊢
      have := h.root_sum hne
      omega
    · have := h.inner_sum p hroot hne (Nat.pos_of_ne_zero hp)
      omega

theorem Conserved.visits_le (h : Conserved t tally completed) (hsize : tally.entries.size = t.size)
    (i : Nat) : tally.visits i ≤ completed := by
  induction i using Tree.parentInduction (t := t) with
  | top i hi =>
    by_cases hlt : i < t.size
    · -- the only node without a parent is the root
      have hroot : i = t.root := by
        refine Nat.eq_zero_of_not_pos fun hpos => ?_
        exact t.wellFormed.has_parent i hpos hlt hi
      rw [hroot, h.root]
    · have hzero : tally.visits i = 0 := Tally.visits_of_size_le (by omega)
      omega
  | step i p hi ih => exact Nat.le_trans (h.visits_le_parent (Tree.mem_children_iff.2 hi)) ih

-- ============================================================================
-- One line is counted
-- ============================================================================

/-- A node from which an iteration may count.  It is a leaf or was not visited yet; and where
    the line up to the root meets a node that was visited, the siblings were visited too. -/
structure Landing (t : Tree) (tally : Tally) (y : Nat) : Prop where
  inTree : y < t.size
  fresh : t.children y ≠ [] → y ≠ t.root ∧ tally.visits y = 0
  siblings : ∀ p, ∀ i ∈ t.children p, i ∈ t.ancestors y → i ≠ y ∨ 0 < tally.visits i →
    ∀ j ∈ t.children p, 0 < tally.visits j

/-- If a function grows by one at one element of a list, so does the sum. -/
theorem sum_map_add_one {f g : Nat → Nat} {c : Nat} {cs : List Nat} (hnodup : cs.Nodup)
    (hc : c ∈ cs) (hself : g c = f c + 1) (hother : ∀ d ∈ cs, d ≠ c → g d = f d) :
    (cs.map g).sum = (cs.map f).sum + 1 := by
  induction cs with
  | nil => exact absurd hc List.not_mem_nil
  | cons d cs ih =>
    obtain ⟨hd, hnodup⟩ := List.nodup_cons.1 hnodup
    simp only [List.map_cons, List.sum_cons]
    rcases List.mem_cons.1 hc with rfl | hc
    · have hrest : cs.map g = cs.map f := by
        refine List.map_congr_left fun d hmem => hother d (List.mem_cons_of_mem _ hmem) ?_
        rintro rfl
        exact hd hmem
      rw [hself, hrest]
      omega
    · have hdc : d ≠ c := by
        rintro rfl
        exact hd hc
      rw [hother d List.mem_cons_self hdc,
        ih hnodup hc fun d hmem => hother d (List.mem_cons_of_mem _ hmem)]
      omega

/-- A line that goes on below a node is counted at one of its children, any other line at none. -/
theorem childVisits_of_line (hline : ∀ n, tally'.visits n =
    tally.visits n + if n ∈ t.ancestors y then 1 else 0) (i : Nat) :
    childVisits t tally' i =
      childVisits t tally i + if i ∈ t.ancestors y ∧ i ≠ y then 1 else 0 := by
  split
  · rename_i h
    obtain ⟨c, hc, hcy⟩ := Tree.exists_child_mem_ancestors h.1 h.2
    refine sum_map_add_one (t.nodup_children i) hc ?_ fun d hd hdc => ?_
    · rw [hline, if_pos hcy]
    · have hdy : d ∉ t.ancestors y := fun hdy =>
        hdc (Tree.eq_of_mem_ancestors (Tree.mem_children_iff.1 hd) (Tree.mem_children_iff.1 hc)
          hdy hcy)
      rw [hline, if_neg hdy]
      rfl
  · rename_i h
    unfold childVisits
    rw [List.map_congr_left fun c hc => ?_]
    · rfl
    · -- a child on the line would put its parent strictly above the end
      have hcy : c ∉ t.ancestors y := by
        intro hcy
        refine h ⟨Tree.mem_ancestors_parent (Tree.mem_children_iff.1 hc) hcy, ?_⟩
        rintro rfl
        exact Tree.not_mem_ancestors_of_mem_children hc hcy
      rw [hline, if_neg hcy]
      rfl

section

variable (h : Conserved t tally completed) (hy : Landing t tally y)
  (hline : ∀ n, tally'.visits n = tally.visits n + if n ∈ t.ancestors y then 1 else 0)
include h hy hline

theorem Conserved.record_inner (hroot : i ≠ t.root) (hi : t.children i ≠ [])
    (hpos : 0 < tally'.visits i) : tally'.visits i = 1 + childVisits t tally' i := by
  have hsum := childVisits_of_line hline i
  by_cases hmem : i ∈ t.ancestors y
  · by_cases hiy : i = y
    -- the node itself was played from, for the first time
    · subst hiy
      have hzero := (hy.fresh hi).2
      have hbelow : childVisits t tally i = 0 := by
        unfold childVisits
        rw [List.map_congr_left fun c hc =>
          h.below i c hzero (Tree.mem_ancestors_of_mem_children hc)]
        simp
      rw [hline, hsum, if_pos hmem, if_neg (fun h => h.2 rfl), hzero, hbelow]
    -- a node above it was visited before, and passes the visit on
    · have hlt : i < t.size := Nat.lt_of_le_of_lt (Tree.le_of_mem_ancestors hmem) hy.inTree
      obtain ⟨p, hp⟩ := Option.ne_none_iff_exists'.1
        (t.wellFormed.has_parent i (Nat.pos_of_ne_zero hroot) hlt)
      have hchild : i ∈ t.children p := Tree.mem_children_iff.2 hp
      have hvisited := hy.siblings p i hchild hmem (.inl hiy) i hchild
      have hbefore := h.inner_sum i hroot hi hvisited
      rw [hline, hsum, if_pos hmem, if_pos ⟨hmem, hiy⟩]
      omega
  · have heq : tally'.visits i = tally.visits i := by
      rw [hline, if_neg hmem, Nat.add_zero]
    rw [heq] at hpos ⊢
    rw [hsum, if_neg (fun h => hmem h.1), Nat.add_zero]
    exact h.inner_sum i hroot hi hpos

theorem Conserved.record_siblings {p : Nat} (hi : i ∈ t.children p) (htwo : 2 ≤ tally'.visits i)
    (hj : j ∈ t.children p) : 1 ≤ tally'.visits j := by
  have hmono : tally.visits j ≤ tally'.visits j := by
    rw [hline]
    omega
  by_cases hbefore : 2 ≤ tally.visits i
  · have := h.siblings p i hi hbefore j hj
    omega
  · -- the second visit is the one just counted
    rw [hline] at htwo
    split at htwo
    · rename_i hmem
      have := hy.siblings p i hi hmem (.inr (by omega)) j hj
      omega
    · omega

/-- Counting a line that begins at a landing keeps the law. -/
theorem Conserved.record : Conserved t tally' (completed + 1) := by
  have hsum := childVisits_of_line hline
  constructor
  · rw [hline, if_pos (Tree.root_mem_ancestors hy.inTree), h.root]
  · intro hroot
    have hne : t.root ≠ y := by
      rintro rfl
      exact (hy.fresh hroot).1 rfl
    have hmem := Tree.root_mem_ancestors hy.inTree
    rw [hline, hsum, if_pos hmem, if_pos ⟨hmem, hne⟩, h.root_sum hroot]
  · exact fun i hroot hi hpos => h.record_inner hy hline hroot hi hpos
  · intro i j hzero hij
    have hi : i ∉ t.ancestors y := by
      intro hmem
      rw [hline, if_pos hmem] at hzero
      omega
    have hj : j ∉ t.ancestors y := fun hmem => hi (Tree.mem_ancestors_trans hij hmem)
    rw [hline, if_neg hi] at hzero
    rw [hline, if_neg hj]
    exact h.below i j hzero hij
  · exact fun p i hi htwo j hj => h.record_siblings hy hline hi htwo hj

end

-- ============================================================================
-- Iterations count from a landing
-- ============================================================================

/-- Past nodes whose children were all visited, to a leaf or to a child without visits. -/
theorem landing_of_passed {x : Nat} (hx : Passed t tally t.root x) (hlt : x < t.size)
    (hy : y ∈ t.children x ∧ tally.visits y = 0 ∨ y = x ∧ t.children x = []) :
    Landing t tally y := by
  -- on the way to where selection ended, siblings were all visited
  have hpassed : ∀ p, ∀ i ∈ t.children p, i ∈ t.ancestors x →
      ∀ j ∈ t.children p, 0 < tally.visits j := by
    intro p i hi hix
    have hpx : p ∈ t.ancestors x := Tree.mem_ancestors_parent (Tree.mem_children_iff.1 hi) hix
    have hne : p ≠ x := by
      rintro rfl
      exact Tree.not_mem_ancestors_of_mem_children hi hix
    have hp : p < t.size := Nat.lt_of_le_of_lt (Tree.le_of_mem_ancestors hpx) hlt
    exact hasUnvisited_eq_false_iff.1 (hx.visited p hpx (Tree.root_mem_ancestors hp) hne)
  rcases hy with ⟨hchild, hzero⟩ | ⟨rfl, hleaf⟩
  · refine ⟨Tree.lt_size_of_mem_children hchild, fun _ => ⟨?_, hzero⟩, fun p i hi hmem hor => ?_⟩
    · have := Tree.lt_of_mem_children hchild
      exact Nat.ne_of_gt (Nat.lt_of_le_of_lt (Nat.zero_le x) this)
    · rcases (Tree.mem_ancestors_iff_of_parent (Tree.mem_children_iff.1 hchild)).1 hmem with
        rfl | hix
      · omega
      · exact hpassed p i hi hix
  · exact ⟨hlt, fun hne => absurd hleaf hne, fun p i hi hmem _ => hpassed p i hi hmem⟩

-- ============================================================================
-- Whole sequences
-- ============================================================================

/-- What holds of a session at all times, as long as the counters do not overflow. -/
structure Sound {γ σ : Type} (t : Tree) (s : Session γ σ) : Prop where
  size : s.tally.entries.size = t.size
  wins_le : ∀ i, s.tally.wins i ≤ s.tally.visits i
  conserved : s.completed < 2 ^ 64 → Conserved t s.tally s.completed

variable {γ σ : Type} {s s' : Session γ σ}

theorem Sound.congr (h : Sound t s) (hcounts : s.SameCounts s') : Sound t s' := by
  refine ⟨hcounts.tally.size.trans h.size, fun i => ?_, fun hbound => ?_⟩
  · rw [hcounts.tally.wins, hcounts.tally.visits]
    exact h.wins_le i
  · rw [hcounts.completed] at hbound ⊢
    exact (h.conserved hbound).congr hcounts.tally

theorem sound_zero (hsize : s.tally = Tally.zero t.size) (hcompleted : s.completed = 0) :
    Sound t s := by
  refine ⟨?_, fun i => ?_, fun _ => ?_⟩
  · rw [hsize, Tally.size_zero]
  · rw [hsize, Tally.wins_zero]
    exact Nat.zero_le _
  · rw [hsize, hcompleted]
    exact conserved_zero t t.size

variable [Logarithm] [LawfulLogarithm]

theorem Sound.isNaN_ucb1 (h : Sound t s) (hbound : s.completed < 2 ^ 64) {weight : Score}
    (hweight : weight.isFinite = true) (i : Nat) : (ucb1 t s.tally weight i).isNaN = false := by
  have hvisits : ∀ j, s.tally.visits j < 2 ^ 64 := fun j =>
    Nat.lt_of_le_of_lt ((h.conserved hbound).visits_le h.size j) hbound
  have hwins : s.tally.wins i < 2 ^ 64 := Nat.lt_of_le_of_lt (h.wins_le i) (hvisits i)
  exact Mcts.isNaN_ucb1 t hweight hvisits hwins

namespace Engine

variable [RandomSource γ] [Sink σ] {e : Engine}

/-- An iteration counts from a landing. -/
theorem landing_iterate (h : Sound e.tree s) (hbound : s.completed < 2 ^ 64)
    (hweight : e.weight.isFinite = true) :
    Landing e.tree s.tally (e.iterate s).1.expanded := by
  obtain ⟨-, hpassed, hexpanded, -⟩ := iterate_spec e s
  have hstops := iterate_stops fun c => h.isNaN_ucb1 hbound hweight c
  refine landing_of_passed hpassed (selected_lt e s) ?_
  rcases hexpanded with hchild | ⟨hstay, hnone⟩
  · exact .inl hchild
  · rcases hstops with hleaf | hsome
    · exact .inr ⟨hstay, hleaf⟩
    · rw [hnone] at hsome
      cases hsome

/-- What holds at all times is passed on by iterations and by resets. -/
theorem invariant_sound (hweight : e.weight.isFinite = true) :
    e.Invariant fun s : Session γ σ => Sound e.tree s where
  quiet hcounts h := h.congr hcounts
  iterate := by
    intro s h
    obtain ⟨hcompleted, -⟩ := iterate_spec e s
    obtain ⟨hsize, hvisits, hwins⟩ := iterate_counts h.size
    refine ⟨hsize, fun n => ?_, fun hbound => ?_⟩
    · have := h.wins_le n
      rw [hvisits, hwins]
      split
      · rename_i hmem
        rw [if_pos hmem.1]
        omega
      · omega
    · rw [hcompleted] at hbound ⊢
      have hbefore : s.completed < 2 ^ 64 := by omega
      exact (h.conserved hbefore).record (landing_iterate h hbefore hweight) hvisits
  reset := by
    intro s h
    refine sound_zero ?_ rfl
    rw [reset_tally, h.size]

/-- After any sequence of operations, none of them a backpropagation by hand, the visits are
    conserved. -/
theorem perform_conserves (he : e.Accepted) (source : γ) (channel : Channel σ)
    {ops : List (Op γ σ)} (hops : ∀ op ∈ ops, op.isManual = false)
    (hbound : (e.perform ops (e.start source channel)).completed < 2 ^ 64) :
    Conserved e.tree (e.perform ops (e.start source channel)).tally
      (e.perform ops (e.start source channel)).completed := by
  have hsound : Sound e.tree (e.perform ops (e.start source channel)) :=
    (invariant_sound he.weight).perform hops (sound_zero rfl rfl)
  exact hsound.conserved hbound

omit [Logarithm] [LawfulLogarithm] in
/-- An iteration, a run, two iterations with a playout between them, and a recommendation. -/
theorem perform_conserves_small :
    let ops : List (Op Random.Generator NullSink) :=
      [.iterate, .run, .iterate, .simulate 2, .iterate, .recommend]
    small.Accepted ∧ (∀ op ∈ ops, op.isManual = false) ∧
      (@perform _ _ _ _ shortLogarithm small ops smallStart).completed < 2 ^ 64 ∧
      Conserved Tree.small (@perform _ _ _ _ shortLogarithm small ops smallStart).tally
        (@perform _ _ _ _ shortLogarithm small ops smallStart).completed := by
  intro ops
  have hops : ∀ op ∈ ops, op.isManual = false := by
    simp [ops, Op.isManual]
  have hbound : (@perform _ _ _ _ shortLogarithm small ops smallStart).completed < 2 ^ 64 := by
    have hle := @perform_completed_le _ _ _ _ shortLogarithm small ops smallStart
    exact Nat.lt_of_le_of_lt hle (by decide)
  exact ⟨accepted_small, hops, hbound,
    @perform_conserves _ _ shortLogarithm lawful_shortLogarithm _ _ small accepted_small _ _ ops
      hops hbound⟩

end Engine

end GameSearch.Mcts
