/-
  GameSearch.Proofs.Minimax.Plain

  Without cutoffs a search is backward induction.  Every node of the subtree is entered
  with the full window and gets the best value of its children, from the leftmost child
  that has it; which side chooses depends on the depth of the node in the tree alone.

    * `BackwardInduction`           — values and best children by recursion on a tree
    * `backwardInduction_minimax`   — minimax values are such values
    * `all_explore_of_not_pruning`  — every visit finds them, with the full window
    * `evaluate_without_cutoffs`    — and every evaluation without cutoffs records them
-/
import GameSearch.Proofs.Minimax.Narrowing

namespace GameSearch

open Minimax

-- ============================================================================
-- Values by recursion
-- ============================================================================

/-- Values and best children as backward induction gives them.  A leaf has its own value.  At even
    depth a node has the greatest value of a child and at odd depth the least one, and its best
    child is the leftmost with that value. -/
structure BackwardInduction (t : Tree) (value : Nat → Score) (best : Nat → Option Nat) : Prop where
  leaf : ∀ n < t.size, t.children n = [] → (t.node n).value = some (value n) ∧ best n = none
  greatest : ∀ n < t.size, t.children n ≠ [] → (t.node n).depth % 2 = 0 →
    ∃ left c right, t.children n = left ++ c :: right ∧ best n = some c ∧ value n = value c ∧
      (∀ d ∈ left, value d < value c) ∧ ∀ d ∈ right, value d ≤ value c
  least : ∀ n < t.size, t.children n ≠ [] → (t.node n).depth % 2 = 1 →
    ∃ left c right, t.children n = left ++ c :: right ∧ best n = some c ∧ value n = value c ∧
      (∀ d ∈ left, value c < value d) ∧ ∀ d ∈ right, value c ≤ value d

namespace Tree

variable {t : Tree} {i : Nat}

/-- The minimax value of a node is that of its best child. -/
theorem minimaxValue_of_bestChild? (ht : t.LeavesValued) {c : Nat} (h : t.bestChild? i = some c) :
    t.minimaxValue i = t.minimaxValue c := by
  have hinternal : t.children i ≠ [] := by
    intro hleaf
    rw [bestChild?_of_leaf hleaf] at h
    cases h
  obtain ⟨b, hbest, hvalue, -⟩ := Frame.exists_picks_plain hinternal
    (fun d hd => isFinite_minimaxValue ht (lt_size_of_mem_children hd)) i (t.kind i) .full
  have hbc : b = c := Option.some.inj (hbest.symm.trans h)
  rw [minimaxValue_eq_plain hinternal .full, hvalue, hbc]

end Tree

/-- A score that is not below another one is at least as great. -/
theorem Score.le_of_not_lt {x y : Score} (hx : x.isNaN = false) (hy : y.isNaN = false)
    (h : decide (x < y) = false) : y ≤ x := by
  rw [decide_eq_false_iff_not, Score.lt_iff_rank hx hy, Int.not_lt] at h
  exact (Score.le_iff_rank hy hx).2 h

/-- Minimax values and the children that plain minimax picks come from backward induction. -/
theorem backwardInduction_minimax {t : Tree} (ht : t.LeavesValued) :
    BackwardInduction t t.minimaxValue t.bestChild? := by
  have hnum : ∀ n d, d ∈ t.children n → (t.minimaxValue d).isNaN = false := fun n d hd =>
    Tree.isNaN_minimaxValue ht (Tree.lt_size_of_mem_children hd)
  constructor
  case leaf =>
    intro n hn hleaf
    obtain ⟨value, hvalue⟩ := Option.isSome_iff_exists.1 (ht n hn hleaf)
    rw [Tree.minimaxValue_of_value hvalue]
    exact ⟨hvalue, Tree.bestChild?_of_leaf hleaf⟩
  case greatest =>
    intro n hn hinternal hdepth
    obtain ⟨c, hbest, left, right, hsplit, hleft, hright⟩ :=
      Tree.leftmostBest_of_bestChild? ht hinternal
    have hkind : t.kind n = .max := if_pos hdepth
    rw [hkind] at hleft hright
    refine ⟨left, c, right, hsplit, hbest, Tree.minimaxValue_of_bestChild? ht hbest,
      fun d hd => of_decide_eq_true (hleft d hd), fun d hd => ?_⟩
    exact Score.le_of_not_lt (hnum n c (by simp [hsplit])) (hnum n d (by simp [hsplit, hd]))
      (hright d hd)
  case least =>
    intro n hn hinternal hdepth
    obtain ⟨c, hbest, left, right, hsplit, hleft, hright⟩ :=
      Tree.leftmostBest_of_bestChild? ht hinternal
    have hkind : t.kind n = .min := if_neg (by rw [hdepth]; decide)
    rw [hkind] at hleft hright
    refine ⟨left, c, right, hsplit, hbest, Tree.minimaxValue_of_bestChild? ht hbest,
      fun d hd => of_decide_eq_true (hleft d hd), fun d hd => ?_⟩
    exact Score.le_of_not_lt (hnum n d (by simp [hsplit, hd])) (hnum n c (by simp [hsplit]))
      (hright d hd)

namespace Minimax

-- ============================================================================
-- Visits
-- ============================================================================

variable {e : Engine} {i : Nat} {w : Window}

/-- Without cutoffs all visits below a visit have its window. -/
theorem all_explore_of_not_pruning (hp : e.pruning = false) (i : Nat) (w : Window) :
    ∀ u ∈ (explore e i w).all, u = explore e u.place w := by
  refine Visit.forall_all (P := fun v => v = explore e v.place w) ?_ ?_
  · intro v hv u hu
    rw [hv] at hu
    by_cases hleaf : e.tree.children v.place = []
    · rw [explore_of_leaf hleaf] at hu
      cases hu
    · rw [explore_of_internal hleaf,
        sweep_of_not_pruning hp _ fun c _ => value_explore_of_not_pruning hp c] at hu
      obtain ⟨c, -, rfl⟩ := List.mem_map.1 hu
      rw [place_explore]
      rfl
  · rw [place_explore]

-- ============================================================================
-- Evaluations
-- ============================================================================

variable {σ : Type} [Sink σ]

/-- The table holds what backward induction gives for every node of the subtree. -/
structure PlainTable (t : Tree) (start : Nat) (o : Outcome) : Prop where
  value : o.value = t.minimaxValue start
  record : ∀ n ∈ t.subtree start,
    o.record? n = some ⟨.full, some (t.minimaxValue n), t.bestChild? n⟩
  isPruned : ∀ n, o.isPruned n = false
  prunedEdges : o.prunedEdges = #[]
  visitOrder : o.visitOrder.toList = t.subtree start
  preorder : start = t.root → o.visitOrder.toList = t.preorder

theorem plainTable_visitTable (hp : e.pruning = false) (hv : e.tree.LeavesValued)
    (hi : i < e.tree.size) (ch : Channel σ) :
    PlainTable e.tree i
      ((visitTable e i .full ch).finish (explore e i .full).value) := by
  have hpruned := pruned_explore_of_not_pruning hp i .full
  have horder : (visitTable e i .full ch).visitOrder.toList = e.tree.subtree i :=
    (visitOrder_visitTable e i .full ch).trans (places_explore_plain hp i .full)
  constructor
  case value => exact value_explore_of_not_pruning hp i .full
  case record =>
    intro n hn
    rw [← places_explore_plain hp i .full] at hn
    obtain ⟨u, hu, rfl⟩ := List.mem_map.1 hn
    have hexplored := all_explore_of_not_pruning hp i .full u hu
    have hexact : Exact e (explore e u.place .full) := fun htrue => by
      rw [hp] at htrue
      cases htrue
    have hfaithful := faithful_explore hv hexact
    rw [← hexplored] at hfaithful
    have hwindow : u.window = .full := by
      rw [hexplored]
      exact window_explore e u.place .full
    show (visitTable e i .full ch).record? u.place = _
    rw [record?_of_mem_all hi ch hu, hwindow, hfaithful.value, hfaithful.best]
  case isPruned =>
    intro n
    show (visitTable e i .full ch).isPruned n = false
    rw [Bool.eq_false_iff, Ne, isPruned_visitTable, hpruned]
    exact List.not_mem_nil
  case prunedEdges =>
    have hedges : (visitTable e i .full ch).prunedEdges.toList = [] :=
      (prunedEdges_visitTable e i .full ch).trans (List.map_eq_nil_iff.1 hpruned)
    exact Array.toList_eq_nil_iff.1 hedges
  case visitOrder => exact horder
  case preorder =>
    rintro rfl
    exact horder

/-- If all leaves have values, every evaluation without cutoffs succeeds, whatever the window, by
    recursion and with a stack.  It enters the whole subtree in preorder with the full window, and
    records the values and best children of backward induction. -/
theorem evaluate_without_cutoffs (t : Tree) (hv : t.LeavesValued) (start : Nat)
    (hstart : start < t.size) (w : Window) (ch : Channel σ) :
    BackwardInduction t t.minimaxValue t.bestChild? ∧
      ∃ o, Engine.Delivers ⟨t, false⟩ start w ch o ∧ PlainTable t start o :=
  ⟨backwardInduction_minimax hv, _,
    delivers_visitTable (e := ⟨t, false⟩) (w := w) hv hstart (prepare_of_not_pruning hv rfl) ch,
    plainTable_visitTable (e := ⟨t, false⟩) rfl hv hstart ch⟩

/-- The second child of the root, with bounds in the wrong order. -/
theorem evaluate_without_cutoffs_small :
    Tree.small.LeavesValued ∧ 2 < Tree.small.size ∧
      BackwardInduction Tree.small Tree.small.minimaxValue Tree.small.bestChild? ∧
      ∃ o, Engine.Delivers ⟨Tree.small, false⟩ 2 ⟨5.0, 2.0⟩
          (⟨NullSink.mk, Journal.silent⟩ : Channel NullSink) o ∧
        PlainTable Tree.small 2 o :=
  have hvalued : Tree.small.LeavesValued := by decide
  have hplace : 2 < Tree.small.size := by decide
  ⟨hvalued, hplace, evaluate_without_cutoffs Tree.small hvalued 2 hplace ⟨5.0, 2.0⟩ _⟩

end Minimax

end GameSearch
