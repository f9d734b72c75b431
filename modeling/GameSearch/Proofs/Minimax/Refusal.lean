/-
  GameSearch.Proofs.Minimax.Refusal

  An evaluation is refused up front or not at all.  The builder notes the first leaf without a
  value when it enters it, and an evaluation looks at this note and at its window
  before it enters a node.  Where both are in order it cannot fail any more: entering fails only
  at a leaf without a value, and there is none in the tree.

    * `Verdict`             — when an evaluation is refused, and why
    * `verdict_evaluate`    — evaluations from any node of the tree
    * `enter_ne_error`, `Loop.turn_ne_error` — no step fails after the checks
    * `evaluate_refuses_up_front` — both traversals, for every tree that was built
-/
import GameSearch.Proofs.Minimax.Coverage
import GameSearch.Proofs.Minimax.Traversal
import GameSearch.Proofs.Tree.Representation
import GameSearch.Proofs.Sink.Hearing

namespace GameSearch

namespace Minimax

-- ============================================================================
-- The checks before an evaluation
-- ============================================================================

/-- A bound is not a number, or the lower bound is above the upper one. -/
def Window.Disordered (w : Window) : Prop :=
  w.alpha.isNaN = true ∨ w.beta.isNaN = true ∨ w.beta < w.alpha

theorem Window.isOrdered_eq_false_iff {w : Window} : w.isOrdered = false ↔ w.Disordered := by
  simp only [isOrdered, Disordered, Bool.and_eq_false_iff, Bool.not_eq_false', decide_eq_true_eq,
    or_assoc]

/-- When an evaluation is refused, and why.  `r` is what it comes to on the channel `ch`. -/
structure Verdict {σ : Type} (e : Engine) (w : Window) (ch : Channel σ)
    (r : Except Error Outcome × Channel σ) : Prop where
  /-- A leaf without a value, wherever it is in the tree, is reason enough. -/
  leaf_iff : (∃ fault, r.1 = .error (.tree fault)) ↔ ∃ n, e.tree.Valueless n
  /-- The first one is named. -/
  leaf : ∀ fault, r.1 = .error (.tree fault) → ∃ n, e.tree.Valueless n ∧
    (∀ m < n, ¬ e.tree.Valueless m) ∧ fault = .leafWithoutValue (e.tree.id n)
  /-- If there is none, the window is looked at, provided cutoffs are wanted. -/
  window_iff : (∃ v, r.1 = .error (.invalidWindow v)) ↔
    (∀ n, ¬ e.tree.Valueless n) ∧ e.pruning = true ∧ w.Disordered
  window : ∀ v, r.1 = .error (.invalidWindow v) → v = w
  /-- There is no other reason. -/
  ok_iff : (∃ o, r.1 = .ok o) ↔
    (∀ n, ¬ e.tree.Valueless n) ∧ (e.pruning = true → ¬ w.Disordered)
  /-- A refusal is not heard of by the sink or in the journal. -/
  quiet : (∃ err, r.1 = .error err) → r.2 = ch

section

variable {σ : Type} {e : Engine} {w : Window} {ch : Channel σ}
  {r : Except Error Outcome × Channel σ} {n : Nat}

theorem Verdict.of_leaf (hn : e.tree.Valueless n) (hfirst : ∀ m < n, ¬ e.tree.Valueless m)
    (hr : r = (.error (.tree (.leafWithoutValue (e.tree.id n))), ch)) : Verdict e w ch r := by
  subst hr
  constructor
  case leaf_iff => exact ⟨fun _ => ⟨n, hn⟩, fun _ => ⟨_, rfl⟩⟩
  case leaf =>
    intro fault h
    cases h
    exact ⟨n, hn, hfirst, rfl⟩
  case window_iff => exact ⟨fun ⟨_, h⟩ => (nomatch h), fun h => absurd hn (h.1 n)⟩
  case window => exact fun _ h => nomatch h
  case ok_iff => exact ⟨fun ⟨_, h⟩ => (nomatch h), fun h => absurd hn (h.1 n)⟩
  case quiet => exact fun _ => rfl

theorem Verdict.of_window (hvalued : ∀ n, ¬ e.tree.Valueless n) (hp : e.pruning = true)
    (hw : w.Disordered) (hr : r = (.error (.invalidWindow w), ch)) : Verdict e w ch r := by
  subst hr
  constructor
  case leaf_iff => exact ⟨fun ⟨_, h⟩ => (nomatch h), fun ⟨n, hn⟩ => absurd hn (hvalued n)⟩
  case leaf => exact fun _ h => nomatch h
  case window_iff => exact ⟨fun _ => ⟨hvalued, hp, hw⟩, fun _ => ⟨w, rfl⟩⟩
  case window =>
    intro v h
    cases h
    rfl
  case ok_iff => exact ⟨fun ⟨_, h⟩ => (nomatch h), fun h => absurd hw (h.2 hp)⟩
  case quiet => exact fun _ => rfl

theorem Verdict.of_ok (hvalued : ∀ n, ¬ e.tree.Valueless n)
    (hw : e.pruning = true → ¬ w.Disordered) {o : Outcome} (hr : r.1 = .ok o) :
    Verdict e w ch r := by
  obtain ⟨result, ch'⟩ := r
  obtain rfl : result = .ok o := hr
  constructor
  case leaf_iff => exact ⟨fun ⟨_, h⟩ => (nomatch h), fun ⟨n, hn⟩ => absurd hn (hvalued n)⟩
  case leaf => exact fun _ h => nomatch h
  case window_iff => exact ⟨fun ⟨_, h⟩ => (nomatch h), fun h => absurd h.2.2 (hw h.2.1)⟩
  case window => exact fun _ h => nomatch h
  case ok_iff => exact ⟨fun _ => ⟨hvalued, hw⟩, fun _ => ⟨o, rfl⟩⟩
  case quiet => exact fun ⟨_, h⟩ => nomatch h

variable [Sink σ]

theorem evaluate_of_prepare_error {err : Error} (h : e.prepare w = .error err) (i : Nat)
    (ch : Channel σ) : e.evaluate i w ch = (.error err, ch) := by
  rw [Engine.evaluate, Engine.evaluateBy, h]

/-- The verdict on an evaluation by recursion from a node of the tree. -/
theorem verdict_evaluate (e : Engine) {i : Nat} (hi : i < e.tree.size) (w : Window)
    (ch : Channel σ) : Verdict e w ch (e.evaluate i w ch) := by
  by_cases hleaf : ∃ n, e.tree.Valueless n
  · obtain ⟨fault, hfault⟩ := Tree.exists_leafValues_error_iff.2 hleaf
    obtain ⟨n, hn, hfirst, rfl⟩ := Tree.leafValues_eq_error_iff.1 hfault
    have hprepare : e.prepare w = .error (.tree (.leafWithoutValue (e.tree.id n))) := by
      rw [Engine.prepare, hfault]
    exact Verdict.of_leaf hn hfirst (evaluate_of_prepare_error hprepare i ch)
  have hvalued := not_exists.1 hleaf
  have hv := Tree.leavesValued_iff.2 hvalued
  cases hp : e.pruning with
  | false =>
    have hplay := evaluate_eq_play hv hi (prepare_of_not_pruning (w := w) hv hp) ch
    exact Verdict.of_ok hvalued (fun h => absurd (hp.symm.trans h) Bool.false_ne_true) hplay
  | true =>
    cases hw : w.isOrdered with
    | true =>
      have hordered : ¬ w.Disordered := fun h =>
        Bool.false_ne_true ((Window.isOrdered_eq_false_iff.2 h).symm.trans hw)
      have hplay := evaluate_eq_play hv hi (prepare_of_pruning hv hp hw) ch
      exact Verdict.of_ok hvalued (fun _ => hordered) hplay
    | false =>
      have hprepare : e.prepare w = .error (.invalidWindow w) := by
        rw [Engine.prepare, Tree.leafValues_eq_ok_iff.2 hv]
        simp only [hp, hw, Bool.not_true, Bool.false_eq_true, if_false]
      exact Verdict.of_window hvalued hp (Window.isOrdered_eq_false_iff.1 hw)
        (evaluate_of_prepare_error hprepare i ch)

-- ============================================================================
-- Nothing fails after the checks
-- ============================================================================

variable {fault : Tree.Fault} {i : Nat}

/-- A node of a tree whose leaves have values can be entered. -/
theorem enter_ne_error (hv : e.tree.LeavesValued) (hi : i < e.tree.size) (w : Window)
    (r : Run σ) : (r.enter e i w).1 ≠ .error fault := by
  unfold Run.enter
  dsimp only
  split
  · rename_i hleaf
    obtain ⟨value, hvalue⟩ := Option.isSome_iff_exists.1 (hv i hi (isLeaf_iff.1 hleaf))
    rw [hvalue]
    exact fun h => nomatch h
  · exact fun h => nomatch h

/-- So no turn of the loop ends it with a fault. -/
theorem Loop.turn_ne_error (hv : e.tree.LeavesValued) {l : Loop σ} (hl : l.InTree e i)
    (r : Run σ) : l.turn e ≠ .done (.error fault, r) := by
  intro h
  unfold turn at h
  split at h
  · cases h
  · rename_i settled hsettled
    have hs := inTree_settle hl hsettled
    unfold advance at h
    split at h
    · rename_i c o hc
      have hlt := (inTree_takeChild hc (inTree_top hs)).2
      unfold Loop.enter at h
      split at h
      · rename_i fault' r' henter
        exact enter_ne_error hv hlt o.frame.window (settled.setTop o).run (congrArg Prod.fst henter)
      · cases h
      · cases h
    · split at h <;> cases h

end

/-- Evaluations are refused up front or not at all, for every tree that was built, with leaves
    without values or not.  The loop of the builder has noted the first such leaf.  The two
    traversals come to the same verdict; and once the checks are passed, no node can be met that
    cannot be entered, neither in the recursion nor in a turn of the loop. -/
theorem evaluate_refuses_up_front {σ : Type} [Sink σ] {limits : Tree.Limits} {spec : Spec}
    {t : Tree} (hbuild : Tree.build limits spec = .ok t) (pruning : Bool) {start : Nat}
    (hstart : start < t.size) (w : Window) (ch : Channel σ) :
    let e : Engine := ⟨t, pruning⟩
    (Tree.Arena.ofSpec limits spec = .ok ⟨t.nodes, t.index, t.valuelessLeaf?⟩ ∧
      t.valuelessLeaf? = t.leaves.find? fun i => (t.node i).value.isNone) ∧
    Verdict e w ch (e.evaluate start w ch) ∧
    Verdict e w ch (e.evaluateIterative start w ch) ∧
    ∀ v, e.prepare w = .ok v → ∀ r : Run σ,
      (∀ n < t.size, ∀ u fault, (r.enter e n u).1 ≠ .error fault) ∧
      (∀ n < t.size, ∀ u, ∃ value, (search e n u r).1 = .ok value) ∧
      (∀ n < t.size, ∀ u, ∃ value, (searchStack e n u r).1 = .ok value) ∧
      ∀ l, Loop.Reached e start v r l → ∀ fault r', l.turn e ≠ .done (.error fault, r') := by
  intro e
  refine ⟨⟨Tree.ofSpec_of_build hbuild, t.valuelessLeaf?_eq_find?⟩,
    verdict_evaluate e hstart w ch, ?_, ?_⟩
  · rw [evaluateIterative_eq_evaluate]
    exact verdict_evaluate e hstart w ch
  · intro v hprepare r
    have hv : e.tree.LeavesValued := leavesValued_of_prepare hprepare
    refine ⟨fun n hn u fault => enter_ne_error hv hn u r, fun n hn u => ?_, fun n hn u => ?_, ?_⟩
    · exact ⟨_, congrArg Prod.fst (search_eq_play hv n hn u r)⟩
    · rw [searchStack_eq_search]
      exact ⟨_, congrArg Prod.fst (search_eq_play hv n hn u r)⟩
    · exact fun l hl fault r' => Loop.turn_ne_error hv hl.safe.2 r'

/-- A tree with a leaf that came without a value, to the right of the other leaves. -/
def lenientSpec : Spec :=
  .inner "R" [.leaf "A" 4.0, .inner "B" [.leaf "B1" 3.0, ⟨some "B2", none, []⟩]]

/-- The tree that a lenient builder makes of it. -/
def lenientTree : Tree where
  nodes := #[
    ⟨"R", none, [1, 2], none, 0⟩,
    ⟨"A", some 4.0, [], some 0, 1⟩,
    ⟨"B", none, [3, 4], some 0, 1⟩,
    ⟨"B1", some 3.0, [], some 2, 2⟩,
    ⟨"B2", none, [], some 2, 2⟩]
  wellFormed := by decide

theorem build_lenientSpec : Tree.build ⟨1024, true⟩ lenientSpec = .ok lenientTree := by
  have hfinite : Float.isFinite 4.0 = true ∧ Float.isFinite 3.0 = true := by decide
  have hfill : Tree.fill ⟨1024, true⟩ #[] ∅ 1 [⟨lenientSpec, none, 0, []⟩] [] =
      .ok lenientTree.nodes := by
    simp [Tree.fill, lenientSpec, Spec.inner, Spec.leaf, Tree.Pending.check,
      Tree.Pending.successors, Tree.Pending.node, lenientTree, hfinite, List.range']
  exact Tree.build_eq_ok_of_fill hfill

/-- A leaf without a value outside the subtree where the evaluation starts, with a window that is
    not in order either; and a tree all of whose leaves have values. -/
theorem evaluate_refuses_up_front_lenient :
    let w : Window := ⟨5, 1⟩
    let ch : Channel EventLog := .recording
    let e : Engine := ⟨lenientTree, true⟩
    let strict : Engine := ⟨Tree.small, true⟩
    (Tree.build ⟨1024, true⟩ lenientSpec = .ok lenientTree ∧ 1 < lenientTree.size ∧
      Tree.Arena.ofSpec ⟨1024, true⟩ lenientSpec =
        .ok ⟨lenientTree.nodes, lenientTree.index, some 4⟩ ∧
      lenientTree.Valueless 4 ∧ Verdict e w ch (e.evaluate 1 w ch) ∧
      Verdict e w ch (e.evaluateIterative 1 w ch)) ∧
    Tree.build {} Tree.smallSpec = .ok Tree.small ∧ 0 < Tree.small.size ∧
      strict.prepare .full = .ok .full ∧
      ∀ r : Run EventLog, ∀ n < Tree.small.size, ∀ u fault,
        (r.enter strict n u).1 ≠ .error fault := by
  intro w ch e strict
  have hstart : 1 < lenientTree.size := by decide
  obtain ⟨⟨harena, hnote⟩, hverdict, hverdict', -⟩ :=
    evaluate_refuses_up_front build_lenientSpec true hstart w ch
  have hroot : 0 < Tree.small.size := by decide
  have hprepare : strict.prepare .full = .ok .full :=
    prepare_of_pruning (by decide) rfl (Window.isOrdered_of_lt Window.full_lt)
  obtain ⟨-, -, -, hentered⟩ :=
    evaluate_refuses_up_front Tree.build_smallSpec true hroot .full ch
  rw [show lenientTree.valuelessLeaf? = some 4 from hnote.trans (by decide)] at harena
  exact ⟨⟨build_lenientSpec, hstart, harena, ⟨by decide, rfl, rfl⟩, hverdict, hverdict'⟩,
    Tree.build_smallSpec, hroot, hprepare, fun r => (hentered _ hprepare r).1⟩

end Minimax

end GameSearch
