/-
  GameSearch.Proofs.Minimax.Mirror

  The two sides play by the same rules.  In the mirror image of a tree the minimising side
  stands where the maximising side stood, all scores have the other sign and the bounds of
  a window change places; apart from that a search does there what it does in the tree.

    * `Frame.absorb_mirror`  — a step of the bookkeeping, seen in the mirror
    * `explore_mirror`       — so the visits are mirror images of each other
    * `mirrored_visitTable`  — and the tables that they leave
    * `evaluate_mirror`      — and all evaluations with accepted windows
-/
import GameSearch.Proofs.Minimax.Narrowing
import GameSearch.Proofs.Tree.Mirror

namespace GameSearch.Minimax

-- ============================================================================
-- Bookkeeping
-- ============================================================================

theorem better_other (kind : Kind) (x y : Score) :
    better kind.other (-x) (-y) = better kind x y := by
  cases kind <;> simp only [better, Kind.other, Score.neg_lt_neg_iff]

theorem worst_other (kind : Kind) : worst kind.other = -worst kind := by
  cases kind with
  | max => exact Score.neg_bottom.symm
  | min => exact Score.neg_top.symm

namespace Window

/-- The window for the scores with the other sign. -/
def mirror (w : Window) : Window := ⟨-w.beta, -w.alpha⟩

variable (w : Window)

theorem full_mirror : full.mirror = full := by
  rw [mirror, full, Score.neg_bottom, Score.neg_top]

theorem isOrdered_mirror : w.mirror.isOrdered = w.isOrdered := by
  simp only [isOrdered, mirror, Score.isNaN_neg, Score.neg_lt_neg_iff]
  rw [Bool.and_comm (!w.beta.isNaN)]

theorem isClosed_mirror : w.mirror.isClosed = w.isClosed := by
  simp only [isClosed, mirror, Score.neg_le_neg_iff]

theorem narrow_mirror (kind : Kind) (x : Score) :
    w.mirror.narrow kind.other (-x) = (w.narrow kind x).mirror := by
  cases kind with
  | max =>
    show Window.mk (-w.beta) ((-w.alpha).smaller (-x)) = ⟨-w.beta, -w.alpha.larger x⟩
    rw [Score.neg_larger]
  | min =>
    show Window.mk ((-w.beta).larger (-x)) (-w.alpha) = ⟨-w.beta.smaller x, -w.alpha⟩
    rw [Score.neg_smaller]

end Window

namespace Frame

/-- The frame of the node in the mirror image. -/
def mirror (f : Frame) : Frame :=
  ⟨f.node + 1, f.kind.other, f.window.mirror, -f.value, f.best.map (· + 1)⟩

variable (pruning : Bool) (child : Nat) (x : Score) (f : Frame)

theorem start_mirror (node : Nat) (kind : Kind) (w : Window) :
    start (node + 1) kind.other w.mirror = (start node kind w).mirror := by
  rw [start, worst_other]
  rfl

theorem absorb_mirror :
    f.mirror.absorb pruning (child + 1) (-x) = (f.absorb pruning child x).mirror := by
  have hbetter : better f.mirror.kind (-x) f.mirror.value = better f.kind x f.value :=
    better_other f.kind x f.value
  unfold absorb
  dsimp only
  rw [hbetter]
  cases better f.kind x f.value <;> cases pruning
  · rfl
  · exact congrArg (Frame.mk _ _ · _ _) (Window.narrow_mirror _ _ _)
  · rfl
  · exact congrArg (Frame.mk _ _ · _ _) (Window.narrow_mirror _ _ _)

theorem isCutoff_mirror : f.mirror.isCutoff pruning = f.isCutoff pruning := by
  rw [isCutoff, isCutoff, ← f.window.isClosed_mirror]
  rfl

end Frame

-- ============================================================================
-- Visits
-- ============================================================================

namespace Visit

/-- The visit to the node in the mirror image. -/
def mirror (v : Visit) : Visit :=
  ⟨v.window.mirror, v.frame.mirror, v.visits.attach.map fun ⟨u, _⟩ => mirror u,
    v.cut.map (List.map (· + 1))⟩
termination_by sizeOf v
decreasing_by
  obtain ⟨window, frame, visits, cut⟩ := v
  have hlt : sizeOf u < sizeOf visits := List.sizeOf_lt_of_mem ‹_›
  simp only [mk.sizeOf_spec]
  omega

theorem mirror_eq (v : Visit) :
    v.mirror = ⟨v.window.mirror, v.frame.mirror, v.visits.map mirror,
      v.cut.map (List.map (· + 1))⟩ := by
  rw [mirror, List.attach_map_val]

variable (v : Visit)

theorem window_mirror : v.mirror.window = v.window.mirror := by rw [mirror_eq]

theorem place_mirror : v.mirror.place = v.place + 1 := by
  rw [mirror_eq]
  rfl

theorem value_mirror : v.mirror.value = -v.value := by
  rw [mirror_eq]
  rfl

theorem best_mirror : v.mirror.best = v.best.map (· + 1) := by
  rw [mirror_eq]
  rfl

theorem visits_mirror : v.mirror.visits = v.visits.map mirror := by rw [mirror_eq]

theorem left_mirror : v.mirror.left = v.left.map (· + 1) := by
  rw [mirror_eq, left, left]
  cases v.cut <;> rfl

theorem cons_mirror (first : Visit) : (v.cons first).mirror = v.mirror.cons first.mirror := by
  rw [mirror_eq, mirror_eq v]
  rfl

theorem all_mirror : v.mirror.all = v.all.map mirror := by
  induction v using Visit.induction with
  | step v ih =>
    rw [all_eq, all_eq v, visits_mirror, List.map_cons, List.map_flatMap, List.flatMap_map]
    exact congrArg (v.mirror :: ·) (List.flatMap_congr ih)

theorem places_mirror : v.mirror.places = v.places.map (· + 1) := by
  rw [places, places, all_mirror, List.map_map, List.map_map]
  exact List.map_congr_left fun u _ => u.place_mirror

/-- The same edges are cut in the same order. -/
theorem edges_mirror : v.mirror.edges = v.edges.map fun (p, c) => (p + 1, c + 1) := by
  induction v using Visit.induction with
  | step v ih =>
    rw [edges_eq, edges_eq v, visits_mirror, left_mirror, place_mirror, List.map_append,
      List.map_flatMap, List.flatMap_map, List.map_map, List.map_map]
    exact congrArg (· ++ _) (List.flatMap_congr ih)

theorem pruned_mirror : v.mirror.pruned = v.pruned.map (· + 1) := by
  rw [pruned, pruned, edges_mirror, List.map_map, List.map_map]
  rfl

end Visit

section Explore

variable {t : Tree} {fresh : String} {hfresh : ∀ i < t.size, t.id i ≠ fresh} {p : Bool}

/-- The rest of a visit is mirrored if the visits to the children left are. -/
theorem sweep_mirror (w : Window) (rest : List Nat) (f : Frame)
    (hrest : ∀ c ∈ rest, ∀ v : Window, explore ⟨t.mirror fresh hfresh, p⟩ (c + 1) v.mirror =
      (explore ⟨t, p⟩ c v).mirror) :
    sweep ⟨t.mirror fresh hfresh, p⟩ w.mirror (rest.map (· + 1)) f.mirror =
      (sweep ⟨t, p⟩ w rest f).mirror := by
  have hchild : ∀ (c : Nat) (f : Frame), (∀ v : Window,
      explore ⟨t.mirror fresh hfresh, p⟩ (c + 1) v.mirror = (explore ⟨t, p⟩ c v).mirror) →
      f.mirror.absorb p (c + 1)
        (explore ⟨t.mirror fresh hfresh, p⟩ (c + 1) f.mirror.window).value =
      (f.absorb p c (explore ⟨t, p⟩ c f.window).value).mirror := by
    intro c f hc
    rw [← Frame.absorb_mirror, ← Visit.value_mirror, ← hc]
    rfl
  induction rest, f using sweepInduction ⟨t, p⟩ with
  | nil f =>
    rw [List.map_nil, sweep_nil, sweep_nil, Visit.mirror_eq]
    rfl
  | cutoff c rest f hcut =>
    have hc := hrest c List.mem_cons_self
    rw [List.map_cons, sweep_cons_of_cutoff, sweep_cons_of_cutoff hcut, Visit.mirror_eq]
    · dsimp only
      rw [hchild c f hc]
      show Visit.mk _ _ [explore _ _ f.window.mirror] _ = _
      rw [hc]
      rfl
    · dsimp only
      rw [hchild c f hc, Frame.isCutoff_mirror]
      exact hcut
  | next c rest f hcut ih =>
    have hc := hrest c List.mem_cons_self
    rw [List.map_cons, sweep_cons, sweep_cons hcut, Visit.cons_mirror]
    · dsimp only
      rw [hchild c f hc, ih fun d hd => hrest d (List.mem_cons_of_mem c hd)]
      exact congrArg (Visit.cons _) (hc f.window)
    · dsimp only
      rw [hchild c f hc, Frame.isCutoff_mirror]
      exact hcut

/-- The copy of a node is visited with the window for the other sign as the node itself. -/
theorem explore_mirror (hv : t.LeavesValued) {i : Nat} (hi : i < t.size) (w : Window) :
    explore ⟨t.mirror fresh hfresh, p⟩ (i + 1) w.mirror = (explore ⟨t, p⟩ i w).mirror := by
  induction i using Tree.childInduction (t := t) generalizing w with
  | step i ih =>
    have hchildren : (t.mirror fresh hfresh).children (i + 1) = (t.children i).map (· + 1) :=
      Tree.children_mirror hi
    have hkind : (t.mirror fresh hfresh).kind (i + 1) = (t.kind i).other := Tree.kind_mirror hi
    by_cases hleaf : t.children i = []
    · obtain ⟨value, hvalue⟩ := Option.isSome_iff_exists.1 (hv i hi hleaf)
      have hnone : (t.mirror fresh hfresh).children (i + 1) = [] := by
        rw [hchildren, hleaf]
        rfl
      rw [explore_of_leaf (e := ⟨t, p⟩) hleaf,
        explore_of_leaf (e := ⟨t.mirror fresh hfresh, p⟩) hnone, Visit.mirror_eq]
      show Visit.mk _ { Frame.start _ _ _ with value := _ } _ _ = _
      rw [hkind, Frame.start_mirror, Tree.minimaxValue_mirror_of_value hi hvalue]
      rfl
    · have hsome : (t.mirror fresh hfresh).children (i + 1) ≠ [] := by
        rw [hchildren, Ne, List.map_eq_nil_iff]
        exact hleaf
      rw [explore_of_internal (e := ⟨t, p⟩) hleaf,
        explore_of_internal (e := ⟨t.mirror fresh hfresh, p⟩) hsome]
      dsimp only
      rw [hchildren, hkind, Frame.start_mirror]
      exact sweep_mirror w _ _ fun c hc v => ih c hc (Tree.lt_size_of_mem_children hc) v

end Explore

-- ============================================================================
-- Tables
-- ============================================================================

/-- The record of the node in the mirror image. -/
def Record.mirror (r : Record) : Record :=
  ⟨r.window.mirror, r.value.map (- ·), r.best.map (· + 1)⟩

/-- Of two tables, the second one is the first one in the mirror: values and windows have the
    other sign, and all places are one further up, behind that of the new root. -/
structure MirrorImage (o o' : Outcome) : Prop where
  start : o'.start = o.start + 1
  value : o'.value = -o.value
  record : ∀ n, o'.record? (n + 1) = (o.record? n).map Record.mirror
  visitOrder : o'.visitOrder.toList = o.visitOrder.toList.map (· + 1)
  prunedEdges : o'.prunedEdges.toList = o.prunedEdges.toList.map fun (p, c) => (p + 1, c + 1)
  isPruned : ∀ n, o'.isPruned (n + 1) = o.isPruned n
  /-- The new root plays no part. -/
  record_root : o'.record? 0 = none
  isPruned_root : o'.isPruned 0 = false

variable {σ : Type} [Sink σ] {t : Tree} {fresh : String}
  {hfresh : ∀ i < t.size, t.id i ≠ fresh} {p : Bool} {i : Nat}

theorem mirrored_visitTable (hv : t.LeavesValued) (hi : i < t.size) (w : Window) (ch : Channel σ) :
    MirrorImage ((visitTable ⟨t, p⟩ i w ch).finish (explore ⟨t, p⟩ i w).value)
      ((visitTable ⟨t.mirror fresh hfresh, p⟩ (i + 1) w.mirror ch).finish
        (explore ⟨t.mirror fresh hfresh, p⟩ (i + 1) w.mirror).value) := by
  have hmirror : explore ⟨t.mirror fresh hfresh, p⟩ (i + 1) w.mirror =
      (explore ⟨t, p⟩ i w).mirror := explore_mirror hv hi w
  have hi' : i + 1 < (t.mirror fresh hfresh).size := by
    rw [Tree.size_mirror]
    omega
  have hwrites := (explore ⟨t, p⟩ i w).writes_play ⟨t, p⟩ (Engine.fresh ⟨t, p⟩ i ch)
  have hwrites' := (explore ⟨t.mirror fresh hfresh, p⟩ (i + 1) w.mirror).writes_play
    ⟨t.mirror fresh hfresh, p⟩ (Engine.fresh ⟨t.mirror fresh hfresh, p⟩ (i + 1) ch)
  have hplaces : (explore ⟨t.mirror fresh hfresh, p⟩ (i + 1) w.mirror).places =
      (explore ⟨t, p⟩ i w).places.map (· + 1) := by
    rw [hmirror, Visit.places_mirror]
  have hpruned : (explore ⟨t.mirror fresh hfresh, p⟩ (i + 1) w.mirror).pruned =
      (explore ⟨t, p⟩ i w).pruned.map (· + 1) := by
    rw [hmirror, Visit.pruned_mirror]
  -- what is not entered has no record
  have habsent : ∀ n, n ∉ (explore ⟨t, p⟩ i w).places.map (· + 1) →
      (visitTable ⟨t.mirror fresh hfresh, p⟩ (i + 1) w.mirror ch).record? n = none := by
    intro n hn
    rw [← hplaces] at hn
    exact (Visit.record?_play_of_not_mem hn _).trans (record?_fresh _ _ ch n)
  constructor
  case start =>
    have hstart := (Visit.sameShape_play (e := ⟨t, p⟩) (explore ⟨t, p⟩ i w)
      (Engine.fresh ⟨t, p⟩ i ch)).2
    have hstart' := (Visit.sameShape_play (e := ⟨t.mirror fresh hfresh, p⟩)
      (explore ⟨t.mirror fresh hfresh, p⟩ (i + 1) w.mirror)
      (Engine.fresh ⟨t.mirror fresh hfresh, p⟩ (i + 1) ch)).2
    exact hstart'.trans (congrArg (· + 1) hstart.symm)
  case value =>
    show (explore _ _ _).value = -(explore _ _ _).value
    rw [hmirror, Visit.value_mirror]
  case record =>
    intro n
    show (visitTable _ _ _ _).record? _ = ((visitTable _ _ _ _).record? _).map _
    rcases record?_visitTable (e := ⟨t, p⟩) hi w ch n with ⟨hn, hnone⟩ | ⟨u, hu, rfl, hsome⟩
    · rw [hnone]
      refine habsent (n + 1) fun hmem => hn ?_
      obtain ⟨m, hm, hmn⟩ := List.mem_map.1 hmem
      exact Nat.succ.inj hmn ▸ hm
    · have hu' : u.mirror ∈ (explore ⟨t.mirror fresh hfresh, p⟩ (i + 1) w.mirror).all := by
        rw [hmirror, Visit.all_mirror]
        exact List.mem_map_of_mem hu
      have hrecord := record?_of_mem_all (e := ⟨t.mirror fresh hfresh, p⟩) hi' ch hu'
      rw [Visit.place_mirror, Visit.window_mirror, Visit.value_mirror, Visit.best_mirror] at hrecord
      rw [hsome, hrecord]
      rfl
  case visitOrder =>
    exact hwrites'.visitOrder.trans (hplaces.trans (congrArg _ hwrites.visitOrder.symm))
  case prunedEdges =>
    refine hwrites'.prunedEdges.trans (Eq.trans ?_ (congrArg _ hwrites.prunedEdges.symm))
    show _ = List.map _ (explore ⟨t, p⟩ i w).edges
    rw [← Visit.edges_mirror, ← hmirror]
    rfl
  case isPruned =>
    intro n
    show (visitTable _ _ _ _).isPruned _ = (visitTable _ _ _ _).isPruned _
    rw [Bool.eq_iff_iff, isPruned_visitTable, isPruned_visitTable, hpruned]
    exact List.mem_map_of_injective (Nat.succ_injective)
  case record_root =>
    refine habsent 0 fun hmem => ?_
    obtain ⟨m, -, hm⟩ := List.mem_map.1 hmem
    cases hm
  case isPruned_root =>
    show (visitTable _ _ _ _).isPruned 0 = false
    rw [Bool.eq_false_iff, Ne, isPruned_visitTable, hpruned]
    intro hmem
    obtain ⟨m, -, hm⟩ := List.mem_map.1 hmem
    cases hm

-- ============================================================================
-- Evaluations
-- ============================================================================

/-- An accepted window is accepted in the mirror. -/
theorem exists_prepare_mirror (fresh : String) (hfresh : ∀ i < t.size, t.id i ≠ fresh)
    (hv : t.LeavesValued) {w : Window} (haccepted : p = true → w.isOrdered = true) :
    ∃ u, Engine.prepare ⟨t, p⟩ w = .ok u ∧
      Engine.prepare ⟨t.mirror fresh hfresh, p⟩ w.mirror = .ok u.mirror := by
  have hv' : (t.mirror fresh hfresh).LeavesValued := Tree.leavesValued_mirror hv
  cases p with
  | true =>
    have hw := haccepted rfl
    have hw' : w.mirror.isOrdered = true := by rwa [Window.isOrdered_mirror]
    exact ⟨w, prepare_of_pruning hv rfl hw, prepare_of_pruning hv' rfl hw'⟩
  | false =>
    refine ⟨.full, prepare_of_not_pruning hv rfl, ?_⟩
    rw [Window.full_mirror]
    exact prepare_of_not_pruning hv' rfl

/-- If all leaves have values, then a node, with any accepted window, and its copy in the mirror
    image, with the bounds changed in sign and place, are evaluated alike, by recursion and with a
    stack: values and windows are opposite, visits, cuts and best children the same. -/
theorem evaluate_mirror (t : Tree) (hv : t.LeavesValued) (fresh : String)
    (hfresh : ∀ i < t.size, t.id i ≠ fresh) (p : Bool) (n : Nat) (hn : n < t.size) (w : Window)
    (haccepted : p = true → w.isOrdered = true) (ch : Channel σ) :
    (t.mirror fresh hfresh).toSpec (t.mirror fresh hfresh).root =
        .inner fresh [(t.toSpec t.root).negate] ∧
      ∃ o o', Engine.Delivers ⟨t, p⟩ n w ch o ∧
        Engine.Delivers ⟨t.mirror fresh hfresh, p⟩ (n + 1) w.mirror ch o' ∧ MirrorImage o o' := by
  obtain ⟨u, hprepare, hprepare'⟩ := exists_prepare_mirror fresh hfresh hv haccepted
  have hn' : n + 1 < (t.mirror fresh hfresh).size := by
    rw [Tree.size_mirror]
    omega
  have hv' : (t.mirror fresh hfresh).LeavesValued := Tree.leavesValued_mirror hv
  exact ⟨Tree.toSpec_mirror, _, _,
    delivers_visitTable (e := ⟨t, p⟩) hv hn hprepare ch,
    delivers_visitTable (e := ⟨t.mirror fresh hfresh, p⟩) hv' hn' hprepare' ch,
    mirrored_visitTable hv hn u ch⟩

/-- The small tree from its root, with cutoffs and a narrow window. -/
theorem evaluate_mirror_small :
    ∃ hfresh : ∀ i < Tree.small.size, Tree.small.id i ≠ "S",
      Tree.small.LeavesValued ∧ 0 < Tree.small.size ∧
      (⟨3.0, 5.0⟩ : Window).isOrdered = true ∧
      (Tree.small.mirror "S" hfresh).toSpec (Tree.small.mirror "S" hfresh).root =
        .inner "S" [(Tree.small.toSpec Tree.small.root).negate] ∧
      ∃ o o', Engine.Delivers ⟨Tree.small, true⟩ 0 ⟨3.0, 5.0⟩
          (⟨NullSink.mk, Journal.silent⟩ : Channel NullSink) o ∧
        Engine.Delivers ⟨Tree.small.mirror "S" hfresh, true⟩ 1 (⟨3.0, 5.0⟩ : Window).mirror
          (⟨NullSink.mk, Journal.silent⟩ : Channel NullSink) o' ∧ MirrorImage o o' :=
  have hfresh : ∀ i < Tree.small.size, Tree.small.id i ≠ "S" := by decide
  have hvalued : Tree.small.LeavesValued := by decide
  have hplace : 0 < Tree.small.size := by decide
  have hordered : (⟨3.0, 5.0⟩ : Window).isOrdered = true := by decide
  ⟨hfresh, hvalued, hplace, hordered,
    evaluate_mirror Tree.small hvalued "S" hfresh true 0 hplace ⟨3.0, 5.0⟩ (fun _ => hordered) _⟩

end GameSearch.Minimax
