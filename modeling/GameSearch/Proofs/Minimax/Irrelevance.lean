/-
  GameSearch.Proofs.Minimax.Irrelevance

  What a search did not look at does not matter.  Trees of one form that have the same
  values at all nodes a search enters are searched in the same way.  A search with cutoffs
  finds what plain minimax finds, so plain minimax cannot tell these trees apart either,
  although it looks at every leaf.

    * `Tree.SameForm`         — trees with the same nodes and links; values may differ
    * `Tree.AgreeOn`          — trees with the same values at the given places
    * `explore_congr`         — a visit depends on the values of the nodes that it enters
    * `evaluate_congr`        — and so does everything that an evaluation leaves behind
    * `run_ignores_unvisited` — values at leaves that a run did not enter are irrelevant
-/
import GameSearch.Proofs.Minimax.Coverage
import GameSearch.Proofs.Minimax.Principal
import GameSearch.Proofs.Sink.Hearing

namespace GameSearch

-- ============================================================================
-- Trees of one form
-- ============================================================================

namespace Tree

/-- The trees have the same nodes, with the same identifiers and the same links. -/
structure SameForm (t t' : Tree) : Prop where
  size : t'.size = t.size
  id : t'.id = t.id
  children : t'.children = t.children

/-- The trees have the same values at the given places. -/
def AgreeOn (t t' : Tree) (places : List Nat) : Prop :=
  ∀ j ∈ places, (t'.node j).value = (t.node j).value

variable {t t' : Tree} {i : Nat}

theorem node_of_size_le (t : Tree) (h : t.size ≤ i) : t.node i = Node.absent :=
  nodeAt_of_size_le h

theorem AgreeOn.mono {xs ys : List Nat} (h : AgreeOn t t' ys) (hsub : xs ⊆ ys) : AgreeOn t t' xs :=
  fun j hj => h j (hsub hj)

/-- Only the places of the trees have to be looked at. -/
theorem SameForm.of_nodes (hsize : t'.size = t.size)
    (hnode : ∀ i < t.size, t'.id i = t.id i ∧ t'.children i = t.children i) : t.SameForm t' := by
  have hsame : ∀ i, t'.id i = t.id i ∧ t'.children i = t.children i := by
    intro i
    by_cases hi : i < t.size
    · exact hnode i hi
    · have hnodes : t'.node i = t.node i := by
        rw [t.node_of_size_le (Nat.not_lt.1 hi), t'.node_of_size_le (hsize ▸ Nat.not_lt.1 hi)]
      exact ⟨congrArg Node.id hnodes, congrArg Node.children hnodes⟩
  exact ⟨hsize, funext fun i => (hsame i).1, funext fun i => (hsame i).2⟩

/-- Children know their parents, so links upwards need not be compared. -/
theorem SameForm.parent_eq (h : SameForm t t') (i : Nat) : t'.parent i = t.parent i := by
  have hlink : ∀ p, t'.parent i = some p ↔ t.parent i = some p := by
    intro p
    rw [← mem_children_iff, ← mem_children_iff, h.children]
  exact Option.ext hlink

theorem SameForm.depth_eq (h : SameForm t t') (i : Nat) :
    (t'.node i).depth = (t.node i).depth := by
  induction i using parentInduction (t := t) with
  | step i p hp ih =>
    have hp' : t'.parent i = some p := (h.parent_eq i).trans hp
    have hdepth : (t.node i).depth = (t.node p).depth + 1 := t.wellFormed.parent_depth p i hp
    have hdepth' : (t'.node i).depth = (t'.node p).depth + 1 := t'.wellFormed.parent_depth p i hp'
    rw [hdepth, hdepth', ih]
  | top i hp =>
    -- a node without a parent is the root, or it is not there
    by_cases hi : i < t.size
    · obtain rfl : i = 0 := by
        by_contra hne
        exact t.wellFormed.has_parent i (Nat.pos_of_ne_zero hne) hi hp
      exact t'.wellFormed.root_depth.trans t.wellFormed.root_depth.symm
    · rw [t.node_of_size_le (Nat.not_lt.1 hi), t'.node_of_size_le (h.size ▸ Nat.not_lt.1 hi)]

/-- The same side is to move. -/
theorem SameForm.kind_eq (h : SameForm t t') (i : Nat) : t'.kind i = t.kind i :=
  congrArg Kind.atDepth (h.depth_eq i)

end Tree

namespace Minimax

variable {t t' : Tree} {pruning : Bool} {i : Nat} {w : Window}

-- ============================================================================
-- Visits
-- ============================================================================

/-- The visit to a leaf depends on its value alone. -/
theorem leaf_congr (h : t.SameForm t') (hleaf : t.children i = [])
    (hvalue : (t'.node i).value = (t.node i).value) : Visit.leaf t' i w = Visit.leaf t i w := by
  have hkind := h.kind_eq i
  have hleaf' : t'.children i = [] := (congrFun h.children i).trans hleaf
  have hminimax : t'.minimaxValue i = t.minimaxValue i := by
    cases hv : (t.node i).value with
    | some value =>
      rw [Tree.minimaxValue_of_value hv, Tree.minimaxValue_of_value (hvalue.trans hv)]
    | none =>
      rw [Tree.minimaxValue_of_none hv, Tree.minimaxValue_of_none (hvalue.trans hv), hkind,
        hleaf, hleaf']
      rfl
  rw [Visit.leaf, Visit.leaf, hkind, hminimax]

/-- The rest of a visit depends on what the visits to the children depend on. -/
theorem sweep_congr {rest : List Nat}
    (hchild : ∀ c ∈ rest, ∀ u, t.AgreeOn t' (explore ⟨t, pruning⟩ c u).places →
      explore ⟨t', pruning⟩ c u = explore ⟨t, pruning⟩ c u)
    {f : Frame} (h : t.AgreeOn t' ((sweep ⟨t, pruning⟩ w rest f).visits.flatMap Visit.places)) :
    sweep ⟨t', pruning⟩ w rest f = sweep ⟨t, pruning⟩ w rest f := by
  -- in either tree the next child is visited first, and then it is known whether it cuts
  induction rest, f using sweepInduction ⟨t, pruning⟩ with
  | nil f => rw [sweep_nil, sweep_nil]
  | cutoff c rest f hcut =>
    rw [sweep_cons_of_cutoff (e := ⟨t, pruning⟩) hcut] at h ⊢
    have hfirst := hchild c List.mem_cons_self f.window (by simpa using h)
    rw [← hfirst] at hcut
    rw [sweep_cons_of_cutoff (e := ⟨t', pruning⟩) hcut, hfirst]
  | next c rest f hcut ih =>
    rw [sweep_cons (e := ⟨t, pruning⟩) hcut] at h ⊢
    have hfirst := hchild c List.mem_cons_self f.window (h.mono (List.subset_append_left _ _))
    have hrest := ih (fun x hx => hchild x (List.mem_cons_of_mem c hx))
      (h.mono (List.subset_append_right _ _))
    rw [← hfirst] at hcut
    rw [sweep_cons (e := ⟨t', pruning⟩) hcut, hfirst, hrest]

/-- A visit depends on the values of the nodes that it enters, and on no others. -/
theorem explore_congr (h : t.SameForm t')
    (hagree : t.AgreeOn t' (explore ⟨t, pruning⟩ i w).places) :
    explore ⟨t', pruning⟩ i w = explore ⟨t, pruning⟩ i w := by
  induction i using Tree.childInduction (t := t) generalizing w with
  | step i ih =>
    have hsame : t'.children i = t.children i := congrFun h.children i
    by_cases hleaf : t.children i = []
    · rw [explore_of_leaf (e := ⟨t, pruning⟩) hleaf,
        explore_of_leaf (e := ⟨t', pruning⟩) (hsame.trans hleaf)]
      refine leaf_congr h hleaf (hagree i ?_)
      exact Visit.mem_places_iff.2 (.inl (place_explore _ i w).symm)
    · have hleaf' : t'.children i ≠ [] := hsame ▸ hleaf
      rw [Visit.places_eq] at hagree
      rw [explore_of_internal (e := ⟨t, pruning⟩) hleaf] at hagree ⊢
      rw [explore_of_internal (e := ⟨t', pruning⟩) hleaf']
      show sweep _ w (t'.children i) (Frame.start i (t'.kind i) w) = _
      rw [hsame, h.kind_eq]
      exact sweep_congr (fun c hc u => ih c hc) (hagree.mono (List.subset_cons_self _ _))

variable {σ : Type} [Sink σ]

theorem playAll_congr {e e' : Engine} {visits : List Visit}
    (h : ∀ u ∈ visits, ∀ r : Run σ, u.play e' r = u.play e r) (r : Run σ) :
    Visit.playAll e' visits r = Visit.playAll e visits r := by
  induction visits generalizing r with
  | nil => rw [Visit.playAll_nil, Visit.playAll_nil]
  | cons u rest ih =>
    rw [Visit.playAll_cons, Visit.playAll_cons, h u List.mem_cons_self]
    exact ih (fun x hx => h x (List.mem_cons_of_mem u hx)) _

/-- What a visit does to a run depends on the identifiers of nodes only. -/
theorem play_congr (h : t.SameForm t') (v : Visit) (r : Run σ) :
    v.play ⟨t', pruning⟩ r = v.play ⟨t, pruning⟩ r := by
  induction v using Visit.induction generalizing r with
  | step v ih =>
    have harrive : r.arrive ⟨t', pruning⟩ v.place v.window =
        r.arrive ⟨t, pruning⟩ v.place v.window := by
      rw [Run.arrive, Run.arrive, h.id]
    have hresolve : ∀ r : Run σ, r.resolve ⟨t', pruning⟩ v.place v.value v.best =
        r.resolve ⟨t, pruning⟩ v.place v.value v.best := by
      intro r
      rw [Run.resolve, Run.resolve, h.id]
    have hprune : ∀ (rest : List Nat) (r : Run σ), r.prune ⟨t', pruning⟩ v.frame rest =
        r.prune ⟨t, pruning⟩ v.frame rest := by
      intro rest r
      unfold Run.prune Run.cut
      rw [h.id]
    rw [Visit.play_eq_settle, Visit.play_eq_settle, harrive, Visit.settle, Visit.settle,
      playAll_congr ih]
    cases v.cut with
    | none => exact hresolve _
    | some rest => exact (hresolve _).trans (congrArg _ (hprune rest _))

-- ============================================================================
-- Evaluations
-- ============================================================================

/-- Everything that an evaluation leaves behind depends on the values of the nodes that it enters,
    and on no others. -/
theorem evaluate_congr (h : t.SameForm t') (hv : t.LeavesValued) (hv' : t'.LeavesValued)
    (hi : i < t.size) {v : Window} (hw : Engine.prepare ⟨t, pruning⟩ w = .ok v)
    (hagree : t.AgreeOn t' (explore ⟨t, pruning⟩ i v).places) (ch : Channel σ) :
    Engine.evaluate ⟨t', pruning⟩ i w ch = Engine.evaluate ⟨t, pruning⟩ i w ch := by
  have hw' : Engine.prepare ⟨t', pruning⟩ w = .ok v := by
    rw [← hw, Engine.prepare, Engine.prepare, Tree.leafValues_eq_ok_iff.2 hv,
      Tree.leafValues_eq_ok_iff.2 hv']
  have hfresh : Engine.fresh ⟨t', pruning⟩ i ch = Engine.fresh ⟨t, pruning⟩ i ch := by
    rw [Engine.fresh, Engine.fresh, h.size]
  have hi' : i < t'.size := h.size ▸ hi
  have hsearch : search ⟨t', pruning⟩ i v (Engine.fresh ⟨t', pruning⟩ i ch) =
      search ⟨t, pruning⟩ i v (Engine.fresh ⟨t, pruning⟩ i ch) := by
    rw [search_eq_play (e := ⟨t, pruning⟩) hv i hi, search_eq_play (e := ⟨t', pruning⟩) hv' i hi',
      explore_congr h hagree, play_congr h, hfresh]
  unfold Engine.evaluate Engine.evaluateBy
  rw [hw, hw']
  unfold Engine.fresh at hsearch
  dsimp only
  rw [hsearch]
  unfold Engine.summary
  rw [h.id]

theorem isVisited_wholeRun (e : Engine) (ch : Channel σ) (j : Nat) :
    (wholeRun e ch).isVisited j = true ↔ j ∈ (explore e e.tree.root .full).places :=
  isVisited_visitTable e.tree.wellFormed.nonempty .full ch j

/-- Plain minimax finds in a tree what runs with cutoffs find.  So it finds the same value and
    plays the same line in trees that such runs leave with the same table. -/
theorem same_play_of_wholeRun (hv : t.LeavesValued) (hv' : t'.LeavesValued) {ch : Channel σ}
    (h : wholeRun ⟨t', pruning⟩ ch = wholeRun ⟨t, pruning⟩ ch) :
    t'.minimaxValue t'.root = t.minimaxValue t.root ∧
      playLine t' t'.size t'.root = playLine t t.size t.root := by
  have hvalue := value_wholeRun (e := ⟨t, pruning⟩) hv ch
  have hvalue' := value_wholeRun (e := ⟨t', pruning⟩) hv' ch
  have hline := (principalVariation_wholeRun (e := ⟨t, pruning⟩) hv ch).1
  have hline' := (principalVariation_wholeRun (e := ⟨t', pruning⟩) hv' ch).1
  rw [h] at hvalue' hline'
  exact ⟨hvalue'.symm.trans hvalue, hline'.symm.trans hline⟩

/-- Values at leaves that a run with cutoffs over the whole tree did not enter are irrelevant.  If
    two trees of one form agree at all nodes that the run entered, the run over the other tree
    leaves the same table and the same channel, event for event, whoever listens; and plain
    minimax, which looks at every leaf, finds the same value and the same line in both. -/
theorem run_ignores_unvisited (t t' : Tree) (h : t.SameForm t') (hv : t.LeavesValued)
    (hv' : t'.LeavesValued) (ch : Channel σ) :
    ∃ o, (Engine.run ⟨t, true⟩ ch).1 = .ok o ∧
      ((∀ j, o.isVisited j = true → (t'.node j).value = (t.node j).value) →
        Engine.run ⟨t', true⟩ ch = Engine.run ⟨t, true⟩ ch ∧
        Engine.runIterative ⟨t', true⟩ ch = Engine.runIterative ⟨t, true⟩ ch ∧
        ∃ p p', (Engine.run ⟨t, false⟩ ch).1 = .ok p ∧ (Engine.run ⟨t', false⟩ ch).1 = .ok p' ∧
          (Engine.runIterative ⟨t, false⟩ ch).1 = .ok p ∧
          (Engine.runIterative ⟨t', false⟩ ch).1 = .ok p' ∧
          p'.value = p.value ∧ p'.principalVariation = p.principalVariation) := by
  have hroot : t.root < t.size := t.wellFormed.nonempty
  have hprepare : Engine.prepare ⟨t, true⟩ .full = .ok .full :=
    prepare_of_pruning hv rfl (Window.isOrdered_of_lt Window.full_lt)
  refine ⟨wholeRun ⟨t, true⟩ ch, run_eq_wholeRun hv ch, fun hagree => ?_⟩
  have hplaces : t.AgreeOn t' (explore ⟨t, true⟩ t.root .full).places := fun j hj =>
    hagree j ((isVisited_wholeRun ⟨t, true⟩ ch j).2 hj)
  have hrun : Engine.run ⟨t', true⟩ ch = Engine.run ⟨t, true⟩ ch :=
    evaluate_congr h hv hv' hroot hprepare hplaces ch
  have hiterative : Engine.runIterative ⟨t', true⟩ ch = Engine.runIterative ⟨t, true⟩ ch := by
    rw [runIterative_eq_run, runIterative_eq_run]
    exact hrun
  have hwhole : wholeRun ⟨t', true⟩ ch = wholeRun ⟨t, true⟩ ch := by
    have hsame := congrArg Prod.fst hrun
    rw [run_eq_wholeRun (e := ⟨t, true⟩) hv, run_eq_wholeRun (e := ⟨t', true⟩) hv'] at hsame
    exact Except.ok.inj hsame
  -- from here on nothing is said of the values that the run did not see
  obtain ⟨hvalue, hline⟩ := same_play_of_wholeRun hv hv' hwhole
  refine ⟨hrun, hiterative, wholeRun ⟨t, false⟩ ch, wholeRun ⟨t', false⟩ ch, run_eq_wholeRun hv ch,
    run_eq_wholeRun hv' ch, runIterative_eq_wholeRun hv ch, runIterative_eq_wholeRun hv' ch, ?_, ?_⟩
  · rw [value_wholeRun (e := ⟨t, false⟩) hv, value_wholeRun (e := ⟨t', false⟩) hv']
    exact hvalue
  · rw [(principalVariation_wholeRun (e := ⟨t, false⟩) hv ch).1,
      (principalVariation_wholeRun (e := ⟨t', false⟩) hv' ch).1]
    exact hline

/-- The small tree with a much lower value at its last leaf. -/
def smallAltered : Tree where
  nodes := #[
    ⟨"R", none, [1, 2], none, 0⟩,
    ⟨"A", none, [3, 4], some 0, 1⟩,
    ⟨"B", none, [5, 6], some 0, 1⟩,
    ⟨"A1", some 4.0, [], some 1, 2⟩,
    ⟨"A2", some 6.0, [], some 1, 2⟩,
    ⟨"B1", some 3.0, [], some 2, 2⟩,
    ⟨"B2", some 1.0, [], some 2, 2⟩]
  wellFormed := by decide

theorem run_ignores_unvisited_small :
    Tree.small.SameForm smallAltered ∧ Tree.small.LeavesValued ∧ smallAltered.LeavesValued ∧
      ∃ o, (Engine.run ⟨Tree.small, true⟩ Channel.recording).1 = .ok o ∧
        (∀ j, o.isVisited j = true → (smallAltered.node j).value = (Tree.small.node j).value) ∧
        Engine.run ⟨smallAltered, true⟩ Channel.recording =
          Engine.run ⟨Tree.small, true⟩ Channel.recording ∧
        ∃ p p', (Engine.run ⟨Tree.small, false⟩ Channel.recording).1 = .ok p ∧
          (Engine.run ⟨smallAltered, false⟩ Channel.recording).1 = .ok p' ∧
          p'.value = p.value ∧ p'.principalVariation = p.principalVariation := by
  have hform : Tree.small.SameForm smallAltered := .of_nodes (by decide) (by decide)
  have hvalued : Tree.small.LeavesValued := by decide
  have hvalued' : smallAltered.LeavesValued := by decide
  have hplaces : (explore ⟨Tree.small, true⟩ Tree.small.root .full).places =
      [0, 1, 3, 4, 2, 5] := by decide +kernel
  obtain ⟨o, ho, hsame⟩ := run_ignores_unvisited Tree.small smallAltered hform hvalued hvalued'
    Channel.recording
  have hagree : ∀ j, o.isVisited j = true →
      (smallAltered.node j).value = (Tree.small.node j).value := by
    intro j hj
    have hwhole := run_eq_wholeRun (e := ⟨Tree.small, true⟩) hvalued Channel.recording
    rw [Except.ok.inj (ho.symm.trans hwhole), isVisited_wholeRun, hplaces] at hj
    revert j
    decide
  obtain ⟨hrun, -, p, p', hp, hp', -, -, hvalue, hline⟩ := hsame hagree
  exact ⟨hform, hvalued, hvalued', o, ho, hagree, hrun, p, p', hp, hp', hvalue, hline⟩

end Minimax

end GameSearch
