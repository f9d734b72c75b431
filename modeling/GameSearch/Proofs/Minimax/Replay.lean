/-
  GameSearch.Proofs.Minimax.Replay

  A subtree is searched on its own.  What happens below a node depends on the window with which
  the node is entered, and on nothing that happened before.  So an evaluation that starts at a
  node with the window recorded there repeats this part of the run: the window passes the entry
  check, and the fresh table is the part of the old one that belongs to the subtree.

    * `Visit.infix_of_mem_all`     — what a visit puts together is a segment of the whole
    * `Explored.mem_pruned_iff_of_mem_all`, `Explored.mem_places_iff_of_mem_all`
                                   — below a visit, whatever the run did was done there
    * `Genuine.isOrdered_visit`    — recorded windows are in order
    * `Replayed`                   — a table is the part of another one below a node
    * `evaluate_replays`           — a fresh evaluation leaves that part
-/
import GameSearch.Proofs.Minimax.Threading

namespace GameSearch.Minimax

-- ============================================================================
-- Parts of a visit
-- ============================================================================

namespace Visit

variable {u v : Visit}

/-- If the lists of the visits to children stand in that of a visit, one after the other, then so
    does the list of every visit below it. -/
theorem infix_of_mem_all {α : Type} {f : Visit → List α} (hf : ∀ v, v.visits.flatMap f <:+: f v)
    (hu : u ∈ v.all) : f u <:+: f v := by
  induction v using Visit.induction with
  | step v ih =>
    rcases mem_all_iff.1 hu with rfl | ⟨x, hx, hux⟩
    · exact List.infix_rfl
    · have hchild : f x <:+: v.visits.flatMap f :=
        List.infix_of_mem_flatten (List.mem_map_of_mem hx)
      exact ((ih x hx hux).trans hchild).trans (hf v)

/-- The nodes that are entered below a node are entered one after the other. -/
theorem places_infix (hu : u ∈ v.all) : u.places <:+: v.places := by
  refine infix_of_mem_all (fun v => ?_) hu
  rw [places_eq]
  exact (List.suffix_cons _ _).isInfix

/-- So are the edges cut that are cut there. -/
theorem edges_infix (hu : u ∈ v.all) : u.edges <:+: v.edges := by
  refine infix_of_mem_all (fun v => ?_) hu
  rw [edges_eq]
  exact (List.prefix_append _ _).isInfix

end Visit

namespace Explored

variable {e : Engine} {u v : Visit} {c j : Nat}

theorem place_mem_subtree (h : Explored e v) (hu : u ∈ v.all) :
    u.place ∈ e.tree.subtree v.place :=
  h.mem_subtree_of_places (Visit.place_mem_places hu)

/-- The cuts above a node of the subtree of a visit are those made there. -/
theorem mem_pruned_iff_of_mem_all (h : Explored e v) (hu : u ∈ v.all)
    (hj : j ∈ e.tree.subtree u.place) (hc : c ∈ e.tree.ancestors j) :
    c ∈ v.pruned ↔ c ∈ u.pruned := by
  induction v using Visit.induction with
  | step v ih =>
    rcases Visit.mem_all_iff.1 hu with rfl | ⟨x, hx, hux⟩
    · exact Iff.rfl
    · have hexplored := (h.visit hx).1
      have hjx : j ∈ e.tree.subtree x.place := by
        rw [Tree.mem_subtree_iff] at hj ⊢
        exact Tree.mem_ancestors_trans
          (Tree.mem_subtree_iff.1 (hexplored.place_mem_subtree hux)) hj
      exact (h.mem_pruned_iff_of_visit hx hjx hc).trans (ih x hx hexplored hux)

/-- A node of that subtree is entered in the run exactly if it is entered there. -/
theorem mem_places_iff_of_mem_all (h : Explored e v) (hu : u ∈ v.all)
    (hj : j ∈ e.tree.subtree u.place) : j ∈ v.places ↔ j ∈ u.places := by
  have hjv : j ∈ e.tree.subtree v.place := by
    rw [Tree.mem_subtree_iff] at hj ⊢
    exact Tree.mem_ancestors_trans (Tree.mem_subtree_iff.1 (h.place_mem_subtree hu)) hj
  have hcuts : (∀ a ∈ e.tree.ancestors j, a ∉ v.pruned) ↔
      ∀ a ∈ e.tree.ancestors j, a ∉ u.pruned :=
    forall₂_congr fun a ha => not_congr (h.mem_pruned_iff_of_mem_all hu hj ha)
  rw [h.mem_places_iff, (h.of_mem_all hu).mem_places_iff, hcuts]
  exact and_congr_left fun _ => iff_of_true hjv hj

end Explored

-- ============================================================================
-- Recorded windows
-- ============================================================================

/-- The window of a visit to a child is in order if that of the visit is. -/
theorem Genuine.isOrdered_visit {e : Engine} {u v : Visit} (h : Genuine e v)
    (hp : e.pruning = true) (hv : e.tree.LeavesValued) (hordered : v.window.isOrdered = true)
    (hu : u ∈ v.visits) : u.window.isOrdered = true := by
  rcases h.window_eq_or_lt hp hv hu with hwindow | hopen
  · rw [hwindow]
    exact hordered
  · exact Window.isOrdered_of_lt hopen

-- ============================================================================
-- Tables
-- ============================================================================

/-- The second table is what the first one says of the subtree of a node. -/
structure Replayed (t : Tree) (n : Nat) (o o' : Outcome) : Prop where
  start : o'.start = n
  value : o.value? n = some o'.value
  record : ∀ j ∈ t.subtree n, o'.record? j = o.record? j
  isPruned : ∀ j ∈ t.subtree n, o'.isPruned j = o.isPruned j
  /-- The nodes entered are a segment of those entered before, and it starts with the node. -/
  visitOrder : o'.visitOrder.toList <:+: o.visitOrder.toList
  first : o'.visitOrder.toList.head? = some n
  prunedEdges : o'.prunedEdges.toList <:+: o.prunedEdges.toList
  outside : ∀ j, j ∉ t.subtree n → o'.record? j = none ∧ o'.isPruned j = false

variable {e : Engine} {i : Nat} {w : Window} {σ τ : Type} [Sink σ] [Sink τ]

/-- The table of a visit is part of the table of every visit above it. -/
theorem replayed_visitTable (hi : i < e.tree.size) (ch : Channel σ) (ch' : Channel τ) {u : Visit}
    (hu : u ∈ (explore e i w).all) :
    Replayed e.tree u.place (visitTable e i w ch)
      ((visitTable e u.place u.window ch').finish u.value) := by
  have hv := explored_explore e i w
  have hself : explore e u.place u.window = u := (hv.of_mem_all hu).symm
  have hsize := place_lt_of_mem_all hi hu
  have hcovered := covered_visitTable hsize u.window ch'
  constructor
  case start => exact start_visitTable e u.place u.window ch'
  case value =>
    rw [Outcome.value?, record?_of_mem_all hi ch hu]
    rfl
  case record =>
    intro j hj
    show (visitTable e u.place u.window ch').record? j = _
    rcases record?_visitTable hsize u.window ch' j with ⟨hnot, hnone⟩ | ⟨x, hx, rfl, hsome⟩
    · -- what the visit does not enter, no other visit enters
      rw [hself, ← hv.mem_places_iff_of_mem_all hu hj] at hnot
      rw [hnone]
      rcases record?_visitTable hi w ch j with ⟨-, hnone'⟩ | ⟨y, hy, rfl, -⟩
      · exact hnone'.symm
      · exact absurd (Visit.place_mem_places hy) hnot
    · rw [hself] at hx
      rw [hsome, record?_of_mem_all hi ch (Visit.mem_all_trans hx hu)]
  case isPruned =>
    intro j hj
    show (visitTable e u.place u.window ch').isPruned j = _
    rw [Bool.eq_iff_iff, isPruned_visitTable, isPruned_visitTable, hself]
    exact (hv.mem_pruned_iff_of_mem_all hu hj (e.tree.self_mem_ancestors j)).symm
  case visitOrder =>
    show (visitTable e u.place u.window ch').visitOrder.toList <:+: _
    rw [visitOrder_visitTable, visitOrder_visitTable, hself]
    exact Visit.places_infix hu
  case first =>
    show (visitTable e u.place u.window ch').visitOrder.toList.head? = _
    rw [visitOrder_visitTable, hself, Visit.places_eq]
    rfl
  case prunedEdges =>
    show (visitTable e u.place u.window ch').prunedEdges.toList <:+: _
    rw [prunedEdges_visitTable, prunedEdges_visitTable, hself]
    exact Visit.edges_infix hu
  case outside => exact hcovered.outside

/-- The value of the start node of the longer run is no part of what is compared. -/
theorem Replayed.finish {t : Tree} {n : Nat} {o o' : Outcome} (h : Replayed t n o o')
    (value : Score) : Replayed t n (o.finish value) o' :=
  ⟨h.start, h.value, h.record, h.isPruned, h.visitOrder, h.first, h.prunedEdges, h.outside⟩

/-- With cutoffs a run only takes windows that are in order. -/
theorem isOrdered_of_prepare (hp : e.pruning = true) {v : Window} (h : e.prepare w = .ok v) :
    w.isOrdered = true := by
  rw [Engine.prepare, Tree.leafValues_eq_ok_iff.2 (leavesValued_of_prepare h)] at h
  simp only [hp, Bool.not_true, Bool.false_eq_true, if_false] at h
  split at h
  · assumption
  · cases h

/-- After every evaluation with cutoffs that succeeds, by recursion or with a stack, each node that
    was entered can be evaluated again on its own.  The window recorded there is accepted, by both
    traversals and whoever listens, and the fresh table is the part of the first one that belongs
    to the subtree of the node. -/
theorem evaluate_replays (e : Engine) (hp : e.pruning = true) (i : Nat) (w : Window)
    (ch : Channel σ) (o : Outcome)
    (h : (e.evaluate i w ch).1 = .ok o ∨ (e.evaluateIterative i w ch).1 = .ok o)
    (n : Nat) (r : Record) (hr : o.record? n = some r) (ch' : Channel τ) :
    ∃ o', (e.evaluate n r.window ch').1 = .ok o' ∧
      (e.evaluateIterative n r.window ch').1 = .ok o' ∧ Replayed e.tree n o o' := by
  rw [evaluateIterative_eq_evaluate, or_self] at h
  obtain ⟨hi, v, hprepare, rfl⟩ := exists_prepare_of_evaluate h
  have hordered := isOrdered_of_prepare hp hprepare
  obtain ⟨rfl, hw⟩ := window_of_prepare hp hprepare
  have hv := leavesValued_of_prepare hprepare
  -- all windows of the run pass the check that the first one passed
  have hall : ∀ u ∈ (explore e i v).all, Genuine e u ∧ u.window.isOrdered = true := by
    apply Visit.forall_all
    · exact fun v h u hu => ⟨h.1.visit hp hv hu, h.1.isOrdered_visit hp hv h.2 hu⟩
    · exact ⟨⟨explored_explore e i v, (place_explore e i v).symm ▸ hi,
        (window_explore e i v).symm ▸ hw⟩, (window_explore e i v).symm ▸ hordered⟩
  rcases record?_visitTable hi v ch n with ⟨-, hnone⟩ | ⟨u, hu, rfl, hsome⟩
  · cases hnone.symm.trans hr
  · obtain rfl : _ = r := Option.some.inj (hsome.symm.trans hr)
    obtain ⟨hgenuine, hopen⟩ := hall u hu
    have hagain := evaluate_eq_play hv hgenuine.place (prepare_of_pruning hv hp hopen) ch'
    have hvalue : (explore e u.place u.window).value = u.value :=
      congrArg Visit.value hgenuine.explored.symm
    rw [hvalue] at hagain
    refine ⟨_, hagain, ?_, (replayed_visitTable hi ch ch' hu).finish _⟩
    rw [evaluateIterative_eq_evaluate]
    exact hagain

/-- The small tree, and in it the node that is entered with a narrower window than the root. -/
theorem evaluate_replays_small :
    ∃ o r o', ((Engine.evaluate ⟨Tree.small, true⟩ 0 ⟨2.0, 5.0⟩
        (⟨NullSink.mk, Journal.silent⟩ : Channel NullSink)).1 = .ok o ∨
      (Engine.evaluateIterative ⟨Tree.small, true⟩ 0 ⟨2.0, 5.0⟩
        (⟨NullSink.mk, Journal.silent⟩ : Channel NullSink)).1 = .ok o) ∧
      o.record? 2 = some r ∧ r.window.alpha = 4.0 ∧
      (Engine.evaluate ⟨Tree.small, true⟩ 2 r.window
        (⟨NullSink.mk, Journal.silent⟩ : Channel NullSink)).1 = .ok o' ∧
      Replayed Tree.small 2 o o' := by
  have hvalued : Tree.small.LeavesValued := by decide
  have hordered : (⟨2.0, 5.0⟩ : Window).isOrdered = true := by decide
  have hprepare := prepare_of_pruning (e := ⟨Tree.small, true⟩) hvalued rfl hordered
  have hi : 0 < Tree.small.size := by decide
  have hok := evaluate_eq_play hvalued hi hprepare (⟨NullSink.mk, Journal.silent⟩ : Channel NullSink)
  have hentered : ∃ u ∈ (explore ⟨Tree.small, true⟩ 0 ⟨2.0, 5.0⟩).all,
      u.place = 2 ∧ u.window.alpha = 4.0 := by decide +kernel
  obtain ⟨u, hu, hplace, halpha⟩ := hentered
  have hrecord := record?_of_mem_all hi (⟨NullSink.mk, Journal.silent⟩ : Channel NullSink) hu
  rw [hplace] at hrecord
  obtain ⟨o', hagain, -, hreplayed⟩ :=
    evaluate_replays ⟨Tree.small, true⟩ rfl 0 ⟨2.0, 5.0⟩ _ _ (.inl hok) 2 _ hrecord
      (⟨NullSink.mk, Journal.silent⟩ : Channel NullSink)
  exact ⟨_, _, o', .inl hok, hrecord, halpha, hagain, hreplayed⟩

end GameSearch.Minimax
