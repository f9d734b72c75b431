/-
  GameSearch.Proofs.Minimax.Coverage

  An evaluation accounts for every node of the subtree it searches.  A node was entered,
  and then its value is recorded; or it lies at or below an edge that was cut.  The table
  says which, in all four of its parts.

    * `Writes`, `writes_play` — what a visit adds to the table
    * `Covered`               — the parts of a table agree
    * `covered_visitTable`    — those of the table that a visit leaves
    * `evaluate_covers`       — and so of every evaluation that succeeds
-/
import GameSearch.Proofs.Minimax.Cuts
import GameSearch.Proofs.Minimax.Traversal
import GameSearch.Proofs.Tree.WellFormed
import GameSearch.Report

namespace GameSearch.Minimax

variable {e : Engine} {i : Nat} {w : Window}

-- ============================================================================
-- What a visit adds to the table
-- ============================================================================

/-- A run enters some nodes and cuts some edges, in this order. -/
structure Writes {σ : Type} (r r' : Run σ) (places : List Nat) (edges : List (Nat × Nat)) :
    Prop where
  visitOrder : r'.outcome.visitOrder.toList = r.outcome.visitOrder.toList ++ places
  prunedEdges : r'.outcome.prunedEdges.toList = r.outcome.prunedEdges.toList ++ edges
  size : r'.outcome.pruned.size = r.outcome.pruned.size
  isPruned : ∀ n < r.outcome.pruned.size,
    r'.outcome.isPruned n = true ↔ r.outcome.isPruned n = true ∨ n ∈ edges.map Prod.snd

namespace Writes

variable {σ : Type} {r r' r'' : Run σ} {places places' : List Nat} {edges edges' : List (Nat × Nat)}

theorem of_same (horder : r'.outcome.visitOrder = r.outcome.visitOrder)
    (hedges : r'.outcome.prunedEdges = r.outcome.prunedEdges)
    (hpruned : r'.outcome.pruned = r.outcome.pruned) : Writes r r' [] [] where
  visitOrder := by rw [horder, List.append_nil]
  prunedEdges := by rw [hedges, List.append_nil]
  size := by rw [hpruned]
  isPruned n _ := by simp [Outcome.isPruned, hpruned]

theorem trans (h : Writes r r' places edges) (h' : Writes r' r'' places' edges') :
    Writes r r'' (places ++ places') (edges ++ edges') where
  visitOrder := by rw [h'.visitOrder, h.visitOrder, List.append_assoc]
  prunedEdges := by rw [h'.prunedEdges, h.prunedEdges, List.append_assoc]
  size := h'.size.trans h.size
  isPruned n hn := by
    rw [h'.isPruned n (h.size ▸ hn), h.isPruned n hn, List.map_append, List.mem_append, or_assoc]

variable [Sink σ]

theorem arrive (e : Engine) (i : Nat) (w : Window) (r : Run σ) :
    Writes r (r.arrive e i w) [i] [] where
  visitOrder := Array.toList_push
  prunedEdges := (List.append_nil _).symm
  size := rfl
  isPruned n _ := by simp [Run.arrive, Outcome.enter, Outcome.isPruned]

theorem resolve (e : Engine) (i : Nat) (value : Score) (best : Option Nat) (r : Run σ) :
    Writes r (r.resolve e i value best) [] [] :=
  of_same rfl rfl rfl

theorem cut (e : Engine) (parent child : Nat) (r : Run σ) :
    Writes r (r.cut e parent child) [] [(parent, child)] where
  visitOrder := (List.append_nil _).symm
  prunedEdges := Array.toList_push
  size := Array.size_setIfInBounds
  isPruned n hn := by
    show (Array.setIfInBounds _ _ _).getD n false = true ↔ _ ∨ n ∈ [child]
    rw [Array.getD_eq_getD_getElem?, Array.getElem?_setIfInBounds, List.mem_singleton,
      Outcome.isPruned, Array.getD_eq_getD_getElem?]
    by_cases hchild : child = n
    · subst hchild
      simp [hn]
    · simp [hchild, Ne.symm hchild]

theorem prune (e : Engine) (f : Frame) (rest : List Nat) (r : Run σ) :
    Writes r (r.prune e f rest) [] (rest.map (f.node, ·)) := by
  have hfold : ∀ (rest : List Nat) (r : Run σ),
      Writes r (rest.foldl (fun r c => r.cut e f.node c) r) [] (rest.map (f.node, ·)) := by
    intro rest
    induction rest with
    | nil => exact fun r => of_same rfl rfl rfl
    | cons c rest ih => exact fun r => (cut e f.node c r).trans (ih _)
  -- the message before the first cut is no part of the table
  obtain ⟨horder, hedges, hsize, hpruned⟩ := hfold rest { r with
    channel := r.channel.log (.cutoff f.kind (e.tree.id f.node) f.window.alpha f.window.beta
      rest.length) }
  exact ⟨horder, hedges, hsize, hpruned⟩

end Writes

namespace Visit

variable {σ : Type} [Sink σ]

/-- Several visits write what each of them writes, one after the other. -/
theorem writes_playAll (e : Engine) {visits : List Visit}
    (h : ∀ u ∈ visits, ∀ r : Run σ, Writes r (u.play e r) u.places u.edges) (r : Run σ) :
    Writes r (playAll e visits r) (visits.flatMap places) (visits.flatMap edges) := by
  induction visits generalizing r with
  | nil =>
    rw [playAll_nil]
    exact Writes.of_same rfl rfl rfl
  | cons u rest ih =>
    rw [playAll_cons]
    exact (h u List.mem_cons_self r).trans
      (ih (fun x hx => h x (List.mem_cons_of_mem u hx)) _)

/-- A visit enters its nodes, and cuts its edges. -/
theorem writes_play (e : Engine) (v : Visit) (r : Run σ) :
    Writes r (v.play e r) v.places v.edges := by
  induction v using Visit.induction generalizing r with
  | step v ih =>
    have hvisits := (Writes.arrive e v.place v.window r).trans
      (writes_playAll e ih (r.arrive e v.place v.window))
    rw [places_eq, edges_eq, play_eq_settle]
    have hcut : Writes (playAll e v.visits (r.arrive e v.place v.window))
        (v.settle e (r.arrive e v.place v.window)) [] (v.left.map (v.place, ·)) := by
      obtain ⟨w, f, visits, cut⟩ := v
      cases cut with
      | none => exact Writes.resolve e _ _ _ _
      | some rest =>
        have hprune := Writes.prune e f rest (playAll e visits (r.arrive e f.node w))
        have hresolve := hprune.trans (Writes.resolve e f.node f.value f.best _)
        rw [List.append_nil, List.append_nil] at hresolve
        exact hresolve
    have hall := hvisits.trans hcut
    rw [List.append_nil, List.nil_append] at hall
    exact hall

end Visit

-- ============================================================================
-- Evaluations that succeed
-- ============================================================================

namespace Outcome

/-- The nodes below the edges that were cut, in order. -/
def prunedNodes (o : Outcome) : List Nat := o.prunedEdges.toList.map Prod.snd

/-- The children of a node that were cut off, in order. -/
def prunedBelow (o : Outcome) (p : Nat) : List Nat := targets o.prunedEdges.toList p

end Outcome

variable {σ : Type} [Sink σ]

/-- A place outside the tree has no value. -/
theorem search_outside (hi : e.tree.size ≤ i) (w : Window) (r : Run σ) :
    (search e i w r).1 = .error (.leafWithoutValue (e.tree.id i)) := by
  have hnode : e.tree.node i = Node.absent := nodeAt_of_size_le hi
  have hleaf : e.isLeaf i = true := by
    rw [Engine.isLeaf, hnode]
    rfl
  have henter : r.enter e i w = (.error (.leafWithoutValue (e.tree.id i)), r.arrive e i w) := by
    simp only [Run.enter, hleaf, hnode, Node.absent, if_true]
  rw [search, henter]

/-- Before an evaluation that succeeds the leaves were found to have values. -/
theorem leavesValued_of_prepare {v : Window} (h : e.prepare w = .ok v) : e.tree.LeavesValued := by
  rw [← Tree.leafValues_eq_ok_iff]
  unfold Engine.prepare at h
  split at h
  · cases h
  · rename_i hok
    exact hok

/-- An evaluation that succeeds starts in the tree and plays a visit, with the window that it was
    prepared with. -/
theorem exists_prepare_of_evaluate {ch : Channel σ} {o : Outcome}
    (h : (e.evaluate i w ch).1 = .ok o) :
    i < e.tree.size ∧ ∃ v, e.prepare w = .ok v ∧
      o = ((explore e i v).play e (e.fresh i ch)).outcome.finish (explore e i v).value := by
  cases hprepare : e.prepare w with
  | error err =>
    rw [Engine.evaluate, Engine.evaluateBy, hprepare] at h
    cases h
  | ok v =>
    have hvalued := leavesValued_of_prepare hprepare
    by_cases hi : i < e.tree.size
    · rw [evaluate_eq_play hvalued hi hprepare] at h
      exact ⟨hi, v, rfl, (Except.ok.inj h).symm⟩
    · -- outside the tree the search would have failed
      have hsearch := search_outside (w := v) (Nat.not_lt.1 hi) (e.fresh i ch)
      rw [Engine.evaluate, Engine.evaluateBy, hprepare] at h
      dsimp only at h
      rw [Engine.fresh] at hsearch
      rw [show search e i v ⟨Outcome.empty e.tree.size i, ch⟩ = (_, _) from
        Prod.ext hsearch rfl] at h
      cases h

theorem exists_visit_of_evaluate {ch : Channel σ} {o : Outcome}
    (h : (e.evaluate i w ch).1 = .ok o) :
    e.tree.LeavesValued ∧ i < e.tree.size ∧ ∃ v,
      o = ((explore e i v).play e (e.fresh i ch)).outcome.finish (explore e i v).value := by
  obtain ⟨hi, v, hprepare, ho⟩ := exists_prepare_of_evaluate h
  exact ⟨leavesValued_of_prepare hprepare, hi, v, ho⟩

/-- What the parts of a table say of an evaluation that started at a node. -/
structure Covered (t : Tree) (start : Nat) (o : Outcome) : Prop where
  /-- Nodes are entered in preorder; the subtrees below cuts are left out. -/
  visitOrder : o.visitOrder.toList = (t.subtree start).filter (clear t o.prunedNodes)
  visitOrder_nodup : o.visitOrder.toList.Nodup
  prunedNodes_nodup : o.prunedNodes.Nodup
  /-- No cut lies above another one. -/
  incomparable : ∀ a ∈ o.prunedNodes, ∀ b ∈ o.prunedNodes, a ∈ t.ancestors b → a = b
  edge : ∀ p c, (p, c) ∈ o.prunedEdges.toList →
    t.parent c = some p ∧ o.isVisited p = true ∧ o.isVisited c = false
  /-- The children that were cut off are the last ones, and not all. -/
  below : ∀ p, o.prunedBelow p ≠ [] →
    ∃ c kept, t.children p = c :: kept ++ o.prunedBelow p
  prunedEdges_nodup : o.prunedEdges.toList.Nodup
  isPruned_iff : ∀ n, o.isPruned n = true ↔ n ∈ o.prunedNodes
  isVisited_iff : ∀ n, o.isVisited n = true ↔ n ∈ o.visitOrder.toList
  /-- A report shows the value of every node that was entered. -/
  valued : ∀ n r, o.record? n = some r → ∃ value, r.value = some value ∧
    Report.visitText r = " = " ++ Report.number value ++
      "  (α=" ++ Report.bound r.window.alpha ++ ", β=" ++ Report.bound r.window.beta ++ ")"
  outside : ∀ n, n ∉ t.subtree start → o.record? n = none ∧ o.isPruned n = false

/-- The table after a visit to a node of the tree. -/
def visitTable (e : Engine) (i : Nat) (w : Window) (ch : Channel σ) : Outcome :=
  ((explore e i w).play e (e.fresh i ch)).outcome

omit [Sink σ] in
theorem record?_fresh (e : Engine) (i : Nat) (ch : Channel σ) (n : Nat) :
    (e.fresh i ch).outcome.record? n = none := by
  show (Array.replicate e.tree.size none)[n]?.join = (none : Option Record)
  rw [Array.getElem?_replicate]
  split <;> rfl

omit [Sink σ] in
theorem isPruned_fresh (e : Engine) (i : Nat) (ch : Channel σ) (n : Nat) :
    (e.fresh i ch).outcome.isPruned n = false := by
  show (Array.replicate e.tree.size false).getD n false = false
  rw [Array.getD_eq_getD_getElem?, Array.getElem?_replicate]
  split <;> rfl

/-- Every visit is recorded. -/
theorem record?_of_mem_all (hi : i < e.tree.size) (ch : Channel σ) {u : Visit}
    (hu : u ∈ (explore e i w).all) :
    (visitTable e i w ch).record? u.place = some ⟨u.window, some u.value, u.best⟩ := by
  apply Visit.record?_play (nodup_places_explore e i w) hu
  show _ < (Array.replicate e.tree.size none).size
  rw [Array.size_replicate]
  exact place_lt_of_mem_all hi hu

/-- Records are those of the nodes entered, with their values. -/
theorem record?_visitTable (hi : i < e.tree.size) (w : Window) (ch : Channel σ) (n : Nat) :
    (n ∉ (explore e i w).places ∧ (visitTable e i w ch).record? n = none) ∨
      ∃ u ∈ (explore e i w).all, n = u.place ∧
        (visitTable e i w ch).record? n = some ⟨u.window, some u.value, u.best⟩ := by
  by_cases hn : n ∈ (explore e i w).places
  · obtain ⟨u, hu, rfl⟩ := List.mem_map.1 hn
    exact .inr ⟨u, hu, rfl, record?_of_mem_all hi ch hu⟩
  · exact .inl ⟨hn, (Visit.record?_play_of_not_mem hn _).trans (record?_fresh e i ch n)⟩

/-- So every record is that of a visit. -/
theorem exists_visit_of_record? (hi : i < e.tree.size) {ch : Channel σ} {n : Nat} {r : Record}
    (h : (visitTable e i w ch).record? n = some r) :
    ∃ u ∈ (explore e i w).all, n = u.place ∧ r = ⟨u.window, some u.value, u.best⟩ := by
  rcases record?_visitTable hi w ch n with ⟨-, hnone⟩ | ⟨u, hu, hn, hsome⟩
  · rw [hnone] at h
    cases h
  · exact ⟨u, hu, hn, Option.some.inj (h.symm.trans hsome)⟩

theorem start_visitTable (e : Engine) (i : Nat) (w : Window) (ch : Channel σ) :
    (visitTable e i w ch).start = i :=
  (Visit.sameShape_play (explore e i w) (e.fresh i ch)).2

theorem size_visitTable (e : Engine) (i : Nat) (w : Window) (ch : Channel σ) :
    (visitTable e i w ch).records.size = e.tree.size :=
  (Visit.sameShape_play (explore e i w) (e.fresh i ch)).1.trans Array.size_replicate

theorem visitOrder_visitTable (e : Engine) (i : Nat) (w : Window) (ch : Channel σ) :
    (visitTable e i w ch).visitOrder.toList = (explore e i w).places :=
  ((explore e i w).writes_play e (e.fresh i ch)).visitOrder

theorem prunedEdges_visitTable (e : Engine) (i : Nat) (w : Window) (ch : Channel σ) :
    (visitTable e i w ch).prunedEdges.toList = (explore e i w).edges :=
  ((explore e i w).writes_play e (e.fresh i ch)).prunedEdges

theorem isVisited_visitTable (hi : i < e.tree.size) (w : Window) (ch : Channel σ) (n : Nat) :
    (visitTable e i w ch).isVisited n = true ↔ n ∈ (explore e i w).places := by
  rw [Outcome.isVisited]
  rcases record?_visitTable hi w ch n with ⟨hn, hnone⟩ | ⟨u, hu, rfl, hsome⟩
  · rw [hnone]
    exact ⟨fun h => (by cases h), fun h => absurd h hn⟩
  · rw [hsome]
    exact ⟨fun _ => Visit.place_mem_places hu, fun _ => rfl⟩

theorem isPruned_visitTable (e : Engine) (i : Nat) (w : Window) (ch : Channel σ) (n : Nat) :
    (visitTable e i w ch).isPruned n = true ↔ n ∈ (explore e i w).pruned := by
  have hwrites := (explore e i w).writes_play e (e.fresh i ch)
  have hsize : (e.fresh i ch).outcome.pruned.size = e.tree.size := Array.size_replicate
  by_cases hn : n < e.tree.size
  · have hflag := hwrites.isPruned n (hsize ▸ hn)
    rw [isPruned_fresh] at hflag
    rw [visitTable, hflag]
    exact or_iff_right Bool.false_ne_true
  · -- outside the tree there are neither flags nor children
    have hflag : (visitTable e i w ch).isPruned n = false := by
      show Array.getD _ n false = false
      rw [Array.getD_eq_getD_getElem?, Array.getElem?_eq_none]
      · rfl
      · exact Nat.le_trans (Nat.le_of_eq (hwrites.size.trans hsize)) (Nat.not_lt.1 hn)
    rw [hflag]
    refine ⟨fun h => (by cases h), fun h => ?_⟩
    obtain ⟨d, hd, hnd⟩ := (explored_explore e i w).mem_subtree_of_pruned h
    exact absurd (Tree.lt_size_of_mem_ancestors (Tree.mem_subtree_iff.1 hnd)
      (Tree.lt_size_of_mem_children hd)) hn

/-- The table of a visit accounts for the whole subtree. -/
theorem covered_visitTable (hi : i < e.tree.size) (w : Window) (ch : Channel σ) :
    Covered e.tree i (visitTable e i w ch) := by
  have hv := explored_explore e i w
  have hplace := place_explore e i w
  have horder := visitOrder_visitTable e i w ch
  have hedges := prunedEdges_visitTable e i w ch
  have hpruned : (visitTable e i w ch).prunedNodes = (explore e i w).pruned :=
    congrArg (List.map Prod.snd) hedges
  have hvisited := isVisited_visitTable hi w ch
  constructor
  case visitOrder => rw [horder, hpruned, hv.places_eq_filter, hplace]
  case visitOrder_nodup =>
    rw [horder, hv.places_eq_filter]
    exact (e.tree.nodup_subtree _).filter _
  case prunedNodes_nodup =>
    rw [hpruned]
    exact hv.nodup_pruned
  case incomparable =>
    rw [hpruned]
    exact fun a ha b hb => hv.eq_of_mem_pruned ha hb
  case edge =>
    rw [hedges]
    intro p c hedge
    obtain ⟨hp, hc⟩ := hv.of_mem_edges hedge
    refine ⟨Tree.mem_children_iff.1 hc, (hvisited p).2 hp, ?_⟩
    rw [Bool.eq_false_iff, Ne, hvisited c, hv.mem_places_iff]
    exact fun h => h.2 c (e.tree.self_mem_ancestors c) (List.mem_map_of_mem hedge)
  case below =>
    intro p hp
    rw [Outcome.prunedBelow, hedges] at hp ⊢
    exact hv.children_eq_append_targets hp
  case prunedEdges_nodup =>
    rw [hedges]
    exact List.Nodup.of_map Prod.snd hv.nodup_pruned
  case isPruned_iff =>
    rw [hpruned]
    exact isPruned_visitTable e i w ch
  case isVisited_iff =>
    rw [horder]
    exact hvisited
  case valued =>
    intro n r hr
    obtain ⟨u, -, -, rfl⟩ := exists_visit_of_record? hi hr
    exact ⟨u.value, rfl, rfl⟩
  case outside =>
    intro n hn
    rw [← hplace] at hn
    constructor
    · rcases record?_visitTable hi w ch n with ⟨-, hnone⟩ | ⟨u, hu, rfl, -⟩
      · exact hnone
      · exact absurd (hv.mem_subtree_of_places (Visit.place_mem_places hu)) hn
    · rw [Bool.eq_false_iff, Ne, isPruned_visitTable]
      intro h
      obtain ⟨d, hd, hnd⟩ := hv.mem_subtree_of_pruned h
      exact hn (Tree.mem_subtree_iff_child.2 (.inr ⟨d, hd, hnd⟩))

/-- The value of the start node is no part of the account. -/
theorem Covered.finish {t : Tree} {o : Outcome} (h : Covered t i o) (value : Score) :
    Covered t i (o.finish value) :=
  ⟨h.visitOrder, h.visitOrder_nodup, h.prunedNodes_nodup, h.incomparable, h.edge, h.below,
    h.prunedEdges_nodup, h.isPruned_iff, h.isVisited_iff, h.valued, h.outside⟩

/-- Every evaluation that succeeds, by recursion or with a stack, with or without cutoffs and with
    any window, leaves a table that accounts for the whole subtree of its start node. -/
theorem evaluate_covers (e : Engine) (i : Nat) (w : Window) (ch : Channel σ) (o : Outcome)
    (h : (e.evaluate i w ch).1 = .ok o ∨ (e.evaluateIterative i w ch).1 = .ok o) :
    Covered e.tree i o := by
  have hiterative : e.evaluateIterative i w ch = e.evaluate i w ch :=
    evaluateBy_searchStack e i w ch
  rw [hiterative, or_self] at h
  obtain ⟨-, hi, v, rfl⟩ := exists_visit_of_evaluate h
  exact (covered_visitTable hi v ch).finish _

/-- The whole small tree with a window that holds a single score. -/
theorem evaluate_covers_small :
    ∃ o, ((Engine.evaluate ⟨Tree.small, true⟩ 0 ⟨5.0, 5.0⟩
        (⟨NullSink.mk, Journal.silent⟩ : Channel NullSink)).1 = .ok o ∨
      (Engine.evaluateIterative ⟨Tree.small, true⟩ 0 ⟨5.0, 5.0⟩
        (⟨NullSink.mk, Journal.silent⟩ : Channel NullSink)).1 = .ok o) ∧
      Covered Tree.small 0 o := by
  have hvalued : Tree.small.LeavesValued := by decide
  have hordered : (⟨5.0, 5.0⟩ : Window).isOrdered = true := by decide
  have hprepare := prepare_of_pruning (e := ⟨Tree.small, true⟩) hvalued rfl hordered
  have hok := evaluate_eq_play hvalued (by decide : 0 < Tree.small.size) hprepare
    (⟨NullSink.mk, Journal.silent⟩ : Channel NullSink)
  exact ⟨_, .inl hok, evaluate_covers ⟨Tree.small, true⟩ 0 ⟨5.0, 5.0⟩ _ _ (.inl hok)⟩

end GameSearch.Minimax
