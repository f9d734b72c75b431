/-
  GameSearch.Proofs.Minimax.Cuts

  Where a search cuts.  A cutoff leaves out the last children of a node, and whatever lies
  below them.  So the nodes of a subtree fall apart: each was entered, or it lies in the
  subtree of exactly one node that was cut off.

    * `Visit.edges`, `Visit.pruned` — the edges that a visit cuts, the nodes below them
    * `Explored`                    — visits that a search makes
    * `places_eq_filter`            — nodes are entered in preorder, cut subtrees left out
    * `eq_of_mem_pruned`            — no cut lies above another one
    * `children_eq_append_targets`  — below a node the last children are cut, never all
-/
import GameSearch.Proofs.Minimax.Table
import GameSearch.Proofs.Tree.Subtree

namespace GameSearch.Minimax

-- ============================================================================
-- The edges that a visit cuts
-- ============================================================================

namespace Visit

/-- The children left out by a cutoff. -/
def left (v : Visit) : List Nat := v.cut.getD []

/-- The edges that are cut at and below a visit, in the order in which they are cut. -/
def edges (v : Visit) : List (Nat × Nat) :=
  (v.visits.attach.map fun ⟨u, _⟩ => edges u).flatten ++ v.left.map (v.place, ·)
termination_by sizeOf v
decreasing_by
  obtain ⟨window, frame, visits, cut⟩ := v
  have hlt : sizeOf u < sizeOf visits := List.sizeOf_lt_of_mem ‹_›
  simp only [mk.sizeOf_spec]
  omega

theorem edges_eq (v : Visit) : v.edges = v.visits.flatMap edges ++ v.left.map (v.place, ·) := by
  rw [edges]
  simp [List.flatMap]

/-- The nodes below the edges that are cut. -/
def pruned (v : Visit) : List Nat := v.edges.map Prod.snd

theorem pruned_eq (v : Visit) : v.pruned = v.visits.flatMap pruned ++ v.left := by
  rw [pruned, edges_eq, List.map_append, List.map_flatMap, List.map_map]
  congr 1
  exact List.map_id _

theorem mem_pruned_iff {v : Visit} {c : Nat} :
    c ∈ v.pruned ↔ (∃ u ∈ v.visits, c ∈ u.pruned) ∨ c ∈ v.left := by
  rw [pruned_eq, List.mem_append, List.mem_flatMap]

end Visit

variable {e : Engine} {i : Nat} {w : Window}

/-- Only visits to children let a cutoff happen. -/
theorem visits_ne_nil_of_left_sweep {rest : List Nat} {f : Frame}
    (h : (sweep e w rest f).left ≠ []) : (sweep e w rest f).visits ≠ [] := by
  induction rest, f using sweepInduction e with
  | nil f =>
    rw [sweep_nil] at h
    exact absurd rfl h
  | cutoff c rest f hcut =>
    rw [sweep_cons_of_cutoff hcut]
    exact List.cons_ne_nil _ _
  | next c rest f hcut ih =>
    rw [sweep_cons hcut]
    exact List.cons_ne_nil _ _

/-- The visit is the one that a search makes. -/
def Explored (e : Engine) (v : Visit) : Prop := v = explore e v.place v.window

theorem explored_explore (e : Engine) (i : Nat) (w : Window) : Explored e (explore e i w) := by
  rw [Explored, place_explore, window_explore]

namespace Explored

open Visit

variable {v u : Visit} {c d j p : Nat}

/-- The visits to children are of the same kind. -/
theorem visit (h : Explored e v) (hu : u ∈ v.visits) :
    Explored e u ∧ u.place ∈ e.tree.children v.place := by
  rw [h] at hu
  exact (visits_explore e v.place v.window).1 u hu

/-- So are all visits below. -/
theorem of_mem_all (h : Explored e v) (hu : u ∈ v.all) : Explored e u :=
  Visit.forall_all (fun _ h _ hu => (h.visit hu).1) h u hu

/-- The children of a node are those visited and those left out. -/
theorem children (h : Explored e v) :
    v.visits.map place ++ v.left = e.tree.children v.place := by
  rw [h, place_explore]
  by_cases hleaf : e.tree.children v.place = []
  · rw [explore_of_leaf hleaf, hleaf]
    rfl
  · rw [explore_of_internal hleaf]
    exact places_sweep _ _

/-- Never all of them are left out. -/
theorem visits_ne_nil (h : Explored e v) (hleft : v.left ≠ []) : v.visits ≠ [] := by
  rw [h] at hleft ⊢
  by_cases hleaf : e.tree.children v.place = []
  · rw [explore_of_leaf hleaf] at hleft
    exact absurd rfl hleft
  · rw [explore_of_internal hleaf] at hleft ⊢
    exact visits_ne_nil_of_left_sweep hleft

/-- No child is both visited and left out, and none is visited twice. -/
theorem nodup_children (h : Explored e v) : (v.visits.map place ++ v.left).Nodup := by
  rw [h.children]
  exact e.tree.nodup_children v.place

theorem mem_children_of_left (h : Explored e v) (hc : c ∈ v.left) :
    c ∈ e.tree.children v.place := by
  rw [← h.children]
  exact List.mem_append_right _ hc

theorem ne_place_of_left (h : Explored e v) (hu : u ∈ v.visits) (hc : c ∈ v.left) :
    u.place ≠ c := by
  have hnodup := List.nodup_append.1 h.nodup_children
  exact hnodup.2.2 _ (List.mem_map_of_mem hu) _ hc

/-- The nodes entered lie in the subtree of the visit. -/
theorem mem_subtree_of_places (h : Explored e v) (hj : j ∈ v.places) :
    j ∈ e.tree.subtree v.place := by
  rw [h] at hj
  exact Tree.mem_subtree_iff.2 (mem_ancestors_of_mem_places hj)

/-- The nodes cut off lie in the subtree of a child. -/
theorem mem_subtree_of_pruned (h : Explored e v) (hc : c ∈ v.pruned) :
    ∃ d ∈ e.tree.children v.place, c ∈ e.tree.subtree d := by
  induction v using Visit.induction with
  | step v ih =>
    rcases mem_pruned_iff.1 hc with ⟨u, hu, hcu⟩ | hleft
    · obtain ⟨hexplored, hchild⟩ := h.visit hu
      obtain ⟨d, hd, hcd⟩ := ih u hu hexplored hcu
      exact ⟨u.place, hchild, Tree.mem_subtree_iff_child.2 (.inr ⟨d, hd, hcd⟩)⟩
    · exact ⟨c, h.mem_children_of_left hleft, e.tree.self_mem_subtree c⟩

/-- Below a visited child, the cuts above a node are those made there. -/
theorem mem_pruned_iff_of_visit (h : Explored e v) (hu : u ∈ v.visits)
    (hj : j ∈ e.tree.subtree u.place) (hc : c ∈ e.tree.ancestors j) :
    c ∈ v.pruned ↔ c ∈ u.pruned := by
  obtain ⟨hexplored, hchild⟩ := h.visit hu
  refine ⟨fun hmem => ?_, fun hmem => mem_pruned_iff.2 (.inl ⟨u, hu, hmem⟩)⟩
  -- the child on the line of the node is the visited one
  have hsame : ∀ d ∈ e.tree.children v.place, d ∈ e.tree.ancestors j → d = u.place :=
    fun d hd hdj => Tree.eq_of_mem_ancestors (Tree.mem_children_iff.1 hd)
      (Tree.mem_children_iff.1 hchild) hdj (Tree.mem_subtree_iff.1 hj)
  rcases mem_pruned_iff.1 hmem with ⟨x, hx, hcx⟩ | hleft
  · obtain ⟨hxplored, hxchild⟩ := h.visit hx
    obtain ⟨d, hd, hcd⟩ := hxplored.mem_subtree_of_pruned hcx
    have hplace : x.place = u.place := by
      refine hsame x.place hxchild ?_
      exact Tree.mem_ancestors_trans (Tree.mem_ancestors_trans
        (Tree.mem_ancestors_of_mem_children hd) (Tree.mem_subtree_iff.1 hcd)) hc
    have hnodup := (List.nodup_append.1 h.nodup_children).1
    rwa [← List.inj_on_of_nodup_map hnodup hx hu hplace]
  · exact absurd (hsame c (h.mem_children_of_left hleft) hc).symm (h.ne_place_of_left hu hleft)

/-- No cut is above the node of a visit. -/
theorem not_mem_pruned_of_ancestor (h : Explored e v) (hc : c ∈ e.tree.ancestors v.place) :
    c ∉ v.pruned := by
  intro hmem
  obtain ⟨d, hd, hcd⟩ := h.mem_subtree_of_pruned hmem
  exact Tree.not_mem_ancestors_of_mem_children hd
    (Tree.mem_ancestors_trans (Tree.mem_subtree_iff.1 hcd) hc)

end Explored

/-- A node lies in none of the subtrees of some places. -/
def clear (t : Tree) (places : List Nat) (j : Nat) : Bool :=
  places.all fun c => j ∉ t.subtree c

/-- Then none of these places is on its line to the root. -/
theorem clear_iff {t : Tree} {places : List Nat} {j : Nat} :
    clear t places j = true ↔ ∀ a ∈ t.ancestors j, a ∉ places := by
  simp only [clear, List.all_eq_true, decide_eq_true_eq, Tree.mem_subtree_iff]
  exact ⟨fun h a ha hmem => h a hmem ha, fun h a ha hmem => h a hmem ha⟩

namespace Explored

open Visit

variable {v u : Visit} {a b c j p : Nat}

/-- Below a visited child the same nodes are clear of all cuts and of the cuts made there. -/
theorem clear_iff_of_visit (h : Explored e v) (hu : u ∈ v.visits)
    (hj : j ∈ e.tree.subtree u.place) :
    clear e.tree v.pruned j = clear e.tree u.pruned j := by
  rw [Bool.eq_iff_iff, clear_iff, clear_iff]
  refine forall₂_congr fun a ha => ?_
  rw [h.mem_pruned_iff_of_visit hu hj ha]

/-- The nodes entered are those of the subtree that no cut is above, in preorder. -/
theorem places_eq_filter (h : Explored e v) :
    v.places = (e.tree.subtree v.place).filter (clear e.tree v.pruned) := by
  induction v using Visit.induction with
  | step v ih =>
    have hself : clear e.tree v.pruned v.place = true :=
      clear_iff.2 fun a ha => h.not_mem_pruned_of_ancestor ha
    have hvisits : v.visits.flatMap places =
        v.visits.flatMap fun u => (e.tree.subtree u.place).filter (clear e.tree v.pruned) := by
      refine List.flatMap_congr fun u hu => ?_
      rw [ih u hu (h.visit hu).1]
      exact List.filter_congr fun j hj => (h.clear_iff_of_visit hu hj).symm
    -- whatever lies at or below a child that was left out
    have hleft : (v.left.flatMap e.tree.subtree).filter (clear e.tree v.pruned) = [] := by
      rw [List.filter_eq_nil_iff]
      intro j hj hclear
      obtain ⟨c, hc, hcj⟩ := List.mem_flatMap.1 hj
      exact clear_iff.1 hclear c (Tree.mem_subtree_iff.1 hcj) (mem_pruned_iff.2 (.inr hc))
    rw [places_eq, Tree.subtree_eq, List.filter_cons_of_pos hself, ← h.children,
      List.flatMap_append, List.filter_append, hleft, List.append_nil, List.flatMap_map,
      List.filter_flatMap, hvisits]

/-- A node is entered exactly if it is in the subtree and no cut is above it. -/
theorem mem_places_iff (h : Explored e v) :
    j ∈ v.places ↔ j ∈ e.tree.subtree v.place ∧ ∀ a ∈ e.tree.ancestors j, a ∉ v.pruned := by
  rw [h.places_eq_filter, List.mem_filter, clear_iff]

/-- Edges lead from nodes that were entered to children that were not. -/
theorem of_mem_edges (h : Explored e v) (hedge : (p, c) ∈ v.edges) :
    p ∈ v.places ∧ c ∈ e.tree.children p := by
  induction v using Visit.induction with
  | step v ih =>
    rw [edges_eq, List.mem_append, List.mem_flatMap] at hedge
    rcases hedge with ⟨u, hu, hcu⟩ | hleft
    · obtain ⟨hp, hc⟩ := ih u hu (h.visit hu).1 hcu
      exact ⟨Visit.mem_places_iff.2 (.inr ⟨u, hu, hp⟩), hc⟩
    · obtain ⟨d, hd, hpair⟩ := List.mem_map.1 hleft
      cases hpair
      exact ⟨Visit.mem_places_iff.2 (.inl rfl), h.mem_children_of_left hd⟩

/-- No node is cut off twice. -/
theorem nodup_pruned (h : Explored e v) : v.pruned.Nodup := by
  induction v using Visit.induction with
  | step v ih =>
    have hnodup := List.nodup_append.1 h.nodup_children
    -- what a visit to a child cuts off lies strictly below that child
    have hbelow : ∀ u ∈ v.visits, ∀ j ∈ u.pruned, j ∈ e.tree.subtree u.place ∧ j ≠ u.place := by
      intro u hu j hj
      obtain ⟨d, hd, hjd⟩ := (h.visit hu).1.mem_subtree_of_pruned hj
      refine ⟨Tree.mem_subtree_iff_child.2 (.inr ⟨d, hd, hjd⟩), ?_⟩
      rintro rfl
      exact Tree.not_mem_subtree_child hd hjd
    rw [pruned_eq, List.nodup_append]
    refine ⟨List.nodup_flatMap.2 ⟨fun u hu => ih u hu (h.visit hu).1, ?_⟩, hnodup.2.1, ?_⟩
    · refine (List.pairwise_map.1 hnodup.1).imp_of_mem ?_
      intro u u' hu hu' hne j hj hj'
      exact Tree.disjoint_subtrees (h.visit hu).2 (h.visit hu').2 hne (hbelow u hu j hj).1
        (hbelow u' hu' j hj').1
    · rintro j hj c hc rfl
      obtain ⟨u, hu, hju⟩ := List.mem_flatMap.1 hj
      obtain ⟨hsub, hne⟩ := hbelow u hu j hju
      exact Tree.disjoint_subtrees (h.visit hu).2 (h.mem_children_of_left hc)
        (h.ne_place_of_left hu hc) hsub (e.tree.self_mem_subtree j)

/-- No cut lies above another one. -/
theorem eq_of_mem_pruned (h : Explored e v) (ha : a ∈ v.pruned) (hb : b ∈ v.pruned)
    (hab : a ∈ e.tree.ancestors b) : a = b := by
  obtain ⟨⟨p, c⟩, hedge, hc⟩ := List.mem_map.1 hb
  cases hc
  obtain ⟨hp, hchild⟩ := h.of_mem_edges hedge
  rcases (Tree.mem_ancestors_iff_of_parent (Tree.mem_children_iff.1 hchild)).1 hab with heq | hap
  · exact heq
  · -- the parent of the lower one was entered
    exact absurd ha ((h.mem_places_iff.1 hp).2 a hap)

end Explored

/-- If no two elements of a list have parts, all parts are those of one element. -/
theorem flatMap_eq_nil_or {α β : Type} {f : α → List β} {xs : List α}
    (h : xs.Pairwise fun x y => f x = [] ∨ f y = []) :
    xs.flatMap f = [] ∨ ∃ x ∈ xs, xs.flatMap f = f x := by
  induction xs with
  | nil => exact .inl rfl
  | cons x xs ih =>
    obtain ⟨hx, hxs⟩ := List.pairwise_cons.1 h
    rw [List.flatMap_cons]
    by_cases hnil : f x = []
    · rw [hnil, List.nil_append]
      exact (ih hxs).imp_right fun ⟨y, hy, hfy⟩ => ⟨y, List.mem_cons_of_mem _ hy, hfy⟩
    · have hrest : xs.flatMap f = [] :=
        List.flatMap_eq_nil_iff.2 fun y hy => (hx y hy).resolve_left hnil
      rw [hrest, List.append_nil]
      exact .inr ⟨x, List.mem_cons_self, rfl⟩

/-- The children of a node to which the edges among the given ones lead, in order. -/
def targets (edges : List (Nat × Nat)) (p : Nat) : List Nat :=
  (edges.filter fun edge => edge.1 == p).map Prod.snd

theorem targets_eq_nil_iff {edges : List (Nat × Nat)} {p : Nat} :
    targets edges p = [] ↔ ∀ c, (p, c) ∉ edges := by
  rw [targets, List.map_eq_nil_iff, List.filter_eq_nil_iff]
  constructor
  · intro h c hc
    exact h (p, c) hc (beq_self_eq_true p)
  · rintro h ⟨q, c⟩ hmem hq
    obtain rfl : q = p := eq_of_beq hq
    exact h c hmem

theorem targets_append (xs ys : List (Nat × Nat)) (p : Nat) :
    targets (xs ++ ys) p = targets xs p ++ targets ys p := by
  rw [targets, List.filter_append, List.map_append]
  rfl

/-- Edges from one node lead to the given children of that node, and of no other one. -/
theorem targets_map (q : Nat) (children : List Nat) (p : Nat) :
    targets (children.map (q, ·)) p = if q = p then children else [] := by
  split
  · rename_i h
    rw [targets, List.filter_eq_self.2 fun edge hedge => ?_]
    · rw [List.map_map]
      exact List.map_id _
    · obtain ⟨c, -, rfl⟩ := List.mem_map.1 hedge
      exact beq_iff_eq.2 h
  · rename_i h
    refine targets_eq_nil_iff.2 fun c hc => ?_
    obtain ⟨d, -, hd⟩ := List.mem_map.1 hc
    exact h (congrArg Prod.fst hd)

namespace Explored

open Visit

variable {v u : Visit} {p : Nat}

theorem mem_places_of_targets (h : Explored e v) (hp : targets v.edges p ≠ []) : p ∈ v.places := by
  by_contra hout
  exact hp (targets_eq_nil_iff.2 fun c hc => hout (h.of_mem_edges hc).1)

/-- At most one of the visits to children cuts edges below a given node. -/
theorem pairwise_targets (h : Explored e v) (p : Nat) :
    v.visits.Pairwise fun u u' => targets u.edges p = [] ∨ targets u'.edges p = [] := by
  have hnodup := (List.nodup_append.1 h.nodup_children).1
  refine (List.pairwise_map.1 hnodup).imp_of_mem ?_
  intro u u' hu hu' hne
  by_contra hboth
  rw [not_or] at hboth
  have hp := (h.visit hu).1.mem_places_of_targets hboth.1
  have hp' := (h.visit hu').1.mem_places_of_targets hboth.2
  exact Tree.disjoint_subtrees (h.visit hu).2 (h.visit hu').2 hne
    ((h.visit hu).1.mem_subtree_of_places hp) ((h.visit hu').1.mem_subtree_of_places hp')

/-- Below a node the last children are cut off, in order, and never all of them. -/
theorem children_eq_append_targets (h : Explored e v) (hp : targets v.edges p ≠ []) :
    ∃ c kept, e.tree.children p = c :: kept ++ targets v.edges p := by
  induction v using Visit.induction with
  | step v ih =>
    have hsplit : targets v.edges p = v.visits.flatMap (fun u => targets u.edges p) ++
        if v.place = p then v.left else [] := by
      rw [edges_eq, targets_append, targets_map, targets, List.filter_flatMap, List.map_flatMap]
      rfl
    by_cases hplace : v.place = p
    · -- the children visited lie below the node, so they cut none of its edges
      have hnone : v.visits.flatMap (fun u => targets u.edges p) = [] := by
        refine List.flatMap_eq_nil_iff.2 fun u hu => ?_
        by_contra hne
        have hmem := (h.visit hu).1.mem_places_of_targets hne
        rw [← hplace] at hmem
        exact Tree.not_mem_subtree_child (h.visit hu).2
          ((h.visit hu).1.mem_subtree_of_places hmem)
      rw [hsplit, hnone, List.nil_append, if_pos hplace] at hp ⊢
      obtain ⟨u, visits, hvisits⟩ := List.exists_cons_of_ne_nil (h.visits_ne_nil hp)
      refine ⟨u.place, visits.map place, ?_⟩
      rw [← hplace, ← h.children, hvisits]
      rfl
    · rw [hsplit, if_neg hplace, List.append_nil] at hp ⊢
      rcases flatMap_eq_nil_or (h.pairwise_targets p) with hnil | ⟨u, hu, hone⟩
      · exact absurd hnil hp
      · rw [hone] at hp ⊢
        exact ih u hu (h.visit hu).1 hp

end Explored

end GameSearch.Minimax
