/-
  GameSearch.Proofs.Tree.Preorder

  Subtrees as they stand in the preorder.  The nodes at or below a node follow each other
  without a gap, the node itself first; all the others are deeper than it, and what comes next
  is not.  So a walk that knows nothing but depths can tell where a subtree ends.

    * `mem_preorder_iff`, `perm_preorder`   — every node of the tree, once
    * `depth_lt_of_mem_below`               — below its top a subtree is deeper
    * `exists_block`                        — a subtree inside another one
    * `subtree_eq_takeWhile`                — a node and the deeper ones directly behind it
-/
import GameSearch.Proofs.Tree.Representation
import GameSearch.Proofs.Tree.Subtree

namespace GameSearch.Tree

variable {t : Tree} {a b i n : Nat}

-- ============================================================================
-- The nodes of the preorder
-- ============================================================================

theorem mem_preorder_iff : n ∈ t.preorder ↔ n < t.size := by
  show n ∈ t.subtree t.root ↔ n < t.size
  rw [mem_subtree_iff]
  exact ⟨fun h => lt_size_of_mem_ancestors h t.wellFormed.nonempty, root_mem_ancestors⟩

theorem nodup_preorder (t : Tree) : t.preorder.Nodup := t.nodup_subtree t.root

theorem perm_preorder (t : Tree) : t.preorder.Perm (List.range t.size) :=
  (List.perm_ext_iff_of_nodup t.nodup_preorder List.nodup_range).2 fun n => by
    rw [mem_preorder_iff, List.mem_range]

theorem length_preorder (t : Tree) : t.preorder.length = t.size := by
  rw [t.perm_preorder.length_eq, List.length_range]

-- ============================================================================
-- Depths
-- ============================================================================

theorem depth_le_of_mem_subtree (h : b ∈ t.subtree a) : (t.node a).depth ≤ (t.node b).depth := by
  induction a using childInduction (t := t) with
  | step a ih =>
    rcases mem_subtree_iff_child.1 h with rfl | ⟨c, hc, hb⟩
    · exact Nat.le_refl _
    · have hdepth := depth_of_mem_children hc
      have hle := ih c hc hb
      omega

/-- Below its top a subtree is deeper. -/
theorem depth_lt_of_mem_below (h : b ∈ (t.children a).flatMap t.subtree) :
    (t.node a).depth < (t.node b).depth := by
  obtain ⟨c, hc, hb⟩ := List.mem_flatMap.1 h
  have hdepth := depth_of_mem_children hc
  have hle := depth_le_of_mem_subtree hb
  omega

-- ============================================================================
-- Blocks
-- ============================================================================

/-- The subtree of a node stands in every subtree that the node is in as one block, and the node
    that follows the block is not deeper than its first. -/
theorem exists_block (h : a ∈ t.subtree i) :
    ∃ left right, t.subtree i = left ++ t.subtree a ++ right ∧
      ∀ r ∈ right.head?, (t.node r).depth ≤ (t.node a).depth := by
  induction i using childInduction (t := t) with
  | step i ih =>
    rcases mem_subtree_iff_child.1 h with rfl | ⟨c, hc, ha⟩
    · exact ⟨[], [], (List.append_nil _).symm, fun r hr => by cases hr⟩
    · obtain ⟨left, right, hblock, hright⟩ := ih c hc ha
      obtain ⟨before, after, hchildren⟩ := List.append_of_mem hc
      refine ⟨i :: before.flatMap t.subtree ++ left, right ++ after.flatMap t.subtree, ?_, ?_⟩
      · rw [subtree_eq, hchildren, List.flatMap_append, List.flatMap_cons, hblock]
        simp only [List.append_assoc, List.cons_append]
      · cases right with
        | cons r right => exact hright
        | nil =>
          -- the block is the end of its sibling's subtree, so the next sibling follows
          cases after with
          | nil => exact fun r hr => by cases hr
          | cons d after =>
            have hd : d ∈ t.children i := by
              rw [hchildren]
              exact List.mem_append_right _ (List.mem_cons_of_mem c List.mem_cons_self)
            have hle := depth_le_of_mem_subtree ha
            have hsiblings := (depth_of_mem_children hd).trans (depth_of_mem_children hc).symm
            intro r hr
            rw [List.nil_append, List.flatMap_cons, subtree_eq] at hr
            cases hr
            exact hsiblings ▸ hle

/-- The subtree of a node is the node and, in preorder, the deeper ones directly behind it. -/
theorem subtree_eq_takeWhile {left rest : List Nat} (h : t.preorder = left ++ a :: rest) :
    t.subtree a = a :: rest.takeWhile fun m => (t.node a).depth < (t.node m).depth := by
  have hmem : a ∈ t.preorder := by
    rw [h]
    exact List.mem_append_right _ List.mem_cons_self
  obtain ⟨left', right, hblock, hright⟩ := exists_block (i := t.root) hmem
  have hsplit : left' ++ a :: ((t.children a).flatMap t.subtree ++ right) = left ++ a :: rest := by
    rw [← h, preorder, ← subtree, hblock, subtree_eq t a, List.append_assoc, List.cons_append]
  -- a node occurs once, so there is one way to split the preorder at it
  have hnodup := t.nodup_preorder
  rw [h, List.nodup_middle, List.nodup_cons, List.mem_append, not_or] at hnodup
  obtain ⟨⟨hleft, hrest⟩, -⟩ := hnodup
  obtain ⟨-, -, rfl⟩ := (List.append_cons_inj_of_notMem hleft hrest).1 hsplit.symm
  have hstop : right.takeWhile (fun m => (t.node a).depth < (t.node m).depth) = [] := by
    cases right with
    | nil => rfl
    | cons r right =>
      exact List.takeWhile_cons_of_neg (by simpa using hright r rfl)
  rw [List.takeWhile_append_of_pos fun m hm => decide_eq_true (depth_lt_of_mem_below hm), hstop,
    List.append_nil, subtree_eq]

end GameSearch.Tree
