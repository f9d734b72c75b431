/-
  GameSearch.Proofs.Tree.Ancestry

  The line from a node up to the root.  A node lies at or below another one if that
  one is on its line.  Below a node each other node lies below exactly one of the
  children, so the subtrees of siblings have no node in common.

    * `mem_ancestors_iff_of_parent` — the line of a child is that of its parent and itself
    * `exists_child_mem_ancestors`  — who is below a node is below one of its children
    * `eq_of_mem_ancestors`         — and below no other child
-/
import GameSearch.Tree.Walk

namespace GameSearch.Tree

variable {t : Tree} {a b c i p x y : Nat}

theorem ancestors_of_parent (h : t.parent i = some p) : t.ancestors i = i :: t.ancestors p := by
  rw [ancestors]
  split
  · rename_i hnone
    rw [h] at hnone
    cases hnone
  · rename_i q hq
    rw [h] at hq
    cases hq
    rfl

theorem ancestors_of_root (h : t.parent i = none) : t.ancestors i = [i] := by
  rw [ancestors]
  split
  · rfl
  · rename_i q hq
    rw [h] at hq
    cases hq

theorem self_mem_ancestors (t : Tree) (i : Nat) : i ∈ t.ancestors i := by
  cases h : t.parent i with
  | none => rw [ancestors_of_root h]; exact List.mem_singleton_self i
  | some p => rw [ancestors_of_parent h]; exact List.mem_cons_self

theorem mem_ancestors_iff_of_parent (h : t.parent i = some p) :
    a ∈ t.ancestors i ↔ a = i ∨ a ∈ t.ancestors p := by
  rw [ancestors_of_parent h, List.mem_cons]

/-- A statement about the line of a node holds if it holds at the top of the tree and passes
    from parents to children. -/
theorem parentInduction {motive : Nat → Prop} (top : ∀ i, t.parent i = none → motive i)
    (step : ∀ i p, t.parent i = some p → motive p → motive i) (i : Nat) : motive i := by
  induction i using Nat.strongRecOn with
  | ind i ih =>
    cases h : t.parent i with
    | none => exact top i h
    | some p => exact step i p h (ih p (lt_of_parent h))

theorem le_of_mem_ancestors : a ∈ t.ancestors i → a ≤ i := by
  induction i using parentInduction (t := t) with
  | top i h =>
    rw [ancestors_of_root h, List.mem_singleton]
    intro ha
    omega
  | step i p h ih =>
    rw [mem_ancestors_iff_of_parent h]
    rintro (rfl | ha)
    · exact Nat.le_refl _
    · have := ih ha
      have := lt_of_parent h
      omega

theorem nodup_ancestors (t : Tree) (i : Nat) : (t.ancestors i).Nodup := by
  induction i using parentInduction (t := t) with
  | top i h =>
    rw [ancestors_of_root h]
    exact List.pairwise_singleton _ i
  | step i p h ih =>
    rw [ancestors_of_parent h, List.nodup_cons]
    refine ⟨fun hmem => ?_, ih⟩
    have := le_of_mem_ancestors hmem
    have := lt_of_parent h
    omega

theorem mem_ancestors_trans (hab : a ∈ t.ancestors b) (hbi : b ∈ t.ancestors i) :
    a ∈ t.ancestors i := by
  induction i using parentInduction (t := t) with
  | top i h =>
    rw [ancestors_of_root h, List.mem_singleton] at hbi
    rwa [hbi] at hab
  | step i p h ih =>
    rcases (mem_ancestors_iff_of_parent h).1 hbi with rfl | hbp
    · exact hab
    · exact (mem_ancestors_iff_of_parent h).2 (.inr (ih hbp))

/-- A parent is on the line of its child. -/
theorem mem_ancestors_of_mem_children (h : c ∈ t.children p) : p ∈ t.ancestors c :=
  (mem_ancestors_iff_of_parent (mem_children_iff.1 h)).2 (.inr (self_mem_ancestors t p))

/-- No child is on the line of its parent. -/
theorem not_mem_ancestors_of_mem_children (h : c ∈ t.children p) : c ∉ t.ancestors p := by
  intro hmem
  have := le_of_mem_ancestors hmem
  have := lt_of_mem_children h
  omega

/-- The parent of a node on a line is on it too. -/
theorem mem_ancestors_parent (h : t.parent c = some p) (hc : c ∈ t.ancestors i) :
    p ∈ t.ancestors i :=
  mem_ancestors_trans (mem_ancestors_of_mem_children (mem_children_iff.2 h)) hc

/-- Whoever is strictly below a node is at or below one of its children. -/
theorem exists_child_mem_ancestors (h : x ∈ t.ancestors y) (hne : x ≠ y) :
    ∃ c ∈ t.children x, c ∈ t.ancestors y := by
  induction y using parentInduction (t := t) with
  | top y hy =>
    rw [ancestors_of_root hy, List.mem_singleton] at h
    exact absurd h hne
  | step y p hy ih =>
    rcases (mem_ancestors_iff_of_parent hy).1 h with rfl | hp
    · exact absurd rfl hne
    · by_cases hxp : x = p
      · subst hxp
        exact ⟨y, mem_children_iff.2 hy, self_mem_ancestors t y⟩
      · obtain ⟨c, hc, hcp⟩ := ih hp hxp
        exact ⟨c, hc, (mem_ancestors_iff_of_parent hy).2 (.inr hcp)⟩

/-- Siblings on one line are the same node. -/
theorem eq_of_mem_ancestors (ha : t.parent a = some p) (hb : t.parent b = some p)
    (hay : a ∈ t.ancestors y) (hby : b ∈ t.ancestors y) : a = b := by
  induction y using parentInduction (t := t) with
  | top y hy =>
    rw [ancestors_of_root hy, List.mem_singleton] at hay hby
    rw [hay, hby]
  | step y q hy ih =>
    rcases (mem_ancestors_iff_of_parent hy).1 hay with rfl | haq <;>
      rcases (mem_ancestors_iff_of_parent hy).1 hby with rfl | hbq
    · rfl
    -- the parent of one sibling would lie below the other sibling
    · rw [ha] at hy
      cases hy
      exact absurd hbq (not_mem_ancestors_of_mem_children (mem_children_iff.2 hb))
    · rw [hb] at hy
      cases hy
      exact absurd haq (not_mem_ancestors_of_mem_children (mem_children_iff.2 ha))
    · exact ih haq hbq

/-- Whoever is below a node of the tree is in the tree. -/
theorem lt_size_of_mem_ancestors (h : a ∈ t.ancestors i) (ha : a < t.size) : i < t.size := by
  cases hi : t.parent i with
  | none =>
    rw [ancestors_of_root hi, List.mem_singleton] at h
    rwa [h] at ha
  | some p => exact lt_size_of_parent hi

/-- Every node of the tree is below the root. -/
theorem root_mem_ancestors (h : i < t.size) : t.root ∈ t.ancestors i := by
  induction i using parentInduction (t := t) with
  | top i hi =>
    have hroot : i = t.root := by
      by_cases hpos : 0 < i
      · exact absurd hi (t.wellFormed.has_parent i hpos h)
      · exact Nat.eq_zero_of_not_pos hpos
    rw [hroot]
    exact self_mem_ancestors t t.root
  | step i p hi ih =>
    have hp : p < t.size := Nat.lt_trans (lt_of_parent hi) h
    exact (mem_ancestors_iff_of_parent hi).2 (.inr (ih hp))

theorem nodup_children (t : Tree) (i : Nat) : (t.children i).Nodup :=
  (t.wellFormed.children_sorted i).imp fun h => Nat.ne_of_lt h

end GameSearch.Tree
