/-
  GameSearch.Proofs.Tree.Subtree

  The nodes at or below a node, depth first and from left to right.  A walk over several
  subtrees is the walk over each of them, one after the other; it comes to every node
  whose line to the root passes the top of the subtree, and to each of them once.

    * `subtree_eq`      — a node comes first, then the subtrees of its children
    * `mem_subtree_iff` — who is in a subtree has its top on the line to the root
    * `nodup_subtree`   — no node occurs twice
-/
import Mathlib.Data.List.Nodup
import GameSearch.Proofs.Tree.Ancestry

namespace GameSearch.Tree

theorem walk_nil (t : Tree) : t.walk [] = [] := by
  rw [walk]

theorem walk_cons (t : Tree) (i : Nat) (stack : List Nat) :
    t.walk (i :: stack) = i :: t.walk (t.children i ++ stack) := by
  rw [walk]

/-- What lies deeper in the stack is walked later. -/
theorem walk_append (t : Tree) (xs ys : List Nat) : t.walk (xs ++ ys) = t.walk xs ++ t.walk ys := by
  fun_induction walk t xs with
  | case1 => rfl
  | case2 i stack ih => rw [List.cons_append, walk_cons, ← List.append_assoc, ih, List.cons_append]

/-- The nodes at or below a place, depth first and from left to right. -/
def subtree (t : Tree) (i : Nat) : List Nat := t.walk [i]

theorem walk_eq_flatMap (t : Tree) (places : List Nat) :
    t.walk places = places.flatMap t.subtree := by
  induction places with
  | nil => exact t.walk_nil
  | cons i places ih =>
    rw [List.flatMap_cons, ← ih]
    exact t.walk_append [i] places

theorem subtree_eq (t : Tree) (i : Nat) :
    t.subtree i = i :: (t.children i).flatMap t.subtree := by
  rw [subtree, walk_cons, List.append_nil, walk_eq_flatMap]

variable {t : Tree} {i j : Nat}

theorem mem_subtree_iff_child :
    j ∈ t.subtree i ↔ j = i ∨ ∃ c ∈ t.children i, j ∈ t.subtree c := by
  rw [subtree_eq, List.mem_cons, List.mem_flatMap]

/-- A subtree holds the nodes with its top on their line to the root. -/
theorem mem_subtree_iff : j ∈ t.subtree i ↔ i ∈ t.ancestors j := by
  induction i using childInduction (t := t) with
  | step i ih =>
    rw [mem_subtree_iff_child]
    constructor
    · rintro (rfl | ⟨c, hc, hj⟩)
      · exact t.self_mem_ancestors j
      · exact mem_ancestors_trans (mem_ancestors_of_mem_children hc) ((ih c hc).1 hj)
    · intro h
      by_cases hij : i = j
      · exact .inl hij.symm
      · obtain ⟨c, hc, hcj⟩ := exists_child_mem_ancestors h hij
        exact .inr ⟨c, hc, (ih c hc).2 hcj⟩

theorem self_mem_subtree (t : Tree) (i : Nat) : i ∈ t.subtree i :=
  mem_subtree_iff.2 (t.self_mem_ancestors i)

/-- The subtrees of siblings have no node in common. -/
theorem disjoint_subtrees {p a b : Nat} (ha : a ∈ t.children p) (hb : b ∈ t.children p)
    (hne : a ≠ b) : (t.subtree a).Disjoint (t.subtree b) := fun _ hja hjb =>
  hne (eq_of_mem_ancestors (mem_children_iff.1 ha) (mem_children_iff.1 hb)
    (mem_subtree_iff.1 hja) (mem_subtree_iff.1 hjb))

/-- No node is above itself. -/
theorem not_mem_subtree_child {c : Nat} (hc : c ∈ t.children i) : i ∉ t.subtree c := fun h =>
  not_mem_ancestors_of_mem_children hc (mem_subtree_iff.1 h)

theorem nodup_subtree (t : Tree) (i : Nat) : (t.subtree i).Nodup := by
  induction i using childInduction (t := t) with
  | step i ih =>
    rw [subtree_eq, List.nodup_cons, List.mem_flatMap]
    refine ⟨?_, List.nodup_flatMap.2 ⟨ih, ?_⟩⟩
    · rintro ⟨c, hc, hi⟩
      exact not_mem_subtree_child hc hi
    · refine (t.nodup_children i).imp_of_mem ?_
      intro a b ha hb hne
      exact disjoint_subtrees ha hb hne

end GameSearch.Tree
