/-
  GameSearch.Proofs.Tree.Queries

  What the queries of a tree answer.  Identifiers are looked up in the index and the check of
  the leaf values looks at the note of the builder; both answer as a look through the
  table would.

    * `find?_eq_some_iff`       — the place of an identifier
    * `valuelessLeaf?_eq_some_iff`, `valuelessLeaf?_eq_find?` — the note is of the first
      leaf without a value
    * `leafValues_eq_error_iff`, `leafValues_eq_ok_iff` — the check of the leaf values
    * `height_le_iff`           — the height bounds the depths
-/
import Mathlib.Data.Nat.Find
import GameSearch.Tree.Walk

namespace GameSearch.Tree

variable {t : Tree} {id : String} {i n : Nat} {fault : Fault}

theorem getElem_nodes (hi : i < t.nodes.size) : t.nodes[i] = t.node i := by
  simp [node, nodeAt, hi]

/-- The index tells the place of each identifier. -/
theorem find?_eq_some_iff : t.find? id = some n ↔ n < t.size ∧ t.id n = id := by
  rw [find?, t.index_eq]
  exact getElem?_indexOf_eq_some_iff t.wellFormed.ids_distinct

/-- A leaf that came without a value. -/
def Valueless (t : Tree) (i : Nat) : Prop :=
  i < t.size ∧ t.children i = [] ∧ (t.node i).value = none

theorem isValueless_getElem_iff (hi : i < t.nodes.size) :
    t.nodes[i].isValueless = true ↔ t.Valueless i := by
  rw [getElem_nodes hi, Node.isValueless, Bool.and_eq_true, Node.isLeaf, List.isEmpty_iff,
    Option.isNone_iff_eq_none]
  exact ⟨fun h => ⟨hi, h.2, h.1⟩, fun h => ⟨h.2.2, h.2.1⟩⟩

/-- The note is of the first leaf without a value. -/
theorem valuelessLeaf?_eq_some_iff :
    t.valuelessLeaf? = some n ↔ t.Valueless n ∧ ∀ m < n, ¬ t.Valueless m := by
  rw [t.valuelessLeaf_eq, firstValueless, Array.findIdx?_eq_some_iff_getElem]
  constructor
  · rintro ⟨hlt, hn, hfirst⟩
    exact ⟨(isValueless_getElem_iff hlt).1 hn,
      fun m hm h => hfirst m hm ((isValueless_getElem_iff h.1).2 h)⟩
  · rintro ⟨hn, hfirst⟩
    exact ⟨hn.1, (isValueless_getElem_iff hn.1).2 hn,
      fun m hm h => hfirst m hm ((isValueless_getElem_iff _).1 h)⟩

/-- It is what a look through the leaves of the finished table would find. -/
theorem valuelessLeaf?_eq_find? (t : Tree) :
    t.valuelessLeaf? = t.leaves.find? fun i => (t.node i).value.isNone := by
  ext n
  rw [valuelessLeaf?_eq_some_iff, leaves, List.find?_filter, List.find?_range_eq_some]
  simp only [Node.isLeaf, List.isEmpty_iff, Option.isNone_iff_eq_none, decide_eq_true_eq,
    Bool.not_eq_true', decide_eq_false_iff_not, List.mem_range, Valueless, children]
  constructor
  · rintro ⟨⟨hn, hleaf⟩, hfirst⟩
    exact ⟨hleaf, hn, fun m hm h => hfirst m hm ⟨Nat.lt_trans hm hn, h⟩⟩
  · rintro ⟨hleaf, hn, hfirst⟩
    exact ⟨⟨hn, hleaf⟩, fun m hm h => hfirst m hm h.2⟩

theorem valuelessLeaf?_eq_none_iff : t.valuelessLeaf? = none ↔ ∀ n, ¬ t.Valueless n := by
  rw [valuelessLeaf?_eq_find?, List.find?_eq_none]
  simp [leaves, Valueless, Node.isLeaf, children]

/-- The values are refused on account of the first leaf without one. -/
theorem leafValues_eq_error_iff : t.leafValues = .error fault ↔
    ∃ n, t.Valueless n ∧ (∀ m < n, ¬ t.Valueless m) ∧ fault = .leafWithoutValue (t.id n) := by
  rw [leafValues]
  constructor
  · intro h
    split at h
    · rename_i n hn
      obtain ⟨hvalueless, hfirst⟩ := valuelessLeaf?_eq_some_iff.1 hn
      cases h
      exact ⟨n, hvalueless, hfirst, rfl⟩
    · cases h
  · rintro ⟨n, hvalueless, hfirst, rfl⟩
    rw [valuelessLeaf?_eq_some_iff.2 ⟨hvalueless, hfirst⟩]

/-- Every leaf of the tree has a value. -/
def LeavesValued (t : Tree) : Prop :=
  ∀ i < t.size, t.children i = [] → (t.node i).value.isSome = true

instance (t : Tree) : Decidable t.LeavesValued :=
  inferInstanceAs (Decidable (∀ i < t.size, t.children i = [] → (t.node i).value.isSome = true))

/-- All leaves have values if none is without. -/
theorem leavesValued_iff : t.LeavesValued ↔ ∀ n, ¬ t.Valueless n := by
  constructor
  · rintro h n ⟨hn, hleaf, hnone⟩
    have hsome := h n hn hleaf
    rw [hnone] at hsome
    cases hsome
  · intro h i hi hleaf
    rw [Option.isSome_iff_ne_none]
    exact fun hnone => h i ⟨hi, hleaf, hnone⟩

/-- They are taken if all leaves have values. -/
theorem leafValues_eq_ok_iff : t.leafValues = .ok () ↔ t.LeavesValued := by
  rw [leafValues, leavesValued_iff, ← valuelessLeaf?_eq_none_iff]
  cases t.valuelessLeaf? <;> simp

theorem exists_leafValues_error_iff :
    (∃ fault, t.leafValues = .error fault) ↔ ∃ n, t.Valueless n := by
  classical
  constructor
  · rintro ⟨fault, h⟩
    obtain ⟨n, hn, -⟩ := leafValues_eq_error_iff.1 h
    exact ⟨n, hn⟩
  · intro h
    exact ⟨_, leafValues_eq_error_iff.2 ⟨Nat.find h, Nat.find_spec h, fun _ => Nat.find_min h, rfl⟩⟩

/-- The height is the least bound on the depths. -/
theorem height_le_iff {b : Nat} : t.height ≤ b ↔ ∀ i < t.size, (t.node i).depth ≤ b := by
  have hfold : ∀ (nodes : List Node) (start : Nat),
      nodes.foldl (fun h n => max h n.depth) start ≤ b ↔ start ≤ b ∧ ∀ n ∈ nodes, n.depth ≤ b := by
    intro nodes
    induction nodes with
    | nil => simp
    | cons first rest ih =>
      intro start
      rw [List.foldl_cons, ih, Nat.max_le, List.forall_mem_cons, and_assoc]
  rw [height, ← Array.foldl_toList, hfold, List.forall_mem_iff_forall_getElem]
  constructor
  · rintro ⟨-, hall⟩ i hi
    rw [← getElem_nodes hi]
    exact hall i hi
  · intro hall
    refine ⟨Nat.zero_le _, fun i hi => ?_⟩
    rw [Array.getElem_toList, getElem_nodes hi]
    exact hall i hi

/-- No node is deeper than the tree is high. -/
theorem depth_le_height (t : Tree) (i : Nat) : (t.node i).depth ≤ t.height := by
  by_cases hi : i < t.size
  · exact height_le_iff.1 (Nat.le_refl _) i hi
  · rw [node, nodeAt_of_size_le (Nat.le_of_not_lt hi)]
    exact Nat.zero_le _

/-- A child is one level deeper than its parent. -/
theorem depth_of_mem_children {t : Tree} {i c : Nat} (hc : c ∈ t.children i) :
    (t.node c).depth = (t.node i).depth + 1 :=
  t.wellFormed.parent_depth i c (mem_children_iff.1 hc)

end GameSearch.Tree
