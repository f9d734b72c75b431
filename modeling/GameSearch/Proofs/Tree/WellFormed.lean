/-
  GameSearch.Proofs.Tree.WellFormed

  Well-formedness of a table can be computed.  The conditions speak of all places;
  outside the table stands the absent node, so it is enough to look at the places in it.

    * `wellFormed_iff_bounded` — the conditions, for the places of the table only
    * `Tree.small`             — a tree of seven nodes, for use in examples
-/
import GameSearch.Tree.Basic

namespace GameSearch

/-- What has to be looked at in a table to see that it is well formed. -/
def Bounded (nodes : Array Node) : Prop :=
  (0 < nodes.size ∧ (nodeAt nodes 0).parent = none ∧ (nodeAt nodes 0).depth = 0) ∧
  (∀ i < nodes.size, ∀ c ∈ (nodeAt nodes i).children, (nodeAt nodes c).parent = some i) ∧
  (∀ i < nodes.size, ∀ p ∈ (nodeAt nodes i).parent, i ∈ (nodeAt nodes p).children ∧ p < i ∧
    (nodeAt nodes i).depth = (nodeAt nodes p).depth + 1) ∧
  (∀ i < nodes.size, 0 < i → (nodeAt nodes i).parent ≠ none) ∧
  (∀ i < nodes.size, (nodeAt nodes i).children.Pairwise (· < ·)) ∧
  (∀ i < nodes.size, ∀ j < nodes.size, (nodeAt nodes i).id = (nodeAt nodes j).id → i = j) ∧
  (∀ i < nodes.size, (nodeAt nodes i).children ≠ [] → (nodeAt nodes i).value = none) ∧
  ∀ i < nodes.size, ∀ v ∈ (nodeAt nodes i).value, v.isFinite = true

instance (nodes : Array Node) : Decidable (Bounded nodes) :=
  inferInstanceAs (Decidable (_ ∧ _))

/-- Of the places outside the table nothing has to be looked at. -/
theorem wellFormed_iff_bounded {nodes : Array Node} : WellFormed nodes ↔ Bounded nodes := by
  -- what is found outside the table has neither children nor a parent nor a value
  have houtside : ∀ i, nodes.size ≤ i → nodeAt nodes i = Node.absent := fun i hi =>
    nodeAt_of_size_le hi
  constructor
  · intro h
    refine ⟨⟨h.nonempty, h.root_parent, h.root_depth⟩, ?_, ?_, ?_, ?_, ?_, ?_, ?_⟩
    · exact fun i _ c hc => (h.mem_children i c).1 hc
    · exact fun i _ p hp => ⟨(h.mem_children p i).2 hp, h.parent_lt p i hp, h.parent_depth p i hp⟩
    · exact fun i hi hpos => h.has_parent i hpos hi
    · exact fun i _ => h.children_sorted i
    · exact fun i hi j hj => h.ids_distinct i j hi hj
    · exact fun i _ => h.internal_value i
    · exact fun i _ v hv => h.value_finite i v hv
  · rintro ⟨⟨hpos, hroot, hdepth⟩, hchildren, hparent, hnonroot, hsorted, hids, hinternal, hfinite⟩
    have hup : ∀ p c, (nodeAt nodes c).parent = some p → c ∈ (nodeAt nodes p).children ∧ p < c ∧
        (nodeAt nodes c).depth = (nodeAt nodes p).depth + 1 := by
      intro p c h
      by_cases hc : c < nodes.size
      · exact hparent c hc p h
      · rw [houtside c (by omega)] at h
        cases h
    refine ⟨hpos, hroot, hdepth, ?_, ?_, ?_, ?_, ?_, ?_, ?_, ?_⟩
    · intro p c
      constructor
      · intro h
        by_cases hp : p < nodes.size
        · exact hchildren p hp c h
        · rw [houtside p (by omega)] at h
          cases h
      · exact fun h => (hup p c h).1
    · exact fun p c h => (hup p c h).2.1
    · exact fun p c h => (hup p c h).2.2
    · exact fun c hc hsize => hnonroot c hsize hc
    · intro p
      by_cases hp : p < nodes.size
      · exact hsorted p hp
      · rw [houtside p (by omega)]
        exact List.Pairwise.nil
    · exact fun i j hi hj => hids i hi j hj
    · intro i h
      by_cases hi : i < nodes.size
      · exact hinternal i hi h
      · rw [houtside i (by omega)]
        rfl
    · intro i v h
      by_cases hi : i < nodes.size
      · exact hfinite i hi v h
      · rw [houtside i (by omega)] at h
        cases h

instance (nodes : Array Node) : Decidable (WellFormed nodes) :=
  decidable_of_iff (Bounded nodes) wellFormed_iff_bounded.symm

/-- The maximising side chooses between two positions of the other side, with two leaves each. -/
def Tree.small : Tree where
  nodes := #[
    ⟨"R", none, [1, 2], none, 0⟩,
    ⟨"A", none, [3, 4], some 0, 1⟩,
    ⟨"B", none, [5, 6], some 0, 1⟩,
    ⟨"A1", some 4.0, [], some 1, 2⟩,
    ⟨"A2", some 6.0, [], some 1, 2⟩,
    ⟨"B1", some 3.0, [], some 2, 2⟩,
    ⟨"B2", some 9.0, [], some 2, 2⟩]
  wellFormed := by decide

end GameSearch
