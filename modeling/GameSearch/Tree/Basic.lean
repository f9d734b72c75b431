/-
  GameSearch.Tree.Basic

  Game trees as a flat table of nodes.  A node is known by its place in the table, a
  natural number; children stand after their parent, so a walk down the tree always moves to larger
  places and a walk up to smaller ones.

    * `WellFormed`      — what every table built from a specification satisfies
    * `indexOf`, `firstValueless` — what is noted while a table is filled
    * `Tree`            — a table with these notes, and the facts about them
    * `Tree.childInduction` — a statement holds of every node if it passes from
      the children of a node to the node
-/
import Std.Data.HashMap.Lemmas
import GameSearch.Score

namespace GameSearch

/-- Which side is to move. -/
inductive Kind where
  | max
  | min
deriving DecidableEq, Repr

namespace Kind

/-- The sides alternate, and the maximising side moves at the root. -/
def atDepth (depth : Nat) : Kind := if depth % 2 = 0 then .max else .min

/-- The label of a side in reports. -/
def label : Kind → String
  | .max => "MAX"
  | .min => "MIN"

/-- The name of a side in data files. -/
def name : Kind → String
  | .max => "Max"
  | .min => "Min"

end Kind

/-- One position of a game tree. -/
structure Node where
  id : String
  /-- The value given with the position; internal nodes have none. -/
  value : Option Score
  /-- The successors, in the order of the specification. -/
  children : List Nat
  parent : Option Nat
  depth : Nat

namespace Node

/-- What is found at a place outside the table. -/
def absent : Node := ⟨"", none, [], none, 0⟩

def kind (n : Node) : Kind := Kind.atDepth n.depth

def isLeaf (n : Node) : Bool := n.children.isEmpty

def isRoot (n : Node) : Bool := n.parent.isNone

/-- Neither a value nor children came with the node. -/
def isValueless (n : Node) : Bool := n.value.isNone && n.isLeaf

end Node

/-- The node at a place of the table, `Node.absent` outside it. -/
def nodeAt (nodes : Array Node) (i : Nat) : Node := nodes.getD i Node.absent

theorem nodeAt_of_size_le {nodes : Array Node} {i : Nat} (h : nodes.size ≤ i) :
    nodeAt nodes i = Node.absent := by
  unfold nodeAt
  simp [Array.getD_eq_getD_getElem?, h]

/-- A node that has a parent stands in the table. -/
theorem lt_size_of_nodeAt_parent {nodes : Array Node} {p c : Nat}
    (h : (nodeAt nodes c).parent = some p) : c < nodes.size := by
  refine Nat.lt_of_not_le fun hout => ?_
  rw [nodeAt_of_size_le hout] at h
  cases h

theorem nodeAt_push (nodes : Array Node) (n : Node) (i : Nat) :
    nodeAt (nodes.push n) i = if i = nodes.size then n else nodeAt nodes i := by
  unfold nodeAt
  simp only [Array.getD_eq_getD_getElem?, Array.getElem?_push]
  split <;> simp

/-- What passes from a table to the table with one more node holds of every table. -/
theorem pushInduction {motive : Array Node → Prop} (empty : motive #[])
    (push : ∀ nodes n, motive nodes → motive (nodes.push n)) (nodes : Array Node) :
    motive nodes := by
  induction hsize : nodes.size generalizing nodes with
  | zero =>
    rw [Array.eq_empty_of_size_eq_zero hsize]
    exact empty
  | succ k ih =>
    obtain ⟨front, n, rfl⟩ := Array.exists_push_of_size_eq_add_one hsize
    exact push front n (ih front (by simpa using hsize))

/-- What holds of the nodes of a table that was built from a specification. -/
structure WellFormed (nodes : Array Node) : Prop where
  nonempty : 0 < nodes.size
  root_parent : (nodeAt nodes 0).parent = none
  root_depth : (nodeAt nodes 0).depth = 0
  mem_children : ∀ p c, c ∈ (nodeAt nodes p).children ↔ (nodeAt nodes c).parent = some p
  parent_lt : ∀ p c, (nodeAt nodes c).parent = some p → p < c
  parent_depth : ∀ p c, (nodeAt nodes c).parent = some p →
    (nodeAt nodes c).depth = (nodeAt nodes p).depth + 1
  has_parent : ∀ c, 0 < c → c < nodes.size → (nodeAt nodes c).parent ≠ none
  children_sorted : ∀ p, (nodeAt nodes p).children.Pairwise (· < ·)
  ids_distinct : ∀ i j, i < nodes.size → j < nodes.size →
    (nodeAt nodes i).id = (nodeAt nodes j).id → i = j
  internal_value : ∀ i, (nodeAt nodes i).children ≠ [] → (nodeAt nodes i).value = none
  value_finite : ∀ i v, (nodeAt nodes i).value = some v → v.isFinite

-- ============================================================================
-- What is noted while a table is filled
-- ============================================================================

/-- The places of the identifiers, put down in the order of the table. -/
def indexOf (nodes : Array Node) : Std.HashMap String Nat :=
  nodes.zipIdx.foldl (fun index entry => index.insert entry.1.id entry.2) ∅

/-- The place of the first node that came with neither a value nor children. -/
def firstValueless (nodes : Array Node) : Option Nat := nodes.findIdx? Node.isValueless

theorem indexOf_empty : indexOf #[] = ∅ := rfl

theorem indexOf_push (nodes : Array Node) (n : Node) :
    indexOf (nodes.push n) = (indexOf nodes).insert n.id nodes.size := by
  rw [indexOf, Array.push_eq_append, Array.zipIdx_append, Array.foldl_append]
  simp [indexOf]

/-- The index has the identifiers of the table. -/
theorem mem_indexOf_iff {nodes : Array Node} {id : String} :
    id ∈ indexOf nodes ↔ ∃ i < nodes.size, (nodeAt nodes i).id = id := by
  induction nodes using pushInduction with
  | empty => simp [indexOf_empty]
  | push nodes n ih =>
    rw [indexOf_push, Std.HashMap.mem_insert, beq_iff_eq, ih, Array.size_push]
    constructor
    · rintro (rfl | ⟨i, hi, hid⟩)
      · exact ⟨nodes.size, Nat.lt_succ_self _, by rw [nodeAt_push, if_pos rfl]⟩
      · exact ⟨i, Nat.lt_succ_of_lt hi, by rw [nodeAt_push, if_neg (Nat.ne_of_lt hi), hid]⟩
    · rintro ⟨i, hi, hid⟩
      rw [nodeAt_push] at hid
      split at hid
      · exact .inl hid
      · exact .inr ⟨i, by omega, hid⟩

/-- Where no two nodes have one identifier, each is found at the place of its node. -/
theorem getElem?_indexOf_eq_some_iff {nodes : Array Node} {id : String} {i : Nat}
    (distinct : ∀ i j, i < nodes.size → j < nodes.size →
      (nodeAt nodes i).id = (nodeAt nodes j).id → i = j) :
    (indexOf nodes)[id]? = some i ↔ i < nodes.size ∧ (nodeAt nodes i).id = id := by
  induction nodes using pushInduction with
  | empty => simp [indexOf_empty]
  | push nodes n ih =>
    have hlast : (nodeAt (nodes.push n) nodes.size).id = n.id := by rw [nodeAt_push, if_pos rfl]
    have hbefore : ∀ j < nodes.size, nodeAt (nodes.push n) j = nodeAt nodes j := fun j hj => by
      rw [nodeAt_push, if_neg (Nat.ne_of_lt hj)]
    rw [Array.size_push] at distinct ⊢
    rw [indexOf_push, Std.HashMap.getElem?_insert]
    split
    · rename_i hid
      rw [beq_iff_eq] at hid
      subst hid
      constructor
      · rintro ⟨⟩
        exact ⟨Nat.lt_succ_self _, hlast⟩
      · rintro ⟨hi, hid⟩
        rw [distinct i nodes.size hi (Nat.lt_succ_self _) (hid.trans hlast.symm)]
    · rename_i hid
      rw [ih fun j k hj hk h => distinct j k (Nat.lt_succ_of_lt hj) (Nat.lt_succ_of_lt hk)
        (by rwa [hbefore j hj, hbefore k hk])]
      constructor
      · rintro ⟨hi, hi'⟩
        exact ⟨Nat.lt_succ_of_lt hi, by rwa [hbefore i hi]⟩
      · rintro ⟨hi, hi'⟩
        rcases Nat.eq_or_lt_of_le (Nat.le_of_lt_succ hi) with rfl | hlt
        · exact absurd (beq_iff_eq.2 (hlast.symm.trans hi')) hid
        · exact ⟨hlt, by rwa [hbefore i hlt] at hi'⟩

theorem firstValueless_empty : firstValueless #[] = none := Array.findIdx?_empty

/-- A note is made for the first such node only. -/
theorem firstValueless_push (nodes : Array Node) (n : Node) :
    firstValueless (nodes.push n) =
      if n.isValueless && (firstValueless nodes).isNone then some nodes.size
      else firstValueless nodes := by
  rw [firstValueless, Array.findIdx?_push, ← firstValueless]
  cases firstValueless nodes with
  | some i => simp
  | none => cases n.isValueless <;> rfl

/-- A game tree: a table with the notes that were made while it was filled. -/
structure Tree where
  nodes : Array Node
  wellFormed : WellFormed nodes
  /-- The place of each identifier. -/
  index : Std.HashMap String Nat := indexOf nodes
  /-- The first leaf that came without a value. -/
  valuelessLeaf? : Option Nat := firstValueless nodes
  index_eq : index = indexOf nodes := by rfl
  valuelessLeaf_eq : valuelessLeaf? = firstValueless nodes := by rfl

namespace Tree

/-- The number of nodes. -/
def size (t : Tree) : Nat := t.nodes.size

/-- The place of the root. -/
def root (_ : Tree) : Nat := 0

/-- The node at a place; `Node.absent` outside the tree. -/
def node (t : Tree) (i : Nat) : Node := nodeAt t.nodes i

/-- The node at a place, if there is one. -/
def node? (t : Tree) (i : Nat) : Option Node := t.nodes[i]?

def id (t : Tree) (i : Nat) : String := (t.node i).id

def children (t : Tree) (i : Nat) : List Nat := (t.node i).children

def parent (t : Tree) (i : Nat) : Option Nat := (t.node i).parent

def kind (t : Tree) (i : Nat) : Kind := (t.node i).kind

/-- The place of the node with the given identifier. -/
def find? (t : Tree) (id : String) : Option Nat := t.index[id]?

/-- Trees with the same table are the same. -/
theorem eq_of_nodes_eq {t t' : Tree} (h : t.nodes = t'.nodes) : t = t' := by
  obtain ⟨nodes, wellFormed, index, valueless, rfl, rfl⟩ := t
  obtain ⟨nodes', wellFormed', index', valueless', rfl, rfl⟩ := t'
  obtain rfl : nodes = nodes' := h
  rfl

-- ============================================================================
-- Links between nodes
-- ============================================================================

theorem mem_children_iff {t : Tree} {p c : Nat} : c ∈ t.children p ↔ t.parent c = some p :=
  t.wellFormed.mem_children p c

theorem lt_of_mem_children {t : Tree} {p c : Nat} (h : c ∈ t.children p) : p < c :=
  t.wellFormed.parent_lt p c (mem_children_iff.1 h)

theorem lt_of_parent {t : Tree} {p c : Nat} (h : t.parent c = some p) : p < c :=
  t.wellFormed.parent_lt p c h

theorem lt_size_of_parent {t : Tree} {p c : Nat} (h : t.parent c = some p) : c < t.size :=
  lt_size_of_nodeAt_parent h

theorem lt_size_of_mem_children {t : Tree} {p c : Nat} (h : c ∈ t.children p) : c < t.size :=
  lt_size_of_parent (mem_children_iff.1 h)

/-- Fewer places follow a child than follow its parent. -/
theorem size_sub_lt {t : Tree} {p c : Nat} (h : c ∈ t.children p) :
    t.size - c < t.size - p := by
  have h₁ := lt_of_mem_children h
  have h₂ := lt_size_of_mem_children h
  omega

/-- What passes from the children of a node to the node holds of every node. -/
theorem childInduction {t : Tree} {motive : Nat → Prop}
    (step : ∀ i, (∀ c ∈ t.children i, motive c) → motive i) (i : Nat) : motive i :=
  step i fun c _ => childInduction step c
termination_by t.size - i
decreasing_by exact size_sub_lt ‹_›

end Tree

end GameSearch
