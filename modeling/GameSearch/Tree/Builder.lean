/-
  GameSearch.Tree.Builder

  From a specification to a tree.  The builder enters one position after the other: the
  node goes to the end of the table with no children yet, its identifier into the
  index, its place onto the list of its parent, and the first leaf without a value is
  noted.  At every turn this is what the plan has so far, so the table that is left
  in the end is the planned one.

    * `Arena.enter`       — a position is entered
    * `Arena.grow`        — the queue loop
    * `Arena.grow_sofar`  — the loop follows the plan
    * `Tree.build`        — the tree of a specification, or its first fault
-/
import GameSearch.Tree.Plan

namespace GameSearch.Tree

attribute [local instance] Arithmetic.zero

/-- A tree that is being built. -/
structure Arena where
  nodes : Array Node := #[]
  index : Std.HashMap String Nat := ∅
  valuelessLeaf? : Option Nat := none

namespace Arena

/-- Puts a place at the end of the parent's list of children, if there is a parent. -/
def adopt (nodes : Array Node) (parent : Option Nat) (place : Nat) : Array Node :=
  match parent with
  | none => nodes
  | some q => nodes.modify q fun n => { n with children := n.children ++ [place] }

/-- Enters a position that passed its check. -/
def enter (a : Arena) (p : Pending) (id : String) : Arena where
  nodes := adopt (a.nodes.push ⟨id, p.spec.value, [], p.parent, p.depth⟩) p.parent a.nodes.size
  index := a.index.insert id a.nodes.size
  valuelessLeaf? :=
    if p.spec.value.isNone && p.spec.children.isEmpty && a.valuelessLeaf?.isNone then
      some a.nodes.size
    else a.valuelessLeaf?

/-- Takes positions off a queue until it is empty and enters them.  The queue is `front`
    followed by the reverse of `back`. -/
def grow (limits : Limits) (a : Arena) : List Pending → List Pending → Except Fault Arena
  | [], [] => .ok a
  | [], b :: back => grow limits a (b :: back).reverse []
  | p :: front, back =>
    match p.check limits a.index with
    | .error fault => .error fault
    | .ok id => grow limits (a.enter p id) front ((p.successors a.nodes.size).reverse ++ back)
termination_by front back => Pending.work front back
decreasing_by
  · exact Pending.work_reverse b back
  · exact Pending.work_successors p front back a.nodes.size

/-- The loop starts with nothing entered; the root waits alone. -/
def ofSpec (limits : Limits) (spec : Spec) : Except Fault Arena :=
  grow limits {} [⟨spec, none, 0, []⟩] []

-- ============================================================================
-- The loop follows the plan
--
-- The plan gives a node all its children at once, the builder those that had their turn.  They
-- are the children whose places the table has reached.
-- ============================================================================

/-- A planned table as far as it has come: only children that were entered are on the lists. -/
def entered (nodes : Array Node) : Array Node :=
  nodes.map fun n => { n with children := n.children.filter (· < nodes.size) }

/-- What the builder has of a planned table. -/
def sofar (nodes : Array Node) : Arena := ⟨entered nodes, indexOf nodes, firstValueless nodes⟩

theorem size_entered (nodes : Array Node) : (entered nodes).size = nodes.size := Array.size_map

theorem nodeAt_entered (nodes : Array Node) (i : Nat) :
    nodeAt (entered nodes) i =
      { nodeAt nodes i with children := (nodeAt nodes i).children.filter (· < nodes.size) } := by
  by_cases hi : i < nodes.size
  · simp [nodeAt, entered, hi]
  · simp [nodeAt, entered, hi, Node.absent]

/-- Tables with the same nodes at all their places are the same. -/
theorem eq_of_nodeAt_eq {nodes nodes' : Array Node} (hsize : nodes.size = nodes'.size)
    (h : ∀ i < nodes.size, nodeAt nodes i = nodeAt nodes' i) : nodes = nodes' := by
  refine Array.ext hsize fun i hi hi' => ?_
  have hat := h i hi
  simpa [nodeAt, hi, hi'] using hat

theorem size_adopt (nodes : Array Node) (parent : Option Nat) (place : Nat) :
    (adopt nodes parent place).size = nodes.size := by
  cases parent <;> simp [adopt]

theorem nodeAt_adopt (nodes : Array Node) (parent : Option Nat) (place : Nat) {i : Nat}
    (hi : i < nodes.size) :
    nodeAt (adopt nodes parent place) i =
      { nodeAt nodes i with
        children := (nodeAt nodes i).children ++ if parent = some i then [place] else [] } := by
  cases parent with
  | none => simp [adopt]
  | some q =>
    by_cases hq : q = i <;> simp [adopt, nodeAt, Array.getElem_modify, hi, hq]

/-- Nothing is kept of a list that starts too far up. -/
theorem filter_lt_eq_nil {places : List Nat} {n : Nat} (h : ∀ c ∈ places, n ≤ c) :
    places.filter (· < n) = [] := by
  refine List.filter_eq_nil_iff.2 fun c hc => ?_
  rw [decide_eq_true_eq, Nat.not_lt]
  exact h c hc

/-- One more place reached adds at most this place to what an ascending list has below it. -/
theorem filter_lt_succ {places : List Nat} (h : places.Pairwise (· < ·)) (n : Nat) :
    places.filter (· < n + 1) = places.filter (· < n) ++ if n ∈ places then [n] else [] := by
  induction places with
  | nil => rfl
  | cons first rest ih =>
    obtain ⟨hfirst, hrest⟩ := List.pairwise_cons.1 h
    simp only [List.filter_cons, List.mem_cons, decide_eq_true_eq]
    rcases Nat.lt_trichotomy first n with hlt | rfl | hgt
    · rw [if_pos (Nat.lt_succ_of_lt hlt), if_pos hlt, ih hrest, List.cons_append]
      simp only [Nat.ne_of_gt hlt, false_or]
    · have habove : ∀ c ∈ rest, first + 1 ≤ c := hfirst
      rw [if_pos (Nat.lt_succ_self _), if_neg (Nat.lt_irrefl _), if_pos (.inl rfl),
        filter_lt_eq_nil habove, filter_lt_eq_nil fun c hc => Nat.le_of_lt (hfirst c hc)]
      rfl
    · have hnot : ¬ (n = first ∨ n ∈ rest) := by
        rintro (rfl | hmem)
        · exact Nat.lt_irrefl _ hgt
        · exact Nat.lt_asymm hgt (hfirst n hmem)
      have habove : ∀ c ∈ rest, n + 1 ≤ c := fun c hc =>
        Nat.le_trans hgt (Nat.le_of_lt (hfirst c hc))
      rw [if_neg (Nat.not_lt.2 hgt), if_neg (Nat.lt_asymm hgt), if_neg hnot,
        filter_lt_eq_nil habove, filter_lt_eq_nil fun c hc => Nat.le_of_lt (habove c hc)]
      rfl

section

variable {nodes : Array Node} {p : Pending} {queue : List Pending}
  {index : Std.HashMap String Nat} {id : String} {allotted : Nat}

/-- When a position has its turn it gets the place that its parent was promised for it. -/
theorem mem_children_turn (inv : Filling nodes (p :: queue) index) (q : Nat) :
    nodes.size ∈ (nodeAt nodes q).children ↔ p.parent = some q := by
  have hlink : (links nodes (p :: queue))[nodes.size]? = some (p.parent, p.depth) := by
    simp [links]
  rw [inv.child q nodes.size, hlink]
  constructor
  · rintro ⟨d, h⟩
    exact congrArg Prod.fst (Option.some.inj h)
  · rintro hparent
    exact ⟨p.depth, by rw [hparent]⟩

/-- So the lists grow by this place at the parent, and the new node has none of its children yet. -/
theorem filter_children_turn (inv : Filling nodes (p :: queue) index)
    (hallotted : nodes.size < allotted) (i : Nat) :
    (nodeAt (nodes.push (p.node id allotted)) i).children.filter (· < nodes.size + 1) =
      (if i = nodes.size then [] else (nodeAt nodes i).children.filter (· < nodes.size)) ++
        if p.parent = some i then [nodes.size] else [] := by
  have hparent := mem_children_turn inv
  rw [nodeAt_push]
  by_cases hi : i = nodes.size
  · have hnone : p.parent ≠ some nodes.size := by
      intro h
      have hmem := (hparent nodes.size).2 h
      rw [nodeAt_of_size_le (Nat.le_refl _)] at hmem
      cases hmem
    rw [if_pos hi, if_pos hi, hi, if_neg hnone, List.append_nil, List.filter_eq_nil_iff]
    intro c hc
    have hle := (List.mem_range'_1.1 hc).1
    simp only [decide_eq_true_eq]
    omega
  · simp only [if_neg hi, filter_lt_succ (inv.sorted i), hparent i]

/-- A turn of the builder is a turn of the plan. -/
theorem enter_sofar (inv : Filling nodes (p :: queue) index) (hallotted : nodes.size < allotted) :
    (sofar nodes).enter p id = sofar (nodes.push (p.node id allotted)) := by
  have hnodes : ((sofar nodes).enter p id).nodes = entered (nodes.push (p.node id allotted)) := by
    have hsize : (entered (nodes.push (p.node id allotted))).size = nodes.size + 1 := by
      rw [size_entered, Array.size_push]
    refine eq_of_nodeAt_eq ?_ fun i hi => ?_
    · rw [hsize, enter, size_adopt, Array.size_push, sofar, size_entered]
    · rw [enter, size_adopt] at hi
      rw [enter, nodeAt_adopt _ _ _ hi, nodeAt_entered, Array.size_push,
        filter_children_turn inv hallotted, nodeAt_push, nodeAt_push, sofar, size_entered]
      split
      · rfl
      · rw [nodeAt_entered]
  have hvalueless : (p.node id allotted).isValueless =
      (p.spec.value.isNone && p.spec.children.isEmpty) := by
    cases hc : p.spec.children <;> simp [Node.isValueless, Node.isLeaf, Pending.node, hc]
  have hindex : ((sofar nodes).enter p id).index = indexOf (nodes.push (p.node id allotted)) := by
    rw [indexOf_push, enter, sofar, size_entered, Pending.node]
  have hnote : ((sofar nodes).enter p id).valuelessLeaf? =
      firstValueless (nodes.push (p.node id allotted)) := by
    rw [firstValueless_push, hvalueless, enter, sofar, size_entered]
  rw [sofar.eq_def (nodes.push _), ← hnodes, ← hindex, ← hnote]

end

/-- A table that needs no other children has all of them entered. -/
theorem entered_of_wellFormed {nodes : Array Node} (h : WellFormed nodes) :
    entered nodes = nodes := by
  refine eq_of_nodeAt_eq (size_entered nodes) fun i _ => ?_
  have hall : (nodeAt nodes i).children.filter (· < nodes.size) = (nodeAt nodes i).children := by
    refine List.filter_eq_self.2 fun c hc => decide_eq_true ?_
    exact lt_size_of_nodeAt_parent ((h.mem_children i c).1 hc)
  rw [nodeAt_entered, hall]

/-- From every state of the loop on, the builder follows the plan. -/
theorem grow_sofar (limits : Limits) {nodes : Array Node} {index : Std.HashMap String Nat}
    {allotted : Nat} {front back : List Pending}
    (inv : Filling nodes (front ++ back.reverse) index)
    (hallotted : allotted = nodes.size + (front.length + back.length)) :
    grow limits (sofar nodes) front back =
      (fill limits nodes index allotted front back).map sofar := by
  fun_induction fill limits nodes index allotted front back with
  | case1 nodes index allotted => rw [grow]; rfl
  | case2 nodes index allotted b back ih =>
    rw [grow]
    exact ih (by simpa using inv) (by simpa using hallotted)
  | case3 nodes index allotted p front back fault hp =>
    rw [grow, show (sofar nodes).index = index from inv.index_eq.symm, hp]
    rfl
  | case4 nodes index allotted p front back id hp queued ih =>
    have hlength : allotted = nodes.size + ((front ++ back.reverse).length + 1) := by
      simp only [List.length_cons] at hallotted
      simp only [List.length_append, List.length_reverse]
      omega
    have hturn := Filling.turn inv hp hlength
    have hplace : (sofar nodes).nodes.size = nodes.size := size_entered nodes
    have hsuccessors : (p.successors nodes.size).length = p.spec.children.length := by
      simp [Pending.successors]
    have hrest := ih (by simpa [queued] using hturn) (by
      simp only [List.length_cons] at hallotted
      simp only [queued, Array.size_push, List.length_append, List.length_reverse, hsuccessors]
      omega)
    have hfirst : nodes.size < allotted := by omega
    rw [grow, show (sofar nodes).index = index from inv.index_eq.symm, hp]
    simp only
    rw [enter_sofar inv hfirst, hplace]
    exact hrest

/-- The builder comes to the planned table, with the notes made on the way. -/
theorem ofSpec_eq (limits : Limits) (spec : Spec) :
    ofSpec limits spec =
      (fill limits #[] ∅ 1 [⟨spec, none, 0, []⟩] []).map fun nodes =>
        ⟨nodes, indexOf nodes, firstValueless nodes⟩ := by
  have hstart : sofar #[] = {} := by
    rw [sofar, entered, Array.map_empty, indexOf_empty, firstValueless_empty]
  have hgrow : grow limits {} [⟨spec, none, 0, []⟩] [] =
      (fill limits #[] ∅ 1 [⟨spec, none, 0, []⟩] []).map sofar := by
    rw [← hstart]
    exact grow_sofar limits (Filling.start spec) rfl
  rw [ofSpec, hgrow]
  cases hfill : fill limits #[] ∅ 1 [⟨spec, none, 0, []⟩] [] with
  | error fault => rfl
  | ok nodes =>
    have hwell := fill_wellFormed (Filling.start spec) (by simp) hfill
    simp only [Except.map, sofar, entered_of_wellFormed hwell]

/-- What a finished arena has for a tree. -/
structure Finished (a : Arena) : Prop where
  wellFormed : WellFormed a.nodes
  index_eq : a.index = indexOf a.nodes
  valuelessLeaf_eq : a.valuelessLeaf? = firstValueless a.nodes

theorem finished_of_ofSpec {limits : Limits} {spec : Spec} {a : Arena}
    (h : ofSpec limits spec = .ok a) : a.Finished := by
  rw [ofSpec_eq] at h
  cases hfill : fill limits #[] ∅ 1 [⟨spec, none, 0, []⟩] [] with
  | error fault =>
    rw [hfill] at h
    cases h
  | ok nodes =>
    rw [hfill] at h
    cases h
    exact ⟨fill_wellFormed (Filling.start spec) (by simp) hfill, rfl, rfl⟩

/-- The tree that a finished arena is. -/
def Finished.tree {a : Arena} (h : a.Finished) : Tree :=
  ⟨a.nodes, h.wellFormed, a.index, a.valuelessLeaf?, h.index_eq, h.valuelessLeaf_eq⟩

end Arena

/-- The tree of a specification, or the first fault met breadth first. -/
def build (limits : Limits) (spec : Spec) : Except Fault Tree :=
  match h : Arena.ofSpec limits spec with
  | .ok _ => .ok (Arena.finished_of_ofSpec h).tree
  | .error fault => .error fault

theorem map_arena_build (limits : Limits) (spec : Spec) :
    (build limits spec).map (fun t => ⟨t.nodes, t.index, t.valuelessLeaf?⟩) =
      Arena.ofSpec limits spec := by
  unfold build
  split
  · rename_i a h
    exact h.symm
  · rename_i fault h
    exact h.symm

/-- A tree has the table, the index and the note that the loop leaves. -/
theorem ofSpec_of_build {limits : Limits} {spec : Spec} {t : Tree}
    (h : build limits spec = .ok t) :
    Arena.ofSpec limits spec = .ok ⟨t.nodes, t.index, t.valuelessLeaf?⟩ := by
  rw [← map_arena_build, h]
  rfl

/-- Its table is the planned one. -/
theorem map_build (limits : Limits) (spec : Spec) :
    (build limits spec).map Tree.nodes = fill limits #[] ∅ 1 [⟨spec, none, 0, []⟩] [] := by
  calc (build limits spec).map Tree.nodes
      = ((build limits spec).map fun t => ⟨t.nodes, t.index, t.valuelessLeaf?⟩).map
          Arena.nodes := by cases build limits spec <;> rfl
    _ = fill limits #[] ∅ 1 [⟨spec, none, 0, []⟩] [] := by
        rw [map_arena_build, Arena.ofSpec_eq]
        cases fill limits #[] ∅ 1 [⟨spec, none, 0, []⟩] [] <;> rfl

end GameSearch.Tree
