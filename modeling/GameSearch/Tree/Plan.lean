/-
  GameSearch.Tree.Plan

  The table a specification comes to, as a plan.  Positions are taken from a queue, so the
  table is filled breadth first; a position is checked when its turn comes, and the
  first fault met ends the work.  Since the queue is first in, first out, the places of a
  position's successors are known as soon as they are queued: the plan promises them to
  the node at once, the builder puts each down when it comes.

    * `Pending.check`     — what is looked at when a position has its turn
    * `fill`              — the queue loop, with the places promised
    * `Filling`, `Filling.turn` — the loop invariant and a turn
    * `fill_wellFormed`   — the table it delivers is well formed
-/
import GameSearch.Arithmetic
import GameSearch.Tree.Basic
import GameSearch.Tree.Fault
import GameSearch.Tree.Spec

namespace GameSearch.Tree

attribute [local instance] Arithmetic.zero

/-- What a builder accepts beyond the form of a specification. -/
structure Limits where
  maxDepth : Nat := 1024
  /-- Leaves may come without a value. -/
  valuelessLeaves : Bool := false

/-- A position that waits for its turn. -/
structure Pending where
  spec : Spec
  parent : Option Nat
  depth : Nat
  /-- The child numbers that lead to the position, the last one first. -/
  path : List Nat

namespace Pending

/-- The number of positions in a list of waiting specifications. -/
def weight (queue : List Pending) : Nat := (queue.map fun p => p.spec.count).sum

/-- The identifier of a position without fault.  The index has the identifiers in use. -/
def check (limits : Limits) (index : Std.HashMap String Nat) (p : Pending) : Except Fault String :=
  match p.spec.id with
  | none => .error (.missingId p.path.reverse)
  | some id =>
    if limits.maxDepth < p.depth then .error (.tooDeep id p.depth limits.maxDepth)
    else if index.contains id then .error (.duplicateId id)
    else match p.spec.value, p.spec.children with
      | some _, _ :: _ => .error (.valueOnInternalNode id)
      | none, _ :: _ => .ok id
      | none, [] => if limits.valuelessLeaves then .ok id else .error (.leafWithoutValue id)
      | some v, [] => if v.isFinite then .ok id else .error (.nonFiniteValue id v)

/-- The node for a position whose successors get the places from `first` on. -/
def node (p : Pending) (id : String) (first : Nat) : Node where
  id := id
  value := p.spec.value
  children := List.range' first p.spec.children.length
  parent := p.parent
  depth := p.depth

/-- The successors of a position that was put at the given place. -/
def successors (p : Pending) (place : Nat) : List Pending :=
  p.spec.children.mapIdx fun i s => ⟨s, some place, p.depth + 1, i :: p.path⟩

theorem weight_cons (p : Pending) (queue : List Pending) :
    weight (p :: queue) = p.spec.count + weight queue := by
  simp [weight]

theorem weight_append (q₁ q₂ : List Pending) : weight (q₁ ++ q₂) = weight q₁ + weight q₂ := by
  simp [weight]

theorem weight_reverse (queue : List Pending) : weight queue.reverse = weight queue := by
  simp [weight]

theorem weight_successors (p : Pending) (place : Nat) :
    weight (p.successors place) + 1 = p.spec.count := by
  have h : ∀ (specs : List Spec) (f : Nat → Spec → Pending), (∀ i s, (f i s).spec = s) →
      weight (specs.mapIdx f) = Spec.countAll specs := by
    intro specs
    induction specs with
    | nil => intro f _; simp [weight, Spec.countAll]
    | cons s rest ih =>
      intro f hf
      rw [List.mapIdx_cons, weight_cons, hf, ih _ (fun i s => hf (i + 1) s), Spec.countAll]
  rw [successors, h _ _ (fun _ _ => rfl), Spec.count_eq]

/-- How much is left to do for the queue that is `front` followed by the reverse of `back`. -/
def work (front back : List Pending) : Nat :=
  2 * (weight front + weight back) + if front.isEmpty then 1 else 0

theorem work_reverse (b : Pending) (back : List Pending) :
    work (b :: back).reverse [] < work [] (b :: back) := by
  rw [work, work, weight_reverse]
  simp [weight]

/-- A turn leaves less to do, although the successors are queued. -/
theorem work_successors (p : Pending) (front back : List Pending) (place : Nat) :
    work front ((p.successors place).reverse ++ back) < work (p :: front) back := by
  have := weight_successors p place
  simp only [work, weight_append, weight_reverse, weight_cons]
  split <;> simp only [List.isEmpty_cons, Bool.false_eq_true, if_false] <;> omega

end Pending

/-- Takes positions off a queue until it is empty and appends them to the table.  The queue is
    `front` followed by the reverse of `back`; `allotted` is the first place not yet promised. -/
def fill (limits : Limits) (nodes : Array Node) (index : Std.HashMap String Nat) (allotted : Nat) :
    List Pending → List Pending → Except Fault (Array Node)
  | [], [] => .ok nodes
  | [], b :: back => fill limits nodes index allotted (b :: back).reverse []
  | p :: front, back =>
    match p.check limits index with
    | .error fault => .error fault
    | .ok id =>
      let queued := (p.successors nodes.size).reverse ++ back
      fill limits (nodes.push (p.node id allotted)) (index.insert id nodes.size)
        (allotted + p.spec.children.length) front queued
termination_by front back => Pending.work front back
decreasing_by
  · exact Pending.work_reverse b back
  · exact Pending.work_successors p front back nodes.size

-- ============================================================================
-- The loop invariant
--
-- Each place below `allotted` has a parent and a depth: those of its node if the table reaches
-- so far, otherwise those of the position that waits for it.
-- ============================================================================

/-- Parent and depth of every place promised so far. -/
def links (nodes : Array Node) (queue : List Pending) : List (Option Nat × Nat) :=
  nodes.toList.map (fun n => (n.parent, n.depth)) ++ queue.map fun p => (p.parent, p.depth)

/-- What holds before every turn of the queue loop. -/
structure Filling (nodes : Array Node) (queue : List Pending) (index : Std.HashMap String Nat) :
    Prop where
  root : (links nodes queue)[0]? = some (none, 0)
  linked : ∀ c p d, (links nodes queue)[c]? = some (some p, d) →
    p < c ∧ p < nodes.size ∧ d = (nodeAt nodes p).depth + 1
  has_parent : ∀ c d, 0 < c → (links nodes queue)[c]? ≠ some (none, d)
  child : ∀ p c, c ∈ (nodeAt nodes p).children ↔ ∃ d, (links nodes queue)[c]? = some (some p, d)
  sorted : ∀ p, (nodeAt nodes p).children.Pairwise (· < ·)
  index_eq : index = indexOf nodes
  distinct : ∀ i j, i < nodes.size → j < nodes.size →
    (nodeAt nodes i).id = (nodeAt nodes j).id → i = j
  internal : ∀ i, (nodeAt nodes i).children ≠ [] → (nodeAt nodes i).value = none
  finite : ∀ i v, (nodeAt nodes i).value = some v → v.isFinite

theorem links_length (nodes : Array Node) (queue : List Pending) :
    (links nodes queue).length = nodes.size + queue.length := by
  simp [links]

/-- A turn moves the first promise into the table and adds one promise for each successor. -/
theorem links_turn (nodes : Array Node) (p : Pending) (id : String) (first : Nat)
    (queue : List Pending) :
    links (nodes.push (p.node id first)) (queue ++ p.successors nodes.size) =
      links nodes (p :: queue) ++
        List.replicate p.spec.children.length (some nodes.size, p.depth + 1) := by
  have h : ∀ (specs : List Spec) (f : Nat → Spec → Pending) (x : Option Nat × Nat),
      (∀ i s, ((f i s).parent, (f i s).depth) = x) →
      (specs.mapIdx f).map (fun p => (p.parent, p.depth)) = List.replicate specs.length x := by
    intro specs
    induction specs with
    | nil => intro f x _; simp
    | cons s rest ih =>
      intro f x hf
      rw [List.mapIdx_cons, List.map_cons, hf, ih _ x (fun i s => hf (i + 1) s)]
      simp [List.replicate_succ]
  have hs := h p.spec.children (fun i s => ⟨s, some nodes.size, p.depth + 1, i :: p.path⟩)
    (some nodes.size, p.depth + 1) (fun _ _ => rfl)
  simp only [links, Pending.successors, Array.toList_push, List.map_append, List.map_cons,
    List.map_nil, hs, Pending.node, List.append_assoc, List.cons_append, List.nil_append]

/-- What `check` has found of a position without fault. -/
theorem check_ok {limits : Limits} {index : Std.HashMap String Nat} {p : Pending} {id : String}
    (h : p.check limits index = .ok id) :
    id ∉ index ∧ (p.spec.children ≠ [] → p.spec.value = none) ∧
      ∀ v, p.spec.value = some v → v.isFinite := by
  unfold Pending.check at h
  cases hid : p.spec.id with
  | none => simp [hid] at h
  | some name =>
    rw [hid] at h
    simp only at h
    split at h
    · cases h
    · split at h
      · cases h
      · rename_i hunused
        have hfresh : name ∉ index := fun hmem => hunused (Std.HashMap.contains_iff_mem.2 hmem)
        split at h <;> rename_i hv hc
        · cases h
        · cases h; exact ⟨hfresh, fun _ => hv, fun v h => by simp [hv] at h⟩
        · split at h
          · cases h; exact ⟨hfresh, fun _ => hv, fun v h => by simp [hv] at h⟩
          · cases h
        · split at h
          · rename_i hfin
            cases h
            refine ⟨hfresh, fun hne => absurd hc hne, fun v h => ?_⟩
            rw [hv] at h; cases h; exact hfin
          · cases h

section

variable {nodes : Array Node} {p : Pending} {queue : List Pending} {index : Std.HashMap String Nat}
  {id : String} {allotted : Nat}

/-- A place below the promised ones keeps its link; the others hang from the new node. -/
theorem link_turn (hallotted : allotted = nodes.size + (queue.length + 1)) {c : Nat}
    {x : Option Nat × Nat} :
    (links (nodes.push (p.node id allotted)) (queue ++ p.successors nodes.size))[c]? = some x ↔
      (links nodes (p :: queue))[c]? = some x ∨
      (allotted ≤ c ∧ c < allotted + p.spec.children.length ∧
        x = (some nodes.size, p.depth + 1)) := by
  have hlen := links_length nodes (p :: queue)
  rw [List.length_cons] at hlen
  rw [links_turn, List.getElem?_append]
  split
  · constructor
    · exact .inl
    · rintro (h | ⟨h, -⟩)
      · exact h
      · omega
  · have hnone : (links nodes (p :: queue))[c]? = none := List.getElem?_eq_none (by omega)
    rw [hnone, List.getElem?_replicate]
    split
    · constructor
      · intro h
        exact .inr ⟨by omega, by omega, (Option.some.inj h).symm⟩
      · rintro (h | ⟨-, -, rfl⟩)
        · cases h
        · rfl
    · constructor
      · intro h
        cases h
      · rintro (h | ⟨-, h, -⟩)
        · cases h
        · omega

theorem Filling.linked_turn (inv : Filling nodes (p :: queue) index)
    (hallotted : allotted = nodes.size + (queue.length + 1)) (c q d : Nat)
    (h : (links (nodes.push (p.node id allotted))
      (queue ++ p.successors nodes.size))[c]? = some (some q, d)) :
    q < c ∧ q < nodes.size + 1 ∧
      d = (nodeAt (nodes.push (p.node id allotted)) q).depth + 1 := by
  rw [nodeAt_push]
  rcases (link_turn hallotted).1 h with hold | ⟨hc, -, hnew⟩
  · obtain ⟨hqc, hq, hd⟩ := inv.linked c q d hold
    rw [if_neg (by omega)]
    exact ⟨hqc, by omega, hd⟩
  · cases hnew
    exact ⟨by omega, by omega, by simp [Pending.node]⟩

theorem Filling.child_turn (inv : Filling nodes (p :: queue) index)
    (hallotted : allotted = nodes.size + (queue.length + 1)) (q c : Nat) :
    c ∈ (nodeAt (nodes.push (p.node id allotted)) q).children ↔
      ∃ d, (links (nodes.push (p.node id allotted))
        (queue ++ p.successors nodes.size))[c]? = some (some q, d) := by
  rw [nodeAt_push]
  by_cases hq : q = nodes.size
  · -- the children of the new node are the places that were just promised
    subst hq
    rw [if_pos rfl]
    simp only [Pending.node, List.mem_range'_1]
    constructor
    · rintro ⟨hlo, hhi⟩
      exact ⟨p.depth + 1, (link_turn hallotted).2 (.inr ⟨hlo, hhi, rfl⟩)⟩
    · rintro ⟨d, h⟩
      rcases (link_turn hallotted).1 h with hold | ⟨hlo, hhi, -⟩
      · exact absurd (inv.linked c _ d hold).2.1 (by omega)
      · exact ⟨hlo, hhi⟩
  · rw [if_neg hq, inv.child q c]
    constructor
    · rintro ⟨d, h⟩
      exact ⟨d, (link_turn hallotted).2 (.inl h)⟩
    · rintro ⟨d, h⟩
      rcases (link_turn hallotted).1 h with hold | ⟨-, -, hnew⟩
      · exact ⟨d, hold⟩
      · simp only [Prod.mk.injEq, Option.some.injEq] at hnew
        exact absurd hnew.1 hq

/-- An identifier that was not in the index is that of no other node. -/
theorem Filling.distinct_turn (inv : Filling nodes (p :: queue) index) (hfresh : id ∉ index)
    (i j : Nat) (hi : i < nodes.size + 1) (hj : j < nodes.size + 1)
    (h : (nodeAt (nodes.push (p.node id allotted)) i).id =
      (nodeAt (nodes.push (p.node id allotted)) j).id) : i = j := by
  have hindexed : ∀ k < nodes.size, (nodeAt nodes k).id ≠ id := fun k hk hid =>
    hfresh (inv.index_eq ▸ mem_indexOf_iff.2 ⟨k, hk, hid⟩)
  rw [nodeAt_push, nodeAt_push] at h
  by_cases hi' : i = nodes.size <;> by_cases hj' : j = nodes.size
  · omega
  · rw [if_pos hi', if_neg hj'] at h
    exact absurd h.symm (hindexed j (by omega))
  · rw [if_neg hi', if_pos hj'] at h
    exact absurd h (hindexed i (by omega))
  · rw [if_neg hi', if_neg hj'] at h
    exact inv.distinct i j (by omega) (by omega) h

/-- The invariant passes from turn to turn. -/
theorem Filling.turn {limits : Limits} (inv : Filling nodes (p :: queue) index)
    (hp : p.check limits index = .ok id)
    (hallotted : allotted = nodes.size + (queue.length + 1)) :
    Filling (nodes.push (p.node id allotted)) (queue ++ p.successors nodes.size)
      (index.insert id nodes.size) := by
  obtain ⟨hfresh, hinternal, hfinite⟩ := check_ok hp
  constructor
  case root => exact (link_turn hallotted).2 (.inl inv.root)
  case linked =>
    rw [Array.size_push]
    exact inv.linked_turn hallotted
  case has_parent =>
    intro c d hc h
    rcases (link_turn hallotted).1 h with hold | ⟨-, -, hnew⟩
    · exact inv.has_parent c d hc hold
    · cases hnew
  case child => exact inv.child_turn hallotted
  case sorted =>
    intro q
    rw [nodeAt_push]
    split
    · exact List.pairwise_lt_range' _
    · exact inv.sorted q
  case index_eq => rw [indexOf_push, ← inv.index_eq, Pending.node]
  case distinct =>
    rw [Array.size_push]
    exact inv.distinct_turn hfresh
  case internal =>
    intro i hi
    rw [nodeAt_push] at hi ⊢
    split at hi
    · rw [if_pos ‹_›]
      apply hinternal
      intro hnil
      simp [Pending.node, hnil] at hi
    · rw [if_neg ‹_›]
      exact inv.internal i hi
  case finite =>
    intro i v hv
    rw [nodeAt_push] at hv
    split at hv
    · exact hfinite v hv
    · exact inv.finite i v hv

end

/-- When the queue is empty the promises are kept by the table itself. -/
theorem Filling.wellFormed {nodes : Array Node} {index : Std.HashMap String Nat}
    (inv : Filling nodes [] index) : WellFormed nodes := by
  have hlink : ∀ c x, (links nodes [])[c]? = some x ↔
      c < nodes.size ∧ ((nodeAt nodes c).parent, (nodeAt nodes c).depth) = x := by
    intro c x
    by_cases hc : c < nodes.size
    · simp [links, nodeAt, Array.getD_eq_getD_getElem?, hc]
    · simp [links, hc]
  have hparent : ∀ p c, (nodeAt nodes c).parent = some p →
      (links nodes [])[c]? = some (some p, (nodeAt nodes c).depth) := by
    intro p c h
    exact (hlink c _).2 ⟨lt_size_of_nodeAt_parent h, by rw [h]⟩
  have hroot := (hlink 0 _).1 inv.root
  simp only [Prod.mk.injEq] at hroot
  constructor
  case nonempty => exact hroot.1
  case root_parent => exact hroot.2.1
  case root_depth => exact hroot.2.2
  case mem_children =>
    intro p c
    rw [inv.child p c]
    constructor
    · rintro ⟨d, h⟩
      have := ((hlink c _).1 h).2
      simp only [Prod.mk.injEq] at this
      exact this.1
    · exact fun h => ⟨_, hparent p c h⟩
  case parent_lt => exact fun p c h => (inv.linked c p _ (hparent p c h)).1
  case parent_depth => exact fun p c h => (inv.linked c p _ (hparent p c h)).2.2
  case has_parent =>
    intro c h₀ hc h
    exact inv.has_parent c (nodeAt nodes c).depth h₀ ((hlink c _).2 ⟨hc, by rw [h]⟩)
  case children_sorted => exact inv.sorted
  case ids_distinct => exact inv.distinct
  case internal_value => exact inv.internal
  case value_finite => exact inv.finite

/-- The queue loop keeps its invariant, so the table it delivers is well formed. -/
theorem fill_wellFormed {limits : Limits} {nodes table : Array Node}
    {index : Std.HashMap String Nat} {allotted : Nat} {front back : List Pending}
    (inv : Filling nodes (front ++ back.reverse) index)
    (hallotted : allotted = nodes.size + (front.length + back.length))
    (h : fill limits nodes index allotted front back = .ok table) : WellFormed table := by
  fun_induction fill limits nodes index allotted front back with
  | case1 nodes index allotted =>
    cases h
    exact Filling.wellFormed inv
  | case2 nodes index allotted b back ih =>
    refine ih ?_ (by simpa using hallotted) h
    simpa using inv
  | case3 nodes index allotted p front back fault hp => cases h
  | case4 nodes index allotted p front back id hp queued ih =>
    refine ih ?_ ?_ h
    · have hlen : allotted = nodes.size + ((front ++ back.reverse).length + 1) := by
        simp only [List.length_cons] at hallotted
        simp only [List.length_append, List.length_reverse]
        omega
      have := Filling.turn inv hp hlen
      simpa [queued] using this
    · have : (p.successors nodes.size).length = p.spec.children.length := by
        simp [Pending.successors]
      simp only [List.length_cons] at hallotted
      simp only [queued, Array.size_push, List.length_append, List.length_reverse, this]
      omega

/-- The queue at the start holds the root alone. -/
theorem Filling.start (spec : Spec) : Filling #[] [⟨spec, none, 0, []⟩] ∅ where
  root := by simp [links]
  linked := by
    intro c p d h
    cases c <;> simp [links] at h
  has_parent := by
    intro c d h₀ h
    cases c <;> simp [links] at h₀ h
  child := by
    intro p c
    cases c <;> simp [links, nodeAt, Node.absent]
  sorted := by simp [nodeAt, Node.absent]
  index_eq := rfl
  distinct := by intro i j h; simp at h
  internal := by intro i h; simp [nodeAt, Node.absent] at h
  finite := by intro i v h; simp [nodeAt, Node.absent] at h

end GameSearch.Tree
