/-
  GameSearch.Proofs.Tree.Entry

  The queue loop enters the positions of a specification in breadth-first order.  Before every
  turn the order falls into the positions already entered and those still to come; what is to
  come is what waits in the queue, followed by the successors of all that is to come.

    * `Entered`        — a table holds the nodes of all positions, in their order
    * `Progress`       — the joint invariant of queue, table and identifiers
    * `Progress.turn`  — a turn keeps it; `Progress.finish`: an empty queue ends the order
    * `build_outcome`  — a tree for a specification without fault, else its first fault
-/
import GameSearch.Tree.Builder
import GameSearch.Proofs.Tree.Faults

namespace GameSearch

/-- The place of the first successor of a position, counted breadth first. -/
def Spec.firstSuccessor (spec : Spec) (k : Nat) : Nat :=
  ((spec.breadthFirst.take k).flatMap Position.successors).length + 1

namespace Tree

/-- The node of the position that stands at a place of the breadth-first order. -/
structure Entry (spec : Spec) (k : Nat) (p : Position) (n : Node) : Prop where
  id : p.spec.id = some n.id
  value : n.value = p.spec.value
  children : n.children = List.range' (spec.firstSuccessor k) p.spec.children.length
  depth : n.depth = p.depth

/-- A table holds nodes for the positions of a list, which begins the breadth-first order. -/
structure Entered (spec : Spec) (positions : List Position) (nodes : Array Node) : Prop where
  size : nodes.size = positions.length
  entry : ∀ k p, positions[k]? = some p → Entry spec k p (nodeAt nodes k)

/-- What holds before every turn of the queue loop. -/
structure Progress (limits : Limits) (spec : Spec) (done rest : List Position)
    (nodes : Array Node) (queue : List Pending) (index : Std.HashMap String Nat) (allotted : Nat) :
    Prop where
  order : done ++ rest = spec.breadthFirst
  waiting : rest = queue.map Pending.position ++ rest.flatMap Position.successors
  depth : ∀ q ∈ queue, q.depth = q.path.length
  allotted : allotted = (done.flatMap Position.successors).length + 1
  names : Names index done
  faultless : Faultless limits done
  entered : Entered spec done nodes

variable {limits : Limits} {spec : Spec} {done rest : List Position} {nodes : Array Node}
  {queue : List Pending} {index : Std.HashMap String Nat} {allotted : Nat} {q : Pending}
  {id : String} {fault : Fault}

theorem position_successors (q : Pending) (place : Nat) :
    (q.successors place).map Pending.position = q.position.successors := by
  refine List.ext_getElem (by simp [Pending.successors, Spec.length_successors, Pending.position])
    fun i _ _ => ?_
  simp [Pending.successors, Position.successors, Pending.position]

theorem depth_of_mem_pending_successors {place : Nat} {r : Pending}
    (hdepth : q.depth = q.path.length) (h : r ∈ q.successors place) : r.depth = r.path.length := by
  obtain ⟨i, -, rfl⟩ := List.mem_mapIdx.1 h
  rw [List.length_cons, hdepth]

/-- A list of positions that only holds successors of its own members has none. -/
theorem eq_nil_of_eq_successors {positions : List Position}
    (h : positions = positions.flatMap Position.successors) : positions = [] := by
  -- each member has one before it on the level above, so no level is the uppermost
  have hdeep : ∀ d, ∀ p ∈ positions, d ≤ p.depth := by
    intro d
    induction d with
    | zero => exact fun p _ => Nat.zero_le _
    | succ d ih =>
      intro p hp
      rw [h] at hp
      obtain ⟨q, hq, hqp⟩ := List.mem_flatMap.1 hp
      rw [Spec.depth_of_mem_successors hqp]
      exact Nat.succ_le_succ (ih q hq)
  rw [List.eq_nil_iff_forall_not_mem]
  intro p hp
  exact Nat.not_succ_le_self _ (hdeep (p.depth + 1) p hp)

/-- The start of the order is what was entered. -/
theorem Progress.firstSuccessor_eq
    (inv : Progress limits spec done rest nodes queue index allotted) :
    spec.firstSuccessor done.length = allotted := by
  rw [Spec.firstSuccessor, ← inv.order, List.take_left, inv.allotted]

/-- The head of the queue is the next position of the order. -/
theorem Progress.exists_rest
    (inv : Progress limits spec done rest nodes (q :: queue) index allotted) :
    ∃ rest', rest = q.position :: rest' ∧
      rest' = (queue ++ q.successors nodes.size).map Pending.position ++
        rest'.flatMap Position.successors := by
  have hwaiting := inv.waiting
  rw [List.map_cons, List.cons_append] at hwaiting
  refine ⟨_, hwaiting, ?_⟩
  conv_lhs => rw [hwaiting]
  rw [List.flatMap_cons, List.map_append, position_successors, List.append_assoc]

theorem Entered.concat {positions : List Position} (h : Entered spec positions nodes)
    (hid : q.spec.id = some id) (hdepth : q.depth = q.path.length)
    (hallotted : spec.firstSuccessor positions.length = allotted) :
    Entered spec (positions ++ [q.position]) (nodes.push (q.node id allotted)) where
  size := by rw [Array.size_push, List.length_append, List.length_singleton, h.size]
  entry := by
    intro k p hp
    rw [nodeAt_push, h.size]
    rw [List.getElem?_append] at hp
    split at hp
    · rename_i hlt
      rw [if_neg (Nat.ne_of_lt hlt)]
      exact h.entry k p hp
    · obtain ⟨hk, hp⟩ := List.getElem?_eq_some_iff.1 hp
      rw [List.length_singleton] at hk
      obtain rfl : k = positions.length := by omega
      rw [if_pos rfl]
      obtain rfl : q.position = p := by simpa using hp
      refine ⟨hid, rfl, ?_, ?_⟩
      · rw [hallotted]
        rfl
      · rw [Position.depth, Pending.position, List.length_reverse, ← hdepth]
        rfl

/-- A turn that passes its check keeps the invariant. -/
theorem Progress.turn (inv : Progress limits spec done rest nodes (q :: queue) index allotted)
    (h : q.check limits index = .ok id) :
    ∃ rest', Progress limits spec (done ++ [q.position]) rest' (nodes.push (q.node id allotted))
      (queue ++ q.successors nodes.size) (index.insert id nodes.size)
      (allotted + q.spec.children.length) := by
  have hdepth := inv.depth q List.mem_cons_self
  have hcheck := check_decisive limits inv.names hdepth
  rw [h] at hcheck
  obtain ⟨hid, hnone⟩ := hcheck
  obtain ⟨rest', hrest, hwaiting⟩ := inv.exists_rest
  refine ⟨rest', ?_⟩
  constructor
  case order => rw [List.append_assoc, List.singleton_append, ← hrest, inv.order]
  case waiting => exact hwaiting
  case depth =>
    intro r hr
    rcases List.mem_append.1 hr with hr | hr
    · exact inv.depth r (List.mem_cons_of_mem _ hr)
    · exact depth_of_mem_pending_successors hdepth hr
  case allotted =>
    rw [List.flatMap_append, List.flatMap_singleton, List.length_append,
      Spec.length_successors, inv.allotted]
    exact Nat.add_right_comm _ _ _
  case names => exact inv.names.insert hid _
  case faultless => exact inv.faultless.concat hnone
  case entered => exact inv.entered.concat hid hdepth inv.firstSuccessor_eq

/-- A turn that fails its check has come to the first fault. -/
theorem Progress.firstFault
    (inv : Progress limits spec done rest nodes (q :: queue) index allotted)
    (h : q.check limits index = .error fault) : FirstFault limits spec.breadthFirst fault := by
  have hcheck := check_decisive limits inv.names (inv.depth q List.mem_cons_self)
  rw [h] at hcheck
  obtain ⟨rest', hrest, -⟩ := inv.exists_rest
  exact ⟨done, q.position, rest', by rw [← hrest, inv.order], inv.faultless, hcheck⟩

/-- When nothing waits any more, all positions were entered. -/
theorem Progress.finish (inv : Progress limits spec done rest nodes [] index allotted) :
    done = spec.breadthFirst := by
  have hrest : rest = [] := eq_nil_of_eq_successors inv.waiting
  rw [← inv.order, hrest, List.append_nil]

/-- From every state of the loop on, the outcome is that of the whole order. -/
theorem fill_outcome (front back : List Pending)
    (inv : ∃ done rest,
      Progress limits spec done rest nodes (front ++ back.reverse) index allotted) :
    match fill limits nodes index allotted front back with
    | .ok table => Faultless limits spec.breadthFirst ∧ Entered spec spec.breadthFirst table
    | .error fault => FirstFault limits spec.breadthFirst fault := by
  fun_induction fill limits nodes index allotted front back with
  | case1 nodes index allotted =>
    obtain ⟨done, rest, inv⟩ := inv
    rw [← inv.finish]
    exact ⟨inv.faultless, inv.entered⟩
  | case2 nodes index allotted b back ih => exact ih (by simpa using inv)
  | case3 nodes index allotted p front back fault hp =>
    obtain ⟨done, rest, inv⟩ := inv
    exact inv.firstFault hp
  | case4 nodes index allotted p front back id hp queued ih =>
    obtain ⟨done, rest, inv⟩ := inv
    obtain ⟨rest', hturn⟩ := Progress.turn inv hp
    exact ih ⟨done ++ [p.position], rest', by simpa [queued] using hturn⟩

theorem Progress.start (limits : Limits) (spec : Spec) :
    Progress limits spec [] spec.breadthFirst #[] [⟨spec, none, 0, []⟩] ∅ 1 where
  order := rfl
  waiting := spec.breadthFirst_eq_successors
  depth := by simp
  allotted := rfl
  names := by simp [Names]
  faultless := Faultless.nil limits
  entered := ⟨rfl, by simp⟩

/-- A specification without fault has a tree that holds its positions breadth first; otherwise
    its first fault is told. -/
theorem build_outcome (limits : Limits) (spec : Spec) :
    match build limits spec with
    | .ok t => Faultless limits spec.breadthFirst ∧ Entered spec spec.breadthFirst t.nodes
    | .error fault => FirstFault limits spec.breadthFirst fault := by
  have hfill := fill_outcome [⟨spec, none, 0, []⟩] []
    ⟨[], spec.breadthFirst, Progress.start limits spec⟩
  rw [← map_build] at hfill
  cases hbuild : build limits spec with
  | ok t =>
    rw [hbuild] at hfill
    exact hfill
  | error fault =>
    rw [hbuild] at hfill
    exact hfill

end Tree

end GameSearch
