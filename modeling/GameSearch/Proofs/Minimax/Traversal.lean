/-
  GameSearch.Proofs.Minimax.Traversal

  The loop with an explicit stack does what the recursion does.  A node on top of
  the stack is treated as the recursion treats it, whatever lies below it: its
  remaining children are searched, it is closed, and its value is handed down.

    * `drain_eq_finish`        — the loop with a node on top, against the recursion on it
    * `searchStack_eq_search`  — both traversals of a subtree agree
    * `Loop.inTree_turn`       — the loop reads no place outside the tree
    * `evaluateIterative_refines_evaluate` — evaluations with a stack are those by recursion
-/
import GameSearch.Minimax.Engine

namespace GameSearch.Minimax

variable {σ : Type} [Sink σ]

namespace Loop

/-- The end of the loop after a turn. -/
def follow (e : Engine) : Turn σ → Option (Except Tree.Fault Score × Run σ)
  | .more l => drain e l
  | .done result => some result
  | .astray => none

theorem drain_eq_follow (e : Engine) (l : Loop σ) : drain e l = follow e (l.turn e) := by
  rw [drain]
  split <;> rename_i h <;> rw [h] <;> rfl

/-- The end of the loop after a child was searched for which the nodes of the stack wait. -/
def handUp (e : Engine) (start : Open) (stack : List Open) :
    Except Tree.Fault Score × Run σ → Option (Except Tree.Fault Score × Run σ)
  | (.error fault, r) => some (.error fault, r)
  | (.ok value, r) => drain e ⟨start, stack, some value, r⟩

/-- The end of the loop after the node on top was searched. -/
def finish (e : Engine) (l : Loop σ) (result : Except Tree.Fault Score × Run σ) :
    Option (Except Tree.Fault Score × Run σ) :=
  match l.stack with
  | [] => some result
  | _ :: below => handUp e l.start below result

/-- A loop goes on as it does after settling. -/
theorem drain_eq_of_settle {e : Engine} {l l' : Loop σ} (h : l.settle e = some l') :
    drain e l = drain e l' := by
  have hnone := (settle_eq_some h).1
  rw [drain_eq_follow, drain_eq_follow, turn, turn, h, settle_of_carried_none hnone]

/-- A failure ends the loop at once, whatever is on the stack. -/
theorem finish_error (e : Engine) (l : Loop σ) (fault : Tree.Fault) (r : Run σ) :
    l.finish e (.error fault, r) = some (.error fault, r) := by
  obtain ⟨start, stack, carried, run⟩ := l
  cases stack <;> rfl

/-- What follows the search of the node on top does not depend on that node. -/
theorem finish_setTop (e : Engine) (o : Open) (l : Loop σ) (c : Option Score) (r : Run σ)
    (result : Except Tree.Fault Score × Run σ) :
    finish e { l.setTop o with carried := c, run := r } result = l.finish e result := by
  obtain ⟨start, stack, carried, run⟩ := l
  cases stack <;> rfl

/-- A value is handed to the child's parent when that is on top. -/
theorem settle_setTop {o : Open} {c : Nat} (e : Engine) (l : Loop σ) (r : Run σ) (value : Score)
    (hread : o.lastTaken (e.tree.children o.frame.node) = some c) :
    settle e ⟨(l.setTop o).start, (l.setTop o).stack, some value, r⟩ =
      some { l.setTop (r.absorb e c value o).1 with
        carried := none, run := (r.absorb e c value o).2 } := by
  obtain ⟨start, stack, carried, run⟩ := l
  cases stack with
  | nil =>
    simp only [settle, setTop, top, hread]
  | cons last below =>
    simp only [settle, setTop, top, hread]

end Loop

open Loop

mutual

/-- Entering a child from the loop comes to searching it and handing its value up. -/
theorem follow_enter (e : Engine) (c : Nat) (w : Window) (l : Loop σ) :
    follow e (l.enter e c w) = handUp e l.start l.stack (search e c w l.run) := by
  rw [search, Loop.enter]
  rcases l.run.enter e c w with ⟨⟨fault⟩ | ⟨_ | value⟩, r⟩
  · rfl
  · -- an internal node: the loop goes on with it on top
    exact drain_eq_finish e (e.opened c w) ⟨l.start, e.opened c w :: l.stack, none, r⟩ rfl rfl
  · rfl
termination_by 2 * e.tree.subtreeSize c
decreasing_by
  rw [e.work_opened c w]
  omega

/-- Going on with the loop comes to searching the children that the node on top has left. -/
theorem drain_eq_finish (e : Engine) (o : Open) (l : Loop σ) (htop : l.top = o)
    (hnone : l.carried = none) : drain e l = l.finish e (searchChildren e o l.run) := by
  have hstep : drain e l = follow e (l.advance e) := by
    rw [drain_eq_follow, turn, settle_of_carried_none hnone]
  cases hc : o.takeChild (e.tree.children o.frame.node) with
  | some taken =>
    obtain ⟨c, o'⟩ := taken
    have henter : l.advance e = (l.setTop o').enter e c o'.frame.window := by
      rw [Loop.advance, htop, hc]
    rw [hstep, henter, follow_enter e c o'.frame.window (l.setTop o'), run_setTop,
      searchChildren_of_takeChild hc]
    rcases search e c o'.frame.window l.run with ⟨fault | value, r⟩
    · exact (finish_error e l fault r).symm
    · -- the value is handed up, and the child is found again at its position
      have hread : o'.lastTaken (e.tree.children o'.frame.node) = some c := by
        rw [Open.frame_of_takeChild hc]
        exact Open.lastTaken_of_takeChild hc
      have habsorbed := drain_eq_finish e (r.absorb e c value o').1
        { l.setTop (r.absorb e c value o').1 with
          carried := none, run := (r.absorb e c value o').2 } (top_setTop _ l) rfl
      rw [finish_setTop] at habsorbed
      show drain e _ = _
      rw [drain_eq_of_settle (settle_setTop e l r value hread), habsorbed]
  | none =>
    rw [hstep, searchChildren_of_takeChild_none hc, Loop.advance, htop, hc]
    obtain ⟨start, stack, carried, run⟩ := l
    cases htop
    cases stack with
    | nil => rfl
    | cons o below => rfl
termination_by 2 * e.work o + 1
decreasing_by
  all_goals
    have h := Engine.work_takeChild hc
    have hpos := Tree.subtreeSize_eq e.tree c
  · omega
  · have hle := e.work_absorb_le c value o' r
    omega

end

/-- Both traversals of a subtree come to the same end from every run. -/
theorem searchStack_eq_search (e : Engine) (i : Nat) (w : Window) (r : Run σ) :
    searchStack e i w r = search e i w r := by
  rw [searchStack, search]
  rcases r.enter e i w with ⟨fault | _ | value, r⟩
  · rfl
  · -- the loop starts with the start node on top and nothing below it
    have hdrain : drain e (below e i w r) = some (searchChildren e (e.opened i w) r) :=
      drain_eq_finish e (e.opened i w) (below e i w r) rfl rfl
    show (drain e (below e i w r)).get _ = searchChildren e (e.opened i w) r
    simp only [hdrain, Option.get_some]
  · rfl

theorem evaluateBy_searchStack (e : Engine) (i : Nat) (w : Window) (ch : Channel σ) :
    e.evaluateBy searchStack i w ch = e.evaluateBy search i w ch := by
  have h : @searchStack σ _ = search := by
    funext e i w r
    exact searchStack_eq_search e i w r
  rw [h]

theorem evaluateIterative_eq_evaluate (e : Engine) (i : Nat) (w : Window) (ch : Channel σ) :
    e.evaluateIterative i w ch = e.evaluate i w ch :=
  evaluateBy_searchStack e i w ch

theorem runIterative_eq_run (e : Engine) (ch : Channel σ) : e.runIterative ch = e.run ch :=
  evaluateBy_searchStack e e.tree.root .full ch

-- ============================================================================
-- Places that the loop reads
-- ============================================================================

/-- A place of an evaluation that started at `i`: the node is `i` itself or stands in the table,
    and no more children were taken than there are. -/
structure Open.InTree (e : Engine) (i : Nat) (o : Open) : Prop where
  node : o.frame.node = i ∨ o.frame.node < e.tree.size
  next : o.next ≤ (e.tree.children o.frame.node).length

theorem Open.inTree_opened (e : Engine) (i : Nat) (w : Window) : (e.opened i w).InTree e i where
  node := .inl rfl
  next := Nat.zero_le _

namespace Loop

variable {e : Engine} {i : Nat} {o o' : Open} {c : Nat} {l l' : Loop σ}

theorem inTree_absorb (value : Score) (r : Run σ) (ho : o.InTree e i) :
    (r.absorb e c value o).1.InTree e i := by
  obtain ⟨hnode, hnext⟩ := ho
  unfold Run.absorb
  dsimp only
  split
  · refine ⟨?_, ?_⟩
    · simpa [Open.skipRest] using hnode
    · simp [Open.skipRest]
  · refine ⟨?_, ?_⟩
    · simpa using hnode
    · simpa using hnext

theorem inTree_takeChild (h : o.takeChild (e.tree.children o.frame.node) = some (c, o'))
    (ho : o.InTree e i) : o'.InTree e i ∧ c < e.tree.size := by
  unfold Open.takeChild at h
  split at h
  · rename_i d hd
    cases h
    obtain ⟨hlt, hget⟩ := List.getElem?_eq_some_iff.1 hd
    have hmem : c ∈ e.tree.children o.frame.node := hget ▸ List.getElem_mem hlt
    exact ⟨⟨ho.node, hlt⟩, Tree.lt_size_of_mem_children hmem⟩
  · cases h

/-- All open nodes are in the tree. -/
def InTree (e : Engine) (i : Nat) (l : Loop σ) : Prop := ∀ o ∈ l.start :: l.stack, o.InTree e i

omit [Sink σ] in
/-- Replacing the node on top by another one in the tree leaves all of them in it. -/
theorem inTree_setTop (ho : o.InTree e i) (hl : l.InTree e i) : (l.setTop o).InTree e i := by
  obtain ⟨start, stack, carried, run⟩ := l
  cases stack with
  | nil =>
    intro p hp
    rw [List.mem_singleton.1 hp]
    exact ho
  | cons top below =>
    intro p hp
    rcases List.mem_cons.1 hp with rfl | hp
    · exact hl _ List.mem_cons_self
    · rcases List.mem_cons.1 hp with rfl | hp
      · exact ho
      · exact hl p (List.mem_cons_of_mem _ (List.mem_cons_of_mem _ hp))

omit [Sink σ] in
theorem inTree_top (hl : l.InTree e i) : l.top.InTree e i := by
  obtain ⟨start, stack, carried, run⟩ := l
  cases stack with
  | nil => exact hl _ List.mem_cons_self
  | cons top below => exact hl _ (List.mem_cons_of_mem _ List.mem_cons_self)

theorem inTree_settle (hl : l.InTree e i) (h : l.settle e = some l') : l'.InTree e i := by
  obtain ⟨-, rfl | ⟨c, value, -, -, rfl⟩⟩ := settle_eq_some h
  · exact hl
  · exact inTree_setTop (inTree_absorb value l.run (inTree_top hl)) hl

/-- One turn keeps the open nodes in the tree. -/
theorem inTree_turn (hl : l.InTree e i) (h : l.turn e = .more l') : l'.InTree e i := by
  unfold turn at h
  split at h
  · cases h
  · rename_i settled hsettled
    have hs := inTree_settle hl hsettled
    unfold advance at h
    split at h
    · rename_i c o hc
      obtain ⟨ho, hlt⟩ := inTree_takeChild hc (inTree_top hs)
      have hset := inTree_setTop ho hs
      unfold enter at h
      split at h <;> cases h
      · exact hset
      · -- the child that was entered goes on the stack
        intro p hp
        rcases List.mem_cons.1 hp with rfl | hp
        · exact hset _ List.mem_cons_self
        · rcases List.mem_cons.1 hp with rfl | hp
          · exact ⟨.inr hlt, Nat.zero_le _⟩
          · exact hset p (List.mem_cons_of_mem _ hp)
    · split at h
      · rename_i o below hstack
        cases h
        intro p hp
        refine hs p ?_
        rw [hstack]
        rcases List.mem_cons.1 hp with rfl | hp
        · exact List.mem_cons_self
        · exact List.mem_cons_of_mem _ (List.mem_cons_of_mem _ hp)
      · cases h

/-- The states of the loop from the one right after its start node was entered. -/
inductive Reached (e : Engine) (i : Nat) (w : Window) (r : Run σ) : Loop σ → Prop where
  | first : Reached e i w r (below e i w r)
  | turn {l l' : Loop σ} : Reached e i w r l → l.turn e = .more l' → Reached e i w r l'

/-- In every state the next turn finds what it looks for, and the open nodes are in the tree. -/
theorem Reached.safe {w : Window} {r : Run σ} (h : Reached e i w r l) :
    Sound e l ∧ l.InTree e i := by
  induction h with
  | first =>
    refine ⟨sound_below e i w r, ?_⟩
    intro o ho
    rw [List.mem_singleton.1 ho]
    exact Open.inTree_opened e i w
  | turn _ hturn ih => exact ⟨sound_turn ih.1 hturn, inTree_turn ih.2 hturn⟩

end Loop

/-- The traversal with an explicit stack refines the recursive one, from every node, with every
    window and for every sink.  Its loop never looks for a child that is not there, stays within
    the tree and comes to an end; and the result, the sink and the journal are those of the
    recursion. -/
theorem evaluateIterative_refines_evaluate (e : Engine) (i : Nat) (w : Window) (ch : Channel σ) :
    (∀ (v : Window) (r : Run σ) (l : Loop σ), Loop.Reached e i v r l →
      l.turn e ≠ .astray ∧ l.InTree e i) ∧
    (∀ (v : Window) (r : Run σ), (drain e (Loop.below e i v r)).isSome) ∧
    e.evaluateIterative i w ch = e.evaluate i w ch := by
  refine ⟨?_, ?_, ?_⟩
  · intro v r l hl
    obtain ⟨hsound, htree⟩ := hl.safe
    exact ⟨Loop.turn_ne_astray hsound, htree⟩
  · intro v r
    exact isSome_drain (Loop.sound_below e i v r)
  · exact evaluateBy_searchStack e i w ch

end GameSearch.Minimax
