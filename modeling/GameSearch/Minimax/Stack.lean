/-
  GameSearch.Minimax.Stack

  Depth-first evaluation with an explicit stack of open nodes.  The start node stays
  below the stack.  A turn of the loop works on the node on top: it first takes the
  value that the last finished child handed up, then enters the next child, or closes
  the node if no child is left.

    * `Loop.turn`           — one turn
    * `Loop.Sound`          — a value is handed up only to a node that took a child
    * `Loop.sound_turn`     — turns keep that, so no child is looked up in vain
    * `Loop.work_turn_lt`   — turns leave less to do
    * `drain`               — turns until the start node is closed
-/
import GameSearch.Arithmetic
import GameSearch.Minimax.Run

namespace GameSearch.Minimax

attribute [local instance] Arithmetic.zero

/-- The state of the loop. -/
structure Loop (σ : Type) where
  /-- The node at which the evaluation started. -/
  start : Open
  /-- The open nodes below it, the innermost first. -/
  stack : List Open
  /-- The value of the child that was finished last, until its parent takes it. -/
  carried : Option Score
  run : Run σ

/-- What a turn leads to. -/
inductive Turn (σ : Type) where
  /-- The loop goes on. -/
  | more (l : Loop σ)
  /-- The start node was closed, or a node could not be entered. -/
  | done (result : Except Tree.Fault Score × Run σ)
  /-- A value was handed up, but there is no child that it could come from. -/
  | astray

namespace Loop

variable {σ : Type}

/-- The node that the next turn works on. -/
def top (l : Loop σ) : Open :=
  match l.stack with
  | o :: _ => o
  | [] => l.start

/-- Replaces the node that the next turn works on. -/
def setTop (o : Open) (l : Loop σ) : Loop σ :=
  match l.stack with
  | _ :: below => { l with stack := o :: below }
  | [] => { l with start := o }

@[simp]
theorem top_setTop (o : Open) (l : Loop σ) : (l.setTop o).top = o := by
  obtain ⟨start, stack, carried, run⟩ := l
  cases stack <;> rfl

@[simp]
theorem run_setTop (o : Open) (l : Loop σ) : (l.setTop o).run = l.run := by
  obtain ⟨start, stack, carried, run⟩ := l
  cases stack <;> rfl

/-- The loop right after its start node was entered. -/
def below (e : Engine) (i : Nat) (w : Window) (r : Run σ) : Loop σ := ⟨e.opened i w, [], none, r⟩

/-- The node took a child, whose value it waits for. -/
def Waiting (e : Engine) (o : Open) : Prop :=
  (o.lastTaken (e.tree.children o.frame.node)).isSome

/-- What holds before every turn: all nodes but the one on top wait for a child, and so does the
    one on top if a value is handed up to it. -/
structure Sound (e : Engine) (l : Loop σ) : Prop where
  start_waits : l.stack ≠ [] → Waiting e l.start
  stack_waits : ∀ o ∈ l.stack.tail, Waiting e o
  top_waits : l.carried.isSome → Waiting e l.top

theorem sound_below (e : Engine) (i : Nat) (w : Window) (r : Run σ) : Sound e (below e i w r) where
  start_waits h := absurd rfl h
  stack_waits o h := by cases h
  top_waits h := by cases h

/-- What is left to do: twice the nodes that may still be entered, and one for closing each node
    on the stack. -/
def work (e : Engine) (l : Loop σ) : Nat :=
  (l.stack.map fun o => 2 * e.work o + 1).sum + 2 * e.work l.start

theorem work_setTop_add (e : Engine) (o : Open) (l : Loop σ) :
    (l.setTop o).work e + 2 * e.work l.top = l.work e + 2 * e.work o := by
  obtain ⟨start, stack, carried, run⟩ := l
  cases stack <;> simp only [work, setTop, top, List.map_nil, List.map_cons, List.sum_nil,
    List.sum_cons] <;> omega

variable [Sink σ]

/-- Hands the carried value, if any, to the node on top.  The child it belongs to is read by its
    position; absent if no child stands there. -/
def settle (e : Engine) (l : Loop σ) : Option (Loop σ) :=
  match l.carried with
  | none => some l
  | some value =>
    match l.top.lastTaken (e.tree.children l.top.frame.node) with
    | none => none
    | some c =>
      let absorbed := l.run.absorb e c value l.top
      some { l.setTop absorbed.1 with carried := none, run := absorbed.2 }

/-- Enters a child of the node on top.  The value of a leaf is carried at once; an internal node
    goes on the stack. -/
def enter (e : Engine) (c : Nat) (w : Window) (l : Loop σ) : Turn σ :=
  match l.run.enter e c w with
  | (.error fault, r) => .done (.error fault, r)
  | (.ok (some value), r) => .more { l with carried := some value, run := r }
  | (.ok none, r) => .more { l with stack := e.opened c w :: l.stack, carried := none, run := r }

/-- Enters the next child of the node on top, or closes that node if no child is left. -/
def advance (e : Engine) (l : Loop σ) : Turn σ :=
  match l.top.takeChild (e.tree.children l.top.frame.node) with
  | some (c, o) => (l.setTop o).enter e c o.frame.window
  | none =>
    match l.stack with
    | o :: below =>
      let (value, r) := l.run.close e o.frame
      .more { l with stack := below, carried := some value, run := r }
    | [] =>
      let (value, r) := l.run.close e l.start.frame
      .done (.ok value, r)

/-- One turn of the loop. -/
def turn (e : Engine) (l : Loop σ) : Turn σ :=
  match l.settle e with
  | none => .astray
  | some l => l.advance e

-- ============================================================================
-- Turns never go astray
-- ============================================================================

theorem settle_of_carried_none {e : Engine} {l : Loop σ} (h : l.carried = none) :
    l.settle e = some l := by
  simp only [settle, h]

/-- After settling nothing is carried, and only the node on top has changed. -/
theorem settle_eq_some {e : Engine} {l l' : Loop σ} (h : l.settle e = some l') :
    l'.carried = none ∧ (l' = l ∨ ∃ c value, l.carried = some value ∧
      l.top.lastTaken (e.tree.children l.top.frame.node) = some c ∧
      l' = { l.setTop (l.run.absorb e c value l.top).1 with
        carried := none, run := (l.run.absorb e c value l.top).2 }) := by
  unfold settle at h
  split at h
  · rename_i hnone
    cases h
    exact ⟨hnone, .inl rfl⟩
  · rename_i value hvalue
    split at h
    · cases h
    · rename_i c hc
      cases h
      exact ⟨rfl, .inr ⟨c, value, hvalue, hc, rfl⟩⟩

theorem Sound.settle {e : Engine} {l l' : Loop σ} (hl : Sound e l)
    (h : l.settle e = some l') : Sound e l' := by
  obtain ⟨hnone, rfl | ⟨c, value, -, -, rfl⟩⟩ := settle_eq_some h
  · exact hl
  · obtain ⟨start, stack, carried, run⟩ := l
    cases stack with
    | nil =>
      exact ⟨fun h => absurd rfl h, fun o h => (by cases h), fun h => (by cases h)⟩
    | cons o below =>
      exact ⟨fun _ => hl.start_waits (by simp), hl.stack_waits, fun h => (by cases h)⟩

/-- A sound loop finds the child that a value belongs to. -/
theorem Sound.settle_ne_none {e : Engine} {l : Loop σ} (hl : Sound e l) : l.settle e ≠ none := by
  intro h
  unfold Loop.settle at h
  split at h
  · cases h
  · rename_i value hvalue
    have hw := hl.top_waits (by rw [hvalue]; rfl)
    unfold Waiting at hw
    split at h
    · rename_i hc
      rw [hc] at hw
      cases hw
    · cases h

theorem Sound.advance {e : Engine} {l l' : Loop σ} (hl : Sound e l)
    (h : l.advance e = .more l') : Sound e l' := by
  obtain ⟨start, stack, carried, run⟩ := l
  unfold Loop.advance at h
  split at h
  · rename_i c o hc
    have hwaits : Waiting e o := by
      unfold Waiting
      rw [Open.frame_of_takeChild hc, Open.lastTaken_of_takeChild hc]
      rfl
    cases stack with
    | nil =>
      dsimp only [setTop, enter] at h
      split at h <;> cases h
      · exact ⟨fun h => absurd rfl h, fun o h => (by cases h), fun _ => hwaits⟩
      · exact ⟨fun _ => hwaits, fun o h => (by cases h), fun h => (by cases h)⟩
    | cons p below =>
      have hstart := hl.start_waits (by simp)
      dsimp only [setTop, enter] at h
      split at h <;> cases h
      · exact ⟨fun _ => hstart, hl.stack_waits, fun _ => hwaits⟩
      · refine ⟨fun _ => hstart, fun q hq => ?_, fun h => (by cases h)⟩
        rcases List.mem_cons.1 hq with rfl | hq
        · exact hwaits
        · exact hl.stack_waits q hq
  · cases stack with
    | nil => cases h
    | cons p below =>
      cases h
      have hstart := hl.start_waits (by simp)
      cases below with
      | nil => exact ⟨fun h => absurd rfl h, fun o h => (by cases h), fun _ => hstart⟩
      | cons q below =>
        exact ⟨fun _ => hstart, fun o ho => hl.stack_waits o (List.mem_cons_of_mem q ho),
          fun _ => hl.stack_waits q List.mem_cons_self⟩

/-- Soundness passes from turn to turn. -/
theorem sound_turn {e : Engine} {l l' : Loop σ} (hl : Sound e l) (h : l.turn e = .more l') :
    Sound e l' := by
  unfold turn at h
  split at h
  · cases h
  · rename_i settled hsettled
    exact (hl.settle hsettled).advance h

theorem turn_ne_astray {e : Engine} {l : Loop σ} (hl : Sound e l) : l.turn e ≠ .astray := by
  intro h
  unfold turn at h
  split at h
  · rename_i hnone
    exact hl.settle_ne_none hnone
  · unfold advance at h
    split at h
    · dsimp only [enter] at h
      split at h <;> cases h
    · split at h <;> cases h

-- ============================================================================
-- Turns come to an end
-- ============================================================================

theorem work_settle_le {e : Engine} {l l' : Loop σ} (h : l.settle e = some l') :
    l'.work e ≤ l.work e := by
  obtain ⟨-, rfl | ⟨c, value, -, -, rfl⟩⟩ := settle_eq_some h
  · exact Nat.le_refl _
  · have h₁ := work_setTop_add e (l.run.absorb e c value l.top).1 l
    have h₂ := e.work_absorb_le c value l.top l.run
    show (l.setTop _).work e ≤ l.work e
    omega

theorem work_advance_lt {e : Engine} {l l' : Loop σ} (h : l.advance e = .more l') :
    l'.work e < l.work e := by
  unfold advance at h
  split at h
  · rename_i c o hc
    have h₁ := work_setTop_add e o l
    have h₂ := Engine.work_takeChild hc
    dsimp only [enter] at h
    split at h <;> cases h
    · have h₃ := Tree.subtreeSize_eq e.tree c
      show (l.setTop o).work e < l.work e
      omega
    · have h₃ := e.work_opened c o.frame.window
      show (2 * e.work (e.opened c o.frame.window) + 1 + ((l.setTop o).stack.map _).sum) +
        2 * e.work (l.setTop o).start < l.work e
      have h₄ : ((l.setTop o).stack.map fun o => 2 * e.work o + 1).sum +
        2 * e.work (l.setTop o).start = (l.setTop o).work e := rfl
      omega
  · split at h
    · rename_i o below hstack
      cases h
      simp only [work, hstack, List.map_cons, List.sum_cons]
      omega
    · cases h

theorem work_turn_lt {e : Engine} {l l' : Loop σ} (h : l.turn e = .more l') :
    l'.work e < l.work e := by
  unfold turn at h
  split at h
  · cases h
  · rename_i settled hsettled
    exact Nat.lt_of_lt_of_le (work_advance_lt h) (work_settle_le hsettled)

end Loop

variable {σ : Type} [Sink σ]

/-- Takes turns until the start node is closed; absent if a turn goes astray. -/
def drain (e : Engine) (l : Loop σ) : Option (Except Tree.Fault Score × Run σ) :=
  match _h : l.turn e with
  | .more l' => drain e l'
  | .done result => some result
  | .astray => none
termination_by l.work e
decreasing_by exact Loop.work_turn_lt _h

/-- A sound loop delivers a result. -/
theorem isSome_drain {e : Engine} {l : Loop σ} (hl : l.Sound e) : (drain e l).isSome := by
  fun_induction drain e l with
  | case1 l l' h ih => exact ih (Loop.sound_turn hl h)
  | case2 l result h => rfl
  | case3 l h => exact absurd h (Loop.turn_ne_astray hl)

/-- Evaluates the subtree of a node with a window. -/
def searchStack (e : Engine) (i : Nat) (w : Window) (r : Run σ) :
    Except Tree.Fault Score × Run σ :=
  match r.enter e i w with
  | (.error fault, r) => (.error fault, r)
  | (.ok (some value), r) => (.ok value, r)
  | (.ok none, r) => (drain e (Loop.below e i w r)).get (isSome_drain (Loop.sound_below e i w r))

end GameSearch.Minimax
