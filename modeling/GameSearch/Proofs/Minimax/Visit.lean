/-
  GameSearch.Proofs.Minimax.Visit

  What a search does, as a tree of its own.  A visit holds the window a node was entered
  with, the frame it ended with, the visits to the children that were evaluated and those
  that a cutoff left out.  Visits are computed from the tree alone; a run plays them.

    * `explore`, `sweep`   — the visit to a node, the part of a visit that is still ahead
    * `sweep_cons`         — one child is visited, and then the rest unless it is cut off
    * `sweepInduction`     — proofs about the rest of a visit, child by child
    * `Visit.play`         — what a visit does to a run
    * `search_eq_play`     — a search plays the visit to its node
    * `evaluate_eq_play`   — and so does a whole evaluation
-/
import GameSearch.Minimax.Engine
import GameSearch.Proofs.Minimax.Value

namespace GameSearch.Minimax

/-- What a search does at and below a node. -/
structure Visit where
  /-- The window with which the node is entered. -/
  window : Window
  /-- The frame of the node at the end. -/
  frame : Frame
  /-- The visits to the children, from left to right. -/
  visits : List Visit
  /-- The children that remain after a cutoff, if there is one. -/
  cut : Option (List Nat)

namespace Visit

def place (v : Visit) : Nat := v.frame.node

def value (v : Visit) : Score := v.frame.value

def best (v : Visit) : Option Nat := v.frame.best

/-- The visit to a leaf. -/
def leaf (t : Tree) (i : Nat) (w : Window) : Visit where
  window := w
  frame := { Frame.start i (t.kind i) w with value := t.minimaxValue i }
  visits := []
  cut := none

/-- A visit with one more child in front. -/
def cons (v first : Visit) : Visit := { v with visits := first :: v.visits }

/-- What passes from the visits to the children to a visit holds of every visit. -/
theorem induction {motive : Visit → Prop} (step : ∀ v, (∀ u ∈ v.visits, motive u) → motive v)
    (v : Visit) : motive v :=
  step v fun u _ => induction step u
termination_by sizeOf v
decreasing_by
  obtain ⟨window, frame, visits, cut⟩ := v
  have hlt : sizeOf u < sizeOf visits := List.sizeOf_lt_of_mem ‹_›
  simp only [mk.sizeOf_spec]
  omega

end Visit

-- ============================================================================
-- Exploring
-- ============================================================================

mutual

/-- The visit to a node that is entered with a window. -/
def explore (e : Engine) (i : Nat) (w : Window) : Visit :=
  if e.isLeaf i then Visit.leaf e.tree i w
  else sweep e w (e.tree.children i) (e.opened i w).frame
termination_by 2 * e.tree.subtreeSize i
decreasing_by
  rw [Tree.subtreeSize_eq]
  omega

/-- The rest of the visit to a node whose frame has come so far and that has these children
    left. -/
def sweep (e : Engine) (w : Window) (rest : List Nat) (f : Frame) : Visit :=
  match rest with
  | [] => ⟨w, f, [], none⟩
  | c :: rest =>
    let v := explore e c f.window
    let f := f.absorb e.pruning c v.value
    if f.isCutoff e.pruning then ⟨w, f, [v], some rest⟩ else (sweep e w rest f).cons v
termination_by 2 * e.tree.subtreeSizes rest + 1
decreasing_by
  all_goals
    rw [Tree.subtreeSizes_cons]
    have hpos := Tree.subtreeSize_eq e.tree c
    omega

end

variable {e : Engine} {i : Nat} {w : Window} {f : Frame} {c : Nat} {rest : List Nat}

theorem isLeaf_iff : e.isLeaf i = true ↔ e.tree.children i = [] := List.isEmpty_iff

theorem explore_of_leaf (h : e.tree.children i = []) : explore e i w = Visit.leaf e.tree i w := by
  rw [explore, if_pos (isLeaf_iff.2 h)]

theorem explore_of_internal (h : e.tree.children i ≠ []) :
    explore e i w = sweep e w (e.tree.children i) (Frame.start i (e.tree.kind i) w) := by
  rw [explore, if_neg (fun hleaf => h (isLeaf_iff.1 hleaf))]
  rfl

theorem sweep_nil : sweep e w [] f = ⟨w, f, [], none⟩ := by
  rw [sweep]

/-- A child that leads to a cutoff is the last one visited. -/
theorem sweep_cons_of_cutoff
    (h : (f.absorb e.pruning c (explore e c f.window).value).isCutoff e.pruning = true) :
    sweep e w (c :: rest) f =
      ⟨w, f.absorb e.pruning c (explore e c f.window).value,
        [explore e c f.window], some rest⟩ := by
  rw [sweep, if_pos h]

/-- Otherwise the rest follows with the frame that took its value in. -/
theorem sweep_cons
    (h : (f.absorb e.pruning c (explore e c f.window).value).isCutoff e.pruning = false) :
    sweep e w (c :: rest) f =
      (sweep e w rest (f.absorb e.pruning c (explore e c f.window).value)).cons
        (explore e c f.window) := by
  rw [sweep, h]
  rfl

/-- Statements about the children left and the frame before them hold if they hold when no child
    is left and when the next one leads to a cutoff, and otherwise pass from what follows the next
    child to what includes it. -/
theorem sweepInduction (e : Engine) {motive : List Nat → Frame → Prop} (nil : ∀ f, motive [] f)
    (cutoff : ∀ c rest f,
      (f.absorb e.pruning c (explore e c f.window).value).isCutoff e.pruning = true →
      motive (c :: rest) f)
    (next : ∀ c rest f,
      (f.absorb e.pruning c (explore e c f.window).value).isCutoff e.pruning = false →
      motive rest (f.absorb e.pruning c (explore e c f.window).value) → motive (c :: rest) f)
    (rest : List Nat) (f : Frame) : motive rest f := by
  induction rest generalizing f with
  | nil => exact nil f
  | cons c rest ih =>
    cases hcut : (f.absorb e.pruning c (explore e c f.window).value).isCutoff e.pruning with
    | true => exact cutoff c rest f hcut
    | false => exact next c rest f hcut (ih _)

/-- The node of a frame stays that of its visit. -/
theorem place_sweep (rest : List Nat) (f : Frame) : (sweep e w rest f).place = f.node := by
  induction rest, f using sweepInduction e with
  | nil f =>
    rw [sweep_nil]
    rfl
  | cutoff c rest f hcut =>
    rw [sweep_cons_of_cutoff hcut]
    exact f.absorb_node _ _ _
  | next c rest f hcut ih =>
    rw [sweep_cons hcut]
    exact ih.trans (f.absorb_node _ _ _)

theorem window_sweep (rest : List Nat) (f : Frame) : (sweep e w rest f).window = w := by
  induction rest, f using sweepInduction e with
  | nil f => rw [sweep_nil]
  | cutoff c rest f hcut => rw [sweep_cons_of_cutoff hcut]
  | next c rest f hcut ih =>
    rw [sweep_cons hcut]
    exact ih

theorem place_explore (e : Engine) (i : Nat) (w : Window) : (explore e i w).place = i := by
  by_cases h : e.tree.children i = []
  · rw [explore_of_leaf h]
    rfl
  · rw [explore_of_internal h, place_sweep]
    rfl

theorem window_explore (e : Engine) (i : Nat) (w : Window) : (explore e i w).window = w := by
  by_cases h : e.tree.children i = []
  · rw [explore_of_leaf h]
    rfl
  · rw [explore_of_internal h, window_sweep]

-- ============================================================================
-- Playing a visit
-- ============================================================================

namespace Visit

variable {σ : Type} [Sink σ]

mutual

/-- What a visit does to a run. -/
def play (e : Engine) : Visit → Run σ → Run σ
  | ⟨w, f, visits, cut⟩, r =>
    let r := playAll e visits (r.arrive e f.node w)
    let r := match cut with
      | some rest => r.prune e f rest
      | none => r
    r.resolve e f.node f.value f.best

/-- What visits one after the other do to a run. -/
def playAll (e : Engine) : List Visit → Run σ → Run σ
  | [], r => r
  | v :: rest, r => playAll e rest (v.play e r)

end

/-- What a visit does to a run after the node was entered. -/
def settle (e : Engine) (v : Visit) (r : Run σ) : Run σ :=
  let r := playAll e v.visits r
  let r := match v.cut with
    | some rest => r.prune e v.frame rest
    | none => r
  r.resolve e v.place v.value v.best

theorem playAll_nil (e : Engine) (r : Run σ) : playAll e [] r = r := by
  rw [playAll]

theorem playAll_cons (e : Engine) (v : Visit) (rest : List Visit) (r : Run σ) :
    playAll e (v :: rest) r = playAll e rest (v.play e r) := by
  rw [playAll]

theorem play_eq_settle (e : Engine) (v : Visit) (r : Run σ) :
    v.play e r = v.settle e (r.arrive e v.place v.window) := by
  obtain ⟨w, f, visits, cut⟩ := v
  cases cut <;> rw [play] <;> rfl

/-- A child in front is played before the rest. -/
theorem settle_cons (e : Engine) (u v : Visit) (r : Run σ) :
    (v.cons u).settle e r = v.settle e (u.play e r) := by
  rw [settle, settle]
  show Run.resolve e _ _ _ _ = Run.resolve e _ _ _ _
  rw [cons, playAll_cons]
  rfl

end Visit

section Search

variable {σ : Type} [Sink σ]

mutual

/-- A search in a tree whose leaves have values plays the visit to its node. -/
theorem search_eq_play (hv : e.tree.LeavesValued) (i : Nat) (hi : i < e.tree.size) (w : Window)
    (r : Run σ) : search e i w r = (.ok (explore e i w).value, (explore e i w).play e r) := by
  rw [Visit.play_eq_settle, place_explore, window_explore]
  by_cases hleaf : e.tree.children i = []
  · obtain ⟨value, hvalue⟩ := Option.isSome_iff_exists.1 (hv i hi hleaf)
    have henter : r.enter e i w = (.ok (some value), (r.arrive e i w).resolve e i value none) := by
      simp only [Run.enter, isLeaf_iff.2 hleaf, hvalue, if_true]
    rw [search, henter, explore_of_leaf hleaf, Visit.leaf, Tree.minimaxValue_of_value hvalue]
    rfl
  · have henter : r.enter e i w = (.ok none, r.arrive e i w) := by
      have hnot : e.isLeaf i = false := by
        rw [← Bool.not_eq_true, isLeaf_iff]
        exact hleaf
      simp only [Run.enter, hnot, Bool.false_eq_true, if_false]
    rw [search, henter, explore_of_internal hleaf]
    exact searchChildren_eq_settle hv (e.opened i w) w (r.arrive e i w)
termination_by 2 * e.tree.subtreeSize i
decreasing_by
  rw [e.work_opened i w]
  omega

/-- Going on with an open node plays the rest of its visit. -/
theorem searchChildren_eq_settle (hv : e.tree.LeavesValued) (o : Open) (w : Window) (r : Run σ) :
    searchChildren e o r =
      (.ok (sweep e w (e.rest o) o.frame).value, (sweep e w (e.rest o) o.frame).settle e r) := by
  cases hc : o.takeChild (e.tree.children o.frame.node) with
  | none =>
    have hrest : e.rest o = [] := Open.rest_of_takeChild_none hc
    rw [searchChildren_of_takeChild_none hc, hrest, sweep_nil]
    rfl
  | some taken =>
    obtain ⟨c, o'⟩ := taken
    have hrest : e.rest o = c :: e.rest o' := by
      rw [Engine.rest, Engine.rest, Open.frame_of_takeChild hc]
      exact Open.rest_of_takeChild hc
    have hmem : c ∈ e.tree.children o.frame.node := by
      apply List.mem_of_mem_drop (i := o.next)
      show c ∈ e.rest o
      rw [hrest]
      exact List.mem_cons_self
    have hchild := search_eq_play hv c (Tree.lt_size_of_mem_children hmem) o'.frame.window r
    have hrec := searchChildren_eq_settle hv
      (((explore e c o'.frame.window).play e r).absorb e c
        (explore e c o'.frame.window).value o').1 w
      (((explore e c o'.frame.window).play e r).absorb e c (explore e c o'.frame.window).value o').2
    rw [searchChildren_of_takeChild hc, hchild, hrest, ← Open.frame_of_takeChild hc]
    dsimp only
    rw [hrec]
    cases hcut : (o'.frame.absorb e.pruning c (explore e c o'.frame.window).value).isCutoff
        e.pruning with
    | true =>
      -- the rest is passed over, so nothing but the end of the visit is left
      rw [Run.absorb_of_cutoff hcut, sweep_cons_of_cutoff hcut,
        Engine.rest_skipRest (o'.frame.absorb_node _ _ _), sweep_nil]
      rw [Visit.settle, Visit.settle]
      simp only [Visit.playAll_cons, Visit.playAll_nil]
      rfl
    | false =>
      rw [Run.absorb_of_not_cutoff hcut, sweep_cons hcut, Visit.settle_cons]
      dsimp only
      rw [Engine.rest_frame (o'.frame.absorb_node _ _ _)]
      rfl
termination_by 2 * e.work o + 1
decreasing_by
  all_goals
    have h := Engine.work_takeChild hc
    have hpos := Tree.subtreeSize_eq e.tree c
  · omega
  · have hle := e.work_absorb_le c (explore e c o'.frame.window).value o'
      ((explore e c o'.frame.window).play e r)
    omega

end

-- ============================================================================
-- Whole evaluations
-- ============================================================================

/-- The run before an evaluation. -/
def Engine.fresh (e : Engine) (i : Nat) (ch : Channel σ) : Run σ :=
  ⟨Outcome.empty e.tree.size i, ch⟩

theorem prepare_of_pruning (hv : e.tree.LeavesValued) (hp : e.pruning = true)
    (hw : w.isOrdered = true) : e.prepare w = .ok w := by
  rw [Engine.prepare, Tree.leafValues_eq_ok_iff.2 hv]
  simp only [hp, hw, Bool.not_true, Bool.false_eq_true, if_false, if_true]

theorem prepare_of_not_pruning (hv : e.tree.LeavesValued) (hp : e.pruning = false) :
    e.prepare w = .ok .full := by
  rw [Engine.prepare, Tree.leafValues_eq_ok_iff.2 hv]
  simp only [hp, Bool.not_false, if_true]

/-- A window is in order if its lower bound is less than the upper one. -/
theorem Window.isOrdered_of_lt (h : w.alpha < w.beta) : w.isOrdered = true := by
  have hproper := Window.proper_of_lt h
  have hnot : ¬ w.beta < w.alpha := by
    rw [Score.lt_iff_rank hproper.beta hproper.alpha]
    have := (Score.lt_iff_rank hproper.alpha hproper.beta).1 h
    omega
  simp only [Window.isOrdered, hproper.alpha, hproper.beta, hnot, decide_false, Bool.not_false,
    Bool.and_true]

/-- An evaluation plays the visit to its start node. -/
theorem evaluate_eq_play (hv : e.tree.LeavesValued) (hi : i < e.tree.size) {v : Window}
    (hw : e.prepare w = .ok v) (ch : Channel σ) :
    (e.evaluate i w ch).1 =
      .ok (((explore e i v).play e (e.fresh i ch)).outcome.finish (explore e i v).value) := by
  rw [Engine.evaluate, Engine.evaluateBy, hw]
  dsimp only
  have hsearch := search_eq_play hv i hi v (e.fresh i ch)
  rw [Engine.fresh] at hsearch
  rw [hsearch]
  rfl

end Search

end GameSearch.Minimax
