/-
  GameSearch.Proofs.Minimax.EmptyWindow

  Evaluations whose two bounds are the same.  Such a window is in order, and yet no score lies
  strictly inside it, so whatever the first child of a node delivers leads to a cutoff.  The
  search goes down from first child to first child, and the value of the leaf that it comes to
  is the value of every node on the way.  What the rest of the tree holds plays no part, so
  unlike with an open window the value says nothing about the minimax value.

    * `Tree.leftmostPath`       — a node, its first child, and so on down to a leaf
    * `absorb_empty`            — the first child leads to a cutoff
    * `explore_empty`           — so the visit to an internal node has one visit below it
    * `plunge_explore`          — and goes down that path
    * `Plunged`                 — what the table of such an evaluation holds
    * `evaluate_empty_window`   — every evaluation with equal bounds leaves such a table
-/
import GameSearch.Proofs.Minimax.Threading

namespace GameSearch

-- ============================================================================
-- The way down
-- ============================================================================

namespace Tree

/-- A node, its first child, the first child of that, and so on down to a leaf. -/
def leftmostPath (t : Tree) (i : Nat) : List Nat :=
  match _h : t.children i with
  | [] => [i]
  | c :: _ => i :: leftmostPath t c
termination_by t.size - i
decreasing_by
  refine size_sub_lt (t := t) ?_
  rw [_h]
  exact List.mem_cons_self

variable {t : Tree} {i c : Nat} {rest : List Nat}

theorem leftmostPath_of_leaf (h : t.children i = []) : t.leftmostPath i = [i] := by
  rw [leftmostPath]
  split
  · rfl
  · rename_i hcons
    rw [h] at hcons
    cases hcons

theorem leftmostPath_of_children (h : t.children i = c :: rest) :
    t.leftmostPath i = i :: t.leftmostPath c := by
  rw [leftmostPath]
  split
  · rename_i hnil
    rw [h] at hnil
    cases hnil
  · rename_i hcons
    rw [h] at hcons
    cases hcons
    rfl

/-- The edges from some nodes to all their children but the first, node by node. -/
def youngerEdges (t : Tree) (places : List Nat) : List (Nat × Nat) :=
  places.flatMap fun p => (t.children p).tail.map (p, ·)

theorem mem_youngerEdges {places : List Nat} {p : Nat} :
    (p, c) ∈ t.youngerEdges places ↔ p ∈ places ∧ c ∈ (t.children p).tail := by
  rw [youngerEdges, List.mem_flatMap]
  constructor
  · rintro ⟨q, hq, hmem⟩
    obtain ⟨d, hd, hpair⟩ := List.mem_map.1 hmem
    cases hpair
    exact ⟨hq, hd⟩
  · rintro ⟨hp, hc⟩
    exact ⟨p, hp, List.mem_map_of_mem hc⟩

end Tree

namespace Minimax

-- ============================================================================
-- Visits
-- ============================================================================

variable {e : Engine} {i c : Nat} {x v : Score} {rest : List Nat}

/-- A finite value is better than the one to start with, so the frame takes it; and then the window
    is closed, on whichever side of `x` the value is. -/
theorem absorb_empty (i c : Nat) (kind : Kind) (hx : x.isNaN = false) (hv : v.isFinite = true) :
    ((Frame.start i kind ⟨x, x⟩).absorb true c v).value = v ∧
    ((Frame.start i kind ⟨x, x⟩).absorb true c v).best = some c ∧
    ((Frame.start i kind ⟨x, x⟩).absorb true c v).isCutoff true = true := by
  have hnum := (Score.rank_of_isFinite hv).1
  have hproper : Window.Proper ⟨x, x⟩ := ⟨hx, hx⟩
  obtain ⟨hvalue, hbest⟩ := absorb_of_standing_lt (f := Frame.start i kind ⟨x, x⟩) true c
    (isNaN_worst kind) hnum (standing_worst_lt hv)
  refine ⟨hvalue, hbest, ?_⟩
  have hwindow : ((Frame.start i kind ⟨x, x⟩).absorb true c v).window =
      Window.narrow kind v ⟨x, x⟩ := by
    rw [Frame.absorb_window, if_pos rfl, hvalue]
    rfl
  have hsame : Window.own kind ⟨x, x⟩ = Window.other kind ⟨x, x⟩ := by cases kind <;> rfl
  show Window.isClosed _ = true
  rw [hwindow, Window.isClosed_iff kind (hproper.narrow hnum), Window.other_narrow,
    Window.standing_narrow hproper hnum, hsame]
  omega

/-- The visit to an internal node ends with its first child and cuts off the others. -/
theorem explore_empty (hp : e.pruning = true) (hv : e.tree.LeavesValued) (hx : x.isNaN = false)
    (hchildren : e.tree.children i = c :: rest) :
    (explore e i ⟨x, x⟩).visits = [explore e c ⟨x, x⟩] ∧
    (explore e i ⟨x, x⟩).left = rest ∧
    (explore e i ⟨x, x⟩).value = (explore e c ⟨x, x⟩).value ∧
    (explore e i ⟨x, x⟩).best = some c := by
  have hmem : c ∈ e.tree.children i := hchildren ▸ List.mem_cons_self
  have hfinite := isFinite_explore hv (Tree.lt_size_of_mem_children hmem) ⟨x, x⟩
  obtain ⟨hvalue, hbest, hcut⟩ := absorb_empty i c (e.tree.kind i) hx hfinite
  have hinternal : e.tree.children i ≠ [] := hchildren ▸ List.cons_ne_nil c rest
  rw [explore_of_internal hinternal, hchildren, sweep_cons_of_cutoff (by rw [hp]; exact hcut), hp]
  exact ⟨rfl, rfl, hvalue, hbest⟩

/-- A visit that goes down from first child to first child, always with the same window. -/
structure Plunge (t : Tree) (i : Nat) (x : Score) (v : Visit) : Prop where
  places : v.places = t.leftmostPath i
  edges : v.edges = t.youngerEdges (t.leftmostPath i).reverse
  leaf : ∃ n, (t.leftmostPath i).getLast? = some n ∧ t.children n = [] ∧
    (t.node n).value = some v.value
  all : ∀ u ∈ v.all, u.window = ⟨x, x⟩ ∧ u.value = v.value ∧ u.best = (t.children u.place).head?

theorem plunge_explore (hp : e.pruning = true) (hv : e.tree.LeavesValued) (hx : x.isNaN = false)
    (hi : i < e.tree.size) : Plunge e.tree i x (explore e i ⟨x, x⟩) := by
  induction i using Tree.childInduction (t := e.tree) with
  | step i ih =>
    cases hchildren : e.tree.children i with
    | nil =>
      obtain ⟨value, hvalue⟩ := Option.isSome_iff_exists.1 (hv i hi hchildren)
      have hpath := Tree.leftmostPath_of_leaf hchildren
      rw [explore_of_leaf hchildren]
      refine ⟨?_, ?_, ⟨i, by rw [hpath]; rfl, hchildren, ?_⟩, ?_⟩
      · rw [Visit.places_eq, hpath]
        rfl
      · rw [Visit.edges_eq, hpath, Tree.youngerEdges, List.reverse_singleton,
          List.flatMap_singleton, hchildren]
        rfl
      · rw [hvalue]
        exact congrArg some (Tree.minimaxValue_of_value hvalue).symm
      · intro u hu
        rcases Visit.mem_all_iff.1 hu with rfl | ⟨y, hy, -⟩
        · refine ⟨rfl, rfl, ?_⟩
          show none = (e.tree.children i).head?
          rw [hchildren]
          rfl
        · cases hy
    | cons c rest =>
      have hmem : c ∈ e.tree.children i := hchildren ▸ List.mem_cons_self
      obtain ⟨hplaces, hedges, ⟨n, hlast, hleaf, hvalue⟩, hall⟩ :=
        ih c hmem (Tree.lt_size_of_mem_children hmem)
      obtain ⟨hvisits, hleft, hsame, hbest⟩ := explore_empty hp hv hx hchildren
      have hpath := Tree.leftmostPath_of_children hchildren
      refine ⟨?_, ?_, ⟨n, ?_, hleaf, ?_⟩, ?_⟩
      · rw [Visit.places_eq, hvisits, place_explore, List.flatMap_singleton, hplaces, hpath]
      · -- the cuts below come first, as a node is settled after its children
        rw [Visit.edges_eq, hvisits, hleft, place_explore, List.flatMap_singleton, hedges, hpath,
          List.reverse_cons, Tree.youngerEdges, Tree.youngerEdges, List.flatMap_append,
          List.flatMap_singleton, hchildren]
        rfl
      · rw [hpath, List.getLast?_cons, hlast]
        rfl
      · rw [hsame]
        exact hvalue
      · intro u hu
        rcases Visit.mem_all_iff.1 hu with rfl | ⟨y, hy, huy⟩
        · rw [window_explore, place_explore, hbest, hchildren]
          exact ⟨rfl, rfl, rfl⟩
        · rw [hvisits] at hy
          rw [List.mem_singleton.1 hy] at huy
          rw [hsame]
          exact hall u huy

-- ============================================================================
-- Evaluations
-- ============================================================================

/-- What an evaluation leaves behind that went down from first child to first child, always with
    the window from `x` to `x`. -/
structure Plunged (t : Tree) (start : Nat) (x : Score) (o : Outcome) : Prop where
  visitOrder : o.visitOrder.toList = t.leftmostPath start
  /-- The value is that of the leaf at the end of the path. -/
  leaf : ∃ n, (t.leftmostPath start).getLast? = some n ∧ t.children n = [] ∧
    (t.node n).value = some o.value
  record : ∀ n ∈ t.leftmostPath start,
    o.record? n = some ⟨⟨x, x⟩, some o.value, (t.children n).head?⟩
  unvisited : ∀ n ∉ t.leftmostPath start, o.record? n = none
  /-- Cut off are all children of nodes on the path but the first ones, from the leaf upwards. -/
  prunedEdges : o.prunedEdges.toList = t.youngerEdges (t.leftmostPath start).reverse
  isPruned_iff : ∀ c, o.isPruned c = true ↔
    ∃ p ∈ t.leftmostPath start, c ∈ (t.children p).tail

variable {σ : Type} [Sink σ]

/-- The table of a visit with equal bounds. -/
theorem plunged_visitTable (hp : e.pruning = true) (hv : e.tree.LeavesValued)
    (hx : x.isNaN = false) (hi : i < e.tree.size) (ch : Channel σ) :
    Plunged e.tree i x ((visitTable e i ⟨x, x⟩ ch).finish (explore e i ⟨x, x⟩).value) := by
  obtain ⟨hplaces, hedges, hleaf, hall⟩ := plunge_explore hp hv hx hi
  constructor
  case visitOrder => exact (visitOrder_visitTable e i ⟨x, x⟩ ch).trans hplaces
  case leaf => exact hleaf
  case record =>
    intro n hn
    rw [← hplaces] at hn
    obtain ⟨u, hu, rfl⟩ := List.mem_map.1 hn
    obtain ⟨hwindow, hvalue, hbest⟩ := hall u hu
    refine (record?_of_mem_all hi ch hu).trans ?_
    rw [hwindow, hvalue, hbest]
    rfl
  case unvisited =>
    intro n hn
    rw [← hplaces] at hn
    rcases record?_visitTable hi ⟨x, x⟩ ch n with ⟨-, hnone⟩ | ⟨u, hu, rfl, -⟩
    · exact hnone
    · exact absurd (Visit.place_mem_places hu) hn
  case prunedEdges => exact (prunedEdges_visitTable e i ⟨x, x⟩ ch).trans hedges
  case isPruned_iff =>
    intro n
    refine (isPruned_visitTable e i ⟨x, x⟩ ch n).trans ?_
    rw [Visit.pruned, hedges, List.mem_map]
    constructor
    · rintro ⟨⟨p, c⟩, hedge, rfl⟩
      obtain ⟨hpath, hc⟩ := Tree.mem_youngerEdges.1 hedge
      exact ⟨p, List.mem_reverse.1 hpath, hc⟩
    · rintro ⟨p, hpath, hn⟩
      exact ⟨(p, n), Tree.mem_youngerEdges.2 ⟨List.mem_reverse.2 hpath, hn⟩, rfl⟩

/-- A window in which both bounds are the same number is in order. -/
theorem Window.isOrdered_self (hx : x.isNaN = false) : Window.isOrdered ⟨x, x⟩ = true := by
  have hnot : ¬ x < x := by
    rw [Score.lt_iff_rank hx hx]
    exact Int.lt_irrefl _
  simp only [Window.isOrdered, hx, hnot, decide_false, Bool.not_false, Bool.and_true]

theorem exists_plunged (t : Tree) (hv : t.LeavesValued) (n : Nat) (hn : n < t.size)
    (hx : x.isNaN = false) (ch : Channel σ) :
    ∃ o, (Engine.evaluate ⟨t, true⟩ n ⟨x, x⟩ ch).1 = .ok o ∧ Plunged t n x o :=
  have hprepare := prepare_of_pruning (e := ⟨t, true⟩) hv rfl (Window.isOrdered_self hx)
  ⟨_, evaluate_eq_play hv hn hprepare ch, plunged_visitTable (e := ⟨t, true⟩) rfl hv hx hn ch⟩

end Minimax

/-- The leftmost leaf lies below the value of the root and above that of its own parent. -/
def Tree.lopsided : Tree where
  nodes := #[
    ⟨"R", none, [1, 2], none, 0⟩,
    ⟨"A", none, [3, 4], some 0, 1⟩,
    ⟨"B", some 8.0, [], some 0, 1⟩,
    ⟨"A1", some 6.0, [], some 1, 2⟩,
    ⟨"A2", some 2.0, [], some 1, 2⟩]
  wellFormed := by decide

namespace Minimax

variable {σ : Type} [Sink σ]

/-- Whichever of its two inner nodes an evaluation of the lopsided tree starts from, with equal
    bounds it delivers the value of the leftmost leaf. -/
theorem exists_value_lopsided {n : Nat} (hn : n = 0 ∨ n = 1) {x : Score} (hx : x.isNaN = false)
    (ch : Channel σ) :
    ∃ o, (Engine.evaluate ⟨Tree.lopsided, true⟩ n ⟨x, x⟩ ch).1 = .ok o ∧ o.value = 6.0 := by
  have hvalued : Tree.lopsided.LeavesValued := by decide
  have hpath : (Tree.lopsided.leftmostPath n).getLast? = some 3 := by
    rcases hn with rfl | rfl <;> decide +kernel
  have hplace : n < Tree.lopsided.size := by rcases hn with rfl | rfl <;> decide
  obtain ⟨o, ho, hplunged⟩ := exists_plunged Tree.lopsided hvalued n hplace hx ch
  obtain ⟨m, hlast, -, hvalue⟩ := hplunged.leaf
  obtain rfl : 3 = m := Option.some.inj (hpath.symm.trans hlast)
  exact ⟨o, ho, (Option.some.inj hvalue).symm⟩

/-- With cutoffs and two equal bounds, infinite ones included, an evaluation goes down from first
    child to first child with these bounds and delivers the value of the leaf at the end of the
    path; all other children of nodes on the path are cut off.  That value may lie at or below the
    bounds and yet below the minimax value, and at or above them and yet above it. -/
theorem evaluate_empty_window (ch : Channel σ) :
    (∀ (t : Tree) (n : Nat) (x : Score), t.LeavesValued → n < t.size → x.isNaN = false →
      ∃ o, (Engine.evaluate ⟨t, true⟩ n ⟨x, x⟩ ch).1 = .ok o ∧
        (Engine.evaluateIterative ⟨t, true⟩ n ⟨x, x⟩ ch).1 = .ok o ∧ Plunged t n x o) ∧
    (∃ (t : Tree) (n : Nat) (x : Score) (o : Outcome), t.LeavesValued ∧ n < t.size ∧
      (Engine.evaluate ⟨t, true⟩ n ⟨x, x⟩ ch).1 = .ok o ∧
      o.value ≤ x ∧ o.value < t.minimaxValue n) ∧
    (∃ (t : Tree) (n : Nat) (x : Score) (o : Outcome), t.LeavesValued ∧ n < t.size ∧
      (Engine.evaluate ⟨t, true⟩ n ⟨x, x⟩ ch).1 = .ok o ∧
      x ≤ o.value ∧ t.minimaxValue n < o.value) := by
  refine ⟨fun t n x hv hn hx => ?_, ?_, ?_⟩
  · obtain ⟨o, ho, hplunged⟩ := exists_plunged t hv n hn hx ch
    refine ⟨o, ho, ?_, hplunged⟩
    rw [evaluateIterative_eq_evaluate]
    exact ho
  · have hx : (7.0 : Score).isNaN = false := by decide
    obtain ⟨o, ho, hvalue⟩ := exists_value_lopsided (.inl rfl) hx ch
    refine ⟨Tree.lopsided, 0, 7.0, o, by decide, by decide, ho, ?_⟩
    rw [hvalue]
    decide +kernel
  · have hx : (3.0 : Score).isNaN = false := by decide
    obtain ⟨o, ho, hvalue⟩ := exists_value_lopsided (.inr rfl) hx ch
    refine ⟨Tree.lopsided, 1, 3.0, o, by decide, by decide, ho, ?_⟩
    rw [hvalue]
    decide +kernel

/-- The small tree with both bounds at positive infinity. -/
theorem evaluate_empty_window_infinite :
    Tree.small.LeavesValued ∧ 0 < Tree.small.size ∧ Score.top.isNaN = false ∧
      ∃ o, (Engine.evaluate ⟨Tree.small, true⟩ 0 ⟨.top, .top⟩
          (⟨NullSink.mk, Journal.silent⟩ : Channel NullSink)).1 = .ok o ∧
        (Engine.evaluateIterative ⟨Tree.small, true⟩ 0 ⟨.top, .top⟩
          (⟨NullSink.mk, Journal.silent⟩ : Channel NullSink)).1 = .ok o ∧
        Plunged Tree.small 0 .top o :=
  have hvalued : Tree.small.LeavesValued := by decide
  have hplace : 0 < Tree.small.size := by decide
  ⟨hvalued, hplace, Score.isNaN_top,
    (evaluate_empty_window _).1 Tree.small 0 .top hvalued hplace Score.isNaN_top⟩

end Minimax

end GameSearch
