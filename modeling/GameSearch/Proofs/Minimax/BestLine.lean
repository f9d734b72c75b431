/-
  GameSearch.Proofs.Minimax.BestLine

  The line of best play shows where the value of a run comes from.  Whatever the window, every
  internal node that is entered takes its value from a child that was visited: the value to start
  with is infinite, values of nodes are finite, and so some child has improved on it.  From best
  child to best child the line therefore goes down to a leaf, and the value stays the same.

    * `Outcome.Line`      — the line from a node to best children, with no limit on its length
    * `Backed`            — every value in a table comes from a leaf or from the best child
    * `backed_visitTable` — so it is after a visit with any window
    * `Backed.exists_line`, `Backed.line_attains`
                          — a line ends, and at a leaf with the value of its first node
    * `Attained`          — what a table says about its line of best play
    * `evaluate_attains`  — every evaluation that succeeds leaves such a table
-/
import GameSearch.Proofs.Minimax.Threading

namespace GameSearch.Minimax

-- ============================================================================
-- Where a value comes from
-- ============================================================================

/-- A frame keeps both the best value and the best child, or takes both from the next child. -/
theorem Frame.absorb_keeps_or_takes (pruning : Bool) (c : Nat) (x : Score) (f : Frame) :
    ((f.absorb pruning c x).best = f.best ∧ (f.absorb pruning c x).value = f.value) ∨
      ((f.absorb pruning c x).best = some c ∧ (f.absorb pruning c x).value = x) := by
  rw [Frame.absorb_best, Frame.absorb_value]
  split
  · exact .inr ⟨rfl, rfl⟩
  · exact .inl ⟨rfl, rfl⟩

variable {e : Engine} {i : Nat} {w : Window}

/-- So does the rest of a visit, with one of the children that are visited in it. -/
theorem sweep_keeps_or_takes (rest : List Nat) (f : Frame) :
    ((sweep e w rest f).best = f.best ∧ (sweep e w rest f).value = f.value) ∨
      ∃ u ∈ (sweep e w rest f).visits,
        (sweep e w rest f).best = some u.place ∧ (sweep e w rest f).value = u.value := by
  induction rest, f using sweepInduction e with
  | nil f =>
    left
    rw [sweep_nil]
    exact ⟨rfl, rfl⟩
  | cutoff c rest f hcut =>
    rw [sweep_cons_of_cutoff hcut]
    rcases f.absorb_keeps_or_takes e.pruning c (explore e c f.window).value with hkept | htaken
    · exact .inl hkept
    · refine .inr ⟨_, List.mem_singleton_self _, ?_⟩
      rw [place_explore]
      exact htaken
  | next c rest f hcut ih =>
    rw [sweep_cons hcut]
    rcases ih with ⟨hbest, hvalue⟩ | ⟨u, hu, hbest, hvalue⟩
    · rcases f.absorb_keeps_or_takes e.pruning c (explore e c f.window).value with
        hkept | htaken
      · exact .inl ⟨hbest.trans hkept.1, hvalue.trans hkept.2⟩
      · refine .inr ⟨_, List.mem_cons_self, ?_⟩
        rw [place_explore]
        exact ⟨hbest.trans htaken.1, hvalue.trans htaken.2⟩
    · exact .inr ⟨u, List.mem_cons_of_mem _ hu, hbest, hvalue⟩

/-- An internal node takes its value from a child that is visited. -/
theorem explore_takes (hv : e.tree.LeavesValued) (hi : i < e.tree.size)
    (hinternal : e.tree.children i ≠ []) (w : Window) :
    ∃ u ∈ (explore e i w).visits,
      (explore e i w).best = some u.place ∧ (explore e i w).value = u.value := by
  have hfinite := isFinite_explore hv hi w
  rw [explore_of_internal hinternal] at hfinite ⊢
  rcases sweep_keeps_or_takes (e.tree.children i) (Frame.start i (e.tree.kind i) w) with
    ⟨-, hvalue⟩ | htaken
  · -- the value to start with is not finite
    rw [hvalue] at hfinite
    have hless : standing (e.tree.kind i) (worst (e.tree.kind i)) <
        standing (e.tree.kind i) (worst (e.tree.kind i)) := standing_worst_lt hfinite
    exact absurd hless (Int.lt_irrefl _)
  · exact htaken

-- ============================================================================
-- Tables
-- ============================================================================

/-- Every node that was entered has a value.  That of a leaf was given with it; that of an
    internal node is also the value of its best child, which was entered too. -/
structure Backed (t : Tree) (o : Outcome) : Prop where
  leaf : ∀ n r, o.record? n = some r → t.children n = [] →
    r.best = none ∧ ∃ value, r.value = some value ∧ (t.node n).value = some value
  internal : ∀ n r, o.record? n = some r → t.children n ≠ [] →
    ∃ c rc value, r.best = some c ∧ c ∈ t.children n ∧ o.record? c = some rc ∧
      r.value = some value ∧ rc.value = some value

variable {σ : Type} [Sink σ]

theorem backed_visitTable (hv : e.tree.LeavesValued) (hi : i < e.tree.size) (w : Window)
    (ch : Channel σ) : Backed e.tree (visitTable e i w ch) := by
  have hfind : ∀ {n r}, (visitTable e i w ch).record? n = some r →
      ∃ u ∈ (explore e i w).all, n = u.place ∧ r = ⟨u.window, some u.value, u.best⟩ ∧
        u = explore e n u.window ∧ n < e.tree.size := by
    intro n r hr
    obtain ⟨u, hu, rfl, rfl⟩ := exists_visit_of_record? hi hr
    exact ⟨u, hu, rfl, rfl, (explored_explore e i w).of_mem_all hu, place_lt_of_mem_all hi hu⟩
  constructor
  case leaf =>
    intro n r hr hleaf
    obtain ⟨u, hu, hplace, rfl, hexplored, hn⟩ := hfind hr
    obtain ⟨value, hvalue⟩ := Option.isSome_iff_exists.1 (hv n hn hleaf)
    rw [explore_of_leaf hleaf] at hexplored
    rw [hexplored]
    exact ⟨rfl, value, congrArg some (Tree.minimaxValue_of_value hvalue), hvalue⟩
  case internal =>
    intro n r hr hinternal
    obtain ⟨u, hu, rfl, rfl, hexplored, hn⟩ := hfind hr
    obtain ⟨x, hx, hbest, hvalue⟩ := explore_takes hv hn hinternal u.window
    rw [← hexplored] at hx hbest hvalue
    refine ⟨x.place, _, u.value, hbest, (Explored.visit hexplored hx).2,
      record?_of_mem_all hi ch (Visit.mem_all_of_mem_visits hu hx), rfl, ?_⟩
    rw [hvalue]

-- ============================================================================
-- Lines
-- ============================================================================

/-- A node, its best child, the best child of that, and so on, until there is none. -/
inductive Outcome.Line (o : Outcome) : Nat → List Nat → Prop where
  | last {n : Nat} : o.best? n = none → Line o n [n]
  | step {n c : Nat} {line : List Nat} : o.best? n = some c → Line o c line → Line o n (n :: line)

namespace Outcome.Line

variable {o : Outcome} {n : Nat} {line : List Nat}

theorem head? (h : o.Line n line) : line.head? = some n := by
  cases h <;> rfl

/-- With enough steps the table is followed to the end of the line. -/
theorem bestLine_eq (h : o.Line n line) {steps : Nat} (hsteps : line.length ≤ steps + 1) :
    o.bestLine steps n = line := by
  induction h generalizing steps with
  | last hnone =>
    cases steps with
    | zero => rfl
    | succ steps => rw [Outcome.bestLine, hnone]
  | step hbest hline ih =>
    cases steps with
    | zero =>
      -- the line goes on, so one node is not all of it
      have hempty := List.length_eq_zero_iff.1 (Nat.le_zero.1 (Nat.le_of_succ_le_succ hsteps))
      have hhead := hline.head?
      rw [hempty] at hhead
      cases hhead
    | succ steps =>
      rw [Outcome.bestLine, hbest]
      exact congrArg _ (ih (Nat.le_of_succ_le_succ hsteps))

end Outcome.Line

/-- A line goes from parents to children, all with one value, and ends at a leaf with it. -/
structure Attains (t : Tree) (o : Outcome) (value : Score) (line : List Nat) : Prop where
  moves : line.IsChain fun p c => t.parent c = some p
  valued : ∀ n ∈ line, ∃ r, o.record? n = some r ∧ r.value = some value
  leaf : ∃ n, line.getLast? = some n ∧ t.children n = [] ∧ (t.node n).value = some value

namespace Backed

variable {t : Tree} {o : Outcome} {n : Nat} {r : Record} {line : List Nat} {value : Score}

/-- From every node that was entered there is a line; its nodes stand in the tree, each after the
    one before. -/
theorem exists_line (h : Backed t o) (hn : n < t.size) (hr : o.record? n = some r) :
    ∃ line, o.Line n line ∧ n + line.length ≤ t.size := by
  induction n using Tree.childInduction (t := t) generalizing r with
  | step n ih =>
    have hbest : o.best? n = r.best := by rw [Outcome.best?, hr, Option.bind_some]
    by_cases hleaf : t.children n = []
    · exact ⟨[n], .last (hbest.trans (h.leaf n r hr hleaf).1), hn⟩
    · obtain ⟨c, rc, -, hrbest, hc, hrc, -⟩ := h.internal n r hr hleaf
      obtain ⟨line, hline, hlength⟩ := ih c hc (Tree.lt_size_of_mem_children hc) hrc
      have hlt := Tree.lt_of_mem_children hc
      refine ⟨n :: line, .step (hbest.trans hrbest) hline, ?_⟩
      rw [List.length_cons]
      omega

/-- A line attains the value of its first node. -/
theorem line_attains (h : Backed t o) (hline : o.Line n line) (hr : o.record? n = some r)
    (hvalue : r.value = some value) : Attains t o value line := by
  induction hline generalizing r with
  | @last n hnone =>
    rw [Outcome.best?, hr, Option.bind_some] at hnone
    refine ⟨List.isChain_singleton n, ?_, n, rfl, ?_⟩
    · intro m hm
      rw [List.mem_singleton.1 hm]
      exact ⟨r, hr, hvalue⟩
    · by_cases hleaf : t.children n = []
      · obtain ⟨-, given, hgiven, hnode⟩ := h.leaf n r hr hleaf
        rw [hvalue] at hgiven
        exact ⟨hleaf, hnode.trans hgiven.symm⟩
      · obtain ⟨c, -, -, hsome, -⟩ := h.internal n r hr hleaf
        cases hnone.symm.trans hsome
  | @step n c line hbest hline ih =>
    rw [Outcome.best?, hr, Option.bind_some] at hbest
    have hinternal : t.children n ≠ [] := fun hleaf => by
      cases hbest.symm.trans (h.leaf n r hr hleaf).1
    obtain ⟨c', rc, value', hbest', hc, hrc, hvalue', hrcvalue⟩ := h.internal n r hr hinternal
    obtain rfl := Option.some.inj (hbest.symm.trans hbest')
    obtain rfl := Option.some.inj (hvalue.symm.trans hvalue')
    obtain ⟨hmoves, hvalued, leaf, hlast, hleaf⟩ := ih hrc hrcvalue
    refine ⟨hmoves.cons ?_, ?_, leaf, ?_, hleaf⟩
    · intro m hm
      rw [hline.head?] at hm
      obtain rfl := Option.some.inj hm
      exact Tree.mem_children_iff.1 hc
    · intro m hm
      rcases List.mem_cons.1 hm with rfl | hm
      · exact ⟨r, hr, hvalue⟩
      · exact hvalued m hm
    · rw [List.getLast?_cons, hlast]
      rfl

end Backed

-- ============================================================================
-- Evaluations
-- ============================================================================

/-- The line of best play of a run that started at a node. -/
structure Attained (t : Tree) (i : Nat) (o : Outcome) : Prop where
  /-- The line starts at the node, and it ends by itself and not for want of steps. -/
  ends : o.Line i o.principalVariation
  attains : Attains t o o.value o.principalVariation
  finite : o.value.isFinite = true
  /-- On the line and off it, values come from best children. -/
  backed : Backed t o

/-- Every evaluation that succeeds, by recursion or with a stack, with or without cutoffs and with
    any window, leaves a line of best play that attains the value of the start node. -/
theorem evaluate_attains (e : Engine) (i : Nat) (w : Window) (ch : Channel σ) (o : Outcome)
    (h : (e.evaluate i w ch).1 = .ok o ∨ (e.evaluateIterative i w ch).1 = .ok o) :
    Attained e.tree i o := by
  rw [evaluateIterative_eq_evaluate, or_self] at h
  obtain ⟨hv, hi, v, rfl⟩ := exists_visit_of_evaluate h
  have htable := backed_visitTable hv hi v ch
  have hbacked : Backed e.tree ((visitTable e i v ch).finish (explore e i v).value) :=
    ⟨htable.leaf, htable.internal⟩
  have hrecord := record?_of_mem_all hi ch (Visit.self_mem_all (explore e i v))
  rw [place_explore] at hrecord
  obtain ⟨line, hline, hlength⟩ := hbacked.exists_line hi hrecord
  have hprincipal : ((visitTable e i v ch).finish (explore e i v).value).principalVariation =
      line := by
    show Outcome.bestLine _ (visitTable e i v ch).records.size (visitTable e i v ch).start = line
    rw [size_visitTable, start_visitTable]
    exact hline.bestLine_eq (by omega)
  refine ⟨?_, ?_, isFinite_explore hv hi v, hbacked⟩
  · exact hprincipal ▸ hline
  · exact hprincipal ▸ hbacked.line_attains hline hrecord rfl

/-- The small tree with a window that holds a single score, and a value outside it. -/
theorem evaluate_attains_small :
    ∃ o, ((Engine.evaluate ⟨Tree.small, true⟩ 0 ⟨5.0, 5.0⟩
        (⟨NullSink.mk, Journal.silent⟩ : Channel NullSink)).1 = .ok o ∨
      (Engine.evaluateIterative ⟨Tree.small, true⟩ 0 ⟨5.0, 5.0⟩
        (⟨NullSink.mk, Journal.silent⟩ : Channel NullSink)).1 = .ok o) ∧
      o.value < 5.0 ∧ Attained Tree.small 0 o := by
  have hvalued : Tree.small.LeavesValued := by decide
  have hordered : (⟨5.0, 5.0⟩ : Window).isOrdered = true := by decide
  have hprepare := prepare_of_pruning (e := ⟨Tree.small, true⟩) hvalued rfl hordered
  have hok := evaluate_eq_play hvalued (by decide : 0 < Tree.small.size) hprepare
    (⟨NullSink.mk, Journal.silent⟩ : Channel NullSink)
  have hvalue : (explore ⟨Tree.small, true⟩ 0 ⟨5.0, 5.0⟩).value < 5.0 := by decide +kernel
  exact ⟨_, .inl hok, hvalue,
    evaluate_attains ⟨Tree.small, true⟩ 0 ⟨5.0, 5.0⟩ _ _ (.inl hok)⟩

end GameSearch.Minimax
