/-
  GameSearch.Proofs.Minimax.Principal

  Cutoffs do not change the value of a tree, nor the line of best play, ties included.
  A visit is exact if its value lies inside its window, or if there are no cutoffs.  An
  exact visit has the value and the best child of plain minimax, and its visit to the best
  child is exact again; so the line found in the table is that of plain minimax.

    * `sweep_of_not_pruning`  — without cutoffs a visit is plain bookkeeping
    * `best_sweep`            — with cutoffs the best child was visited exactly
    * `exact_explore`         — what exact visits find
    * `bestLine_eq_playLine`  — the line in the table, step by step
    * `run_agrees_with_plain` — runs with and without cutoffs
-/
import GameSearch.Proofs.Minimax.FailSoft
import GameSearch.Proofs.Minimax.Table
import GameSearch.Proofs.Minimax.Traversal

namespace GameSearch.Minimax

variable {e : Engine} {i : Nat} {w : Window}

-- ============================================================================
-- Without cutoffs
-- ============================================================================

/-- Without cutoffs every child is visited with the same window, and its value taken as in plain
    bookkeeping. -/
theorem sweep_of_not_pruning (hp : e.pruning = false) (rest : List Nat)
    (hchild : ∀ c ∈ rest, ∀ u : Window, (explore e c u).value = e.tree.minimaxValue c) (f : Frame) :
    sweep e w rest f =
      ⟨w, f.plain e.tree rest, rest.map fun c => explore e c f.window, none⟩ := by
  induction rest generalizing f with
  | nil =>
    rw [sweep_nil]
    rfl
  | cons c rest ih =>
    have hvalue := hchild c List.mem_cons_self f.window
    have hcut : (f.absorb e.pruning c (explore e c f.window).value).isCutoff e.pruning = false := by
      rw [Frame.isCutoff, hp]
      rfl
    have hwindow : (f.absorb false c (e.tree.minimaxValue c)).window = f.window := by
      rw [Frame.absorb_window]
      rfl
    rw [sweep_cons hcut, hp, hvalue, ih (fun x hx => hchild x (List.mem_cons_of_mem c hx)), hwindow]
    rfl

theorem value_explore_of_not_pruning (hp : e.pruning = false) (i : Nat) (w : Window) :
    (explore e i w).value = e.tree.minimaxValue i := by
  induction i using Tree.childInduction (t := e.tree) generalizing w with
  | step i ih =>
    by_cases hleaf : e.tree.children i = []
    · rw [explore_of_leaf hleaf]
      rfl
    · rw [explore_of_internal hleaf, sweep_of_not_pruning hp _ ih,
        Tree.minimaxValue_eq_plain hleaf w]
      rfl

-- ============================================================================
-- With cutoffs
-- ============================================================================

/-- If the rest of a visit ends inside the window, the best value is the one from before, or it
    comes from a child that was visited exactly. -/
theorem best_sweep (hp : e.pruning = true) (hlt : w.alpha < w.beta) {rest : List Nat}
    (hrest : ∀ c ∈ rest, (e.tree.minimaxValue c).isNaN = false)
    (hchild : ∀ c ∈ rest, ∀ u : Window, u.alpha < u.beta →
      Sharp u (explore e c u).value (e.tree.minimaxValue c))
    {f p : Frame} (h : Tracks w f p) (hinside : w.Inside (sweep e w rest f).value) :
    ((sweep e w rest f).best = f.best ∧ (sweep e w rest f).value = f.value) ∨
      ∃ u ∈ (sweep e w rest f).visits, (sweep e w rest f).best = some u.place ∧
        u.window.Inside u.value := by
  have hw := Window.proper_of_lt hlt
  induction rest, f using sweepInduction e generalizing p with
  | nil f =>
    left
    rw [sweep_nil]
    exact ⟨rfl, rfl⟩
  | cutoff c rest f hcut =>
    -- a cutoff would leave a value outside the window
    have hc := hchild c List.mem_cons_self f.window (h.window_lt hlt)
    rw [sweep_cons_of_cutoff hcut] at hinside
    have hnum := isNaN_absorb e.pruning c h.number hc.number
    have hvalue := standing_absorb e.pruning c h.number hc.number
    have hbelow := ((Window.inside_iff f.kind hw hnum).1 hinside).2
    rw [hp, h.isCutoff_iff hlt hc.number] at hcut
    omega
  | next c rest f hcut ih =>
    have hcnum := hrest c List.mem_cons_self
    have hc := hchild c List.mem_cons_self f.window (h.window_lt hlt)
    have htracks : Tracks w (f.absorb e.pruning c (explore e c f.window).value)
        (p.absorb false c (e.tree.minimaxValue c)) := by
      rw [hp] at hcut ⊢
      exact h.absorb hlt hc.number hcnum hc.failSoft hcut
    rw [sweep_cons hcut] at hinside ⊢
    rcases ih (fun x hx => hrest x (List.mem_cons_of_mem c hx))
      (fun x hx => hchild x (List.mem_cons_of_mem c hx)) htracks hinside with
      ⟨hbest, hvalue⟩ | ⟨u, hu, hbest, huinside⟩
    · by_cases hbetter : standing f.kind f.value < standing f.kind (explore e c f.window).value
      · right
        obtain ⟨htaken, hchosen⟩ := absorb_of_standing_lt e.pruning c h.number hc.number hbetter
        refine ⟨explore e c f.window, List.mem_cons_self, ?_, ?_⟩
        · rw [place_explore]
          exact hbest.trans hchosen
        · -- the value is the one the rest of the visit ends with
          have hfinal : w.Inside (explore e c f.window).value := by
            rw [← htaken, ← hvalue]
            exact hinside
          have hbounds := (Window.inside_iff f.kind hw hc.number).1 hfinal
          rw [window_explore, Window.inside_iff f.kind h.proper hc.number, h.own, h.other]
          omega
      · left
        obtain ⟨hkept, hsame⟩ :=
          absorb_of_standing_le e.pruning c h.number hc.number (Int.not_lt.1 hbetter)
        exact ⟨hbest.trans hsame, hvalue.trans hkept⟩
    · right
      exact ⟨u, List.mem_cons_of_mem _ hu, hbest, huinside⟩

-- ============================================================================
-- Exact visits
-- ============================================================================

/-- The value of the visit lies inside its window, unless there are no cutoffs. -/
def Exact (e : Engine) (v : Visit) : Prop := e.pruning = true → v.window.Inside v.value

/-- An exact visit finds what plain minimax finds, and visits its best child exactly. -/
structure Faithful (e : Engine) (v : Visit) : Prop where
  value : v.value = e.tree.minimaxValue v.place
  best : v.best = e.tree.bestChild? v.place
  child : ∀ c, v.best = some c → ∃ u ∈ v.visits, u.place = c ∧ Exact e u

theorem faithful_of_not_pruning (hp : e.pruning = false) (hv : e.tree.LeavesValued)
    (hinternal : e.tree.children i ≠ []) : Faithful e (explore e i w) := by
  have hsweep := sweep_of_not_pruning (w := w) hp (e.tree.children i)
    (fun c _ u => value_explore_of_not_pruning hp c u) (Frame.start i (e.tree.kind i) w)
  have hplain := e.tree.best_plain_start i w
  refine ⟨?_, ?_, ?_⟩
  · rw [value_explore_of_not_pruning hp, place_explore]
  · rw [place_explore, explore_of_internal hinternal, hsweep]
    exact hplain
  · intro c hc
    obtain ⟨b, hb, hleftmost⟩ := Tree.leftmostBest_of_bestChild? hv hinternal
    rw [explore_of_internal hinternal, hsweep] at hc ⊢
    have hcb : c = b := Option.some.inj (hc.symm.trans (hplain.trans hb))
    refine ⟨explore e c w, ?_, place_explore e c w, ?_⟩
    · rw [hcb]
      exact List.mem_map_of_mem hleftmost.mem
    · intro htrue
      rw [hp] at htrue
      cases htrue

theorem faithful_of_inside (hp : e.pruning = true) (hv : e.tree.LeavesValued)
    (hinternal : e.tree.children i ≠ []) (h : w.Inside (explore e i w).value) :
    Faithful e (explore e i w) := by
  have hnum : ∀ c ∈ e.tree.children i, (e.tree.minimaxValue c).isNaN = false := fun c hc =>
    Tree.isNaN_minimaxValue hv (Tree.lt_size_of_mem_children hc)
  have hchild : ∀ c ∈ e.tree.children i, ∀ u : Window, u.alpha < u.beta →
      Sharp u (explore e c u).value (e.tree.minimaxValue c) := fun c hc u hu =>
    sharp_explore hp hv c (Tree.lt_size_of_mem_children hc) u hu
  have hstart := tracks_start i (e.tree.kind i) h.lt
  have hplain := e.tree.best_plain_start i w
  rw [explore_of_internal hinternal] at h ⊢
  rcases tracks_sweep hp h.lt hnum hchild hstart with htracks | ⟨hnumber, hhigh, -⟩
  · obtain ⟨hvalue, hbest⟩ := htracks.above
      ((Window.inside_iff _ (Window.proper_of_lt h.lt) htracks.number).1 h).1
    refine ⟨?_, ?_, ?_⟩
    · rw [place_sweep]
      exact hvalue.trans (Tree.minimaxValue_eq_plain hinternal w).symm
    · rw [place_sweep]
      exact hbest.trans hplain
    · intro c hc
      rcases best_sweep hp h.lt hnum hchild hstart h with ⟨hnone, -⟩ | ⟨u, hu, hub, huinside⟩
      · -- no child was the best one before the first was visited
        rw [hc] at hnone
        cases hnone
      · rw [hc] at hub
        exact ⟨u, hu, (Option.some.inj hub).symm, fun _ => huinside⟩
  · -- after a cutoff the value is not inside
    have hbelow := ((Window.inside_iff (e.tree.kind i) (Window.proper_of_lt h.lt) hnumber).1 h).2
    exact absurd hbelow (Int.not_lt.2 hhigh)

/-- Every exact visit is faithful. -/
theorem faithful_explore (hv : e.tree.LeavesValued) (h : Exact e (explore e i w)) :
    Faithful e (explore e i w) := by
  by_cases hleaf : e.tree.children i = []
  · rw [explore_of_leaf hleaf]
    refine ⟨rfl, (Tree.bestChild?_of_leaf hleaf).symm, ?_⟩
    intro c hc
    cases hc
  · cases hp : e.pruning with
    | false => exact faithful_of_not_pruning hp hv hleaf
    | true =>
      have hinside := h hp
      rw [window_explore] at hinside
      exact faithful_of_inside hp hv hleaf hinside

/-- A run over the whole tree visits the root exactly. -/
theorem exact_root (hv : e.tree.LeavesValued) : Exact e (explore e e.tree.root .full) := by
  intro hp
  have hsize : e.tree.root < e.tree.size := e.tree.wellFormed.nonempty
  have hfinite := Tree.isFinite_minimaxValue hv hsize
  have hinside := Window.full_inside hfinite
  have hsharp := sharp_explore hp hv e.tree.root hsize .full Window.full_lt
  have hvalue := hsharp.failSoft.eq_of_inside (Window.proper_of_lt Window.full_lt) hsharp.number
    hinside.1 hinside.2
  rw [window_explore, hvalue]
  exact hinside

-- ============================================================================
-- The line of best play
-- ============================================================================

/-- The line that plain minimax plays from a node, for so many steps at most. -/
def playLine (t : Tree) : Nat → Nat → List Nat
  | 0, i => [i]
  | steps + 1, i =>
    match t.bestChild? i with
    | none => [i]
    | some c => i :: playLine t steps c

/-- The table holds a record of every visit at or below the given one. -/
def Recorded (o : Outcome) (v : Visit) : Prop :=
  ∀ u ∈ v.all, o.record? u.place = some ⟨u.window, some u.value, u.best⟩

/-- Along the line in the table all best children are those of plain minimax. -/
theorem bestLine_eq_playLine (hv : e.tree.LeavesValued) {o : Outcome} (steps : Nat)
    (hexact : Exact e (explore e i w)) (hrecorded : Recorded o (explore e i w)) :
    o.bestLine steps i = playLine e.tree steps i ∧
      ∀ n ∈ playLine e.tree steps i, o.best? n = e.tree.bestChild? n := by
  have hbest : ∀ {i w}, Exact e (explore e i w) → Recorded o (explore e i w) →
      o.best? i = e.tree.bestChild? i := by
    intro i w hexact hrecorded
    have hrecord := hrecorded _ (Visit.self_mem_all _)
    have hfaithful := (faithful_explore hv hexact).best
    rw [place_explore] at hrecord hfaithful
    rw [Outcome.best?, hrecord, ← hfaithful]
    rfl
  induction steps generalizing i w with
  | zero =>
    refine ⟨rfl, ?_⟩
    intro n hn
    rw [List.mem_singleton.1 hn]
    exact hbest hexact hrecorded
  | succ steps ih =>
    have hi := hbest hexact hrecorded
    have hfaithful := faithful_explore hv hexact
    rw [Outcome.bestLine, playLine, hi]
    cases hc : e.tree.bestChild? i with
    | none =>
      refine ⟨rfl, ?_⟩
      intro n hn
      rw [List.mem_singleton.1 hn]
      exact hi
    | some c =>
      -- the visit to the best child is recorded and exact as well
      have hvbest := hfaithful.best
      rw [place_explore, hc] at hvbest
      obtain ⟨u, hu, hplace, huexact⟩ := hfaithful.child c hvbest
      have hexplored := ((visits_explore e i w).1 u hu).1
      rw [hplace] at hexplored
      have hurecorded : Recorded o u := fun x hx =>
        hrecorded x (Visit.mem_all_iff.2 (.inr ⟨u, hu, hx⟩))
      rw [hexplored] at huexact hurecorded
      obtain ⟨hline, hbelow⟩ := ih huexact hurecorded
      refine ⟨?_, ?_⟩
      · show i :: o.bestLine steps c = i :: playLine e.tree steps c
        rw [hline]
      · intro n hn
        rcases List.mem_cons.1 hn with rfl | hn
        · exact hi
        · exact hbelow n hn

-- ============================================================================
-- Whole runs
-- ============================================================================

/-- What two runs over one tree agree on.  Their values are equal, as they are and as scores
    compare; so are the lines of best play; and at every node of that line both have recorded the
    leftmost best child, or none at a leaf. -/
structure Agreement (t : Tree) (o o' : Outcome) : Prop where
  value : o.value = o'.value
  value_beq : (o.value == o'.value) = true
  line : o.principalVariation = o'.principalVariation
  best : ∀ n ∈ o.principalVariation, o.best? n = o'.best? n
  leftmost : ∀ n ∈ o.principalVariation, (t.children n = [] ∧ o.best? n = none) ∨
    ∃ c, o.best? n = some c ∧ LeftmostBest (t.kind n) t.minimaxValue (t.children n) c

variable {σ τ : Type} [Sink σ] [Sink τ]

/-- The table of a run over the whole tree. -/
def wholeRun (e : Engine) (ch : Channel σ) : Outcome :=
  ((explore e e.tree.root .full).play e (e.fresh e.tree.root ch)).outcome.finish
    (explore e e.tree.root .full).value

theorem run_eq_wholeRun (hv : e.tree.LeavesValued) (ch : Channel σ) :
    (e.run ch).1 = .ok (wholeRun e ch) := by
  have hprepare : e.prepare .full = .ok .full := by
    cases hp : e.pruning with
    | false => exact prepare_of_not_pruning hv hp
    | true => exact prepare_of_pruning hv hp (Window.isOrdered_of_lt Window.full_lt)
  exact evaluate_eq_play hv e.tree.wellFormed.nonempty hprepare ch

theorem runIterative_eq_wholeRun (hv : e.tree.LeavesValued) (ch : Channel σ) :
    (e.runIterative ch).1 = .ok (wholeRun e ch) := by
  rw [runIterative_eq_run]
  exact run_eq_wholeRun hv ch

/-- The table of a whole run records all visits. -/
theorem recorded_wholeRun (ch : Channel σ) :
    Recorded (wholeRun e ch) (explore e e.tree.root .full) := by
  intro u hu
  have hsize : u.place < (e.fresh e.tree.root ch).outcome.records.size := by
    show _ < (Array.replicate e.tree.size none).size
    rw [Array.size_replicate]
    exact place_lt_of_mem_all e.tree.wellFormed.nonempty hu
  exact Visit.record?_play (nodup_places_explore e e.tree.root .full) hu _ hsize

/-- The line of a whole run is the line that plain minimax plays from the root. -/
theorem principalVariation_wholeRun (hv : e.tree.LeavesValued) (ch : Channel σ) :
    (wholeRun e ch).principalVariation = playLine e.tree e.tree.size e.tree.root ∧
      ∀ n ∈ playLine e.tree e.tree.size e.tree.root,
        (wholeRun e ch).best? n = e.tree.bestChild? n := by
  obtain ⟨hsize, hstart⟩ := Visit.sameShape_play (e := e) (explore e e.tree.root .full)
    (e.fresh e.tree.root ch)
  have hsteps : (wholeRun e ch).records.size = e.tree.size := by
    exact hsize.trans Array.size_replicate
  have hroot : (wholeRun e ch).start = e.tree.root := hstart
  obtain ⟨hline, hbest⟩ := bestLine_eq_playLine (o := wholeRun e ch) hv e.tree.size
    (exact_root hv) (recorded_wholeRun ch)
  refine ⟨?_, hbest⟩
  rw [Outcome.principalVariation, hsteps, hroot]
  exact hline

theorem value_wholeRun (hv : e.tree.LeavesValued) (ch : Channel σ) :
    (wholeRun e ch).value = e.tree.minimaxValue e.tree.root := by
  have hfaithful := (faithful_explore hv (exact_root hv)).value
  rw [place_explore] at hfaithful
  exact hfaithful

/-- If all leaves have values, runs over the whole tree with and without cutoffs agree, by
    recursion and with a stack. -/
theorem run_agrees_with_plain (t : Tree) (hv : t.LeavesValued) (ch : Channel σ)
    (ch' : Channel τ) :
    ∃ o o', (Engine.run ⟨t, true⟩ ch).1 = .ok o ∧ (Engine.run ⟨t, false⟩ ch').1 = .ok o' ∧
      (Engine.runIterative ⟨t, true⟩ ch).1 = .ok o ∧
      (Engine.runIterative ⟨t, false⟩ ch').1 = .ok o' ∧ Agreement t o o' := by
  have hroot : t.root < t.size := t.wellFormed.nonempty
  have hvalue := value_wholeRun (e := ⟨t, true⟩) hv ch
  have hvalue' := value_wholeRun (e := ⟨t, false⟩) hv ch'
  obtain ⟨hline, hbest⟩ := principalVariation_wholeRun (e := ⟨t, true⟩) hv ch
  obtain ⟨hline', hbest'⟩ := principalVariation_wholeRun (e := ⟨t, false⟩) hv ch'
  refine ⟨wholeRun ⟨t, true⟩ ch, wholeRun ⟨t, false⟩ ch', run_eq_wholeRun hv ch,
    run_eq_wholeRun hv ch', runIterative_eq_wholeRun hv ch, runIterative_eq_wholeRun hv ch', ?_⟩
  refine ⟨hvalue.trans hvalue'.symm, ?_, hline.trans hline'.symm, ?_, ?_⟩
  · rw [hvalue, hvalue']
    exact (Score.beq_iff_rank (Tree.isNaN_minimaxValue hv hroot)
      (Tree.isNaN_minimaxValue hv hroot)).2 rfl
  · intro n hn
    rw [hline] at hn
    exact (hbest n hn).trans (hbest' n hn).symm
  · intro n hn
    rw [hline] at hn
    rw [hbest n hn]
    by_cases hleaf : t.children n = []
    · left
      exact ⟨hleaf, Tree.bestChild?_of_leaf hleaf⟩
    · right
      exact Tree.leftmostBest_of_bestChild? hv hleaf

theorem run_agrees_with_plain_small :
    Tree.small.LeavesValued ∧
      ∃ o o', (Engine.run ⟨Tree.small, true⟩ (⟨NullSink.mk, Journal.silent⟩ : Channel NullSink)).1 =
          .ok o ∧
        (Engine.run ⟨Tree.small, false⟩ (⟨NullSink.mk, Journal.silent⟩ : Channel NullSink)).1 =
          .ok o' ∧
        (Engine.runIterative ⟨Tree.small, true⟩
          (⟨NullSink.mk, Journal.silent⟩ : Channel NullSink)).1 = .ok o ∧
        (Engine.runIterative ⟨Tree.small, false⟩
          (⟨NullSink.mk, Journal.silent⟩ : Channel NullSink)).1 = .ok o' ∧
        Agreement Tree.small o o' :=
  have hvalued : Tree.small.LeavesValued := by decide
  ⟨hvalued, run_agrees_with_plain Tree.small hvalued ⟨NullSink.mk, Journal.silent⟩
    ⟨NullSink.mk, Journal.silent⟩⟩

end GameSearch.Minimax
