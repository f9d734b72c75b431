/-
  GameSearch.Proofs.Minimax.FailSoft

  What the value of a search with cutoffs says about the minimax value.  Inside the
  window it is the minimax value; at or outside a bound it is a bound on the minimax
  value from the same side.  The children of a node are followed by two frames, one of
  the search and one that takes every child at its minimax value without cutoffs.

    * `FailSoft`           — the three cases, for a window, a result and a value
    * `Tracks`             — how the two frames are related before each child
    * `Tracks.absorb`      — that relation passes to the next child
    * `tracks_sweep`       — and so to the end of the node, unless there is a cutoff
    * `sharp_explore`      — every visit is fail-soft
    * `evaluate_failSoft`  — every evaluation is
-/
import GameSearch.Proofs.Minimax.Visit
import GameSearch.Proofs.Tree.WellFormed

namespace GameSearch.Minimax

/-- What a result of a search with a window says about a value. -/
structure FailSoft (w : Window) (result value : Score) : Prop where
  exact : w.alpha < result → result < w.beta → result = value
  low : result ≤ w.alpha → value ≤ result
  high : w.beta ≤ result → result ≤ value

variable {kind : Kind} {w : Window} {r v : Score}

/-- The cases as a side sees them. -/
theorem failSoft_iff (kind : Kind) (hw : w.Proper) (hr : r.isNaN = false) (hv : v.isNaN = false) :
    FailSoft w r v ↔
      (standing kind (w.own kind) < standing kind r →
        standing kind r < standing kind (w.other kind) → r = v) ∧
      (standing kind r ≤ standing kind (w.own kind) → standing kind v ≤ standing kind r) ∧
      (standing kind (w.other kind) ≤ standing kind r → standing kind r ≤ standing kind v) := by
  have hα := hw.alpha
  have hβ := hw.beta
  cases kind with
  | max =>
    constructor
    · rintro ⟨hexact, hlow, hhigh⟩
      rw [Score.lt_iff_rank hα hr, Score.lt_iff_rank hr hβ] at hexact
      rw [Score.le_iff_rank hr hα, Score.le_iff_rank hv hr] at hlow
      rw [Score.le_iff_rank hβ hr, Score.le_iff_rank hr hv] at hhigh
      exact ⟨hexact, hlow, hhigh⟩
    · rintro ⟨hexact, hlow, hhigh⟩
      refine ⟨?_, ?_, ?_⟩
      · rw [Score.lt_iff_rank hα hr, Score.lt_iff_rank hr hβ]
        exact hexact
      · rw [Score.le_iff_rank hr hα, Score.le_iff_rank hv hr]
        exact hlow
      · rw [Score.le_iff_rank hβ hr, Score.le_iff_rank hr hv]
        exact hhigh
  | min =>
    -- the minimising side has the bounds the other way round
    simp only [standing, Window.own, Window.other, Int.neg_lt_neg_iff, Int.neg_le_neg_iff]
    constructor
    · rintro ⟨hexact, hlow, hhigh⟩
      rw [Score.lt_iff_rank hα hr, Score.lt_iff_rank hr hβ] at hexact
      rw [Score.le_iff_rank hr hα, Score.le_iff_rank hv hr] at hlow
      rw [Score.le_iff_rank hβ hr, Score.le_iff_rank hr hv] at hhigh
      exact ⟨fun hb ha => hexact ha hb, hhigh, hlow⟩
    · rintro ⟨hexact, hhigh, hlow⟩
      refine ⟨?_, ?_, ?_⟩
      · rw [Score.lt_iff_rank hα hr, Score.lt_iff_rank hr hβ]
        exact fun ha hb => hexact hb ha
      · rw [Score.le_iff_rank hr hα, Score.le_iff_rank hv hr]
        exact hlow
      · rw [Score.le_iff_rank hβ hr, Score.le_iff_rank hr hv]
        exact hhigh

/-- A value inside the window is found exactly. -/
theorem FailSoft.eq_of_inside (h : FailSoft w r v) (hw : w.Proper) (hr : r.isNaN = false)
    (hα : w.alpha < v) (hβ : v < w.beta) : r = v := by
  have hv := (Score.isNaN_of_lt hα).2
  obtain ⟨hexact, hlow, hhigh⟩ := (failSoft_iff .max hw hr hv).1 h
  rw [Score.lt_iff_rank hw.alpha hv] at hα
  rw [Score.lt_iff_rank hv hw.beta] at hβ
  simp only [standing, Window.own, Window.other] at hexact hlow hhigh
  by_cases hlower : w.alpha.rank < r.rank
  · by_cases hupper : r.rank < w.beta.rank
    · exact hexact hlower hupper
    · have := hhigh (by omega)
      omega
  · have := hlow (by omega)
    omega

-- ============================================================================
-- Two frames side by side
-- ============================================================================

section Frames

variable {f p : Frame} {c : Nat}

/-- A value that stands above the best one takes its place. -/
theorem absorb_of_standing_lt (pruning : Bool) (c : Nat) (hf : f.value.isNaN = false)
    (hr : r.isNaN = false) (h : standing f.kind f.value < standing f.kind r) :
    (f.absorb pruning c r).value = r ∧ (f.absorb pruning c r).best = some c := by
  have hbetter := (better_iff hr hf).2 h
  rw [Frame.absorb_value, Frame.absorb_best, hbetter]
  exact ⟨rfl, rfl⟩

/-- Any other value changes nothing. -/
theorem absorb_of_standing_le (pruning : Bool) (c : Nat) (hf : f.value.isNaN = false)
    (hr : r.isNaN = false) (h : standing f.kind r ≤ standing f.kind f.value) :
    (f.absorb pruning c r).value = f.value ∧ (f.absorb pruning c r).best = f.best := by
  have hbetter : better f.kind r f.value = false := by
    rw [← Bool.not_eq_true, better_iff hr hf]
    omega
  rw [Frame.absorb_value, Frame.absorb_best, hbetter]
  exact ⟨rfl, rfl⟩

/-- Taking in a value moves the best value up to it. -/
theorem standing_absorb (pruning : Bool) (c : Nat) (hf : f.value.isNaN = false)
    (hr : r.isNaN = false) :
    standing f.kind (f.absorb pruning c r).value =
      max (standing f.kind f.value) (standing f.kind r) := by
  by_cases h : standing f.kind f.value < standing f.kind r
  · rw [(absorb_of_standing_lt pruning c hf hr h).1]
    omega
  · rw [(absorb_of_standing_le pruning c hf hr (by omega)).1]
    omega

theorem isNaN_absorb (pruning : Bool) (c : Nat) (hf : f.value.isNaN = false)
    (hr : r.isNaN = false) : (f.absorb pruning c r).value.isNaN = false := by
  rw [Frame.absorb_value]
  split
  · exact hr
  · exact hf

/-- Children move the value of plain bookkeeping only up. -/
theorem standing_plain_ge {t : Tree} {rest : List Nat} (hf : f.value.isNaN = false)
    (hrest : ∀ x ∈ rest, (t.minimaxValue x).isNaN = false) :
    (f.plain t rest).value.isNaN = false ∧
      standing f.kind f.value ≤ standing f.kind (f.plain t rest).value := by
  induction rest generalizing f with
  | nil => exact ⟨hf, Int.le_refl _⟩
  | cons c rest ih =>
    have hc := hrest c List.mem_cons_self
    obtain ⟨hnum, hge⟩ := ih (isNaN_absorb false c hf hc) fun x hx =>
      hrest x (List.mem_cons_of_mem c hx)
    have hstep := standing_absorb false c hf hc
    rw [Frame.absorb_kind] at hge
    refine ⟨hnum, ?_⟩
    rw [Frame.plain_cons]
    omega

/-- How the frame of a search with window `w` and that of plain bookkeeping are related while no
    cutoff has happened.  Above the own bound they agree; otherwise the search has an upper bound
    on the plain value. -/
structure Tracks (w : Window) (f p : Frame) : Prop where
  kind : p.kind = f.kind
  number : f.value.isNaN = false
  plain_number : p.value.isNaN = false
  proper : f.window.Proper
  own : standing f.kind (f.window.own f.kind) =
    max (standing f.kind (w.own f.kind)) (standing f.kind f.value)
  other : f.window.other f.kind = w.other f.kind
  inside : standing f.kind f.value < standing f.kind (w.other f.kind)
  above : standing f.kind (w.own f.kind) < standing f.kind f.value →
    f.value = p.value ∧ f.best = p.best
  below : standing f.kind f.value ≤ standing f.kind (w.own f.kind) →
    standing f.kind p.value ≤ standing f.kind f.value

/-- The relation holds when a node is entered. -/
theorem tracks_start (i : Nat) (kind : Kind) (hlt : w.alpha < w.beta) :
    Tracks w (Frame.start i kind w) (Frame.start i kind w) := by
  have hw := Window.proper_of_lt hlt
  have hopen := (Window.lt_iff_standing kind hw).1 hlt
  have hworst := standing_worst_le kind (w.own kind)
  refine ⟨rfl, isNaN_worst kind, isNaN_worst kind, hw, ?_, rfl, ?_, ?_, ?_⟩
  · show standing kind (w.own kind) = max (standing kind (w.own kind)) (standing kind (worst kind))
    omega
  · show standing kind (worst kind) < standing kind (w.other kind)
    omega
  · intro _
    exact ⟨rfl, rfl⟩
  · intro _
    exact Int.le_refl _

/-- The window for the next child is open. -/
theorem Tracks.window_lt (h : Tracks w f p) (hlt : w.alpha < w.beta) :
    f.window.alpha < f.window.beta := by
  have hopen := (Window.lt_iff_standing f.kind (Window.proper_of_lt hlt)).1 hlt
  rw [Window.lt_iff_standing f.kind h.proper, h.own, h.other]
  have := h.inside
  omega

/-- A cutoff happens exactly if the best value reaches the other bound. -/
theorem Tracks.isCutoff_iff (h : Tracks w f p) (hlt : w.alpha < w.beta) (hr : r.isNaN = false) :
    (f.absorb true c r).isCutoff true = true ↔
      standing f.kind (w.other f.kind) ≤ standing f.kind r := by
  have hopen := (Window.lt_iff_standing f.kind (Window.proper_of_lt hlt)).1 hlt
  have hnum := isNaN_absorb true c h.number hr
  have hwindow : (f.absorb true c r).window = f.window.narrow f.kind (f.absorb true c r).value := by
    rw [Frame.absorb_window, if_pos rfl]
  show (f.absorb true c r).window.isClosed = true ↔ _
  rw [hwindow, Window.isClosed_iff f.kind (h.proper.narrow hnum),
    Window.standing_narrow h.proper hnum, Window.other_narrow, h.other, h.own,
    standing_absorb true c h.number hr]
  have := h.inside
  omega

/-- The relation passes to the next child if there is no cutoff. -/
theorem Tracks.absorb (h : Tracks w f p) (hlt : w.alpha < w.beta) (hr : r.isNaN = false)
    (hv : v.isNaN = false) (hchild : FailSoft f.window r v)
    (hcut : (f.absorb true c r).isCutoff true = false) :
    Tracks w (f.absorb true c r) (p.absorb false c v) := by
  obtain ⟨hexact, hlow, -⟩ := (failSoft_iff f.kind h.proper hr hv).1 hchild
  have hinside : standing f.kind r < standing f.kind (w.other f.kind) := by
    rw [← Bool.not_eq_true, h.isCutoff_iff hlt hr] at hcut
    omega
  have hvalue := standing_absorb true c h.number hr
  have hplain := standing_absorb false c h.plain_number hv
  have hnum := isNaN_absorb true c h.number hr
  have hwindow : (f.absorb true c r).window = f.window.narrow f.kind (f.absorb true c r).value := by
    rw [Frame.absorb_window, if_pos rfl]
  have hown := h.own
  have hother := h.other
  have hbefore := h.inside
  rw [h.kind] at hplain
  rw [hother] at hexact
  refine ⟨?_, hnum, isNaN_absorb false c h.plain_number hv, ?_, ?_, ?_, ?_, ?_, ?_⟩
  · rw [Frame.absorb_kind, Frame.absorb_kind, h.kind]
  · rw [hwindow]
    exact h.proper.narrow hnum
  · rw [Frame.absorb_kind, hwindow, Window.standing_narrow h.proper hnum]
    omega
  · rw [Frame.absorb_kind, hwindow, Window.other_narrow, hother]
  · rw [Frame.absorb_kind]
    omega
  · rw [Frame.absorb_kind]
    intro habove
    by_cases hlater : standing f.kind f.value < standing f.kind r
    · -- a new best value lies inside the child's window, so it is the child's value
      have hrv : r = v := hexact (by omega) hinside
      have hpv : standing p.kind p.value < standing p.kind v := by
        rw [h.kind, ← hrv]
        by_cases hold : standing f.kind (w.own f.kind) < standing f.kind f.value
        · rw [← (h.above hold).1]
          exact hlater
        · have := h.below (by omega)
          omega
      obtain ⟨hfvalue, hfbest⟩ := absorb_of_standing_lt true c h.number hr hlater
      obtain ⟨hpvalue, hpbest⟩ := absorb_of_standing_lt false c h.plain_number hv hpv
      rw [hfvalue, hfbest, hpvalue, hpbest]
      exact ⟨hrv, rfl⟩
    · -- the child failed low, so its value is not better than the best one either
      obtain ⟨hsame, hbest⟩ := h.above (by omega)
      have hvr := hlow (by omega)
      have hpv : standing p.kind v ≤ standing p.kind p.value := by
        rw [h.kind, ← hsame]
        omega
      obtain ⟨hfvalue, hfbest⟩ := absorb_of_standing_le true c h.number hr (by omega)
      obtain ⟨hpvalue, hpbest⟩ := absorb_of_standing_le false c h.plain_number hv hpv
      rw [hfvalue, hfbest, hpvalue, hpbest]
      exact ⟨hsame, hbest⟩
  · rw [Frame.absorb_kind]
    intro hbelow
    have := h.below (by omega)
    have := hlow (by omega)
    omega

end Frames

-- ============================================================================
-- Visits
-- ============================================================================

variable {e : Engine} {t : Tree}

/-- The result is a number, and says about the value what a fail-soft result says. -/
structure Sharp (w : Window) (result value : Score) : Prop where
  number : result.isNaN = false
  failSoft : FailSoft w result value

/-- How the rest of a visit ends.  Either all children were visited, and the two frames are
    related to the end; or there was a cutoff, and the value is a lower bound on the plain one. -/
theorem tracks_sweep (hp : e.pruning = true) (hlt : w.alpha < w.beta) {rest : List Nat}
    (hrest : ∀ c ∈ rest, (e.tree.minimaxValue c).isNaN = false)
    (hchild : ∀ c ∈ rest, ∀ u : Window, u.alpha < u.beta →
      Sharp u (explore e c u).value (e.tree.minimaxValue c))
    {f p : Frame} (h : Tracks w f p) :
    Tracks w (sweep e w rest f).frame (p.plain e.tree rest) ∨
      ((sweep e w rest f).value.isNaN = false ∧
        standing f.kind (w.other f.kind) ≤ standing f.kind (sweep e w rest f).value ∧
        standing f.kind (sweep e w rest f).value ≤
          standing f.kind (p.plain e.tree rest).value) := by
  induction rest, f using sweepInduction e generalizing p with
  | nil f =>
    left
    rw [sweep_nil]
    exact h
  | cutoff c rest f hcut =>
    have hcnum := hrest c List.mem_cons_self
    have hc := hchild c List.mem_cons_self f.window (h.window_lt hlt)
    right
    rw [Frame.plain_cons, sweep_cons_of_cutoff hcut]
    rw [hp, h.isCutoff_iff hlt hc.number] at hcut
    have hinside := h.inside
    -- the child failed high, and its value is that of the node
    obtain ⟨-, -, hhigh⟩ := (failSoft_iff f.kind h.proper hc.number hcnum).1 hc.failSoft
    rw [h.other] at hhigh
    have hvc := hhigh hcut
    have hvalue : (f.absorb e.pruning c (explore e c f.window).value).value =
        (explore e c f.window).value :=
      (absorb_of_standing_lt e.pruning c h.number hc.number (by omega)).1
    have hplain := standing_absorb false c h.plain_number hcnum
    have hge := (standing_plain_ge (isNaN_absorb false c h.plain_number hcnum) fun x hx =>
      hrest x (List.mem_cons_of_mem c hx)).2
    rw [Frame.absorb_kind, hplain, h.kind] at hge
    show (Frame.value _).isNaN = false ∧ _ ≤ standing f.kind (Frame.value _) ∧
      standing f.kind (Frame.value _) ≤ _
    rw [hvalue]
    refine ⟨hc.number, hcut, ?_⟩
    omega
  | next c rest f hcut ih =>
    have hcnum := hrest c List.mem_cons_self
    have hc := hchild c List.mem_cons_self f.window (h.window_lt hlt)
    have htracks : Tracks w (f.absorb e.pruning c (explore e c f.window).value)
        (p.absorb false c (e.tree.minimaxValue c)) := by
      rw [hp] at hcut ⊢
      exact h.absorb hlt hc.number hcnum hc.failSoft hcut
    have hnext := ih (fun x hx => hrest x (List.mem_cons_of_mem c hx))
      (fun x hx => hchild x (List.mem_cons_of_mem c hx)) htracks
    rw [Frame.absorb_kind] at hnext
    rw [Frame.plain_cons, sweep_cons hcut]
    exact hnext

/-- The rest of a visit is fail-soft if the visits to the children are. -/
theorem sharp_sweep (hp : e.pruning = true) (hlt : w.alpha < w.beta) {rest : List Nat}
    (hrest : ∀ c ∈ rest, (e.tree.minimaxValue c).isNaN = false)
    (hchild : ∀ c ∈ rest, ∀ u : Window, u.alpha < u.beta →
      Sharp u (explore e c u).value (e.tree.minimaxValue c))
    {f p : Frame} (h : Tracks w f p) :
    Sharp w (sweep e w rest f).value (p.plain e.tree rest).value := by
  have hw := Window.proper_of_lt hlt
  have hopen := (Window.lt_iff_standing f.kind hw).1 hlt
  have hplain := (standing_plain_ge h.plain_number hrest).1
  rcases tracks_sweep hp hlt hrest hchild h with htracks | ⟨hnum, hhigh, hle⟩
  · have hinside := htracks.inside
    refine ⟨htracks.number, ?_⟩
    refine (failSoft_iff _ hw htracks.number hplain).2 ⟨?_, htracks.below, ?_⟩
    · intro habove _
      exact (htracks.above habove).1
    · intro hhigh
      exact absurd hinside (Int.not_lt.2 hhigh)
  · refine ⟨hnum, (failSoft_iff f.kind hw hnum hplain).2 ⟨?_, ?_, fun _ => hle⟩⟩
    · intro _ hlow
      omega
    · intro hlow
      omega

/-- Every visit with cutoffs is fail-soft. -/
theorem sharp_explore (hp : e.pruning = true) (hv : e.tree.LeavesValued) (i : Nat)
    (hi : i < e.tree.size) (w : Window) (hlt : w.alpha < w.beta) :
    Sharp w (explore e i w).value (e.tree.minimaxValue i) := by
  induction i using Tree.childInduction (t := e.tree) generalizing w with
  | step i ih =>
    by_cases hleaf : e.tree.children i = []
    · rw [explore_of_leaf hleaf]
      have hnum := Tree.isNaN_minimaxValue hv hi
      refine ⟨hnum, ?_, ?_, ?_⟩
      · intro _ _
        rfl
      · intro _
        exact (Score.le_iff_rank hnum hnum).2 (Int.le_refl _)
      · intro _
        exact (Score.le_iff_rank hnum hnum).2 (Int.le_refl _)
    · rw [explore_of_internal hleaf, Tree.minimaxValue_eq_plain hleaf w]
      refine sharp_sweep hp hlt ?_ ?_ (tracks_start i (e.tree.kind i) hlt)
      · intro c hc
        exact Tree.isNaN_minimaxValue hv (Tree.lt_size_of_mem_children hc)
      · intro c hc u hu
        exact ih c hc (Tree.lt_size_of_mem_children hc) u hu

-- ============================================================================
-- Evaluations
-- ============================================================================

/-- With cutoffs and a window whose lower bound is less than the upper one, evaluations succeed.
    Their value is fail-soft for the minimax value of the start node; so it is that value whenever
    the value lies inside the window. -/
theorem evaluate_failSoft {σ : Type} [Sink σ] (t : Tree) (hv : t.LeavesValued) (n : Nat)
    (hn : n < t.size) (w : Window) (hlt : w.alpha < w.beta) (ch : Channel σ) :
    ∃ o, (Engine.evaluate ⟨t, true⟩ n w ch).1 = .ok o ∧
      FailSoft w o.value (t.minimaxValue n) ∧
      (w.alpha < t.minimaxValue n → t.minimaxValue n < w.beta → o.value = t.minimaxValue n) := by
  have hsharp := sharp_explore (e := ⟨t, true⟩) rfl hv n hn w hlt
  have hprepare := prepare_of_pruning (e := ⟨t, true⟩) hv rfl (Window.isOrdered_of_lt hlt)
  refine ⟨_, evaluate_eq_play hv hn hprepare ch, hsharp.failSoft, ?_⟩
  intro hα hβ
  exact hsharp.failSoft.eq_of_inside (Window.proper_of_lt hlt) hsharp.number hα hβ

/-- The second child of the root, a node of the minimising side, with a window that holds its
    value. -/
theorem evaluate_failSoft_small :
    Tree.small.LeavesValued ∧ 2 < Tree.small.size ∧ (2.0 : Score) < 5.0 ∧
      ∃ o, (Engine.evaluate ⟨Tree.small, true⟩ 2 ⟨2.0, 5.0⟩
          (⟨NullSink.mk, Journal.silent⟩ : Channel NullSink)).1 = .ok o ∧
        FailSoft ⟨2.0, 5.0⟩ o.value (Tree.small.minimaxValue 2) ∧
        ((2.0 : Score) < Tree.small.minimaxValue 2 → Tree.small.minimaxValue 2 < 5.0 →
          o.value = Tree.small.minimaxValue 2) :=
  have hvalued : Tree.small.LeavesValued := by decide
  have hplace : 2 < Tree.small.size := by decide
  have hwindow : (2.0 : Score) < 5.0 := by decide
  ⟨hvalued, hplace, hwindow, evaluate_failSoft Tree.small hvalued 2 hplace ⟨2.0, 5.0⟩ hwindow _⟩

end GameSearch.Minimax
