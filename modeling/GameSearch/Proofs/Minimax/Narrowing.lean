/-
  GameSearch.Proofs.Minimax.Narrowing

  A narrower window never costs nodes.  Two searches of one subtree are followed side by
  side, one with a window that lies within that of the other.  A child may have different
  values in the two, for each may be a mere bound.  But whatever value a search takes from
  a child, its window closes exactly if the minimax value of the child closes it, and
  otherwise has the bounds that the minimax value gives it.  So the two windows stay one
  within the other, and the wider one is not closed before the narrower one.

    * `Window.Within`           — a window lies within another one
    * `Sharp.isClosed_narrow`   — a fail-soft value closes what the minimax value closes
    * `Within.absorb`           — one child taken in by both searches
    * `places_sweep_subset`     — the children that are left
    * `places_explore_subset`   — whole visits
    * `places_explore_plain`    — without cutoffs the whole subtree is entered
    * `evaluate_narrowed`       — evaluations with two windows, and without cutoffs
-/
import GameSearch.Proofs.Minimax.Threading
import GameSearch.Proofs.Minimax.Principal

namespace GameSearch.Minimax

-- ============================================================================
-- Windows within windows
-- ============================================================================

namespace Window

/-- All scores that matter in the window matter in the outer one too. -/
structure Within (w outer : Window) : Prop where
  alpha : outer.alpha ≤ w.alpha
  beta : w.beta ≤ outer.beta

variable {w outer : Window} {kind : Kind}

/-- The bounds as a side sees them. -/
theorem within_iff (kind : Kind) (hw : w.Proper) (houter : outer.Proper) :
    w.Within outer ↔ standing kind (outer.own kind) ≤ standing kind (w.own kind) ∧
      standing kind (w.other kind) ≤ standing kind (outer.other kind) := by
  have hbounds : w.Within outer ↔
      outer.alpha.rank ≤ w.alpha.rank ∧ w.beta.rank ≤ outer.beta.rank := by
    rw [← Score.le_iff_rank houter.alpha hw.alpha, ← Score.le_iff_rank hw.beta houter.beta]
    exact ⟨fun h => ⟨h.alpha, h.beta⟩, fun h => ⟨h.1, h.2⟩⟩
  rw [hbounds]
  cases kind with
  | max => exact Iff.rfl
  | min =>
    simp only [standing, own, other, Int.neg_le_neg_iff]
    exact and_comm

/-- Around an open window there is an open one. -/
theorem Within.lt (h : w.Within outer) (hw : w.Proper) (houter : outer.Proper)
    (hlt : w.alpha < w.beta) : outer.alpha < outer.beta := by
  obtain ⟨hown, hother⟩ := (within_iff .max hw houter).1 h
  rw [lt_iff_standing .max hw] at hlt
  rw [lt_iff_standing .max houter]
  omega

/-- A window that is closed stays closed. -/
theorem isClosed_narrow (hw : w.Proper) {x : Score} (hx : x.isNaN = false)
    (h : w.isClosed = true) : (w.narrow kind x).isClosed = true := by
  rw [isClosed_iff kind hw] at h
  rw [isClosed_iff kind (hw.narrow hx), standing_narrow hw hx, other_narrow]
  omega

/-- Bounds that are in order are accepted. -/
theorem isOrdered_of_le (h : w.alpha ≤ w.beta) : w.isOrdered = true := by
  obtain ⟨hα, hβ⟩ := Score.isNaN_of_le h
  have hnot : ¬ w.beta < w.alpha := by
    rw [Score.lt_iff_rank hβ hα, Int.not_lt]
    exact (Score.le_iff_rank hα hβ).1 h
  simp only [isOrdered, hα, hβ, hnot, decide_false, Bool.not_false, Bool.and_true]

end Window

-- ============================================================================
-- One child
-- ============================================================================

section Child

variable {kind : Kind} {u w : Window} {r r' v : Score} {c : Nat}

/-- A fail-soft value closes a window exactly if the value that it stands for does. -/
theorem Sharp.isClosed_narrow (h : Sharp u r v) (hu : u.Proper) (hv : v.isNaN = false)
    (hlt : u.alpha < u.beta) :
    (u.narrow kind r).isClosed = true ↔ (u.narrow kind v).isClosed = true := by
  obtain ⟨hexact, hlow, hhigh⟩ := (failSoft_iff kind hu h.number hv).1 h.failSoft
  rw [Window.lt_iff_standing kind hu] at hlt
  rw [Window.isClosed_iff kind (hu.narrow h.number), Window.isClosed_iff kind (hu.narrow hv),
    Window.standing_narrow hu h.number, Window.standing_narrow hu hv, Window.other_narrow,
    Window.other_narrow]
  by_cases hbelow : standing kind r ≤ standing kind (u.own kind)
  · have := hlow hbelow
    omega
  · by_cases habove : standing kind (u.other kind) ≤ standing kind r
    · have := hhigh habove
      omega
    · rw [hexact (Int.not_le.1 hbelow) (Int.not_le.1 habove)]

/-- If neither does, both move the own bound to the same place. -/
theorem Sharp.standing_narrow (h : Sharp u r v) (hu : u.Proper) (hv : v.isNaN = false)
    (hopen : (u.narrow kind r).isClosed = false) :
    standing kind ((u.narrow kind r).own kind) = standing kind ((u.narrow kind v).own kind) := by
  obtain ⟨hexact, hlow, -⟩ := (failSoft_iff kind hu h.number hv).1 h.failSoft
  rw [← Bool.not_eq_true, Window.isClosed_iff kind (hu.narrow h.number), Window.other_narrow,
    Window.standing_narrow hu h.number] at hopen
  rw [Window.standing_narrow hu h.number, Window.standing_narrow hu hv]
  by_cases hbelow : standing kind r ≤ standing kind (u.own kind)
  · have := hlow hbelow
    omega
  · rw [hexact (Int.not_le.1 hbelow) (by omega)]

/-- If the narrower window is still open after a child, then so is the wider one, and the one still
    lies within the other. -/
theorem Window.Within.narrow_sharp (h : w.Within u) (hw : w.Proper) (hu : u.Proper)
    (hv : v.isNaN = false) (hsharp : w.alpha < w.beta → Sharp w r' v)
    (houter : u.alpha < u.beta → Sharp u r v) (hr' : r'.isNaN = false)
    (hopen : (w.narrow kind r').isClosed = false) :
    (u.narrow kind r).isClosed = false ∧ (w.narrow kind r').Within (u.narrow kind r) := by
  -- what is open afterwards was open before
  have hlt : w.alpha < w.beta := by
    rw [Window.lt_iff_isClosed hw, ← Bool.not_eq_true]
    intro hclosed
    rw [Window.isClosed_narrow hw hr' hclosed] at hopen
    cases hopen
  have hinner := hsharp hlt
  have hout := houter (h.lt hw hu hlt)
  have hplain : (w.narrow kind v).isClosed = false := by
    rw [← Bool.not_eq_true, ← hinner.isClosed_narrow hw hv hlt, hopen]
    exact Bool.false_ne_true
  obtain ⟨hown, hother⟩ := (Window.within_iff kind hw hu).1 h
  have hkept : (u.narrow kind r).isClosed = false := by
    rw [← Bool.not_eq_true, Window.isClosed_iff kind (hw.narrow hv), Window.other_narrow,
      Window.standing_narrow hw hv] at hplain
    rw [← Bool.not_eq_true, hout.isClosed_narrow hu hv (h.lt hw hu hlt),
      Window.isClosed_iff kind (hu.narrow hv), Window.other_narrow, Window.standing_narrow hu hv]
    omega
  refine ⟨hkept, (Window.within_iff kind (hw.narrow hr') (hu.narrow hout.number)).2 ?_⟩
  rw [hinner.standing_narrow hw hv hopen, hout.standing_narrow hu hv hkept,
    Window.standing_narrow hw hv, Window.standing_narrow hu hv, Window.other_narrow,
    Window.other_narrow]
  omega

end Child

-- ============================================================================
-- Visits
-- ============================================================================

variable {e : Engine} {i : Nat} {w u : Window}

/-- The next child is visited whether or not it leads to a cutoff. -/
theorem visits_sweep_cons (c : Nat) (rest : List Nat) (f : Frame) :
    ∃ younger, (sweep e w (c :: rest) f).visits = explore e c f.window :: younger := by
  cases hcut : (f.absorb e.pruning c (explore e c f.window).value).isCutoff e.pruning with
  | true => exact ⟨[], by rw [sweep_cons_of_cutoff hcut]⟩
  | false => exact ⟨_, by rw [sweep_cons hcut]; rfl⟩

/-- What is entered below the children left with the narrower frame is entered with the wider one
    too. -/
theorem places_sweep_subset (hp : e.pruning = true) (hv : e.tree.LeavesValued) {rest : List Nat}
    (hrest : ∀ c ∈ rest, c < e.tree.size)
    (hchild : ∀ c ∈ rest, ∀ w u : Window, w.Proper → u.Proper → w.Within u →
      (explore e c w).places ⊆ (explore e c u).places)
    {f g : Frame} (hf : f.Steady) (hg : g.Steady) (hkind : g.kind = f.kind)
    (hwithin : f.window.Within g.window) :
    (sweep e w rest f).visits.flatMap Visit.places ⊆
      (sweep e u rest g).visits.flatMap Visit.places := by
  induction rest, f using sweepInduction e generalizing g with
  | nil f =>
    rw [sweep_nil]
    exact List.nil_subset _
  | cutoff c rest f hcut =>
    -- the other search visits this child, and perhaps more of them
    obtain ⟨younger, hvisits⟩ := visits_sweep_cons (e := e) (w := u) c rest g
    rw [sweep_cons_of_cutoff hcut, hvisits, List.flatMap_singleton, List.flatMap_cons]
    exact List.subset_append_of_subset_left _
      (hchild c List.mem_cons_self _ _ hf.proper hg.proper hwithin)
  | next c rest f hcut ih =>
    have hc := hrest c List.mem_cons_self
    have hnum : ∀ x, (explore e c x).value.isNaN = false := fun x =>
      (Score.rank_of_isFinite (isFinite_explore hv hc x)).1
    have hsharp : ∀ x : Window, x.alpha < x.beta →
        Sharp x (explore e c x).value (e.tree.minimaxValue c) := fun x hx =>
      sharp_explore hp hv c hc x hx
    have hopen : (f.window.narrow f.kind (explore e c f.window).value).isClosed = false := by
      rw [hp] at hcut
      rw [← hf.window_absorb (c := c) (hnum f.window)]
      exact hcut
    obtain ⟨hkept, hnext⟩ := hwithin.narrow_sharp hf.proper hg.proper
      (Tree.isNaN_minimaxValue hv hc) (hsharp f.window) (hsharp g.window) (hnum f.window) hopen
    rw [← hkind] at hkept hnext
    have hcut' :
        (g.absorb e.pruning c (explore e c g.window).value).isCutoff e.pruning = false := by
      rw [hp]
      show Window.isClosed _ = false
      rw [hg.window_absorb (hnum g.window)]
      exact hkept
    rw [sweep_cons hcut, sweep_cons hcut']
    rw [hp] at ih ⊢
    show (_ :: _).flatMap _ ⊆ (_ :: _).flatMap _
    rw [List.flatMap_cons, List.flatMap_cons]
    refine List.append_subset.2 ⟨?_, ?_⟩
    · exact List.subset_append_of_subset_left _
        (hchild c List.mem_cons_self _ _ hf.proper hg.proper hwithin)
    · apply List.subset_append_of_subset_right
      apply ih (fun x hx => hrest x (List.mem_cons_of_mem c hx))
        (fun x hx => hchild x (List.mem_cons_of_mem c hx)) (hf.absorb (hnum f.window))
        (hg.absorb (hnum g.window))
      · rw [Frame.absorb_kind, Frame.absorb_kind, hkind]
      · rw [hf.window_absorb (hnum f.window), hg.window_absorb (hnum g.window)]
        rw [hkind] at hnext ⊢
        exact hnext

/-- With a narrower window a search enters no more nodes. -/
theorem places_explore_subset (hp : e.pruning = true) (hv : e.tree.LeavesValued)
    (hw : w.Proper) (hu : u.Proper) (hwithin : w.Within u) :
    (explore e i w).places ⊆ (explore e i u).places := by
  induction i using Tree.childInduction (t := e.tree) generalizing w u with
  | step i ih =>
    by_cases hleaf : e.tree.children i = []
    · rw [explore_of_leaf hleaf, explore_of_leaf hleaf, Visit.places_eq, Visit.places_eq]
      exact List.Subset.refl _
    · rw [Visit.places_eq, Visit.places_eq, place_explore, place_explore,
        explore_of_internal hleaf, explore_of_internal hleaf]
      apply List.cons_subset_cons
      exact places_sweep_subset hp hv (fun c hc => Tree.lt_size_of_mem_children hc)
        (fun c hc w u hw hu hwithin => ih c hc hw hu hwithin) (Frame.steady_start hw)
        (Frame.steady_start hu) rfl hwithin

/-- Without cutoffs nothing is left out. -/
theorem left_explore_of_not_pruning (hp : e.pruning = false) (i : Nat) (w : Window) :
    (explore e i w).left = [] := by
  by_cases hleaf : e.tree.children i = []
  · rw [explore_of_leaf hleaf]
    rfl
  · rw [explore_of_internal hleaf,
      sweep_of_not_pruning hp _ fun c _ => value_explore_of_not_pruning hp c]
    rfl

theorem pruned_explore_of_not_pruning (hp : e.pruning = false) (i : Nat) (w : Window) :
    (explore e i w).pruned = [] := by
  induction i using Tree.childInduction (t := e.tree) generalizing w with
  | step i ih =>
    rw [Visit.pruned_eq, left_explore_of_not_pruning hp, List.append_nil, List.flatMap_eq_nil_iff]
    intro u hu
    obtain ⟨hexplored, hchild⟩ := (visits_explore e i w).1 u hu
    rw [hexplored]
    exact ih u.place hchild u.window

/-- So the whole subtree is entered. -/
theorem places_explore_plain (hp : e.pruning = false) (i : Nat) (w : Window) :
    (explore e i w).places = e.tree.subtree i := by
  rw [(explored_explore e i w).places_eq_filter, pruned_explore_of_not_pruning hp, place_explore]
  exact List.filter_eq_self.2 fun j _ => rfl

-- ============================================================================
-- Evaluations
-- ============================================================================

variable {σ : Type} [Sink σ]

/-- The evaluation of a node with a window succeeds, by recursion and with a stack, and leaves the
    table. -/
structure Engine.Delivers (e : Engine) (i : Nat) (w : Window) (ch : Channel σ) (o : Outcome) :
    Prop where
  recursive : (e.evaluate i w ch).1 = .ok o
  iterative : (e.evaluateIterative i w ch).1 = .ok o

/-- In a tree whose leaves have values, evaluations with an accepted window leave the table of the
    visit to their node. -/
theorem delivers_visitTable (hv : e.tree.LeavesValued) (hi : i < e.tree.size)
    (hprepare : e.prepare w = .ok u) (ch : Channel σ) :
    e.Delivers i w ch ((visitTable e i u ch).finish (explore e i u).value) := by
  have hok := evaluate_eq_play hv hi hprepare ch
  refine ⟨hok, ?_⟩
  rw [evaluateIterative_eq_evaluate]
  exact hok

/-- An evaluation in a tree whose leaves have values enters the nodes of a visit. -/
theorem exists_delivers (hv : e.tree.LeavesValued) (hi : i < e.tree.size)
    (hprepare : e.prepare w = .ok u) (ch : Channel σ) :
    ∃ o, e.Delivers i w ch o ∧ ∀ m, o.isVisited m = true ↔ m ∈ (explore e i u).places :=
  ⟨_, delivers_visitTable hv hi hprepare ch, isVisited_visitTable hi u ch⟩

/-- If one window lies within another one and all leaves have values, then every node that is
    entered with cutoffs and the narrower window is also entered with the wider one, and every such
    node is entered without cutoffs. -/
theorem evaluate_narrowed (t : Tree) (hv : t.LeavesValued) (n : Nat) (hn : n < t.size)
    (outer inner plain : Window) (hα : outer.alpha ≤ inner.alpha)
    (hordered : inner.alpha ≤ inner.beta) (hβ : inner.beta ≤ outer.beta) (ch : Channel σ) :
    ∃ narrow wide whole : Outcome,
      Engine.Delivers ⟨t, true⟩ n inner ch narrow ∧
      Engine.Delivers ⟨t, true⟩ n outer ch wide ∧
      Engine.Delivers ⟨t, false⟩ n plain ch whole ∧
      (∀ m, narrow.isVisited m = true → wide.isVisited m = true) ∧
      ∀ m, wide.isVisited m = true → whole.isVisited m = true := by
  have hinner : inner.Proper := ⟨(Score.isNaN_of_le hα).2, (Score.isNaN_of_le hβ).1⟩
  have houter : outer.Proper := ⟨(Score.isNaN_of_le hα).1, (Score.isNaN_of_le hβ).2⟩
  have hwide : outer.alpha ≤ outer.beta := by
    rw [Score.le_iff_rank houter.alpha houter.beta]
    rw [Score.le_iff_rank houter.alpha hinner.alpha] at hα
    rw [Score.le_iff_rank hinner.alpha hinner.beta] at hordered
    rw [Score.le_iff_rank hinner.beta houter.beta] at hβ
    omega
  obtain ⟨narrow, hnarrow, hin⟩ := exists_delivers (e := ⟨t, true⟩) hv hn
    (prepare_of_pruning hv rfl (Window.isOrdered_of_le hordered)) ch
  obtain ⟨wide, hwidely, hout⟩ := exists_delivers (e := ⟨t, true⟩) hv hn
    (prepare_of_pruning hv rfl (Window.isOrdered_of_le hwide)) ch
  obtain ⟨whole, hwhole, hall⟩ := exists_delivers (e := ⟨t, false⟩) (w := plain) hv hn
    (prepare_of_not_pruning hv rfl) ch
  refine ⟨narrow, wide, whole, hnarrow, hwidely, hwhole, ?_, ?_⟩
  · intro m hm
    rw [hout]
    exact places_explore_subset rfl hv hinner houter ⟨hα, hβ⟩ ((hin m).1 hm)
  · intro m hm
    have hmem := (explored_explore ⟨t, true⟩ n outer).mem_subtree_of_places ((hout m).1 hm)
    rw [place_explore] at hmem
    rw [hall, places_explore_plain rfl]
    exact hmem

/-- The small tree from its root, with a window that holds a single score and with a wider one. -/
theorem evaluate_narrowed_small :
    Tree.small.LeavesValued ∧ 0 < Tree.small.size ∧
      (2.0 : Score) ≤ 4.0 ∧ (4.0 : Score) ≤ 4.0 ∧ (4.0 : Score) ≤ 5.0 ∧
      ∃ narrow wide whole : Outcome,
        Engine.Delivers ⟨Tree.small, true⟩ 0 ⟨4.0, 4.0⟩
          (⟨NullSink.mk, Journal.silent⟩ : Channel NullSink) narrow ∧
        Engine.Delivers ⟨Tree.small, true⟩ 0 ⟨2.0, 5.0⟩
          (⟨NullSink.mk, Journal.silent⟩ : Channel NullSink) wide ∧
        Engine.Delivers ⟨Tree.small, false⟩ 0 .full
          (⟨NullSink.mk, Journal.silent⟩ : Channel NullSink) whole ∧
        (∀ m, narrow.isVisited m = true → wide.isVisited m = true) ∧
        ∀ m, wide.isVisited m = true → whole.isVisited m = true :=
  have hvalued : Tree.small.LeavesValued := by decide
  have hplace : 0 < Tree.small.size := by decide
  have hα : (2.0 : Score) ≤ 4.0 := by decide
  have hordered : (4.0 : Score) ≤ 4.0 := by decide
  have hβ : (4.0 : Score) ≤ 5.0 := by decide
  ⟨hvalued, hplace, hα, hordered, hβ,
    evaluate_narrowed Tree.small hvalued 0 hplace ⟨2.0, 5.0⟩ ⟨4.0, 4.0⟩ .full hα hordered hβ _⟩

end GameSearch.Minimax
