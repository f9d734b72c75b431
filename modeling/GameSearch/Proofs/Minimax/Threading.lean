/-
  GameSearch.Proofs.Minimax.Threading

  How windows pass down the tree.  A child is entered with the window of its parent, narrowed
  by the values of its elder siblings.  Children are visited until that window is closed, not
  fewer and not more.  The frame of a node narrows its window by the best value so far; as
  the bound never stands below that value, this is the same as narrowing by each value.

    * `Window.narrowAll`   — a window narrowed by several values
    * `Frame.Steady`       — the own bound of a frame is not below its value
    * `Visit.Threads`      — the windows of the visits to children, and the cutoff
    * `threads_explore`    — every visit is of that kind
    * `Threaded`           — what the records of a table say about windows
    * `evaluate_threads`   — every evaluation with cutoffs leaves such a table
-/
import GameSearch.Proofs.Minimax.Coverage
import GameSearch.Proofs.Minimax.FailSoft

namespace GameSearch.Minimax

-- ============================================================================
-- Narrowing by several values
-- ============================================================================

namespace Window

/-- The window after the side to move has reached the given scores: its own bound is the best of
    them and the bound from before, the other bound stays. -/
def narrowAll (kind : Kind) (values : List Score) (w : Window) : Window :=
  match kind with
  | .max => ⟨values.foldl Score.larger w.alpha, w.beta⟩
  | .min => ⟨w.alpha, values.foldl Score.smaller w.beta⟩

variable {w : Window} {kind : Kind} {x : Score} {values : List Score}

@[simp]
theorem narrowAll_nil : w.narrowAll kind [] = w := by
  cases kind <;> rfl

@[simp]
theorem narrowAll_cons :
    w.narrowAll kind (x :: values) = (w.narrow kind x).narrowAll kind values := by
  cases kind <;> rfl

/-- A score that does not stand above the own bound changes nothing. -/
theorem narrow_of_standing_le (hw : w.Proper) (hx : x.isNaN = false)
    (h : standing kind x ≤ standing kind (w.own kind)) : w.narrow kind x = w := by
  cases kind with
  | max =>
    have hnot : ¬ w.alpha < x := by
      rw [Score.lt_iff_rank hw.alpha hx]
      exact Int.not_lt.2 h
    rw [narrow, Score.larger, if_neg hnot]
  | min =>
    have hnot : ¬ x < w.beta := by
      rw [Score.lt_iff_rank hx hw.beta]
      exact Int.not_lt.2 (Int.neg_le_neg_iff.1 h)
    rw [narrow, Score.smaller, if_neg hnot]

theorem Proper.narrowAll (hw : w.Proper) (hvalues : ∀ x ∈ values, x.isNaN = false) :
    (w.narrowAll kind values).Proper := by
  induction values generalizing w with
  | nil =>
    rw [narrowAll_nil]
    exact hw
  | cons x values ih =>
    obtain ⟨hx, hrest⟩ := List.forall_mem_cons.1 hvalues
    rw [narrowAll_cons]
    exact ih (hw.narrow hx) hrest

/-- Scores below the other bound do not close a window. -/
theorem narrowAll_lt (hlt : w.alpha < w.beta)
    (hvalues : ∀ x ∈ values, x.isNaN = false ∧ standing kind x < standing kind (w.other kind)) :
    (w.narrowAll kind values).alpha < (w.narrowAll kind values).beta := by
  induction values generalizing w with
  | nil =>
    rw [narrowAll_nil]
    exact hlt
  | cons x values ih =>
    obtain ⟨⟨hx, hbelow⟩, hrest⟩ := List.forall_mem_cons.1 hvalues
    have hw := proper_of_lt hlt
    rw [narrowAll_cons]
    apply ih
    · rw [lt_iff_standing kind (hw.narrow hx), standing_narrow hw hx, other_narrow]
      have := (lt_iff_standing kind hw).1 hlt
      omega
    · rw [other_narrow]
      exact hrest

/-- Nothing finite closes the full window. -/
theorem narrowAll_full_lt (kind : Kind) (hvalues : ∀ x ∈ values, x.isFinite = true) :
    (full.narrowAll kind values).alpha < (full.narrowAll kind values).beta := by
  apply narrowAll_lt full_lt
  intro x hx
  have hnum := (Score.rank_of_isFinite (hvalues x hx)).1
  have hinside := full_inside (hvalues x hx)
  exact ⟨hnum, ((inside_iff kind (proper_of_lt full_lt) hnum).1 hinside).2⟩

/-- A window is open or closed. -/
theorem lt_iff_isClosed (hw : w.Proper) : w.alpha < w.beta ↔ w.isClosed = false := by
  rw [lt_iff_standing .max hw, ← Bool.not_eq_true, isClosed_iff .max hw, Int.not_le]

end Window

-- ============================================================================
-- Frames
-- ============================================================================

namespace Frame

/-- The bound that the side to move has raised is not below the best value so far. -/
structure Steady (f : Frame) : Prop where
  proper : f.window.Proper
  number : f.value.isNaN = false
  behind : standing f.kind f.value ≤ standing f.kind (f.window.own f.kind)

variable {f : Frame} {c i : Nat} {x : Score} {kind : Kind} {w : Window}

theorem steady_start (hw : w.Proper) : (start i kind w).Steady :=
  ⟨hw, isNaN_worst kind, standing_worst_le kind _⟩

/-- Narrowing by the best value so far is narrowing by the value of the child. -/
theorem Steady.window_absorb (h : f.Steady) (hx : x.isNaN = false) :
    (f.absorb true c x).window = f.window.narrow f.kind x := by
  rw [absorb_window, if_pos rfl]
  by_cases hbetter : standing f.kind f.value < standing f.kind x
  · rw [(absorb_of_standing_lt true c h.number hx hbetter).1]
  · have hle := Int.not_lt.1 hbetter
    have hkept := (absorb_of_standing_le true c h.number hx hle).1
    rw [hkept, Window.narrow_of_standing_le h.proper h.number h.behind,
      Window.narrow_of_standing_le h.proper hx (Int.le_trans hle h.behind)]

theorem Steady.absorb (h : f.Steady) (hx : x.isNaN = false) : (f.absorb true c x).Steady := by
  have hwindow := h.window_absorb (c := c) hx
  refine ⟨?_, isNaN_absorb true c h.number hx, ?_⟩
  · rw [hwindow]
    exact h.proper.narrow hx
  · rw [absorb_kind, hwindow, Window.standing_narrow h.proper hx,
      standing_absorb true c h.number hx]
    have := h.behind
    omega

/-- A finite value replaces the one that a frame starts with. -/
theorem isFinite_absorb (pruning : Bool) (c : Nat) (hx : x.isFinite = true)
    (hf : f.value.isFinite = true ∨ f.value = worst f.kind) :
    (f.absorb pruning c x).value.isFinite = true := by
  rw [absorb_value]
  split
  · exact hx
  · rename_i hnot
    apply hf.resolve_right
    intro hworst
    rw [hworst, better_iff (Score.rank_of_isFinite hx).1 (isNaN_worst _)] at hnot
    exact hnot (standing_worst_lt hx)

end Frame

-- ============================================================================
-- Visits
-- ============================================================================

variable {e : Engine} {i : Nat} {w : Window}

theorem isFinite_sweep {rest : List Nat}
    (hchild : ∀ c ∈ rest, ∀ u, (explore e c u).value.isFinite = true) {f : Frame}
    (hf : f.value.isFinite = true ∨ f.value = worst f.kind ∧ rest ≠ []) :
    (sweep e w rest f).value.isFinite = true := by
  induction rest, f using sweepInduction e with
  | nil f =>
    rw [sweep_nil]
    exact hf.resolve_right fun h => h.2 rfl
  | cutoff c rest f hcut =>
    rw [sweep_cons_of_cutoff hcut]
    exact Frame.isFinite_absorb e.pruning c (hchild c List.mem_cons_self f.window)
      (hf.imp_right And.left)
  | next c rest f hcut ih =>
    have hnext := Frame.isFinite_absorb e.pruning c (hchild c List.mem_cons_self f.window)
      (hf.imp_right And.left)
    rw [sweep_cons hcut]
    exact ih (fun x hx => hchild x (List.mem_cons_of_mem c hx)) (.inl hnext)

/-- Whatever the window, the value of a visit is finite. -/
theorem isFinite_explore (hv : e.tree.LeavesValued) (hi : i < e.tree.size) (w : Window) :
    (explore e i w).value.isFinite = true := by
  induction i using Tree.childInduction (t := e.tree) generalizing w with
  | step i ih =>
    by_cases hleaf : e.tree.children i = []
    · rw [explore_of_leaf hleaf]
      exact Tree.isFinite_minimaxValue hv hi
    · rw [explore_of_internal hleaf]
      exact isFinite_sweep (fun c hc u => ih c hc (Tree.lt_size_of_mem_children hc) u)
        (.inr ⟨rfl, hleaf⟩)

/-- So are the values that a visit takes from children. -/
theorem Explored.isFinite_value {v u : Visit} (h : Explored e v) (hv : e.tree.LeavesValued)
    (hu : u ∈ v.visits) : u.value.isFinite = true := by
  obtain ⟨hexplored, hchild⟩ := h.visit hu
  rw [hexplored]
  exact isFinite_explore hv (Tree.lt_size_of_mem_children hchild) u.window

/-- Each child still ahead is visited with the window of the frame, narrowed by the values of the
    children before it; and if there are such children, that window is not closed. -/
theorem window_of_sweep (hp : e.pruning = true) {rest : List Nat}
    (hchild : ∀ c ∈ rest, ∀ u, (explore e c u).value.isNaN = false) {f : Frame} (hf : f.Steady)
    {elder younger : List Visit} {u : Visit}
    (h : (sweep e w rest f).visits = elder ++ u :: younger) :
    u.window = f.window.narrowAll f.kind (elder.map Visit.value) ∧
      (elder ≠ [] → u.window.isClosed = false) := by
  induction rest, f using sweepInduction e generalizing elder with
  | nil f =>
    rw [sweep_nil] at h
    simp at h
  | cutoff c rest f hcut =>
    -- no child comes after another one
    rw [sweep_cons_of_cutoff hcut] at h
    cases elder with
    | nil =>
      obtain rfl := (List.cons.inj h).1
      simp [window_explore]
    | cons first elder => simp at h
  | next c rest f hcut ih =>
    have hnum := hchild c List.mem_cons_self f.window
    rw [sweep_cons hcut] at h
    rw [hp] at hcut ih h
    cases elder with
    | nil =>
      obtain rfl := (List.cons.inj h).1
      simp [window_explore]
    | cons first elder =>
      obtain ⟨rfl, hrest⟩ := List.cons.inj h
      obtain ⟨hwindow, hopen⟩ :=
        ih (fun x hx => hchild x (List.mem_cons_of_mem c hx)) (hf.absorb hnum) hrest
      rw [Frame.absorb_kind, hf.window_absorb hnum] at hwindow
      refine ⟨by simpa using hwindow, fun _ => ?_⟩
      by_cases hempty : elder = []
      · -- the window that was looked at after the first child
        rw [hempty, List.map_nil, Window.narrowAll_nil, ← hf.window_absorb (c := c) hnum] at hwindow
        rw [hwindow]
        exact hcut
      · exact hopen hempty

/-- If children are left out, the window is closed after those visited. -/
theorem isClosed_of_left_sweep (hp : e.pruning = true) {rest : List Nat}
    (hchild : ∀ c ∈ rest, ∀ u, (explore e c u).value.isNaN = false) {f : Frame} (hf : f.Steady)
    (h : (sweep e w rest f).left ≠ []) :
    (f.window.narrowAll f.kind ((sweep e w rest f).visits.map Visit.value)).isClosed = true := by
  induction rest, f using sweepInduction e with
  | nil f =>
    rw [sweep_nil] at h
    exact absurd rfl h
  | cutoff c rest f hcut =>
    have hwindow := hf.window_absorb (c := c) (hchild c List.mem_cons_self f.window)
    rw [sweep_cons_of_cutoff hcut]
    rw [hp] at hcut
    rw [List.map_singleton, Window.narrowAll_cons, Window.narrowAll_nil, ← hwindow]
    exact hcut
  | next c rest f hcut ih =>
    have hnum := hchild c List.mem_cons_self f.window
    rw [sweep_cons hcut, hp] at h ⊢
    rw [hp] at ih
    have hrest := ih (fun x hx => hchild x (List.mem_cons_of_mem c hx)) (hf.absorb hnum) h
    rw [Frame.absorb_kind, hf.window_absorb hnum] at hrest
    show (f.window.narrowAll f.kind (_ :: List.map Visit.value _)).isClosed = true
    rw [Window.narrowAll_cons]
    exact hrest

/-- How the windows of the visits to children come from that of a visit, and when children are left
    out. -/
structure Visit.Threads (t : Tree) (v : Visit) : Prop where
  window : ∀ {elder u younger}, v.visits = elder ++ u :: younger →
    u.window = v.window.narrowAll (t.kind v.place) (elder.map value)
  opened : ∀ {elder u younger}, v.visits = elder ++ u :: younger → elder ≠ [] →
    u.window.isClosed = false
  closed : v.left ≠ [] →
    (v.window.narrowAll (t.kind v.place) (v.visits.map value)).isClosed = true

/-- Too few children do not close the window. -/
theorem Visit.Threads.isClosed_take {t : Tree} {v : Visit} (h : v.Threads t) {k : Nat}
    (hpos : 0 < k) (hk : k < v.visits.length) :
    (v.window.narrowAll (t.kind v.place) ((v.visits.map value).take k)).isClosed = false := by
  have hsplit : v.visits = v.visits.take k ++ v.visits[k] :: v.visits.drop (k + 1) := by
    rw [← List.drop_eq_getElem_cons hk, List.take_append_drop]
  have hne : v.visits.take k ≠ [] := by
    apply List.ne_nil_of_length_pos
    rw [List.length_take]
    omega
  rw [← List.map_take, ← h.window hsplit]
  exact h.opened hsplit hne

theorem threads_explore (hp : e.pruning = true) (hv : e.tree.LeavesValued) (hw : w.Proper) :
    (explore e i w).Threads e.tree := by
  by_cases hleaf : e.tree.children i = []
  · rw [explore_of_leaf hleaf]
    exact ⟨fun h => by simp [Visit.leaf] at h, fun h => by simp [Visit.leaf] at h,
      fun h => absurd rfl h⟩
  · have hchild : ∀ c ∈ e.tree.children i, ∀ u, (explore e c u).value.isNaN = false :=
      fun c hc u => (Score.rank_of_isFinite
        (isFinite_explore hv (Tree.lt_size_of_mem_children hc) u)).1
    have hstart : (Frame.start i (e.tree.kind i) w).Steady := Frame.steady_start hw
    rw [explore_of_internal hleaf]
    constructor
    · intro elder u younger h
      rw [place_sweep, window_sweep]
      exact (window_of_sweep hp hchild hstart h).1
    · intro elder u younger h
      exact (window_of_sweep hp hchild hstart h).2
    · intro h
      have hclosed := isClosed_of_left_sweep hp hchild hstart h
      rw [place_sweep, window_sweep]
      exact hclosed

/-- Nothing is left out below a node that is entered with the full window. -/
theorem left_explore_full (hp : e.pruning = true) (hv : e.tree.LeavesValued) (i : Nat) :
    (explore e i .full).left = [] := by
  have hvalues : ∀ x ∈ (explore e i .full).visits.map Visit.value, x.isFinite = true := by
    intro x hx
    obtain ⟨u, hu, rfl⟩ := List.mem_map.1 hx
    exact (explored_explore e i .full).isFinite_value hv hu
  have hopen := Window.narrowAll_full_lt (e.tree.kind i) hvalues
  rw [Window.lt_iff_isClosed (Window.proper_of_lt hopen)] at hopen
  by_contra hleft
  have hclosed := (threads_explore hp hv (Window.proper_of_lt Window.full_lt)).closed hleft
  rw [place_explore, window_explore, hopen] at hclosed
  cases hclosed

-- ============================================================================
-- Visits below a visit
-- ============================================================================

namespace Visit

variable {u v x : Visit} {c : Nat}

theorem eq_or_mem_visits (hu : u ∈ v.all) : u = v ∨ ∃ x ∈ v.all, u ∈ x.visits := by
  induction v using Visit.induction with
  | step v ih =>
    rcases mem_all_iff.1 hu with rfl | ⟨y, hy, huy⟩
    · exact .inl rfl
    · right
      rcases ih y hy huy with rfl | ⟨x, hx, hux⟩
      · exact ⟨v, self_mem_all v, hy⟩
      · exact ⟨x, mem_all_iff.2 (.inr ⟨y, hy, hx⟩), hux⟩

theorem mem_pruned_of_left (hx : x ∈ v.all) (hc : c ∈ x.left) : c ∈ v.pruned := by
  induction v using Visit.induction with
  | step v ih =>
    rcases mem_all_iff.1 hx with rfl | ⟨y, hy, hxy⟩
    · exact mem_pruned_iff.2 (.inr hc)
    · exact mem_pruned_iff.2 (.inl ⟨y, hy, ih y hy hxy⟩)

end Visit

namespace Explored

variable {v x : Visit} {c : Nat}

theorem visits_ne_nil_of_internal (h : Explored e v) (hinternal : e.tree.children v.place ≠ []) :
    v.visits ≠ [] := by
  intro hnone
  have hleft : v.left = e.tree.children v.place := by
    rw [← h.children, hnone]
    rfl
  exact h.visits_ne_nil (hleft ▸ hinternal) hnone

/-- A child of a node that was entered is entered exactly if it is visited there. -/
theorem mem_places_iff_of_child (h : Explored e v) (hx : x ∈ v.all) (hxplored : Explored e x)
    (hc : c ∈ e.tree.children x.place) : c ∈ v.places ↔ c ∈ x.visits.map Visit.place := by
  rw [← hxplored.children, List.mem_append] at hc
  constructor
  · intro hentered
    apply hc.resolve_right
    intro hleft
    exact (h.mem_places_iff.1 hentered).2 c (e.tree.self_mem_ancestors c)
      (Visit.mem_pruned_of_left hx hleft)
  · intro hvisited
    obtain ⟨u, hu, rfl⟩ := List.mem_map.1 hvisited
    exact Visit.place_mem_places (Visit.mem_all_of_mem_visits hx hu)

end Explored

/-- A visit that a search makes to a node of the tree. -/
structure Genuine (e : Engine) (v : Visit) : Prop where
  explored : Explored e v
  place : v.place < e.tree.size
  proper : v.window.Proper

namespace Genuine

variable {v u : Visit}

theorem threads (h : Genuine e v) (hp : e.pruning = true) (hv : e.tree.LeavesValued) :
    v.Threads e.tree := by
  rw [h.explored]
  exact threads_explore hp hv h.proper

theorem visit (h : Genuine e v) (hp : e.pruning = true) (hv : e.tree.LeavesValued)
    (hu : u ∈ v.visits) : Genuine e u := by
  obtain ⟨hexplored, hchild⟩ := h.explored.visit hu
  refine ⟨hexplored, Tree.lt_size_of_mem_children hchild, ?_⟩
  obtain ⟨elder, younger, hsplit⟩ := List.append_of_mem hu
  rw [(h.threads hp hv).window hsplit]
  apply h.proper.narrowAll
  intro x hx
  obtain ⟨y, hy, rfl⟩ := List.mem_map.1 hx
  have hmem : y ∈ v.visits := hsplit ▸ List.mem_append_left _ hy
  exact (Score.rank_of_isFinite (h.explored.isFinite_value hv hmem)).1

/-- The first child takes the window over, and for the others it is open. -/
theorem window_eq_or_lt (h : Genuine e v) (hp : e.pruning = true) (hv : e.tree.LeavesValued)
    (hu : u ∈ v.visits) : u.window = v.window ∨ u.window.alpha < u.window.beta := by
  obtain ⟨elder, younger, hsplit⟩ := List.append_of_mem hu
  by_cases hempty : elder = []
  · left
    have hwindow := (h.threads hp hv).window hsplit
    rw [hempty, List.map_nil, Window.narrowAll_nil] at hwindow
    exact hwindow
  · right
    rw [Window.lt_iff_isClosed (h.visit hp hv hu).proper]
    exact (h.threads hp hv).opened hsplit hempty

/-- The windows of the visits to children are open if that of the visit is. -/
theorem window_lt (h : Genuine e v) (hp : e.pruning = true) (hv : e.tree.LeavesValued)
    (hlt : v.window.alpha < v.window.beta) (hu : u ∈ v.visits) :
    u.window.alpha < u.window.beta := by
  rcases h.window_eq_or_lt hp hv hu with hwindow | hopen
  · rw [hwindow]
    exact hlt
  · exact hopen

end Genuine

-- ============================================================================
-- Tables
-- ============================================================================

/-- What the records of a table say about windows, if the run started at a node with a window.  The
    values of the elder siblings of a node, and those of the children that were visited, are all
    recorded. -/
structure Threaded (t : Tree) (i : Nat) (w : Window) (o : Outcome) : Prop where
  start : ∃ r, o.record? i = some r ∧ r.window = w
  /-- A node is entered with the window of its parent, narrowed by its elder siblings. -/
  window : ∀ n r, o.record? n = some r → n ≠ i →
    ∃ p rp elder younger values, t.parent n = some p ∧ o.record? p = some rp ∧
      t.children p = elder ++ n :: younger ∧ elder.map o.value? = values.map some ∧
      r.window = rp.window.narrowAll (t.kind p) values
  /-- The children visited are the shortest prefix that closes the window, or all children. -/
  cutoff : ∀ p rp, o.record? p = some rp → t.children p ≠ [] →
    ∃ visited rest values, t.children p = visited ++ rest ∧ visited ≠ [] ∧
      (∀ c ∈ t.children p, o.isVisited c = true ↔ c ∈ visited) ∧
      visited.map o.value? = values.map some ∧
      (∀ k, 0 < k → k < visited.length →
        (rp.window.narrowAll (t.kind p) (values.take k)).isClosed = false) ∧
      (rest ≠ [] → (rp.window.narrowAll (t.kind p) values).isClosed = true)
  opened : w.alpha < w.beta → ∀ n r, o.record? n = some r → r.window.alpha < r.window.beta
  full : w = .full → ∀ c ∈ t.children i, o.isPruned c = false

variable {σ : Type} [Sink σ]

theorem value?_visitTable (hi : i < e.tree.size) (ch : Channel σ) {visits : List Visit}
    (h : ∀ u ∈ visits, u ∈ (explore e i w).all) :
    (visits.map Visit.place).map (visitTable e i w ch).value? =
      (visits.map Visit.value).map some := by
  rw [List.map_map, List.map_map]
  refine List.map_congr_left fun u hu => ?_
  show ((visitTable e i w ch).record? u.place).bind _ = some u.value
  rw [record?_of_mem_all hi ch (h u hu)]
  rfl

/-- The table of a visit is threaded. -/
theorem threaded_visitTable (hp : e.pruning = true) (hv : e.tree.LeavesValued)
    (hi : i < e.tree.size) (hw : w.Proper) (ch : Channel σ) :
    Threaded e.tree i w (visitTable e i w ch) := by
  have hplace := place_explore e i w
  have hwindow := window_explore e i w
  have hexplored := explored_explore e i w
  have hgenuine : ∀ x ∈ (explore e i w).all, Genuine e x := by
    apply Visit.forall_all
    · exact fun v h u hu => h.visit hp hv hu
    · exact ⟨hexplored, hplace.symm ▸ hi, hwindow.symm ▸ hw⟩
  constructor
  case start =>
    have hrecord := record?_of_mem_all hi ch (Visit.self_mem_all (explore e i w))
    rw [hplace] at hrecord
    exact ⟨_, hrecord, hwindow⟩
  case window =>
    intro n r hr hne
    obtain ⟨u, hu, rfl, rfl⟩ := exists_visit_of_record? hi hr
    rcases Visit.eq_or_mem_visits hu with rfl | ⟨x, hx, hux⟩
    · exact absurd hplace hne
    · obtain ⟨elder, younger, hsplit⟩ := List.append_of_mem hux
      have hparent := ((hgenuine x hx).explored.visit hux).2
      refine ⟨x.place, _, elder.map Visit.place, younger.map Visit.place ++ x.left,
        elder.map Visit.value, Tree.mem_children_iff.1 hparent, record?_of_mem_all hi ch hx, ?_, ?_,
        ((hgenuine x hx).threads hp hv).window hsplit⟩
      · rw [← (hgenuine x hx).explored.children, hsplit]
        simp
      · apply value?_visitTable hi ch
        intro y hy
        exact Visit.mem_all_of_mem_visits hx (hsplit ▸ List.mem_append_left _ hy)
  case cutoff =>
    intro p rp hrp hinternal
    obtain ⟨x, hx, rfl, rfl⟩ := exists_visit_of_record? hi hrp
    have hthreads := (hgenuine x hx).threads hp hv
    have hchildren := (hgenuine x hx).explored.children
    refine ⟨x.visits.map Visit.place, x.left, x.visits.map Visit.value, hchildren.symm, ?_, ?_, ?_,
      ?_, hthreads.closed⟩
    · rw [Ne, List.map_eq_nil_iff]
      exact (hgenuine x hx).explored.visits_ne_nil_of_internal hinternal
    · intro c hc
      rw [isVisited_visitTable hi]
      exact hexplored.mem_places_iff_of_child hx (hgenuine x hx).explored hc
    · exact value?_visitTable hi ch fun u hu => Visit.mem_all_of_mem_visits hx hu
    · intro k hpos hk
      rw [List.length_map] at hk
      exact hthreads.isClosed_take hpos hk
  case opened =>
    intro hlt n r hr
    obtain ⟨u, hu, rfl, rfl⟩ := exists_visit_of_record? hi hr
    have hall : ∀ u ∈ (explore e i w).all, Genuine e u ∧ u.window.alpha < u.window.beta := by
      apply Visit.forall_all
      · exact fun v h u hu => ⟨h.1.visit hp hv hu, h.1.window_lt hp hv h.2 hu⟩
      · exact ⟨hgenuine _ (Visit.self_mem_all _), hwindow.symm ▸ hlt⟩
    exact (hall u hu).2
  case full =>
    rintro rfl c hc
    rw [← hplace, ← hexplored.children, left_explore_full hp hv, List.append_nil] at hc
    obtain ⟨u, hu, rfl⟩ := List.mem_map.1 hc
    have hentered := Visit.place_mem_places
      (Visit.mem_all_of_mem_visits (Visit.self_mem_all _) hu)
    rw [Bool.eq_false_iff, Ne, isPruned_visitTable]
    exact (hexplored.mem_places_iff.1 hentered).2 _ (e.tree.self_mem_ancestors _)

/-- The value of the start node does not concern windows. -/
theorem Threaded.finish {t : Tree} {o : Outcome} (h : Threaded t i w o) (value : Score) :
    Threaded t i w (o.finish value) :=
  ⟨h.start, h.window, h.cutoff, h.opened, h.full⟩

/-- With cutoffs a run takes the window that it was given, if its bounds are numbers. -/
theorem window_of_prepare (hp : e.pruning = true) {v : Window} (h : e.prepare w = .ok v) :
    v = w ∧ w.Proper := by
  rw [Engine.prepare, Tree.leafValues_eq_ok_iff.2 (leavesValued_of_prepare h)] at h
  simp only [hp, Bool.not_true, Bool.false_eq_true, if_false] at h
  split at h
  · rename_i hordered
    simp only [Window.isOrdered, Bool.and_eq_true, Bool.not_eq_true'] at hordered
    exact ⟨(Except.ok.inj h).symm, hordered.1.1, hordered.1.2⟩
  · cases h

/-- Every evaluation with cutoffs that succeeds, by recursion or with a stack, leaves a table in
    which the windows are those of the parents, narrowed by the values of elder siblings, and in
    which children were left out exactly when the window was closed before them. -/
theorem evaluate_threads (e : Engine) (hp : e.pruning = true) (i : Nat) (w : Window)
    (ch : Channel σ) (o : Outcome)
    (h : (e.evaluate i w ch).1 = .ok o ∨ (e.evaluateIterative i w ch).1 = .ok o) :
    Threaded e.tree i w o := by
  rw [evaluateIterative_eq_evaluate, or_self] at h
  obtain ⟨hi, v, hprepare, rfl⟩ := exists_prepare_of_evaluate h
  obtain ⟨rfl, hw⟩ := window_of_prepare hp hprepare
  exact (threaded_visitTable hp (leavesValued_of_prepare hprepare) hi hw ch).finish _

/-- The small tree from its root, with a window that holds the value of the root. -/
theorem evaluate_threads_small :
    ∃ o, ((Engine.evaluate ⟨Tree.small, true⟩ 0 ⟨2.0, 5.0⟩
        (⟨NullSink.mk, Journal.silent⟩ : Channel NullSink)).1 = .ok o ∨
      (Engine.evaluateIterative ⟨Tree.small, true⟩ 0 ⟨2.0, 5.0⟩
        (⟨NullSink.mk, Journal.silent⟩ : Channel NullSink)).1 = .ok o) ∧
      Threaded Tree.small 0 ⟨2.0, 5.0⟩ o := by
  have hvalued : Tree.small.LeavesValued := by decide
  have hordered : (⟨2.0, 5.0⟩ : Window).isOrdered = true := by decide
  have hprepare := prepare_of_pruning (e := ⟨Tree.small, true⟩) hvalued rfl hordered
  have hok := evaluate_eq_play hvalued (by decide : 0 < Tree.small.size) hprepare
    (⟨NullSink.mk, Journal.silent⟩ : Channel NullSink)
  exact ⟨_, .inl hok, evaluate_threads ⟨Tree.small, true⟩ rfl 0 ⟨2.0, 5.0⟩ _ _ (.inl hok)⟩

end GameSearch.Minimax
