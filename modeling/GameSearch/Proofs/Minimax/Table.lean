/-
  GameSearch.Proofs.Minimax.Table

  What a run finds in its table afterwards.  A visit writes the records of the nodes that
  it enters, each of them once, and no others.

    * `record?_enter`, `record?_resolve` — one step on the table
    * `Visit.all`, `Visit.places`        — a visit with all visits below it, the nodes entered
    * `record?_play_of_not_mem`          — a visit leaves other nodes alone
    * `nodup_places_explore`             — no node is entered twice
    * `record?_play`                     — the record of every node that is entered
-/
import Mathlib.Data.List.Nodup
import GameSearch.Proofs.Minimax.Visit
import GameSearch.Proofs.Tree.Ancestry

namespace GameSearch.Minimax

-- ============================================================================
-- Steps on the table
-- ============================================================================

namespace Outcome

variable (o : Outcome) (i j : Nat)

theorem record?_enter (w : Window) :
    (o.enter i w).record? j =
      if i = j ∧ i < o.records.size then some ⟨w, none, none⟩ else o.record? j := by
  unfold record? enter
  dsimp only
  rw [Array.getElem?_setIfInBounds]
  by_cases hij : i = j
  · subst hij
    by_cases hi : i < o.records.size
    · simp [hi]
    · simp [hi]
  · simp [hij]

theorem record?_resolve (value : Score) (best : Option Nat) :
    (o.resolve i value best).record? j =
      if i = j then (o.record? j).map fun r => { r with value := some value, best := best }
      else o.record? j := by
  unfold record? resolve
  dsimp only
  rw [Array.getElem?_modify]
  by_cases hij : i = j
  · subst hij
    rw [if_pos rfl, if_pos rfl]
    cases o.records[i]? <;> rfl
  · rw [if_neg hij, if_neg hij]

theorem size_enter (w : Window) : (o.enter i w).records.size = o.records.size :=
  Array.size_setIfInBounds

theorem size_resolve (value : Score) (best : Option Nat) :
    (o.resolve i value best).records.size = o.records.size :=
  Array.size_modify

end Outcome

namespace Run

variable {σ : Type} [Sink σ]

/-- Cutting edges touches neither records nor the start of a run. -/
theorem records_prune (e : Engine) (f : Frame) (rest : List Nat) (r : Run σ) :
    (r.prune e f rest).outcome.records = r.outcome.records ∧
      (r.prune e f rest).outcome.start = r.outcome.start := by
  have hfold : ∀ (rest : List Nat) (r : Run σ),
      (rest.foldl (fun r c => r.cut e f.node c) r).outcome.records = r.outcome.records ∧
      (rest.foldl (fun r c => r.cut e f.node c) r).outcome.start = r.outcome.start := by
    intro rest
    induction rest with
    | nil => exact fun r => ⟨rfl, rfl⟩
    | cons c rest ih => exact fun r => ih (r.cut e f.node c)
  exact hfold rest _

end Run

-- ============================================================================
-- Visits below a visit
-- ============================================================================

namespace Visit

/-- A visit and all visits below it, in the order in which nodes are entered. -/
def all (v : Visit) : List Visit := v :: (v.visits.attach.map fun ⟨u, _⟩ => all u).flatten
termination_by sizeOf v
decreasing_by
  obtain ⟨window, frame, visits, cut⟩ := v
  have hlt : sizeOf u < sizeOf visits := List.sizeOf_lt_of_mem ‹_›
  simp only [mk.sizeOf_spec]
  omega

theorem all_eq (v : Visit) : v.all = v :: v.visits.flatMap all := by
  rw [all]
  simp [List.flatMap]

theorem mem_all_iff {u v : Visit} : u ∈ v.all ↔ u = v ∨ ∃ x ∈ v.visits, u ∈ x.all := by
  rw [all_eq, List.mem_cons, List.mem_flatMap]

theorem self_mem_all (v : Visit) : v ∈ v.all := mem_all_iff.2 (.inl rfl)

/-- What passes from a visit to the visits to children holds of all visits below it. -/
theorem forall_all {v : Visit} {P : Visit → Prop}
    (step : ∀ v, P v → ∀ u ∈ v.visits, P u) (h : P v) : ∀ u ∈ v.all, P u := by
  induction v using Visit.induction with
  | step v ih =>
    intro u hu
    rcases mem_all_iff.1 hu with rfl | ⟨x, hx, hux⟩
    · exact h
    · exact ih x hx (step v h x hx) u hux

theorem mem_all_of_mem_visits {u v x : Visit} (hx : x ∈ v.all) (hu : u ∈ x.visits) :
    u ∈ v.all := by
  induction v using Visit.induction with
  | step v ih =>
    rcases mem_all_iff.1 hx with rfl | ⟨y, hy, hxy⟩
    · exact mem_all_iff.2 (.inr ⟨u, hu, self_mem_all u⟩)
    · exact mem_all_iff.2 (.inr ⟨y, hy, ih y hy hxy⟩)

theorem mem_all_trans {u v x : Visit} (hx : x ∈ u.all) (hu : u ∈ v.all) : x ∈ v.all :=
  forall_all (P := (· ∈ v.all)) (fun _ hy _ hz => mem_all_of_mem_visits hy hz) hu x hx

/-- The nodes that a visit enters, in order. -/
def places (v : Visit) : List Nat := v.all.map place

theorem places_eq (v : Visit) : v.places = v.place :: v.visits.flatMap places := by
  rw [places, all_eq, List.map_cons, List.map_flatMap]
  rfl

theorem mem_places_iff {v : Visit} {j : Nat} :
    j ∈ v.places ↔ j = v.place ∨ ∃ x ∈ v.visits, j ∈ x.places := by
  rw [places_eq, List.mem_cons, List.mem_flatMap]

theorem place_mem_places {u v : Visit} (h : u ∈ v.all) : u.place ∈ v.places :=
  List.mem_map_of_mem h

-- ============================================================================
-- What a visit writes
-- ============================================================================

section Play

variable {σ : Type} [Sink σ] {e : Engine}

/-- After the children only the record of the node itself changes. -/
theorem record?_settle (v : Visit) (r : Run σ) (j : Nat) :
    (v.settle e r).outcome.record? j =
      if v.place = j then
        ((playAll e v.visits r).outcome.record? j).map fun x =>
          { x with value := some v.value, best := v.best }
      else (playAll e v.visits r).outcome.record? j := by
  obtain ⟨w, f, visits, cut⟩ := v
  cases cut with
  | none =>
    show (Outcome.resolve _ _ _ _).record? j = _
    rw [Outcome.record?_resolve]
  | some rest =>
    have hprune := (Run.records_prune e f rest (playAll e visits r)).1
    have hsame : ∀ k, ((playAll e visits r).prune e f rest).outcome.record? k =
        (playAll e visits r).outcome.record? k := by
      intro k
      rw [Outcome.record?, Outcome.record?, hprune]
    show (Outcome.resolve _ _ _ _).record? j = _
    rw [Outcome.record?_resolve, hsame]

/-- The parts of the table that no visit changes. -/
def SameShape (r r' : Run σ) : Prop :=
  r'.outcome.records.size = r.outcome.records.size ∧ r'.outcome.start = r.outcome.start

theorem sameShape_settle {v : Visit} {r : Run σ} (h : SameShape r (playAll e v.visits r)) :
    SameShape r (v.settle e r) := by
  obtain ⟨w, f, visits, cut⟩ := v
  obtain ⟨hsize, hstart⟩ := h
  cases cut with
  | none => exact ⟨(Outcome.size_resolve _ _ _ _).trans hsize, hstart⟩
  | some rest =>
    obtain ⟨hrecords, hkept⟩ := Run.records_prune e f rest (playAll e visits r)
    refine ⟨?_, hkept.trans hstart⟩
    show (Outcome.resolve _ _ _ _).records.size = _
    rw [Outcome.size_resolve, hrecords]
    exact hsize

/-- What every one of several visits does, all of them do, if it can be chained. -/
theorem playAll_chain {R : Run σ → Run σ → Prop} (hrefl : ∀ r, R r r)
    (htrans : ∀ r r' r'', R r r' → R r' r'' → R r r'') {visits : List Visit}
    (h : ∀ u ∈ visits, ∀ r, R r (u.play e r)) (r : Run σ) : R r (playAll e visits r) := by
  induction visits generalizing r with
  | nil =>
    rw [playAll_nil]
    exact hrefl r
  | cons v rest ih =>
    rw [playAll_cons]
    exact htrans _ _ _ (h v List.mem_cons_self r)
      (ih (fun u hu => h u (List.mem_cons_of_mem v hu)) _)

theorem sameShape_play (v : Visit) (r : Run σ) : SameShape r (v.play e r) := by
  induction v using Visit.induction generalizing r with
  | step v ih =>
    rw [play_eq_settle]
    have hall := playAll_chain (e := e) (R := @SameShape σ) (fun _ => ⟨rfl, rfl⟩)
      (fun _ _ _ h h' => ⟨h'.1.trans h.1, h'.2.trans h.2⟩) ih (r.arrive e v.place v.window)
    obtain ⟨hsize, hstart⟩ := sameShape_settle hall
    exact ⟨hsize.trans (Outcome.size_enter _ _ _), hstart⟩

/-- A visit leaves the records of nodes alone that it does not enter. -/
theorem record?_play_of_not_mem {v : Visit} {j : Nat} (hj : j ∉ v.places) (r : Run σ) :
    (v.play e r).outcome.record? j = r.outcome.record? j := by
  induction v using Visit.induction generalizing r with
  | step v ih =>
    have hplace : v.place ≠ j := fun h => hj (mem_places_iff.2 (.inl h.symm))
    have hbelow : ∀ u ∈ v.visits, j ∉ u.places := fun u hu h =>
      hj (mem_places_iff.2 (.inr ⟨u, hu, h⟩))
    have hall := playAll_chain (e := e)
      (R := fun r r' : Run σ => r'.outcome.record? j = r.outcome.record? j) (fun r => rfl)
      (fun r r' r'' h h' => h'.trans h) (fun u hu r => ih u hu (hbelow u hu) r)
      (r.arrive e v.place v.window)
    rw [play_eq_settle, record?_settle, if_neg hplace, hall]
    show (Outcome.enter _ _ _).record? j = _
    rw [Outcome.record?_enter, if_neg fun h => hplace h.1]

/-- Several visits leave the records of nodes alone that none of them enters. -/
theorem record?_playAll_of_not_mem {visits : List Visit} {j : Nat}
    (hj : j ∉ visits.flatMap places) (r : Run σ) :
    (playAll e visits r).outcome.record? j = r.outcome.record? j :=
  playAll_chain (R := fun r r' : Run σ => r'.outcome.record? j = r.outcome.record? j)
    (fun _ => rfl) (fun _ _ _ h h' => h'.trans h)
    (fun u hu r => record?_play_of_not_mem (fun h => hj (List.mem_flatMap.2 ⟨u, hu, h⟩)) r) r

/-- What a visit leaves in the table is still there after its younger siblings. -/
theorem record?_playAll {visits : List Visit} (hnodup : (visits.flatMap places).Nodup)
    {u x : Visit} (hx : x ∈ visits) (hu : u ∈ x.all) {rec : Record}
    (hplay : ∀ r : Run σ, u.place < r.outcome.records.size →
      (x.play e r).outcome.record? u.place = some rec)
    (r : Run σ) (hsize : u.place < r.outcome.records.size) :
    (playAll e visits r).outcome.record? u.place = some rec := by
  induction visits generalizing r with
  | nil => cases hx
  | cons v rest ih =>
    rw [List.flatMap_cons, List.nodup_append] at hnodup
    obtain ⟨-, hrest, hdisjoint⟩ := hnodup
    rw [playAll_cons]
    rcases List.mem_cons.1 hx with rfl | hx
    · have hout : u.place ∉ rest.flatMap places := fun h =>
        hdisjoint _ (place_mem_places hu) _ h rfl
      rw [record?_playAll_of_not_mem hout]
      exact hplay r hsize
    · exact ih hrest hx _ ((sameShape_play v r).1 ▸ hsize)

/-- A visit that enters no node twice leaves a record of every visit below it. -/
theorem record?_play {v : Visit} (hv : v.places.Nodup) {u : Visit} (hu : u ∈ v.all) (r : Run σ)
    (hsize : u.place < r.outcome.records.size) :
    (v.play e r).outcome.record? u.place = some ⟨u.window, some u.value, u.best⟩ := by
  induction v using Visit.induction generalizing r with
  | step v ih =>
    rw [places_eq, List.nodup_cons] at hv
    obtain ⟨hself, hbelow⟩ := hv
    have harrived : u.place < (r.arrive e v.place v.window).outcome.records.size := by
      show _ < (Outcome.enter _ _ _).records.size
      rw [Outcome.size_enter]
      exact hsize
    rw [play_eq_settle, record?_settle]
    rcases mem_all_iff.1 hu with rfl | ⟨x, hx, hux⟩
    · -- the node itself: no visit below it changes what was noted on arrival
      rw [if_pos rfl, record?_playAll_of_not_mem hself]
      show ((Outcome.enter _ _ _).record? _).map _ = _
      rw [Outcome.record?_enter, if_pos ⟨rfl, hsize⟩]
      rfl
    · have hmem : u.place ∈ v.visits.flatMap places :=
        List.mem_flatMap.2 ⟨x, hx, place_mem_places hux⟩
      have hne : v.place ≠ u.place := by
        intro h
        rw [h] at hself
        exact hself hmem
      have hxnodup : x.places.Nodup := (List.nodup_flatMap.1 hbelow).1 x hx
      rw [if_neg hne]
      exact record?_playAll hbelow hx hux (fun r hr => ih x hx hxnodup hux r hr) _ harrived

end Play

end Visit

-- ============================================================================
-- The nodes that an exploration enters
-- ============================================================================

variable {e : Engine} {i : Nat} {w : Window} {f : Frame} {rest : List Nat}

/-- The visits to children are explorations of their own. -/
theorem visits_sweep : ∀ u ∈ (sweep e w rest f).visits, u = explore e u.place u.window := by
  have hfirst : ∀ c u' u, u = explore e c u' → u = explore e u.place u.window := by
    rintro c u' u rfl
    rw [place_explore, window_explore]
  induction rest, f using sweepInduction e with
  | nil f =>
    rw [sweep_nil]
    intro u hu
    cases hu
  | cutoff c rest f hcut =>
    rw [sweep_cons_of_cutoff hcut]
    exact fun u hu => hfirst c f.window u (List.mem_singleton.1 hu)
  | next c rest f hcut ih =>
    rw [sweep_cons hcut]
    intro u hu
    rcases List.mem_cons.1 hu with hu | hu
    · exact hfirst c f.window u hu
    · exact ih u hu

/-- The children visited and those left out by a cutoff are all children, in order. -/
theorem places_sweep (rest : List Nat) (f : Frame) :
    (sweep e w rest f).visits.map Visit.place ++ (sweep e w rest f).cut.getD [] = rest := by
  induction rest, f using sweepInduction e with
  | nil f =>
    rw [sweep_nil]
    rfl
  | cutoff c rest f hcut =>
    rw [sweep_cons_of_cutoff hcut]
    simp [place_explore]
  | next c rest f hcut ih =>
    rw [sweep_cons hcut]
    show (explore e c f.window).place :: _ ++ _ = _
    rw [place_explore, List.cons_append]
    exact congrArg (c :: ·) ih

/-- An exploration visits children of its node, none of them twice. -/
theorem visits_explore (e : Engine) (i : Nat) (w : Window) :
    (∀ u ∈ (explore e i w).visits, u = explore e u.place u.window ∧
      u.place ∈ e.tree.children i) ∧
    ((explore e i w).visits.map Visit.place).Nodup := by
  by_cases hleaf : e.tree.children i = []
  · rw [explore_of_leaf hleaf]
    exact ⟨fun u hu => (by cases hu), List.nodup_nil⟩
  · rw [explore_of_internal hleaf]
    have hplaces := places_sweep (e := e) (w := w) (e.tree.children i)
      (Frame.start i (e.tree.kind i) w)
    refine ⟨fun u hu => ⟨visits_sweep u hu, ?_⟩, ?_⟩
    · rw [← hplaces]
      exact List.mem_append_left _ (List.mem_map_of_mem hu)
    · have hnodup := Tree.nodup_children e.tree i
      rw [← hplaces, List.nodup_append] at hnodup
      exact hnodup.1

/-- All nodes entered lie at or below the node of an exploration. -/
theorem mem_ancestors_of_mem_places {j : Nat} (hj : j ∈ (explore e i w).places) :
    i ∈ e.tree.ancestors j := by
  induction i using Tree.childInduction (t := e.tree) generalizing w with
  | step i ih =>
    rcases Visit.mem_places_iff.1 hj with rfl | ⟨u, hu, hju⟩
    · rw [place_explore]
      exact Tree.self_mem_ancestors e.tree i
    · obtain ⟨hexplored, hchild⟩ := (visits_explore e i w).1 u hu
      rw [hexplored] at hju
      exact Tree.mem_ancestors_trans (Tree.mem_ancestors_of_mem_children hchild)
        (ih u.place hchild hju)

/-- They stand in the tree if that node does. -/
theorem place_lt_of_mem_all {u : Visit} (hi : i < e.tree.size) (hu : u ∈ (explore e i w).all) :
    u.place < e.tree.size :=
  Tree.lt_size_of_mem_ancestors (mem_ancestors_of_mem_places (Visit.place_mem_places hu)) hi

/-- No node is entered twice. -/
theorem nodup_places_explore (e : Engine) (i : Nat) (w : Window) :
    (explore e i w).places.Nodup := by
  induction i using Tree.childInduction (t := e.tree) generalizing w with
  | step i ih =>
    obtain ⟨hvisits, hnodup⟩ := visits_explore e i w
    have hbelow : ∀ u ∈ (explore e i w).visits, ∀ j ∈ u.places, u.place ∈ e.tree.ancestors j := by
      intro u hu j hj
      rw [(hvisits u hu).1] at hj
      exact mem_ancestors_of_mem_places hj
    rw [Visit.places_eq, List.nodup_cons, place_explore]
    refine ⟨?_, List.nodup_flatMap.2 ⟨?_, ?_⟩⟩
    · -- a node does not lie below one of its children
      intro hmem
      obtain ⟨u, hu, hiu⟩ := List.mem_flatMap.1 hmem
      exact Tree.not_mem_ancestors_of_mem_children (hvisits u hu).2 (hbelow u hu i hiu)
    · intro u hu
      rw [(hvisits u hu).1]
      exact ih u.place (hvisits u hu).2 u.window
    · -- nor below two of them
      have hpairs : (explore e i w).visits.Pairwise fun u u' => u.place ≠ u'.place :=
        List.pairwise_map.1 hnodup
      refine hpairs.imp_of_mem ?_
      intro u u' hu hu' hne j hj hj'
      exact hne (Tree.eq_of_mem_ancestors (Tree.mem_children_iff.1 (hvisits u hu).2)
        (Tree.mem_children_iff.1 (hvisits u' hu').2) (hbelow u hu j hj) (hbelow u' hu' j hj'))

end GameSearch.Minimax
