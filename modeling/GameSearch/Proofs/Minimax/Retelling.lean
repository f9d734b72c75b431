/-
  GameSearch.Proofs.Minimax.Retelling

  The events of a run can be read off the table that it leaves.  Entry, cutoff and settling
  of a node write to the table and tell the sink, each on its own; afterwards a walk over the
  table, from the start node to the children that were entered, tells the same story.

    * `Outcome.retell`        — the story as the table tells it
    * `Visit.events`          — the story of a visit
    * `sink_play`             — that is what a run tells while it plays the visit
    * `retell_of_mem_all`     — the table of a visit tells the story of the visit
    * `Nested`, `Account`     — the shape of the story, and how it goes with the table
    * `evaluate_retold`       — every evaluation tells what its table retells
-/
import GameSearch.Proofs.Minimax.Threading
import GameSearch.Proofs.Minimax.Principal
import GameSearch.Proofs.Sink.Hearing

namespace GameSearch.Minimax

-- ============================================================================
-- The story that a table tells
-- ============================================================================

namespace Outcome

/-- What is told of a node and the nodes below it: that it was entered, and with which window; what
    is told of the children that were entered, in order; which children were cut off, in order; and
    the value.  Nothing is told of a node that was not entered. -/
def retell (t : Tree) (o : Outcome) (i : Nat) : List Event :=
  match o.record? i with
  | none => []
  | some r =>
    .nodeEntered (t.id i) r.window.alpha r.window.beta ::
      ((t.children i).attach.map fun ⟨c, _⟩ =>
        if o.isVisited c then retell t o c else []).flatten ++
      ((t.children i).filter o.isPruned).map (fun c => .childPruned (t.id i) (t.id c)) ++
      r.value.toList.map (.valueComputed (t.id i))
termination_by t.size - i
decreasing_by exact Tree.size_sub_lt ‹_›

variable {t : Tree} {o : Outcome} {i : Nat}

theorem retell_of_record {r : Record} (h : o.record? i = some r) :
    o.retell t i =
      .nodeEntered (t.id i) r.window.alpha r.window.beta ::
        ((t.children i).filter o.isVisited).flatMap (o.retell t) ++
        ((t.children i).filter o.isPruned).map (fun c => .childPruned (t.id i) (t.id c)) ++
        r.value.toList.map (.valueComputed (t.id i)) := by
  have hchildren : ((t.children i).attach.map fun x : { c // c ∈ t.children i } =>
        if o.isVisited x.1 then retell t o x.1 else []).flatten =
      ((t.children i).filter o.isVisited).flatMap (o.retell t) := by
    rw [List.attach_map_val (f := fun c => if o.isVisited c then retell t o c else [])]
    generalize t.children i = children
    induction children with
    | nil => rfl
    | cons c children ih =>
      rw [List.map_cons, List.flatten_cons, ih, List.filter_cons]
      split
      · rw [List.flatMap_cons]
      · rfl
  rw [retell, h]
  dsimp only
  rw [hchildren]

end Outcome

-- ============================================================================
-- The story of a visit
-- ============================================================================

namespace Visit

/-- The events of a visit. -/
def events (t : Tree) (v : Visit) : List Event :=
  .nodeEntered (t.id v.place) v.window.alpha v.window.beta ::
    (v.visits.attach.map fun ⟨u, _⟩ => events t u).flatten ++
    v.left.map (fun c => .childPruned (t.id v.place) (t.id c)) ++
    [.valueComputed (t.id v.place) v.value]
termination_by sizeOf v
decreasing_by
  obtain ⟨window, frame, visits, cut⟩ := v
  have hlt : sizeOf u < sizeOf visits := List.sizeOf_lt_of_mem ‹_›
  simp only [mk.sizeOf_spec]
  omega

theorem events_eq (t : Tree) (v : Visit) :
    v.events t =
      .nodeEntered (t.id v.place) v.window.alpha v.window.beta ::
        v.visits.flatMap (events t) ++
        v.left.map (fun c => .childPruned (t.id v.place) (t.id c)) ++
        [.valueComputed (t.id v.place) v.value] := by
  rw [events]
  simp [List.flatMap]

end Visit

section Play

variable {σ : Type} [Sink σ]

/-- A cutoff tells of the children that it leaves out. -/
theorem Run.sink_prune (e : Engine) (f : Frame) (rest : List Nat) (r : Run σ) :
    (r.prune e f rest).channel.sink =
      Sink.hear (rest.map fun c => .childPruned (e.tree.id f.node) (e.tree.id c))
        r.channel.sink := by
  have hfold : ∀ (rest : List Nat) (r : Run σ),
      (rest.foldl (fun r c => r.cut e f.node c) r).channel.sink =
        Sink.hear (rest.map fun c => .childPruned (e.tree.id f.node) (e.tree.id c))
          r.channel.sink := by
    intro rest
    induction rest with
    | nil => exact fun r => rfl
    | cons c rest ih =>
      intro r
      rw [List.foldl_cons, ih, List.map_cons, Sink.hear_cons]
      congr 1
      exact Channel.sink_emit _ _
  exact hfold rest _

namespace Visit

/-- Several visits are told one after the other. -/
theorem sink_playAll (e : Engine) {visits : List Visit}
    (h : ∀ u ∈ visits, ∀ r : Run σ,
      (u.play e r).channel.sink = Sink.hear (u.events e.tree) r.channel.sink) (r : Run σ) :
    (playAll e visits r).channel.sink =
      Sink.hear (visits.flatMap (events e.tree)) r.channel.sink := by
  induction visits generalizing r with
  | nil =>
    rw [playAll_nil]
    rfl
  | cons u rest ih =>
    rw [playAll_cons, ih fun x hx => h x (List.mem_cons_of_mem u hx), h u List.mem_cons_self,
      List.flatMap_cons, Sink.hear_append]

/-- A run that plays a visit tells its story. -/
theorem sink_play (e : Engine) (v : Visit) (r : Run σ) :
    (v.play e r).channel.sink = Sink.hear (v.events e.tree) r.channel.sink := by
  induction v using Visit.induction generalizing r with
  | step v ih =>
    have hvisits := sink_playAll e ih (r.arrive e v.place v.window)
    have hcut : (v.settle e (r.arrive e v.place v.window)).channel.sink =
        Sink.hear (v.left.map (fun c => .childPruned (e.tree.id v.place) (e.tree.id c)) ++
            [.valueComputed (e.tree.id v.place) v.value])
          (playAll e v.visits (r.arrive e v.place v.window)).channel.sink := by
      obtain ⟨w, f, visits, cut⟩ := v
      rw [Sink.hear_append]
      cases cut with
      | none => exact Channel.sink_emit _ _
      | some rest =>
        refine (Channel.sink_emit _ _).trans ?_
        rw [Run.sink_prune]
        rfl
    have harrive : (r.arrive e v.place v.window).channel.sink =
        Sink.offer r.channel.sink
          (.nodeEntered (e.tree.id v.place) v.window.alpha v.window.beta) :=
      Channel.sink_emit _ _
    rw [play_eq_settle, hcut, hvisits, harrive, ← Sink.hear_append, ← Sink.hear_cons, events_eq,
      List.append_assoc, List.cons_append]

end Visit

end Play

-- ============================================================================
-- The table of a visit
-- ============================================================================

variable {e : Engine} {i : Nat} {w : Window}

/-- Of a list in two parts a filter takes the first part if it holds there and nowhere after. -/
theorem filter_append_eq_left {xs ys : List Nat} {p : Nat → Bool} (hxs : ∀ x ∈ xs, p x = true)
    (hys : ∀ y ∈ ys, p y = false) : (xs ++ ys).filter p = xs := by
  rw [List.filter_append, List.filter_eq_self.2 hxs, List.filter_eq_nil_iff.2 fun y hy => ?_,
    List.append_nil]
  rw [hys y hy]
  exact Bool.false_ne_true

theorem filter_append_eq_right {xs ys : List Nat} {p : Nat → Bool} (hxs : ∀ x ∈ xs, p x = false)
    (hys : ∀ y ∈ ys, p y = true) : (xs ++ ys).filter p = ys := by
  rw [List.filter_append, List.filter_eq_self.2 hys, List.filter_eq_nil_iff.2 fun x hx => ?_,
    List.nil_append]
  rw [hxs x hx]
  exact Bool.false_ne_true

/-- The table records the visit and all visits below it, and says of every node whether it was
    entered there, and whether it was cut off there. -/
structure Visit.Noted (v : Visit) (o : Outcome) : Prop where
  recorded : Recorded o v
  isVisited : ∀ n, o.isVisited n = true ↔ n ∈ v.places
  isPruned : ∀ n, o.isPruned n = true ↔ n ∈ v.pruned

/-- Of the children of a node that was entered, those visited are the ones that were entered, and
    those left out are the ones that were cut off. -/
theorem Visit.Noted.children {v u : Visit} {o : Outcome} (h : v.Noted o) (hv : Explored e v)
    (hu : u ∈ v.all) (hexplored : Explored e u) :
    (e.tree.children u.place).filter o.isVisited = u.visits.map Visit.place ∧
      (e.tree.children u.place).filter o.isPruned = u.left := by
  have hentered : ∀ c ∈ u.visits.map Visit.place, c ∈ v.places := by
    intro c hc
    obtain ⟨x, hx, rfl⟩ := List.mem_map.1 hc
    exact Visit.place_mem_places (Visit.mem_all_of_mem_visits hu hx)
  have hcut : ∀ c ∈ u.left, c ∈ v.pruned := fun c hc => Visit.mem_pruned_of_left hu hc
  have hnot : ∀ c ∈ v.places, c ∉ v.pruned := fun c hc =>
    (hv.mem_places_iff.1 hc).2 c (e.tree.self_mem_ancestors c)
  rw [← hexplored.children]
  constructor
  · apply filter_append_eq_left
    · exact fun c hc => (h.isVisited c).2 (hentered c hc)
    · intro c hc
      rw [Bool.eq_false_iff, Ne, h.isVisited]
      exact fun hmem => hnot c hmem (hcut c hc)
  · apply filter_append_eq_right
    · intro c hc
      rw [Bool.eq_false_iff, Ne, h.isPruned]
      exact hnot c (hentered c hc)
    · exact fun c hc => (h.isPruned c).2 (hcut c hc)

/-- A table in which a visit is noted tells the story of all visits below. -/
theorem retell_of_mem_all {v u : Visit} {o : Outcome} (h : v.Noted o) (hv : Explored e v)
    (hu : u ∈ v.all) : o.retell e.tree u.place = u.events e.tree := by
  induction u using Visit.induction with
  | step u ih =>
    obtain ⟨hvisits, hleft⟩ := h.children hv hu (hv.of_mem_all hu)
    have hbelow : (u.visits.map Visit.place).flatMap (o.retell e.tree) =
        u.visits.flatMap (Visit.events e.tree) := by
      rw [List.flatMap_map]
      exact List.flatMap_congr fun x hx => ih x hx (Visit.mem_all_of_mem_visits hu hx)
    rw [Outcome.retell_of_record (h.recorded u hu), hvisits, hleft, hbelow, Visit.events_eq]
    rfl

/-- The table of an evaluation notes its visit. -/
theorem noted_visitTable {σ : Type} [Sink σ] (hi : i < e.tree.size) (w : Window)
    (ch : Channel σ) : (explore e i w).Noted (visitTable e i w ch) :=
  ⟨fun _ hu => record?_of_mem_all hi ch hu, isVisited_visitTable hi w ch,
    isPruned_visitTable e i w ch⟩

/-- The value of the start node is no part of the story. -/
theorem Visit.Noted.finish {v : Visit} {o : Outcome} (h : v.Noted o) (value : Score) :
    v.Noted (o.finish value) :=
  ⟨h.recorded, h.isVisited, h.isPruned⟩

-- ============================================================================
-- The shape of the story
-- ============================================================================

/-- The node that was entered, if that is what the event tells. -/
def enteredId? : Event → Option String
  | .nodeEntered id _ _ => some id
  | _ => none

/-- The node whose value was found, if that is what the event tells. -/
def settledId? : Event → Option String
  | .valueComputed id _ => some id
  | _ => none

/-- The parent and the child between which was cut, if that is what the event tells. -/
def cutIds? : Event → Option (String × String)
  | .childPruned parent child => some (parent, child)
  | _ => none

/-- The values are found in the opposite order of entry: between the entry of a node and its value
    every node that is entered gets its value. -/
inductive Nested : List Event → Prop where
  | nil : Nested []
  | cut (parent child : String) {rest : List Event} :
    Nested rest → Nested (.childPruned parent child :: rest)
  | node (id : String) (alpha beta value : Score) {body rest : List Event} :
    Nested body → Nested rest →
      Nested (.nodeEntered id alpha beta :: body ++ .valueComputed id value :: rest)

theorem Nested.append {xs ys : List Event} (hx : Nested xs) (hy : Nested ys) :
    Nested (xs ++ ys) := by
  induction hx with
  | nil => exact hy
  | cut parent child _ ih => exact .cut parent child ih
  | node id alpha beta value hbody _ _ ih =>
    rw [List.append_assoc, List.cons_append]
    exact .node id alpha beta value hbody ih

theorem Nested.flatMap {α : Type} {f : α → List Event} {xs : List α}
    (h : ∀ x ∈ xs, Nested (f x)) : Nested (xs.flatMap f) := by
  induction xs with
  | nil => exact .nil
  | cons x xs ih =>
    rw [List.flatMap_cons]
    exact (h x List.mem_cons_self).append (ih fun y hy => h y (List.mem_cons_of_mem x hy))

theorem nested_cuts (parent : String) (name : Nat → String) (children : List Nat) :
    Nested (children.map fun c => .childPruned parent (name c)) := by
  induction children with
  | nil => exact .nil
  | cons c children ih => exact .cut parent (name c) ih

namespace Visit

variable (t : Tree) (v : Visit)

/-- The story of a visit is properly nested. -/
theorem nested_events : Nested (v.events t) := by
  induction v using Visit.induction with
  | step v ih =>
    rw [events_eq, List.cons_append, List.cons_append]
    exact .node _ _ _ _ ((Nested.flatMap ih).append (nested_cuts _ _ _)) .nil

/-- What can be told from single events is told of the node, its children and its cuts. -/
theorem filterMap_events {β : Type} (f : Event → Option β) :
    (v.events t).filterMap f =
      (f (.nodeEntered (t.id v.place) v.window.alpha v.window.beta)).toList ++
        v.visits.flatMap (fun u => (u.events t).filterMap f) ++
        v.left.filterMap (fun c => f (.childPruned (t.id v.place) (t.id c))) ++
        (f (.valueComputed (t.id v.place) v.value)).toList := by
  have hsingle : ∀ x : Event, [x].filterMap f = (f x).toList := by
    intro x
    cases h : f x <;> simp [h]
  rw [events_eq, List.filterMap_append, List.filterMap_append, ← List.singleton_append,
    List.filterMap_append, hsingle, hsingle, List.filterMap_map, List.filterMap_flatMap]
  rfl

/-- Nodes are told of in the order in which they are entered. -/
theorem entered_events : (v.events t).filterMap enteredId? = v.places.map t.id := by
  induction v using Visit.induction with
  | step v ih =>
    rw [filterMap_events, List.flatMap_congr ih, places_eq, List.map_cons, List.map_flatMap]
    simp [enteredId?]

/-- Edges are told of in the order in which they are cut. -/
theorem cut_events :
    (v.events t).filterMap cutIds? = v.edges.map fun edge => (t.id edge.1, t.id edge.2) := by
  induction v using Visit.induction with
  | step v ih =>
    rw [filterMap_events, List.flatMap_congr ih, edges_eq, List.map_append, List.map_flatMap,
      List.map_map]
    simp [cutIds?]

/-- The values told are those of the nodes entered. -/
theorem settled_events : ((v.events t).filterMap settledId?).Perm (v.places.map t.id) := by
  induction v using Visit.induction with
  | step v ih =>
    have hbelow : (v.visits.flatMap fun u => (u.events t).filterMap settledId?).Perm
        (v.visits.flatMap fun u => u.places.map t.id) :=
      List.Perm.flatMap_left _ ih
    rw [filterMap_events, places_eq, List.map_cons, List.map_flatMap]
    simpa [settledId?] using (List.perm_append_singleton _ _).trans (hbelow.cons _)

end Visit

-- ============================================================================
-- Evaluations
-- ============================================================================

/-- How the events of an evaluation go with the table that it leaves. -/
structure Account (t : Tree) (o : Outcome) (events : List Event) : Prop where
  nested : Nested events
  /-- The nodes told of on entry are those of the visit order, in that order. -/
  entered : events.filterMap enteredId? = o.visitOrder.toList.map t.id
  /-- The cuts told of are the edges that were cut, in order. -/
  cut : events.filterMap cutIds? =
    o.prunedEdges.toList.map fun edge => (t.id edge.1, t.id edge.2)
  /-- Values are told of the nodes of the visit order, in some order. -/
  settled : (events.filterMap settledId?).Perm (o.visitOrder.toList.map t.id)
  /-- A node that was entered is told of once on entry, and once when its value is found. -/
  once : ∀ n, o.isVisited n = true →
    (events.filterMap enteredId?).count (t.id n) = 1 ∧
      (events.filterMap settledId?).count (t.id n) = 1

/-- No two nodes that are entered have the same identifier. -/
theorem nodup_ids_explore (e : Engine) (hi : i < e.tree.size) (w : Window) :
    ((explore e i w).places.map e.tree.id).Nodup := by
  apply List.Nodup.map_on _ (nodup_places_explore e i w)
  have hplace : ∀ j ∈ (explore e i w).places, j < e.tree.size := fun j hj =>
    Tree.lt_size_of_mem_ancestors (mem_ancestors_of_mem_places hj) hi
  intro j hj k hk hid
  exact e.tree.wellFormed.ids_distinct j k (hplace j hj) (hplace k hk) hid

variable {σ : Type} [Sink σ]

/-- The story of a visit goes with its table. -/
theorem account_visitTable (hi : i < e.tree.size) (w : Window) (ch : Channel σ) :
    Account e.tree (visitTable e i w ch) ((explore e i w).events e.tree) := by
  have horder := visitOrder_visitTable e i w ch
  have hedges := prunedEdges_visitTable e i w ch
  have hentered := (explore e i w).entered_events e.tree
  have hsettled := (explore e i w).settled_events e.tree
  constructor
  case nested => exact (explore e i w).nested_events e.tree
  case entered => rw [horder, hentered]
  case cut => rw [hedges, Visit.cut_events]
  case settled =>
    rw [horder]
    exact hsettled
  case once =>
    intro n hn
    have hmem : e.tree.id n ∈ (explore e i w).places.map e.tree.id :=
      List.mem_map_of_mem ((isVisited_visitTable hi w ch n).1 hn)
    have hcount := List.count_eq_one_of_mem (nodup_ids_explore e hi w) hmem
    rw [hsettled.count_eq, hentered]
    exact ⟨hcount, hcount⟩

/-- The value of the start node is no part of the account. -/
theorem Account.finish {t : Tree} {o : Outcome} {events : List Event} (h : Account t o events)
    (value : Score) : Account t (o.finish value) events :=
  ⟨h.nested, h.entered, h.cut, h.settled, h.once⟩

/-- An evaluation tells the story of the visit to its start node. -/
theorem sink_evaluate (hv : e.tree.LeavesValued) (hi : i < e.tree.size) {v : Window}
    (hw : e.prepare w = .ok v) (ch : Channel σ) :
    (e.evaluate i w ch).2.sink = Sink.hear ((explore e i v).events e.tree) ch.sink := by
  have hsearch := search_eq_play hv i hi v (e.fresh i ch)
  rw [Engine.fresh] at hsearch
  rw [Engine.evaluate, Engine.evaluateBy, hw]
  dsimp only
  rw [hsearch]
  exact Visit.sink_play e _ _

/-- The events of every evaluation that succeeds, by recursion or with a stack, with or without
    cutoffs, are those that its table retells from the start node on.  The table has a record of the
    start node, with the value of the evaluation, and no record in it is without a value, so there
    is a whole story to tell.  A sink that is always enabled takes it in event by event, and a log
    that was empty holds it. -/
theorem evaluate_retold (e : Engine) (i : Nat) (w : Window) (ch : Channel σ)
    (henabled : ∀ s : σ, Sink.enabled s = true) (o : Outcome)
    (h : (e.evaluate i w ch).1 = .ok o ∨ (e.evaluateIterative i w ch).1 = .ok o) :
    (∃ r, o.record? i = some r ∧ r.value = some o.value) ∧
      (∀ n r, o.record? n = some r → ∃ value, r.value = some value) ∧
      (e.evaluate i w ch).2.sink = Sink.takeAll (o.retell e.tree i) ch.sink ∧
      (e.evaluateIterative i w ch).2.sink = Sink.takeAll (o.retell e.tree i) ch.sink ∧
      (e.evaluate i w .recording).2.sink.events.toList = o.retell e.tree i ∧
      Account e.tree o (o.retell e.tree i) := by
  rw [evaluateIterative_eq_evaluate, or_self] at h
  obtain ⟨hi, v, hprepare, rfl⟩ := exists_prepare_of_evaluate h
  have hvalued := leavesValued_of_prepare hprepare
  have hnoted := (noted_visitTable hi v ch).finish (explore e i v).value
  have hretold := retell_of_mem_all hnoted (explored_explore e i v) (Visit.self_mem_all _)
  have hsink := sink_evaluate hvalued hi hprepare ch
  have hlog := sink_evaluate hvalued hi hprepare .recording
  have hstart := record?_of_mem_all hi ch (Visit.self_mem_all (explore e i v))
  have hvalue : ∀ n r, (visitTable e i v ch).record? n = some r → ∃ value, r.value = some value := by
    intro n r hr
    obtain ⟨u, -, -, rfl⟩ := exists_visit_of_record? hi hr
    exact ⟨u.value, rfl⟩
  rw [place_explore, visitTable] at hretold
  rw [place_explore] at hstart
  rw [Sink.hear_of_enabled henabled] at hsink
  rw [Sink.hear_of_enabled fun _ => rfl] at hlog
  rw [evaluateIterative_eq_evaluate, hretold]
  refine ⟨⟨_, hstart, rfl⟩, hvalue, hsink, hsink, ?_, (account_visitTable hi v ch).finish _⟩
  rw [hlog, Sink.toList_takeAll_eventLog]
  rfl

/-- A log that listens to the small tree, with a window that holds the value of the root. -/
theorem evaluate_retold_small :
    ∃ o, (∀ s : EventLog, Sink.enabled s = true) ∧
      ((Engine.evaluate ⟨Tree.small, true⟩ 0 ⟨2.0, 5.0⟩ .recording).1 = .ok o ∨
        (Engine.evaluateIterative ⟨Tree.small, true⟩ 0 ⟨2.0, 5.0⟩ .recording).1 = .ok o) ∧
      (∃ r, o.record? 0 = some r ∧ r.value = some o.value) ∧
      (∀ n r, o.record? n = some r → ∃ value, r.value = some value) ∧
      (Engine.evaluate ⟨Tree.small, true⟩ 0 ⟨2.0, 5.0⟩ .recording).2.sink =
        Sink.takeAll (o.retell Tree.small 0) ({} : EventLog) ∧
      (Engine.evaluateIterative ⟨Tree.small, true⟩ 0 ⟨2.0, 5.0⟩ .recording).2.sink =
        Sink.takeAll (o.retell Tree.small 0) ({} : EventLog) ∧
      (Engine.evaluate ⟨Tree.small, true⟩ 0 ⟨2.0, 5.0⟩ .recording).2.sink.events.toList =
        o.retell Tree.small 0 ∧
      Account Tree.small o (o.retell Tree.small 0) := by
  have hvalued : Tree.small.LeavesValued := by decide
  have hordered : (⟨2.0, 5.0⟩ : Window).isOrdered = true := by decide
  have hprepare := prepare_of_pruning (e := ⟨Tree.small, true⟩) hvalued rfl hordered
  have hok := evaluate_eq_play hvalued (by decide : 0 < Tree.small.size) hprepare .recording
  have henabled : ∀ s : EventLog, Sink.enabled s = true := fun _ => rfl
  exact ⟨_, henabled, .inl hok,
    evaluate_retold ⟨Tree.small, true⟩ 0 ⟨2.0, 5.0⟩ .recording henabled _ (.inl hok)⟩

end GameSearch.Minimax
