/-
  GameSearch.Proofs.Mcts.Chronicle

  The events of a run are a complete account of it.  They come in blocks, one for each
  iteration, and each block tells where selection went and with which scores, whether a child
  was expanded, which leaf was reached, and the counters of every node that was counted.  So
  the counters at the end can be read off the events: those last told of a node are its own.

    * `Descent`             — the moves of a selection
    * `Block`, `Chronicle`  — what is told of one iteration, and of several in a row
    * `block_iterate`       — an iteration tells a block
    * `chronicle_after`     — the iterations of a run tell a chronicle
    * `Chronicle.replay`    — the counters last told of a node
    * `run_chronicled`      — what a run tells
-/
import GameSearch.Proofs.Mcts.Recommendation

namespace GameSearch.Mcts

-- ============================================================================
-- What is told of iterations
-- ============================================================================

/-- The events tell of moves from a node down to another one, each to a child and with the score of
    that child. -/
inductive Descent (t : Tree) (score : Nat → Score) : Nat → Nat → List Event → Prop where
  | stay (i : Nat) : Descent t score i i []
  | move {i c j : Nat} {x : Score} {rest : List Event} :
    c ∈ t.children i → (score c == x) = true → Descent t score c j rest →
      Descent t score i j (.selectionStep (t.id i) (t.id c) x :: rest)

/-- The event of an expansion, if there was one. -/
def expansionEvents (t : Tree) (p : Playout) : List Event :=
  if p.expanded = p.selected then [] else [.expansionChosen (t.id p.selected) (t.id p.expanded)]

/-- The events of a backpropagation, from a node up to the root, with the counters of a table. -/
def lineEvents (t : Tree) (tally : Tally) (i : Nat) : List Event :=
  (t.ancestors i).map fun n => .backpropagationStep (t.id n) (tally.visits n) (tally.wins n)

section Grammar

variable [Logarithm]

/-- What is told of one iteration, and what it did to the counters. -/
structure Block (e : Engine) (number : Nat) (before : Tally) (p : Playout) (after : Tally)
    (events : List Event) : Prop where
  told : ∃ steps, Descent e.tree (ucb1 e.tree before e.weight) e.tree.root p.selected steps ∧
    events = .iterationStarted number :: (steps ++ expansionEvents e.tree p ++
      .simulationResult (e.tree.id p.leaf) p.result :: lineEvents e.tree after p.expanded)
  /-- The play begins at the selected node or at a child of it without visits. -/
  expanded : p.expanded = p.selected ∨
    p.expanded ∈ e.tree.children p.selected ∧ before.visits p.expanded = 0
  /-- It ends at a leaf. -/
  leaf : e.tree.children p.leaf = [] ∧ p.expanded ∈ e.tree.ancestors p.leaf
  /-- The result is the value of the leaf, or zero or one if it has none. -/
  result : (e.tree.node p.leaf).value = some p.result ∨
    (e.tree.node p.leaf).value = none ∧ (p.result = 0 ∨ p.result = 1)
  size : p.expanded < e.tree.size
  visits : ∀ n, after.visits n =
    before.visits n + if n ∈ e.tree.ancestors p.expanded then 1 else 0
  wins : ∀ n, after.wins n =
    before.wins n + if n ∈ e.tree.ancestors p.expanded ∧ isWin p.result = true then 1 else 0

/-- What is told of so many iterations from zero counters, with the counters to which they lead. -/
inductive Chronicle (e : Engine) : Nat → Tally → List Event → Prop where
  | start {tally : Tally} :
    (∀ n, tally.visits n = 0 ∧ tally.wins n = 0) → Chronicle e 0 tally []
  | iteration {k : Nat} {before after : Tally} {p : Playout} {events block : List Event} :
    Chronicle e k before events → Block e (k + 1) before p after block →
      Chronicle e (k + 1) after (events ++ block)

theorem Block.congr {e : Engine} {number : Nat} {before after after' : Tally} {p : Playout}
    {events : List Event} (h : Block e number before p after events)
    (hcounts : Tally.SameCounts after after') : Block e number before p after' events where
  told := by
    have hline : lineEvents e.tree after' p.expanded = lineEvents e.tree after p.expanded := by
      simp only [lineEvents, hcounts.visits, hcounts.wins]
    rw [hline]
    exact h.told
  expanded := h.expanded
  leaf := h.leaf
  result := h.result
  size := h.size
  visits := by
    simp only [hcounts.visits]
    exact h.visits
  wins := by
    simp only [hcounts.wins]
    exact h.wins

/-- The scores that are kept in the table play no part. -/
theorem Chronicle.congr {e : Engine} {k : Nat} {tally tally' : Tally} {events : List Event}
    (h : Chronicle e k tally events) (hcounts : Tally.SameCounts tally tally') :
    Chronicle e k tally' events := by
  cases h with
  | start hzero =>
    refine .start fun n => ?_
    rw [hcounts.visits, hcounts.wins]
    exact hzero n
  | iteration hevents hblock => exact .iteration hevents (hblock.congr hcounts)

end Grammar

-- ============================================================================
-- The steps of an iteration
-- ============================================================================

variable {γ σ : Type} [RandomSource γ] [Sink σ]

/-- From the first session to the second one, the sink was offered the events. -/
def Session.Tells (s s' : Session γ σ) (events : List Event) : Prop :=
  s'.channel.sink = Sink.hear events s.channel.sink

omit [RandomSource γ] in
theorem Session.Tells.trans {s s' s'' : Session γ σ} {xs ys : List Event} (h : s.Tells s' xs)
    (h' : s'.Tells s'' ys) : s.Tells s'' (xs ++ ys) := by
  unfold Session.Tells at h h' ⊢
  rw [h', h, Sink.hear_append]

omit [RandomSource γ] in
theorem Session.tells_emit (x : Event) (s : Session γ σ) : s.Tells (s.emit x) [x] :=
  Channel.sink_emit s.channel x

section Select

variable [Logarithm]

/-- A selection tells its moves, with the scores of the counters at its beginning. -/
theorem tells_select (t : Tree) (weight : Score) (i : Nat) (s : Session γ σ) :
    ∃ steps, Descent t (ucb1 t s.tally weight) i (select t weight i s).1 steps ∧
      s.Tells (select t weight i s).2 steps := by
  fun_induction select t weight i s with
  | case1 i s h => exact ⟨[], .stay i, rfl⟩
  | case2 i s h s' hbest =>
    obtain rfl : s' = (bestChild t weight i s).2 := by rw [hbest]
    exact ⟨[], .stay i, rfl⟩
  | case3 i s h c score s' hbest message ih =>
    obtain rfl : s' = (bestChild t weight i s).2 := by rw [hbest]
    have hscores : ucb1 t (bestChild t weight i s).2.tally weight = ucb1 t s.tally weight :=
      funext ((sameCounts_bestChild t weight i s).tally.ucb1_eq t weight)
    -- the child that was drawn leads, and the score told is the greatest one
    have hdrawn := (bestChild_fst t weight i s).symm.trans (congrArg Prod.fst hbest)
    obtain ⟨d, hd, hpair⟩ := Option.map_eq_some_iff.1 hdrawn
    cases hpair
    have hleads := RandomSource.mem_of_choose hd
    obtain ⟨steps, hdescent, htold⟩ := ih
    have hdescent' : Descent t (ucb1 t s.tally weight) c _ steps := hscores ▸ hdescent
    have hmoved : s.Tells
        (Session.emit (.selectionStep (t.id i) (t.id c) (peak (childScores t s.tally weight i)))
          (Session.log message (bestChild t weight i s).2))
        [.selectionStep (t.id i) (t.id c) (peak (childScores t s.tally weight i))] :=
      Channel.sink_emit _ _
    exact ⟨_, .move (mem_children_of_leaders hleads) (beq_peak_of_mem_leaders hleads) hdescent',
      hmoved.trans htold⟩

end Select

namespace Engine

variable {e : Engine}

/-- An expansion tells to which child it moves, if it moves. -/
theorem tells_expand (e : Engine) (i : Nat) (s : Session γ σ) :
    s.Tells (e.expand i s).2 (if (e.expand i s).1 = i then [] else
      [.expansionChosen (e.tree.id i) (e.tree.id (e.expand i s).1)]) := by
  unfold expand
  split
  · rename_i c s' h
    obtain rfl : s' = (s.choose _).2 := (congrArg Prod.snd h).symm
    have hc := RandomSource.mem_of_choose (g := s.source) (congrArg Prod.fst h)
    have hne : c ≠ i := Nat.ne_of_gt (Tree.lt_of_mem_children (List.mem_filter.1 hc).1)
    dsimp only
    rw [if_neg hne]
    exact Session.tells_emit _ _
  · rename_i s' h
    obtain rfl : s' = (s.choose _).2 := (congrArg Prod.snd h).symm
    dsimp only
    rw [if_pos rfl]
    rfl

omit [Sink σ] in
/-- A random walk ends at a leaf below the node, and tells nothing. -/
theorem descend_spec (e : Engine) (i : Nat) (s : Session γ σ) :
    e.tree.children (e.descend i s).1 = [] ∧ i ∈ e.tree.ancestors (e.descend i s).1 ∧
      (e.descend i s).2.channel = s.channel := by
  fun_induction descend e i s with
  | case1 i s c s' h ih =>
    obtain rfl : s' = (s.choose (e.tree.children i)).2 := by rw [h]
    obtain ⟨hleaf, hbelow, hchannel⟩ := ih
    have hc : c ∈ e.tree.children i :=
      RandomSource.mem_of_choose (g := s.source) (congrArg Prod.fst h)
    exact ⟨hleaf, Tree.mem_ancestors_trans (Tree.mem_ancestors_of_mem_children hc) hbelow, hchannel⟩
  | case2 i s s' h =>
    obtain rfl : s' = (s.choose (e.tree.children i)).2 := by rw [h]
    refine ⟨?_, e.tree.self_mem_ancestors i, rfl⟩
    by_contra hne
    exact RandomSource.choose_ne_none (g := s.source) hne (congrArg Prod.fst h)

omit [Sink σ] in
/-- A result is the value of the leaf, or drawn, and nothing is told yet. -/
theorem resultAt_spec (e : Engine) (leaf : Nat) (s : Session γ σ) :
    ((e.tree.node leaf).value = some (e.resultAt leaf s).1 ∨
      (e.tree.node leaf).value = none ∧
        ((e.resultAt leaf s).1 = 0 ∨ (e.resultAt leaf s).1 = 1)) ∧
      (e.resultAt leaf s).2.channel.sink = s.channel.sink := by
  unfold resultAt
  split
  · rename_i value h
    exact ⟨.inl h, rfl⟩
  · rename_i h
    refine ⟨.inr ⟨h, ?_⟩, rfl⟩
    dsimp only
    obtain ⟨k, hk⟩ := (RandomSource.upTo 1 s.source).1
    interval_cases k
    · exact .inl rfl
    · exact .inr rfl

/-- A playout ends at a leaf below the node, and tells the leaf and the result. -/
theorem simulate_spec (e : Engine) (i : Nat) (s : Session γ σ) :
    (e.tree.children (e.simulate i s).1.1 = [] ∧
      i ∈ e.tree.ancestors (e.simulate i s).1.1) ∧
    ((e.tree.node (e.simulate i s).1.1).value = some (e.simulate i s).1.2 ∨
      (e.tree.node (e.simulate i s).1.1).value = none ∧
        ((e.simulate i s).1.2 = 0 ∨ (e.simulate i s).1.2 = 1)) ∧
    s.Tells (e.simulate i s).2
      [.simulationResult (e.tree.id (e.simulate i s).1.1) (e.simulate i s).1.2] := by
  obtain ⟨hleaf, hbelow, hchannel⟩ := e.descend_spec i s
  obtain ⟨hresult, hsink⟩ := e.resultAt_spec (e.descend i s).1 (e.descend i s).2
  refine ⟨⟨hleaf, hbelow⟩, hresult, ?_⟩
  have htold := Session.tells_emit (.simulationResult (e.tree.id (e.simulate i s).1.1)
    (e.simulate i s).1.2) (e.resultAt (e.descend i s).1 (e.descend i s).2).2
  unfold Session.Tells at htold
  rw [hsink, hchannel] at htold
  exact htold

omit [RandomSource γ] in
/-- Each node of a line is told with its final counters, as it is counted only once. -/
theorem tells_visits (e : Engine) (win : Bool) {places : List Nat} (hnodup : places.Nodup)
    (s : Session γ σ) :
    s.Tells (places.foldl (e.visit win) s) (places.map fun n =>
      .backpropagationStep (e.tree.id n) ((s.tally.recordVisits places win).visits n)
        ((s.tally.recordVisits places win).wins n)) := by
  induction places generalizing s with
  | nil => rfl
  | cons a places ih =>
    obtain ⟨ha, hnodup⟩ := List.nodup_cons.1 hnodup
    have hentry := Tally.entry_recordVisits_of_not_mem (t := s.tally.recordVisit a win) ha win
    have hfirst : s.Tells (e.visit win s a) [.backpropagationStep (e.tree.id a)
        ((s.tally.recordVisit a win).visits a) ((s.tally.recordVisit a win).wins a)] :=
      Channel.sink_emit _ _
    rw [List.foldl_cons, List.map_cons, Tally.recordVisits_cons]
    rw [Tally.visits, Tally.wins, hentry]
    exact hfirst.trans (ih hnodup _)

omit [RandomSource γ] in
/-- A backpropagation tells the line of a node, with the counters that it leaves. -/
theorem tells_backpropagate (e : Engine) (i : Nat) (result : Score) (s : Session γ σ) :
    s.Tells (e.backpropagate i result s)
      (lineEvents e.tree (e.backpropagate i result s).tally i) := by
  unfold lineEvents
  rw [e.backpropagate_tally]
  exact e.tells_visits (isWin result) (e.tree.nodup_ancestors i) s

variable [Logarithm]

/-- An iteration tells a block. -/
theorem block_iterate {s : Session γ σ} (hsize : s.tally.entries.size = e.tree.size) :
    ∃ events, Block e (s.completed + 1) s.tally (e.iterate s).1 (e.iterate s).2.tally events ∧
      s.Tells (e.iterate s).2 events := by
  obtain ⟨-, hvisits, hwins⟩ := iterate_counts hsize
  obtain ⟨-, -, hexpanded, -⟩ := iterate_spec e s
  have hlt := expanded_lt e s
  obtain ⟨steps, hdescent, hselect⟩ := tells_select e.tree e.weight e.tree.root (announced s)
  have hannounced : s.Tells (announced s) [.iterationStarted (s.completed + 1)] :=
    Channel.sink_emit s.channel _
  rw [iterate_eq] at hvisits hwins hexpanded hlt ⊢
  dsimp only at hvisits hwins hexpanded hlt ⊢
  -- each phase tells its part from where the one before it stopped, so its state is forgotten
  generalize select e.tree e.weight e.tree.root (announced s) = selected at *
  have hexpand := e.tells_expand selected.1 selected.2
  obtain ⟨hleaf, hresult, hsimulate⟩ := e.simulate_spec (e.expand selected.1 selected.2).1
    (e.expand selected.1 selected.2).2
  generalize e.expand selected.1 selected.2 = expanded at *
  generalize e.simulate expanded.1 expanded.2 = played at *
  have hcounted := e.tells_backpropagate expanded.1 played.1.2 played.2
  refine ⟨_, ⟨⟨steps, hdescent, rfl⟩, hexpanded.symm.imp And.left id, hleaf, hresult, hlt, hvisits,
    hwins⟩, ?_⟩
  have htold := hannounced.trans ((hselect.trans hexpand).trans (hsimulate.trans hcounted))
  exact htold

/-- The iterations of a run tell a chronicle. -/
theorem chronicle_after {s : Session γ σ} (hsize : s.tally.entries.size = e.tree.size) (k : Nat) :
    ∃ events, Chronicle e k (e.after s k).tally events ∧ s.Tells (e.after s k) events := by
  induction k with
  | zero =>
    refine ⟨[], .start fun n => ?_, rfl⟩
    exact ⟨Tally.visits_zero _ n, Tally.wins_zero _ n⟩
  | succ k ih =>
    obtain ⟨events, hchronicle, htold⟩ := ih
    obtain ⟨block, hblock, hnext⟩ := block_iterate (counted_after hsize k).size
    rw [completed_after] at hblock
    exact ⟨events ++ block, .iteration hchronicle hblock, htold.trans hnext⟩

end Engine

-- ============================================================================
-- Reading the counters back
-- ============================================================================

/-- The counters of the node with the given identifier, if that is what the event tells. -/
def countsOf? (id : String) : Event → Option (Nat × Nat)
  | .backpropagationStep id' visits wins => if id' = id then some (visits, wins) else none
  | _ => none

/-- The visits and wins that were told last of the node with the given identifier; zero if none
    were told. -/
def lastCounts (events : List Event) (id : String) : Nat × Nat :=
  (events.filterMap (countsOf? id)).getLast?.getD (0, 0)

theorem filterMap_descent {t : Tree} {score : Nat → Score} {i j : Nat} {steps : List Event}
    (h : Descent t score i j steps) (id : String) : steps.filterMap (countsOf? id) = [] := by
  induction h with
  | stay i => rfl
  | move _ _ _ ih => exact ih

/-- A line tells of each of its nodes once, and of no other one. -/
theorem filterMap_line {t : Tree} {n : Nat} (hn : n < t.size) {places : List Nat}
    (hnodup : places.Nodup) (hplaces : ∀ m ∈ places, m < t.size) (tally : Tally) :
    (places.map fun m => Event.backpropagationStep (t.id m) (tally.visits m)
        (tally.wins m)).filterMap (countsOf? (t.id n)) =
      if n ∈ places then [(tally.visits n, tally.wins n)] else [] := by
  induction places with
  | nil => rfl
  | cons m places ih =>
    obtain ⟨hm, hnodup⟩ := List.nodup_cons.1 hnodup
    have hrest := ih hnodup fun x hx => hplaces x (List.mem_cons_of_mem m hx)
    rw [List.map_cons, List.filterMap_cons, hrest]
    by_cases hmn : m = n
    · subst hmn
      simp [countsOf?, hm]
    · have hid : t.id m ≠ t.id n := fun h =>
        hmn (t.wellFormed.ids_distinct m n (hplaces m List.mem_cons_self) hn h)
      simp [countsOf?, hid, Ne.symm hmn]

section Replay

variable [Logarithm] {e : Engine} {n : Nat}

/-- A block tells the counters of the nodes that it counts. -/
theorem Block.filterMap_counts {number : Nat} {before after : Tally} {p : Playout}
    {events : List Event} (h : Block e number before p after events) (hn : n < e.tree.size) :
    events.filterMap (countsOf? (e.tree.id n)) =
      if n ∈ e.tree.ancestors p.expanded then [(after.visits n, after.wins n)] else [] := by
  obtain ⟨steps, hdescent, rfl⟩ := h.told
  have hexpansion : (expansionEvents e.tree p).filterMap (countsOf? (e.tree.id n)) = [] := by
    unfold expansionEvents
    split <;> rfl
  have hplaces : ∀ m ∈ e.tree.ancestors p.expanded, m < e.tree.size := fun m hm =>
    Nat.lt_of_le_of_lt (Tree.le_of_mem_ancestors hm) h.size
  have hline := filterMap_line hn (e.tree.nodup_ancestors p.expanded) hplaces after
  rw [← hline, List.filterMap_cons_none rfl, List.filterMap_append, List.filterMap_append,
    filterMap_descent hdescent, hexpansion, List.filterMap_cons_none rfl]
  rfl

/-- The counters told last of a node are its own; a node of which none were told was not
    counted. -/
theorem Chronicle.replay {k : Nat} {tally : Tally} {events : List Event}
    (h : Chronicle e k tally events) (hn : n < e.tree.size) :
    lastCounts events (e.tree.id n) = (tally.visits n, tally.wins n) := by
  induction h with
  | start hzero =>
    rw [(hzero n).1, (hzero n).2]
    rfl
  | @iteration k before after p told block _ hblock ih =>
    rw [lastCounts, List.filterMap_append, hblock.filterMap_counts hn]
    by_cases hmem : n ∈ e.tree.ancestors p.expanded
    · rw [if_pos hmem, List.getLast?_append]
      rfl
    · -- what was told before stands, and so do the counters
      rw [if_neg hmem, List.append_nil, hblock.visits, hblock.wins, if_neg hmem,
        if_neg fun h => hmem h.1]
      exact ih

end Replay

-- ============================================================================
-- Runs
-- ============================================================================

variable [Logarithm]

/-- The events are those that a run with the result tells: blocks for its iterations, and at the end
    the recommendation, if there are children to recommend.  The counters of the result can be read
    off them. -/
structure Chronicled (e : Engine) (r : Result) (events : List Event) : Prop where
  told : ∃ blocks, Chronicle e r.iterations r.tally blocks ∧ events = blocks ++ r.announcement
  announced : (∃ c ∈ e.tree.children e.tree.root,
      r.announcement = [.bestChildChosen (e.tree.id c) (r.tally.winRate c)]) ↔
    e.tree.children e.tree.root ≠ []
  silent : r.announcement = [] ↔ e.tree.children e.tree.root = []
  /-- The counters last told of a node are those that it has in the end. -/
  replayed : ∀ n < e.tree.size,
    lastCounts events (e.tree.id n) = (r.tally.visits n, r.tally.wins n)

omit [Logarithm] in
/-- The recommendation tells no counters. -/
theorem lastCounts_append_announcement (events : List Event) (r : Result) (id : String) :
    lastCounts (events ++ r.announcement) id = lastCounts events id := by
  have hnone : r.announcement.filterMap (countsOf? id) = [] := by
    unfold Result.announcement
    split <;> rfl
  rw [lastCounts, List.filterMap_append, hnone, List.append_nil]
  rfl

namespace Engine

variable {e : Engine}

/-- The last event tells the recommendation. -/
theorem Concluded.announcement {tally : Tally} {k : Nat} {r : Result} (h : Concluded e tally k r) :
    (r.best = none ∧ r.announcement = []) ∨
      ∃ c ∈ e.tree.children e.tree.root,
        r.announcement = [.bestChildChosen (e.tree.id c) (r.tally.winRate c)] := by
  unfold Result.announcement
  cases hbest : r.best with
  | none => exact .inl ⟨rfl, rfl⟩
  | some b =>
    obtain ⟨hid, -, -, hrate⟩ := h.reported b hbest
    refine .inr ⟨b.node, mem_children_of_leaders (h.leader b hbest), ?_⟩
    dsimp only
    rw [hid, hrate, h.counts.winRate]

/-- Blocks of a run, followed by its recommendation, are what the run tells. -/
theorem chronicled_of_concluded {tally : Tally} {k : Nat} {r : Result} {blocks : List Event}
    (h : Concluded e tally k r) (hblocks : Chronicle e k tally blocks)
    (hnone : r.best = none ↔ e.tree.children e.tree.root = []) :
    Chronicled e r (blocks ++ r.announcement) := by
  have hchronicle := hblocks.congr h.counts
  constructor
  case told =>
    rw [h.iterations]
    exact ⟨blocks, hchronicle, rfl⟩
  case announced =>
    refine ⟨fun ⟨c, hc, _⟩ => List.ne_nil_of_mem hc, fun hne => ?_⟩
    exact h.announcement.resolve_left fun habsent => hne (hnone.1 habsent.1)
  case silent =>
    rcases h.announcement with ⟨habsent, hsilent⟩ | ⟨c, hc, htold⟩
    · exact ⟨fun _ => hnone.1 habsent, fun _ => hsilent⟩
    · rw [htold]
      exact ⟨fun habsent => (nomatch habsent), fun hleaf => absurd hleaf (List.ne_nil_of_mem hc)⟩
  case replayed =>
    intro n hn
    rw [lastCounts_append_announcement]
    exact hchronicle.replay hn

/-- Every run, of all iterations or stopped by a predicate, whatever was done before, tells a sink
    that is always enabled exactly what happened, block by block, and its recommendation. -/
theorem run_chronicled [LawfulLogarithm] (e : Engine) (hbound : e.iterations < 2 ^ 64) (source : γ)
    (channel : Channel σ) (henabled : ∀ k : σ, Sink.enabled k = true) (ops : List (Op γ σ))
    (r : Result) (s' : Session γ σ)
    (h : e.Runs (e.perform ops (e.start source channel)) r s') :
    ∃ events, Chronicled e r events ∧ s'.channel.sink =
      Sink.takeAll events (e.perform ops (e.start source channel)).channel.sink := by
  have hsize := e.size_perform source channel ops
  obtain ⟨k, hle, hconcluded, hheard⟩ := h.concluded
  obtain ⟨blocks, hblocks, htold⟩ := chronicle_after hsize k
  have hcounted := counted_after hsize k
  have hnone := hconcluded.none_iff fun c hc hpos => by
    refine hcounted.isFinite_ucb1 (Nat.lt_of_le_of_lt hle hbound) hc ?_ hpos
    rw [hcounted.root]
    exact Nat.lt_of_lt_of_le hpos (hcounted.visits_le c)
  refine ⟨blocks ++ r.announcement, chronicled_of_concluded hconcluded hblocks hnone, ?_⟩
  rw [hheard, show (e.after _ k).channel.sink = _ from htold, ← Sink.hear_append,
    Sink.hear_of_enabled henabled]

omit [RandomSource γ] [Sink σ] [Logarithm] in
/-- A run of the small engine that keeps its events in a log, with the logarithm of a table. -/
theorem run_chronicled_small :
    let start := small.start (Random.Generator.ofSeed 7) .recording
    let r := (@run _ _ _ _ shortLogarithm small start).1
    let s' := (@run _ _ _ _ shortLogarithm small start).2
    small.iterations < 2 ^ 64 ∧ (∀ k : EventLog, Sink.enabled k = true) ∧
      @Runs _ _ _ _ shortLogarithm small (@perform _ _ _ _ shortLogarithm small [] start) r s' ∧
      ∃ events, @Chronicled shortLogarithm small r events ∧
        s'.channel.sink = Sink.takeAll events start.channel.sink := by
  let := shortLogarithm
  have := lawful_shortLogarithm
  intro start r s'
  have hbound : small.iterations < 2 ^ 64 := by decide
  have henabled : ∀ k : EventLog, Sink.enabled k = true := fun _ => rfl
  have hruns : small.Runs (small.perform [] start) r s' := Runs.run
  exact ⟨hbound, henabled, hruns, run_chronicled small hbound _ _ henabled [] r s' hruns⟩

end Engine

end GameSearch.Mcts
