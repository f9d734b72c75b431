/-
  GameSearch.Proofs.Mcts.Ledger

  The counters are a ledger of backpropagations.  Whatever a caller does with an engine,
  the visits of a node are the backpropagations since the last reset that started in its
  subtree, and its wins are those of them whose result was one.

  What an operation does to the counters stands in the notes of the engine with notes.  The
  notes of consecutive steps are appended, so each part of an operation is treated on its own.

    * `ledger`           — the results counted since the last reset
    * `Asks`             — acts that ask for the score of a node
    * `Balanced`         — the counters agree with a ledger
    * `Books`            — a step whose notes keep the balance, and that asks for no score of a
      visited node below a parent without visits
    * `books_select`, `books_iterate`, …, `books_perform` — the steps of the engine are such steps
    * `perform_ledger`   — the law of the ledger
-/
import GameSearch.Proofs.Mcts.Noting
import GameSearch.Proofs.Tree.Subtree

namespace GameSearch.Mcts

/-- The ledger after one more act. -/
def post (ledger : List Booking) : Act → List Booking
  | .reset => []
  | .score _ _ => ledger
  | .count booking => ledger ++ [booking]

/-- The results counted since the last reset. -/
def ledger (acts : List Act) : List Booking := acts.foldl post []

/-- The acts ask for the score of the node. -/
def Asks (acts : List Act) (i : Nat) : Prop := ∃ tally, Act.score tally i ∈ acts

theorem not_asks_nil (i : Nat) : ¬ Asks [] i := fun ⟨_, hmem⟩ => nomatch hmem

theorem asks_append {as bs : List Act} {i : Nat} : Asks (as ++ bs) i ↔ Asks as i ∨ Asks bs i := by
  unfold Asks
  simp only [List.mem_append, exists_or]

/-- A choice among the children of a node asks for the scores of all of them. -/
theorem asks_bestChild {γ σ : Type} [RandomSource γ] [Logarithm] {t : Tree} {weight : Score}
    {i n : Nat} {s : Session γ σ} :
    Asks (bestChildNoting t weight i s).acts n ↔ n ∈ t.children i := by
  constructor
  · rintro ⟨tally, hmem⟩
    obtain ⟨c, hc, asked, -, hact⟩ := exists_of_mem_acts_bestChild hmem
    cases hact
    exact hc
  · exact exists_mem_acts_bestChild

theorem not_asks_count (b : Booking) (i : Nat) : ¬ Asks [.count b] i :=
  fun ⟨_, hmem⟩ => nomatch List.mem_singleton.1 hmem

/-- The case of `ucb1` for a node that was visited below a parent that was not. -/
def Orphaned (t : Tree) (tally : Tally) (i : Nat) : Prop :=
  tally.visits i ≠ 0 ∧ ∃ p, t.parent i = some p ∧ tally.visits p = 0

-- ============================================================================
-- Counters that agree with a ledger
-- ============================================================================

/-- Every node of the tree has as many visits as results were counted from its subtree, and as
    many wins as there are ones among them. -/
structure Balanced (t : Tree) (tally : Tally) (ledger : List Booking) : Prop where
  size : tally.entries.size = t.size
  visits : ∀ n < t.size, tally.visits n = ledger.countP fun b => b.node ∈ t.subtree n
  wins : ∀ n < t.size,
    tally.wins n = ledger.countP fun b => b.node ∈ t.subtree n && b.result == 1

namespace Balanced

variable {t : Tree} {tally tally' : Tally} {ledger : List Booking}

theorem congr (h : Balanced t tally ledger) (hcounts : Tally.SameCounts tally tally') :
    Balanced t tally' ledger where
  size := hcounts.size.trans h.size
  visits n hn := (hcounts.visits n).trans (h.visits n hn)
  wins n hn := (hcounts.wins n).trans (h.wins n hn)

theorem zero (t : Tree) : Balanced t (Tally.zero t.size) [] where
  size := Tally.size_zero t.size
  visits n _ := Tally.visits_zero t.size n
  wins n _ := Tally.wins_zero t.size n

/-- A line that starts outside the tree counts nothing in it. -/
theorem entry_recordVisits_outside {i : Nat} (hi : t.size ≤ i)
    (hsize : tally.entries.size = t.size) (win : Bool) (n : Nat) :
    (tally.recordVisits (t.ancestors i) win).entry n = tally.entry n := by
  have hroot : t.parent i = none := by
    cases hp : t.parent i with
    | none => rfl
    | some p =>
      have := Tree.lt_size_of_parent hp
      omega
  rw [Tree.ancestors_of_root hroot, Tally.recordVisits_cons]
  show (tally.recordVisit i win).entry n = tally.entry n
  rw [Tally.recordVisit, Tally.entry_modify, if_neg]
  omega

/-- A line counts one visit at each of its nodes, and a win there if there was one. -/
theorem counts_line (hsize : tally.entries.size = t.size) (i : Nat) (win : Bool) {n : Nat}
    (hn : n < t.size) :
    (tally.recordVisits (t.ancestors i) win).visits n =
        tally.visits n + (if n ∈ t.ancestors i then 1 else 0) ∧
      (tally.recordVisits (t.ancestors i) win).wins n =
        tally.wins n + if n ∈ t.ancestors i ∧ win = true then 1 else 0 := by
  by_cases hi : i < t.size
  · have hplaces : ∀ j ∈ t.ancestors i, j < tally.entries.size := by
      intro j hj
      have := Tree.le_of_mem_ancestors hj
      omega
    exact ⟨Tally.visits_recordVisits (t.nodup_ancestors i) hplaces win n,
      Tally.wins_recordVisits (t.nodup_ancestors i) hplaces win n⟩
  · have hentry := entry_recordVisits_outside (Nat.not_lt.1 hi) hsize win n
    have hmem : n ∉ t.ancestors i := fun h => hi (Tree.lt_size_of_mem_ancestors h hn)
    rw [Tally.visits, Tally.wins, hentry, if_neg hmem, if_neg fun h => hmem h.1]
    exact ⟨rfl, rfl⟩

/-- A result is entered at every node whose subtree it was counted from. -/
theorem count (h : Balanced t tally ledger) (b : Booking) :
    Balanced t (tally.recordVisits (t.ancestors b.node) (isWin b.result)) (ledger ++ [b]) where
  size := (Tally.size_recordVisits _ _ tally).trans h.size
  visits n hn := by
    rw [(counts_line h.size b.node _ hn).1, h.visits n hn, List.countP_append,
      List.countP_singleton]
    simp only [decide_eq_true_eq, Tree.mem_subtree_iff]
  wins n hn := by
    have hiff : n ∈ t.ancestors b.node ∧ isWin b.result = true ↔
        (decide (b.node ∈ t.subtree n) && b.result == 1) = true := by
      rw [Bool.and_eq_true, decide_eq_true_eq, Tree.mem_subtree_iff, isWin]
    rw [(counts_line h.size b.node _ hn).2, h.wins n hn, List.countP_append,
      List.countP_singleton, if_congr hiff rfl rfl]

/-- No node has more visits than the ledger has entries. -/
theorem visits_le_length (h : Balanced t tally ledger) (n : Nat) :
    tally.visits n ≤ ledger.length := by
  by_cases hn : n < t.size
  · rw [h.visits n hn]
    exact List.countP_le_length
  · rw [Tally.visits_of_size_le (h.size ▸ Nat.not_lt.1 hn)]
    exact Nat.zero_le _

theorem wins_le (h : Balanced t tally ledger) {n : Nat} (hn : n < t.size) :
    tally.wins n ≤ tally.visits n := by
  rw [h.wins n hn, h.visits n hn]
  refine List.countP_mono_left fun b _ hb => ?_
  rw [Bool.and_eq_true] at hb
  exact hb.1

/-- The subtree of a child is part of that of its parent. -/
theorem visits_le_parent (h : Balanced t tally ledger) {p c : Nat} (hc : c ∈ t.children p) :
    tally.visits c ≤ tally.visits p := by
  have hlt := Tree.lt_size_of_mem_children hc
  have hp : p < t.size := Nat.lt_trans (Tree.lt_of_mem_children hc) hlt
  rw [h.visits c hlt, h.visits p hp]
  refine List.countP_mono_left fun b _ hb => ?_
  rw [decide_eq_true_eq] at hb ⊢
  exact Tree.mem_subtree_iff_child.2 (.inr ⟨c, hc, hb⟩)

theorem not_orphaned (h : Balanced t tally ledger) (i : Nat) : ¬ Orphaned t tally i := by
  rintro ⟨hi, p, hp, hzero⟩
  have := h.visits_le_parent (Tree.mem_children_iff.2 hp)
  omega

end Balanced

-- ============================================================================
-- Acts that keep the balance
-- ============================================================================

variable {γ σ : Type}

/-- Acts that lead from a ledger of the first session to one of the second, and none of which
    asks for the score of an orphan. -/
structure Books (t : Tree) (s s' : Session γ σ) (acts : List Act) : Prop where
  balanced : ∀ {ledger}, Balanced t s.tally ledger → Balanced t s'.tally (acts.foldl post ledger)
  scores : ∀ {ledger}, Balanced t s.tally ledger →
    ∀ tally i, Act.score tally i ∈ acts → ¬ Orphaned t tally i

namespace Books

variable {t : Tree} {s s' s'' : Session γ σ} {as bs : List Act}

theorem quiet (h : s.SameCounts s') : Books t s s' [] where
  balanced hs := hs.congr h.tally
  scores _ _ _ hmem := absurd hmem List.not_mem_nil

theorem trans (h : Books t s s' as) (h' : Books t s' s'' bs) : Books t s s'' (as ++ bs) where
  balanced hs := by
    rw [List.foldl_append]
    exact h'.balanced (h.balanced hs)
  scores hs tally i hmem := by
    rcases List.mem_append.1 hmem with hmem | hmem
    · exact h.scores hs tally i hmem
    · exact h'.scores (h.balanced hs) tally i hmem

/-- Steps without acts may come first. -/
theorem after (h : s.SameCounts s') (h' : Books t s' s'' as) : Books t s s'' as :=
  (quiet h).trans h'

/-- They may also come last. -/
theorem before (h : Books t s s' as) (h' : s'.SameCounts s'') : Books t s s'' as :=
  List.append_nil as ▸ h.trans (quiet h')

theorem reset (t : Tree) (s : Session γ σ) : Books t s (Engine.reset s) [.reset] where
  balanced hs := by
    rw [Engine.reset_tally, hs.size]
    exact Balanced.zero t
  scores _ _ _ hmem := nomatch List.mem_singleton.1 hmem

theorem count (b : Booking)
    (h : s'.tally = s.tally.recordVisits (t.ancestors b.node) (isWin b.result)) :
    Books t s s' [.count b] where
  balanced hs := by
    rw [h]
    exact hs.count b
  scores _ _ _ hmem := nomatch List.mem_singleton.1 hmem

end Books

/-- Acts that only ask for scores leave a ledger alone. -/
theorem foldl_post_of_scores {acts : List Act} (h : ∀ act ∈ acts, ∃ tally i, act = .score tally i)
    (ledger : List Booking) : acts.foldl post ledger = ledger := by
  induction acts with
  | nil => rfl
  | cons act acts ih =>
    obtain ⟨⟨tally, i, rfl⟩, hrest⟩ := List.forall_mem_cons.1 h
    exact ih hrest

-- ============================================================================
-- The steps of a search
-- ============================================================================

variable [RandomSource γ] [Logarithm]

/-- Scores of children are computed while the table balances. -/
theorem books_bestChild (t : Tree) (weight : Score) (i : Nat) (s : Session γ σ) :
    Books t s s (bestChildNoting t weight i s).acts := by
  constructor
  case balanced =>
    intro ledger hs
    rw [foldl_post_of_scores fun act hmem => ?_]
    · exact hs
    · obtain ⟨c, -, asked, -, hact⟩ := exists_of_mem_acts_bestChild hmem
      exact ⟨asked, c, hact⟩
  case scores =>
    intro ledger hs tally j hmem
    obtain ⟨c, -, asked, hcounts, hact⟩ := exists_of_mem_acts_bestChild hmem
    cases hact
    exact (hs.congr hcounts).not_orphaned j

section Selection

variable [Sink σ]

/-- A selection only computes scores of children, and counts nothing. -/
theorem books_select (t : Tree) (weight : Score) (i : Nat) (s : Session γ σ) :
    Books t s (select t weight i s).2 (selectNoting t weight i s).acts := by
  fun_induction select t weight i s with
  | case1 i s h =>
    rw [acts_select_of_stop h]
    exact Books.quiet (Session.SameCounts.refl s)
  | case2 i s h s' hbest =>
    obtain rfl : s' = (bestChild t weight i s).2 := by rw [hbest]
    rw [acts_select_of_bestChild_none h hbest]
    exact (books_bestChild t weight i s).before (sameCounts_bestChild t weight i s)
  | case3 i s h c score s' hbest message ih =>
    obtain rfl : s' = (bestChild t weight i s).2 := by rw [hbest]
    have hmoved := (Session.sameTable_log message (bestChild t weight i s).2).trans
      (Session.sameTable_emit (.selectionStep (t.id i) (t.id c) score) _)
    rw [acts_select_of_bestChild h hbest]
    exact (books_bestChild t weight i s).trans
      (Books.after ((sameCounts_bestChild t weight i s).trans hmoved.sameCounts) ih)

namespace Engine

theorem books_iterate (e : Engine) (s : Session γ σ) :
    Books e.tree s (e.iterate s).2 (e.iterateNoting s).acts := by
  have hselect := books_select e.tree e.weight e.tree.root (announced s)
  rw [acts_iterate, iterate_eq]
  dsimp only
  -- the counter of iterations is no part of the ledger, so the announcement changes nothing in it
  have hannounced : Books e.tree s (select e.tree e.weight e.tree.root (announced s)).2
      (selectNoting e.tree e.weight e.tree.root (announced s)).acts :=
    ⟨hselect.balanced, hselect.scores⟩
  generalize select e.tree e.weight e.tree.root (announced s) = selected at *
  have hplayed := (e.sameTable_expand selected.1 selected.2).trans
    (e.sameTable_simulate (e.expand selected.1 selected.2).1 _)
  refine (hannounced.before hplayed.sameCounts).trans (Books.count _ ?_)
  exact e.backpropagate_tally _ _ _

end Engine

end Selection

-- ============================================================================
-- Operations
-- ============================================================================

namespace Engine

variable [Sink σ]

theorem books_loop {π : Type} (e : Engine) (ask : Nat → Tally → π → Bool × π) (remaining : Nat)
    (p : π) (s : Session γ σ) :
    Books e.tree s (e.iterateWhile ask remaining p s).2.2
      (e.iterateWhileNoting ask remaining p s).acts := by
  induction remaining generalizing p s with
  | zero => exact Books.quiet (Session.SameCounts.refl s)
  | succ remaining ih =>
    unfold iterateWhile iterateWhileNoting
    dsimp only
    split
    · rw [Noted.acts_bind, value_iterate]
      exact (e.books_iterate s).trans (ih _ _)
    · exact Books.quiet (Session.sameTable_log _ s).sameCounts

/-- A run zeroes the counters, iterates, and asks for the scores of its recommendation. -/
theorem books_runWhile {π : Type} (e : Engine) (ask : Nat → Tally → π → Bool × π) (p : π)
    (s : Session γ σ) :
    Books e.tree s (e.runWhile ask p s).2.2 (e.runWhileNoting ask p s).acts := by
  have hloop := e.books_loop ask e.iterations p (reset s)
  rw [runWhile_session, acts_runWhile, acts_recommend]
  exact (Books.reset e.tree s).trans (hloop.trans
    ((books_bestChild e.tree 0 e.tree.root _).before (e.sameCounts_conclude _ _)))

theorem books_apply (e : Engine) (s : Session γ σ) (op : Op γ σ) :
    Books e.tree s (e.apply s op) (e.acts s op) := by
  have hrun : ∀ {π : Type} (ask : Nat → Tally → π → Bool × π) (p : π),
      Books e.tree s (e.runWhile ask p s).2.2 ((e.runWhileNoting ask p s).acts ++ []) :=
    fun ask p => (e.books_runWhile ask p s).trans (Books.quiet (Session.SameCounts.refl _))
  cases op with
  | iterate => exact (e.books_iterate s).trans (Books.quiet (Session.SameCounts.refl _))
  | run => exact hrun (fun _ _ p => (true, p)) ()
  | runWhile ask p => exact hrun ask p
  | reset => exact Books.reset e.tree s
  | expand i => exact Books.quiet (e.sameTable_expand i s).sameCounts
  | simulate i => exact Books.quiet (e.sameTable_simulate i s).sameCounts
  | recommend =>
    rw [acts, applyNoting, Noted.acts_bind, acts_recommend]
    exact (books_bestChild e.tree 0 e.tree.root s).trans (Books.quiet (e.sameCounts_recommend s))
  | backpropagate i result => exact Books.count ⟨i, result⟩ (e.backpropagate_tally i result s)
  | handOver source channel => exact Books.quiet (s := s) ⟨Tally.SameCounts.refl s.tally, rfl⟩

theorem books_perform (e : Engine) (ops : List (Op γ σ)) (s : Session γ σ) :
    Books e.tree s (e.perform ops s) (e.history ops s) := by
  induction ops generalizing s with
  | nil => exact Books.quiet (Session.SameCounts.refl s)
  | cons op ops ih =>
    rw [history_cons]
    exact (e.books_apply s op).trans (ih (e.apply s op))

/-- After any sequence of operations the visits of a node are the results counted since the last
    reset from nodes of its subtree, and its wins the ones among them.  So no node has more wins
    than visits or more visits than its parent, and the score of a visited node is never asked for
    while its parent has no visits.  What was counted and asked for is what the engine with notes
    has put down on its way to the same session. -/
theorem perform_ledger (e : Engine) (source : γ) (channel : Channel σ) (ops : List (Op γ σ)) :
    let tally := (e.perform ops (e.start source channel)).tally
    let acts := e.history ops (e.start source channel)
    e.performNoting ops (e.start source channel) =
      ⟨e.perform ops (e.start source channel), acts⟩ ∧
    (∀ n < e.tree.size,
      tally.visits n = (ledger acts).countP (fun b => b.node ∈ e.tree.subtree n) ∧
      tally.wins n = (ledger acts).countP fun b => b.node ∈ e.tree.subtree n && b.result == 1) ∧
    (∀ n < e.tree.size, tally.wins n ≤ tally.visits n) ∧
    (∀ p, ∀ c ∈ e.tree.children p, tally.visits c ≤ tally.visits p) ∧
    ∀ asked i, Act.score asked i ∈ acts → ¬ Orphaned e.tree asked i := by
  have hbooks := e.books_perform ops (e.start source channel)
  have hstart : Balanced e.tree (e.start source channel).tally [] := Balanced.zero e.tree
  have hend : Balanced e.tree (e.perform ops (e.start source channel)).tally
      (ledger (e.history ops (e.start source channel))) := hbooks.balanced hstart
  refine ⟨?_, fun n hn => ⟨hend.visits n hn, hend.wins n hn⟩, fun n hn => hend.wins_le hn,
    fun p c hc => hend.visits_le_parent hc, hbooks.scores hstart⟩
  rw [← value_perform]
  rfl

end Engine

end GameSearch.Mcts
