/-
  GameSearch.Proofs.Mcts.Lockstep

  Two sessions taken through the same steps side by side.  The steps of a search read counters,
  draw, count, keep scores, emit and log, and nothing else.  So a relation that has the two
  sessions agree on counters and draws, and that is not broken when both do one of these things,
  is not broken by any step; and what a step delivers is the same on both sides.  The relation may
  speak of the nodes whose scores were kept; the steps of a search add to them.

    * `Together`  — two steps with one result, and with related sessions after them
    * `Lockstep`  — relations that are not broken
    * `Lockstep.select`, `Lockstep.simulate`, `Lockstep.iterate`, … — the steps of a search
-/
import GameSearch.Proofs.Mcts.Ledger

namespace GameSearch.Mcts

variable {γ σ τ : Type}

/-- Two steps that deliver the same, with related sessions after them. -/
def Together {α : Type} (R : Session γ σ → Session γ τ → Prop) (x : α × Session γ σ)
    (y : α × Session γ τ) : Prop :=
  x.1 = y.1 ∧ R x.2 y.2

/-- A relation between sessions with the same counters and the same draws before them, and with
    scores kept on both sides for certain nodes.  Whatever a step of a search may do to a session,
    it may do to two related ones. -/
structure Lockstep [Sink σ] [Sink τ] (R : (Nat → Prop) → Session γ σ → Session γ τ → Prop) :
    Prop where
  counts : ∀ {p s s'}, R p s s' → Tally.SameCounts s.tally s'.tally
  completed : ∀ {p s s'}, R p s s' → s.completed = s'.completed
  source : ∀ {p s s'}, R p s s' → s.source = s'.source
  /-- Less may be said of kept scores. -/
  forget : ∀ {p q s s'}, (∀ n, q n → p n) → R p s s' → R q s s'
  emit : ∀ {p s s'}, R p s s' → ∀ e, R p (s.emit e) (s'.emit e)
  log : ∀ {p s s'}, R p s s' → ∀ m, R p (s.log m) (s'.log m)
  /-- The source goes on. -/
  draw : ∀ {p s s'}, R p s s' → ∀ g, R p { s with source := g } { s' with source := g }
  /-- Iterations are numbered. -/
  number : ∀ {p s s'}, R p s s' → ∀ k, R p { s with completed := k } { s' with completed := k }
  /-- A visit is counted. -/
  record : ∀ {p s s'}, R p s s' → ∀ i win, R p { s with tally := s.tally.recordVisit i win }
    { s' with tally := s'.tally.recordVisit i win }
  /-- Scores are kept. -/
  keep : ∀ {p s s'}, R p s s' → ∀ scores : List (Nat × Score),
    R (fun n => p n ∨ n ∈ scores.map (·.1)) { s with tally := keepScores scores s.tally }
      { s' with tally := keepScores scores s'.tally }

namespace Lockstep

variable [Sink σ] [Sink τ] {R : (Nat → Prop) → Session γ σ → Session γ τ → Prop}
  {s : Session γ σ} {s' : Session γ τ}

section

variable [RandomSource γ]

theorem choose {α : Type} (hR : Lockstep R) (p : Nat → Prop) (xs : List α) (h : R p s s') :
    Together (R p) (s.choose xs) (s'.choose xs) := by
  unfold Session.choose
  rw [hR.source h]
  exact ⟨rfl, hR.draw h _⟩

theorem expand (hR : Lockstep R) (p : Nat → Prop) (e : Engine) (i : Nat) (h : R p s s') :
    Together (R p) (e.expand i s) (e.expand i s') := by
  have hdrawn := hR.choose p ((e.tree.children i).filter fun c => s.tally.visits c == 0) h
  unfold Engine.expand
  simp only [(hR.counts h).visits]
  revert hdrawn
  rcases s.choose _ with ⟨drawn, s⟩
  rcases s'.choose _ with ⟨drawn', s'⟩
  rintro ⟨rfl : drawn = drawn', h : R p s s'⟩
  cases drawn with
  | none => exact ⟨rfl, h⟩
  | some c => exact ⟨rfl, hR.emit h _⟩

theorem descend (hR : Lockstep R) (p : Nat → Prop) (e : Engine) (i : Nat) (h : R p s s') :
    Together (R p) (e.descend i s) (e.descend i s') := by
  induction i using Tree.childInduction (t := e.tree) generalizing s s' with
  | step i ih =>
    have hdrawn := hR.choose p (e.tree.children i) h
    rcases hs : s.choose (e.tree.children i) with ⟨drawn, r⟩
    rcases hs' : s'.choose (e.tree.children i) with ⟨drawn', r'⟩
    rw [hs, hs'] at hdrawn
    obtain ⟨hsame : drawn = drawn', h : R p r r'⟩ := hdrawn
    subst hsame
    cases drawn with
    | none =>
      rw [Engine.descend_of_choose_none hs, Engine.descend_of_choose_none hs']
      exact ⟨rfl, h⟩
    | some c =>
      have hc : c ∈ e.tree.children i :=
        RandomSource.mem_of_choose (g := s.source) (congrArg Prod.fst hs)
      rw [Engine.descend_of_choose hs, Engine.descend_of_choose hs']
      exact ih c hc h

theorem resultAt (hR : Lockstep R) (p : Nat → Prop) (e : Engine) (leaf : Nat) (h : R p s s') :
    Together (R p) (e.resultAt leaf s) (e.resultAt leaf s') := by
  unfold Engine.resultAt
  split
  · exact ⟨rfl, h⟩
  · rw [hR.source h]
    exact ⟨rfl, hR.log (hR.draw h _) _⟩

theorem simulate (hR : Lockstep R) (p : Nat → Prop) (e : Engine) (i : Nat) (h : R p s s') :
    Together (R p) (e.simulate i s) (e.simulate i s') := by
  obtain ⟨hleaf, h⟩ := hR.descend p e i h
  have hresult := hR.resultAt p e (e.descend i s).1 h
  rw [hleaf] at hresult
  obtain ⟨hvalue, h⟩ := hresult
  unfold Engine.simulate
  dsimp only
  rw [hleaf, hvalue]
  exact ⟨rfl, hR.emit h _⟩

end

theorem visit (hR : Lockstep R) (p : Nat → Prop) (e : Engine) (win : Bool) (i : Nat)
    (h : R p s s') : R p (e.visit win s i) (e.visit win s' i) := by
  have hrecorded := hR.record h i win
  have hcounts := hR.counts hrecorded
  have hvisits : (s'.tally.recordVisit i win).visits i = (s.tally.recordVisit i win).visits i :=
    hcounts.visits i
  have hwins : (s'.tally.recordVisit i win).wins i = (s.tally.recordVisit i win).wins i :=
    hcounts.wins i
  unfold Engine.visit
  dsimp only
  rw [hvisits, hwins]
  exact hR.emit hrecorded _

theorem backpropagate (hR : Lockstep R) (p : Nat → Prop) (e : Engine) (i : Nat) (result : Score)
    (h : R p s s') : R p (e.backpropagate i result s) (e.backpropagate i result s') := by
  unfold Engine.backpropagate
  generalize e.tree.ancestors i = places
  induction places generalizing s s' with
  | nil => exact h
  | cons a places ih => exact ih (hR.visit p e (isWin result) a h)

variable [RandomSource γ] [Logarithm]

theorem bestChild (hR : Lockstep R) (p : Nat → Prop) (t : Tree) (weight : Score) (i : Nat)
    (h : R p s s') : Together (R fun n => p n ∨ Asks (bestChildNoting t weight i s).acts n)
      (bestChild t weight i s) (bestChild t weight i s') := by
  have hscores : childScores t s'.tally weight i = childScores t s.tally weight i := by
    simp only [childScores, (hR.counts h).ucb1_eq t weight]
  have hkept := hR.keep h (childScores t s.tally weight i)
  rw [map_fst_childScores] at hkept
  have hdrawn := hR.choose _ (leaders (childScores t s.tally weight i)) hkept
  rw [bestChild_eq, bestChild_eq, hscores]
  simp only [asks_bestChild]
  exact ⟨congrArg (Option.map fun c => (c, peak (childScores t s.tally weight i))) hdrawn.1,
    hdrawn.2⟩

theorem select (hR : Lockstep R) (p : Nat → Prop) (t : Tree) (weight : Score) (i : Nat)
    (h : R p s s') : Together (R fun n => p n ∨ Asks (selectNoting t weight i s).acts n)
      (select t weight i s) (select t weight i s') := by
  induction i using Tree.childInduction (t := t) generalizing p s s' with
  | step i ih =>
    have hunvisited := (hR.counts h).hasUnvisited_eq t i
    by_cases hstop : ((t.node i).isLeaf || hasUnvisited t s.tally i) = true
    · rw [select_of_stop hstop, select_of_stop (hunvisited ▸ hstop), acts_select_of_stop hstop]
      exact ⟨rfl, hR.forget (fun n hn => hn.resolve_right (not_asks_nil n)) h⟩
    have hstop' : ¬((t.node i).isLeaf || hasUnvisited t s'.tally i) = true := hunvisited ▸ hstop
    have hdrawn := hR.bestChild p t weight i h
    rcases hs : Mcts.bestChild t weight i s with ⟨drawn, r⟩
    rcases hs' : Mcts.bestChild t weight i s' with ⟨drawn', r'⟩
    rw [hs, hs'] at hdrawn
    obtain ⟨hsame, h⟩ := hdrawn
    obtain rfl : drawn = drawn' := hsame
    rcases drawn with _ | ⟨c, score⟩
    · rw [select_of_bestChild_none hstop hs, select_of_bestChild_none hstop' hs',
        acts_select_of_bestChild_none hstop hs]
      exact ⟨rfl, h⟩
    · have hc : c ∈ t.children i := mem_children_of_bestChild (congrArg Prod.fst hs)
      rw [select_of_bestChild hstop hs, select_of_bestChild hstop' hs', (hR.counts h).visits,
        (hR.counts h).wins, acts_select_of_bestChild hstop hs]
      simp only [asks_append, ← or_assoc]
      exact ih c hc _ (hR.emit (hR.log h _) _)

theorem iterate (hR : Lockstep R) (p : Nat → Prop) (e : Engine) (h : R p s s') :
    Together (R fun n => p n ∨ Asks (e.iterateNoting s).acts n) (e.iterate s) (e.iterate s') := by
  have hannounced : R p (announced s) (announced s') := by
    unfold announced
    rw [hR.completed h]
    exact hR.emit (hR.number h _) _
  obtain ⟨hselected, h₁⟩ := hR.select p e.tree e.weight e.tree.root hannounced
  simp only [Engine.acts_iterate, asks_append, not_asks_count, or_false]
  rw [iterate_eq, iterate_eq, hR.completed h]
  revert hselected h₁
  generalize (fun n => p n ∨
    Asks (selectNoting e.tree e.weight e.tree.root (announced s)).acts n) = q
  generalize Mcts.select e.tree e.weight e.tree.root (announced s) = selected
  generalize Mcts.select e.tree e.weight e.tree.root (announced s') = selected'
  intro hselected h₁
  have hexpand := hR.expand q e selected.1 h₁
  rw [hselected] at hexpand ⊢
  obtain ⟨hexpanded, h₂⟩ := hexpand
  have hsimulate := hR.simulate q e (e.expand selected'.1 selected.2).1 h₂
  rw [hexpanded] at hsimulate ⊢
  obtain ⟨hplayed, h₃⟩ := hsimulate
  have hcounted := hR.backpropagate q e (e.expand selected'.1 selected'.2).1
    (e.simulate (e.expand selected'.1 selected'.2).1 (e.expand selected'.1 selected.2).2).1.2 h₃
  rw [hplayed] at hcounted ⊢
  exact ⟨rfl, hR.log hcounted _⟩

theorem recommend (hR : Lockstep R) (p : Nat → Prop) (e : Engine) (h : R p s s') :
    Together (R fun n => p n ∨ Asks (e.recommendNoting s).acts n) (e.recommend s) (e.recommend s') := by
  have hdrawn := hR.bestChild p e.tree 0 e.tree.root h
  rw [Engine.acts_recommend]
  unfold Engine.recommend
  revert hdrawn
  generalize (fun n => p n ∨ Asks (bestChildNoting e.tree 0 e.tree.root s).acts n) = q
  rcases Mcts.bestChild e.tree 0 e.tree.root s with ⟨drawn, s⟩
  rcases Mcts.bestChild e.tree 0 e.tree.root s' with ⟨drawn', s'⟩
  rintro ⟨rfl : drawn = drawn', h : R q s s'⟩
  rcases drawn with _ | ⟨c, score⟩
  · exact ⟨rfl, h⟩
  · have hcounts := hR.counts h
    have hvisits : (s'.tally.entry c).visits = (s.tally.entry c).visits := hcounts.visits c
    have hwins : (s'.tally.entry c).wins = (s.tally.entry c).wins := hcounts.wins c
    have hrate : (s'.tally.entry c).winRate = (s.tally.entry c).winRate := hcounts.winRate c
    dsimp only
    rw [hvisits, hwins, hrate]
    split
    · exact ⟨rfl, hR.log h _⟩
    · exact ⟨rfl, h⟩

end Lockstep

end GameSearch.Mcts
