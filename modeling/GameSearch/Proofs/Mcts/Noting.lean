/-
  GameSearch.Proofs.Mcts.Noting

  The engine with notes.  It takes the steps of the engine one by one and puts down what they do
  to the counters: a score is computed from a table, a result is counted from a node up to
  the root, the counters are zeroed.  Only these three write notes; every other step is that of
  the engine, over steps that hand their notes on.  Without its notes, the engine with notes
  is the engine.

    * `Act`, `Noted`        — a note, and a step with its notes
    * `surveyNoting`, `selectNoting`, `iterateNoting`, … — the steps of the engine
    * `value_select`, `value_iterate`, …, `value_perform` — without the notes they are these steps
    * `Engine.acts`, `Engine.history` — the notes of an operation and of a sequence of them
    * `acts_survey`         — a pass over children asks for the score of each, once and in order
-/
import GameSearch.Proofs.Mcts.Operations

namespace GameSearch.Mcts

/-- A result that was counted from a node up to the root. -/
structure Booking where
  node : Nat
  result : Score

/-- What a step does to the counters. -/
inductive Act where
  /-- All counters are zeroed. -/
  | reset
  /-- The score of a node is computed from a table, by `ucb1`. -/
  | score (tally : Tally) (i : Nat)
  /-- A result is counted from a node up to the root. -/
  | count (booking : Booking)

/-- What a step delivers, with the notes it has made. -/
structure Noted (α : Type) where
  value : α
  acts : List Act

namespace Noted

variable {α β : Type}

/-- Steps without notes, and steps in sequence, the notes of which are appended. -/
instance : Monad Noted where
  pure x := ⟨x, []⟩
  bind x f := ⟨(f x.value).value, x.acts ++ (f x.value).acts⟩

@[simp] theorem value_pure (x : α) : (pure x : Noted α).value = x := rfl

@[simp] theorem acts_pure (x : α) : (pure x : Noted α).acts = [] := rfl

@[simp] theorem value_bind (x : Noted α) (f : α → Noted β) :
    (x >>= f).value = (f x.value).value := rfl

@[simp] theorem acts_bind (x : Noted α) (f : α → Noted β) :
    (x >>= f).acts = x.acts ++ (f x.value).acts := rfl

/-- Without the notes of its turns, a loop is the loop of what they deliver. -/
theorem value_foldlM {ι : Type _} {f : β → ι → Noted β} {g : β → ι → β}
    (h : ∀ b x, (f b x).value = g b x) (xs : List ι) (b : β) :
    (xs.foldlM f b).value = xs.foldl g b := by
  induction xs generalizing b with
  | nil => rfl
  | cons x xs ih => rw [List.foldlM_cons, value_bind, h, List.foldl_cons, ih]

end Noted

-- ============================================================================
-- Selection
-- ============================================================================

section Selection

variable [Logarithm]

/-- A score is asked for. -/
def ucb1Noting (t : Tree) (tally : Tally) (weight : Score) (i : Nat) : Noted Score :=
  ⟨ucb1 t tally weight i, [.score tally i]⟩

/-- A turn of the pass over children. -/
def Survey.visitNoting (t : Tree) (weight : Score) (v : Survey) (c : Nat) : Noted Survey := do
  let score ← ucb1Noting t v.tally weight c
  pure (v.add c score)

/-- The pass over children. -/
def surveyNoting (t : Tree) (tally : Tally) (weight : Score) (places : List Nat) : Noted Survey :=
  places.foldlM (Survey.visitNoting t weight) ⟨tally, Score.bottom, []⟩

variable {t : Tree} {tally : Tally} {weight : Score} {places : List Nat} {i c : Nat}

theorem value_visit (t : Tree) (weight : Score) (v : Survey) (c : Nat) :
    (v.visitNoting t weight c).value = v.visit t weight c := rfl

theorem acts_visit (t : Tree) (weight : Score) (v : Survey) (c : Nat) :
    (v.visitNoting t weight c).acts = [.score v.tally c] := rfl

theorem value_survey (t : Tree) (tally : Tally) (weight : Score) (places : List Nat) :
    (surveyNoting t tally weight places).value = survey t tally weight places :=
  Noted.value_foldlM (value_visit t weight) places _

omit [Logarithm] in
theorem tally_add (v : Survey) (c : Nat) (score : Score) :
    (v.add c score).tally = v.tally.keepScore c score := by
  unfold Survey.add
  dsimp only
  split
  · rfl
  · split <;> rfl

/-- The pass asks for the score of each child, once and in order, from tables with the counters
    of the first one. -/
theorem acts_survey (t : Tree) (tally : Tally) (weight : Score) (places : List Nat) :
    List.Forall₂ (fun act c => ∃ asked, Tally.SameCounts tally asked ∧ act = .score asked c)
      (surveyNoting t tally weight places).acts places := by
  have hpass : ∀ (places : List Nat) (v : Survey), Tally.SameCounts tally v.tally →
      List.Forall₂ (fun act c => ∃ asked, Tally.SameCounts tally asked ∧ act = .score asked c)
        (places.foldlM (Survey.visitNoting t weight) v).acts places := by
    intro places
    induction places with
    | nil => exact fun v _ => .nil
    | cons c places ih =>
      intro v hv
      rw [List.foldlM_cons, Noted.acts_bind, acts_visit, value_visit]
      refine .cons ⟨v.tally, hv, rfl⟩ (ih _ (hv.trans ?_))
      rw [Survey.visit, tally_add]
      exact Tally.sameCounts_keepScore _ _ _
  exact hpass places _ (Tally.SameCounts.refl tally)

omit [Logarithm] in
theorem exists_of_forall₂ {α β : Type} {R : α → β → Prop} {xs : List α} {ys : List β}
    (h : List.Forall₂ R xs ys) {x : α} (hx : x ∈ xs) : ∃ y ∈ ys, R x y := by
  induction h with
  | nil => cases hx
  | cons hxy _ ih =>
    rcases List.mem_cons.1 hx with rfl | hx
    · exact ⟨_, List.mem_cons_self, hxy⟩
    · obtain ⟨y, hy, hxy⟩ := ih hx
      exact ⟨y, List.mem_cons_of_mem _ hy, hxy⟩

variable {γ σ : Type} [RandomSource γ]

/-- The choice among the children of a node. -/
def bestChildNoting (t : Tree) (weight : Score) (i : Nat) (s : Session γ σ) :
    Noted (Option (Nat × Score) × Session γ σ) := do
  let found ← surveyNoting t s.tally weight (t.children i)
  let (choice, s) := { s with tally := found.tally }.choose found.leaders
  pure (choice.map (·, found.best), s)

theorem value_bestChild (t : Tree) (weight : Score) (i : Nat) (s : Session γ σ) :
    (bestChildNoting t weight i s).value = bestChild t weight i s := by
  rw [bestChildNoting, Noted.value_bind, value_survey]
  rfl

theorem acts_bestChild (t : Tree) (weight : Score) (i : Nat) (s : Session γ σ) :
    (bestChildNoting t weight i s).acts =
      (surveyNoting t s.tally weight (t.children i)).acts := by
  rw [bestChildNoting, Noted.acts_bind]
  exact List.append_nil _

/-- All it notes are scores of children, from tables with the same counters. -/
theorem exists_of_mem_acts_bestChild {s : Session γ σ} {act : Act}
    (h : act ∈ (bestChildNoting t weight i s).acts) :
    ∃ c ∈ t.children i, ∃ asked, Tally.SameCounts s.tally asked ∧ act = .score asked c := by
  rw [acts_bestChild] at h
  exact exists_of_forall₂ (acts_survey t s.tally weight (t.children i)) h

/-- It asks for the score of every child. -/
theorem exists_mem_acts_bestChild {s : Session γ σ} (hc : c ∈ t.children i) :
    ∃ asked, Act.score asked c ∈ (bestChildNoting t weight i s).acts := by
  obtain ⟨act, hmem, asked, -, rfl⟩ :=
    exists_of_forall₂ (acts_survey t s.tally weight (t.children i)).flip hc
  exact ⟨asked, acts_bestChild t weight i s ▸ hmem⟩

variable [Sink σ]

/-- The walk of selection. -/
def selectNoting (t : Tree) (weight : Score) (i : Nat) (s : Session γ σ) :
    Noted (Nat × Session γ σ) :=
  if (t.node i).isLeaf || hasUnvisited t s.tally i then pure (i, s)
  else
    let drawn := bestChildNoting t weight i s
    match _h : drawn.value with
    | (none, s) => ⟨(i, s), drawn.acts⟩
    | (some (c, score), s) =>
      let message := Message.selectionMoved (t.id i) (t.id c) score (s.tally.visits c)
        (s.tally.wins c)
      let rest := selectNoting t weight c
        ((s.log message).emit (.selectionStep (t.id i) (t.id c) score))
      ⟨rest.value, drawn.acts ++ rest.acts⟩
termination_by t.size - i
decreasing_by
  rw [value_bestChild] at _h
  exact Tree.size_sub_lt (mem_children_of_bestChild (by rw [_h]))

theorem value_select (t : Tree) (weight : Score) (i : Nat) (s : Session γ σ) :
    (selectNoting t weight i s).value = select t weight i s := by
  fun_induction selectNoting t weight i s with
  | case1 i s h => rw [select_of_stop h]; rfl
  | case2 i s h drawn s' hdrawn =>
    rw [value_bestChild] at hdrawn
    rw [select_of_bestChild_none h hdrawn]
  | case3 i s h drawn c score s' hdrawn message rest ih =>
    rw [value_bestChild] at hdrawn
    rw [select_of_bestChild h hdrawn]
    exact ih

section

variable {score : Score} {s s' : Session γ σ}

/-- A walk that stops asks for nothing. -/
theorem acts_select_of_stop (h : ((t.node i).isLeaf || hasUnvisited t s.tally i) = true) :
    (selectNoting t weight i s).acts = [] := by
  rw [selectNoting, if_pos h]
  rfl

/-- Where no child can be drawn, it has asked for the scores of all of them. -/
theorem acts_select_of_bestChild_none
    (h : ¬((t.node i).isLeaf || hasUnvisited t s.tally i) = true)
    (hbest : bestChild t weight i s = (none, s')) :
    (selectNoting t weight i s).acts = (bestChildNoting t weight i s).acts := by
  rw [← value_bestChild] at hbest
  rw [selectNoting, if_neg h]
  dsimp only
  split
  · rfl
  · rename_i hsome
    rw [hsome] at hbest
    cases hbest

/-- So it has before it goes on. -/
theorem acts_select_of_bestChild (h : ¬((t.node i).isLeaf || hasUnvisited t s.tally i) = true)
    (hbest : bestChild t weight i s = (some (c, score), s')) :
    (selectNoting t weight i s).acts =
      (bestChildNoting t weight i s).acts ++ (selectNoting t weight c
        ((s'.log (.selectionMoved (t.id i) (t.id c) score (s'.tally.visits c)
          (s'.tally.wins c))).emit (.selectionStep (t.id i) (t.id c) score))).acts := by
  rw [← value_bestChild] at hbest
  rw [selectNoting, if_neg h]
  dsimp only
  split
  · rename_i hnone
    rw [hnone] at hbest
    cases hbest
  · rename_i hsome
    rw [hsome] at hbest
    cases hbest
    rfl

end

end Selection

-- ============================================================================
-- Iterations and operations
-- ============================================================================

namespace Playout

/-- What an iteration counts. -/
def booking (p : Playout) : Booking := ⟨p.expanded, p.result⟩

end Playout

namespace Engine

variable {γ σ : Type}

/-- The counters are zeroed. -/
def resetNoting (s : Session γ σ) : Noted (Session γ σ) := ⟨reset s, [.reset]⟩

/-- A result is counted. -/
def backpropagateNoting [Sink σ] (e : Engine) (i : Nat) (result : Score) (s : Session γ σ) :
    Noted (Session γ σ) :=
  ⟨e.backpropagate i result s, [.count ⟨i, result⟩]⟩

variable [RandomSource γ] [Sink σ] [Logarithm]

/-- One iteration. -/
def iterateNoting (e : Engine) (s : Session γ σ) : Noted (Playout × Session γ σ) := do
  let iteration := s.completed + 1
  let s := { s with completed := iteration }.emit (.iterationStarted iteration)
  let (selected, s) ← selectNoting e.tree e.weight e.tree.root s
  let (expanded, s) := e.expand selected s
  let ((leaf, result), s) := e.simulate expanded s
  let s ← e.backpropagateNoting expanded result s
  let message := Message.iterationDone iteration (e.tree.id selected) (e.tree.id expanded)
    (e.tree.id leaf) result
  pure (⟨selected, expanded, leaf, result⟩, s.log message)

/-- A recommendation. -/
def recommendNoting (e : Engine) (s : Session γ σ) :
    Noted (Option Recommendation × Session γ σ) := do
  match ← bestChildNoting e.tree 0 e.tree.root s with
  | (none, s) => pure (none, s)
  | (some (c, _), s) =>
    let entry := s.tally.entry c
    let s := if entry.visits = 0 then s.log (.neverVisited (e.tree.id c)) else s
    pure (some ⟨c, e.tree.id c, entry.winRate, entry.visits, entry.wins⟩, s)

/-- So many iterations, as long as `ask` agrees. -/
def iterateWhileNoting {π : Type} (e : Engine) (ask : Nat → Tally → π → Bool × π) :
    Nat → π → Session γ σ → Noted (Bool × π × Session γ σ)
  | 0, p, s => pure (false, p, s)
  | remaining + 1, p, s =>
    let (goOn, p) := ask s.completed s.tally p
    if goOn then do
      let played ← e.iterateNoting s
      iterateWhileNoting e ask remaining p played.2
    else pure (true, p, s.log (.stoppedEarly s.completed e.iterations))

/-- The end of a run. -/
def concludeNoting (e : Engine) (aborted : Bool) (s : Session γ σ) :
    Noted (Result × Session γ σ) := do
  let done := s.completed
  let (best, s) ← e.recommendNoting s
  let s := match best with
    | some b => (s.log (.mctsFinished done b.id b.winRate b.visits)).emit
        (.bestChildChosen b.id b.winRate)
    | none => s.log (.mctsWithoutMove done)
  pure (⟨best, done, aborted, s.tally⟩, s)

/-- A run from zeroed counters. -/
def runWhileNoting {π : Type} (e : Engine) (ask : Nat → Tally → π → Bool × π) (p : π)
    (s : Session γ σ) : Noted (Result × π × Session γ σ) := do
  let s ← resetNoting s
  let (aborted, p, s) ← e.iterateWhileNoting ask e.iterations p s
  let (result, s) ← e.concludeNoting aborted s
  pure (result, p, s)

/-- An operation. -/
def applyNoting (e : Engine) (s : Session γ σ) : Op γ σ → Noted (Session γ σ)
  | .iterate => do
    let played ← e.iterateNoting s
    pure played.2
  | .run => do
    let ended ← e.runWhileNoting (fun _ _ p => (true, p)) () s
    pure ended.2.2
  | .runWhile ask p => do
    let ended ← e.runWhileNoting ask p s
    pure ended.2.2
  | .reset => resetNoting s
  | .expand i => pure (e.expand i s).2
  | .simulate i => pure (e.simulate i s).2
  | .recommend => do
    let recommended ← e.recommendNoting s
    pure recommended.2
  | .backpropagate i result => e.backpropagateNoting i result s
  | .handOver source channel => pure { s with source := source, channel := channel }

/-- A sequence of operations. -/
def performNoting (e : Engine) (ops : List (Op γ σ)) (s : Session γ σ) : Noted (Session γ σ) :=
  ops.foldlM e.applyNoting s

/-- The notes of an operation. -/
def acts (e : Engine) (s : Session γ σ) (op : Op γ σ) : List Act := (e.applyNoting s op).acts

/-- The notes of a sequence of operations. -/
def history (e : Engine) (ops : List (Op γ σ)) (s : Session γ σ) : List Act :=
  (e.performNoting ops s).acts

-- ============================================================================
-- Without the notes
-- ============================================================================

theorem value_iterate (e : Engine) (s : Session γ σ) : (e.iterateNoting s).value = e.iterate s := by
  simp only [iterateNoting, Noted.value_bind, value_select]
  rfl

omit [Sink σ] in
theorem value_recommend (e : Engine) (s : Session γ σ) :
    (e.recommendNoting s).value = e.recommend s := by
  rw [recommendNoting, Noted.value_bind, value_bestChild, recommend]
  rcases bestChild e.tree 0 e.tree.root s with ⟨_ | ⟨c, score⟩, s'⟩ <;> rfl

theorem value_iterateWhile {π : Type} (e : Engine) (ask : Nat → Tally → π → Bool × π)
    (remaining : Nat) (p : π) (s : Session γ σ) :
    (e.iterateWhileNoting ask remaining p s).value = e.iterateWhile ask remaining p s := by
  induction remaining generalizing p s with
  | zero => rfl
  | succ remaining ih =>
    unfold iterateWhileNoting iterateWhile
    dsimp only
    split
    · rw [Noted.value_bind, value_iterate, ih]
    · rfl

theorem value_conclude (e : Engine) (aborted : Bool) (s : Session γ σ) :
    (e.concludeNoting aborted s).value = e.conclude aborted s := by
  simp only [concludeNoting, Noted.value_bind, value_recommend]
  rfl

theorem value_runWhile {π : Type} (e : Engine) (ask : Nat → Tally → π → Bool × π) (p : π)
    (s : Session γ σ) : (e.runWhileNoting ask p s).value = e.runWhile ask p s := by
  simp only [runWhileNoting, Noted.value_bind, value_iterateWhile, value_conclude]
  rfl

theorem value_apply (e : Engine) (s : Session γ σ) (op : Op γ σ) :
    (e.applyNoting s op).value = e.apply s op := by
  cases op with
  | iterate => exact congrArg Prod.snd (e.value_iterate s)
  | run => exact congrArg (fun r => r.2.2) (e.value_runWhile (fun _ _ p => (true, p)) () s)
  | runWhile ask p => exact congrArg (fun r => r.2.2) (e.value_runWhile ask p s)
  | recommend => exact congrArg Prod.snd (e.value_recommend s)
  | _ => rfl

/-- The engine with notes does what the engine does. -/
theorem value_perform (e : Engine) (ops : List (Op γ σ)) (s : Session γ σ) :
    (e.performNoting ops s).value = e.perform ops s :=
  Noted.value_foldlM e.value_apply ops s

-- ============================================================================
-- The notes
-- ============================================================================

/-- An iteration has the notes of its selection, and one of its result. -/
theorem acts_iterate (e : Engine) (s : Session γ σ) :
    (e.iterateNoting s).acts =
      (selectNoting e.tree e.weight e.tree.root (announced s)).acts ++
        [.count (e.iterate s).1.booking] := by
  simp only [iterateNoting, Noted.acts_bind, Noted.acts_pure, value_select]
  rfl

omit [Sink σ] in
/-- A recommendation asks for the scores of the children of the root. -/
theorem acts_recommend (e : Engine) (s : Session γ σ) :
    (e.recommendNoting s).acts = (bestChildNoting e.tree 0 e.tree.root s).acts := by
  rw [recommendNoting, Noted.acts_bind]
  split <;> exact List.append_nil _

theorem acts_conclude (e : Engine) (aborted : Bool) (s : Session γ σ) :
    (e.concludeNoting aborted s).acts = (e.recommendNoting s).acts := by
  rw [concludeNoting, Noted.acts_bind]
  exact List.append_nil _

/-- A run zeroes the counters, iterates, and asks for the scores of its recommendation. -/
theorem acts_runWhile {π : Type} (e : Engine) (ask : Nat → Tally → π → Bool × π) (p : π)
    (s : Session γ σ) :
    (e.runWhileNoting ask p s).acts =
      [.reset] ++ ((e.iterateWhileNoting ask e.iterations p (reset s)).acts ++
        (e.recommendNoting (e.iterateWhile ask e.iterations p (reset s)).2.2).acts) := by
  simp only [runWhileNoting, Noted.acts_bind, Noted.acts_pure, acts_conclude, List.append_nil]
  rw [← value_iterateWhile]
  rfl

theorem history_cons (e : Engine) (op : Op γ σ) (ops : List (Op γ σ)) (s : Session γ σ) :
    e.history (op :: ops) s = e.acts s op ++ e.history ops (e.apply s op) := by
  rw [history, performNoting, List.foldlM_cons, Noted.acts_bind, value_apply]
  rfl

end Engine

end GameSearch.Mcts
