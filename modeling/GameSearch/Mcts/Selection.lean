/-
  GameSearch.Mcts.Selection

  Scores of nodes and the walk that follows them.  The score of a node weighs its
  share of wins against how rarely it was visited; the walk goes from a node to a
  child with the greatest score as long as every child was visited.

    * `ucb1`       — the score of a node
    * `survey`     — one pass over children that scores them and finds the greatest score
    * `bestChild`  — the choice among the children that have it
    * `select`     — the walk
-/
import GameSearch.Mcts.Tally
import GameSearch.Random.Source
import GameSearch.Sink
import GameSearch.Tree.Walk

namespace GameSearch.Mcts

/-- The share of wins of a node plus the weighted exploration term
    `sqrt (log (visits of the parent) / visits)`.  A node without visits scores infinitely high,
    the root has no exploration term, and below a parent without visits it is infinite. -/
def ucb1 [Logarithm] (t : Tree) (tally : Tally) (weight : Score) (i : Nat) : Score :=
  if tally.visits i = 0 then Score.top
  else
    let visits := Float.ofNat (tally.visits i)
    let exploitation := Float.ofNat (tally.wins i) / visits
    let exploration := match t.parent i with
      | none => 0
      | some p =>
        if tally.visits p = 0 then Score.top
        else weight * (Logarithm.log (Float.ofNat (tally.visits p)) / visits).sqrt
    exploitation + exploration

/-- What a pass over children has come to. -/
structure Survey where
  /-- The table, in which the scores so far are kept. -/
  tally : Tally
  /-- The greatest score so far. -/
  best : Score
  /-- The children so far that have it. -/
  leaders : List Nat

/-- One more child with its score, which is kept and compared.  A greater score begins a new list
    of leaders, an equal one extends the list. -/
def Survey.add (v : Survey) (c : Nat) (score : Score) : Survey :=
  let tally := v.tally.keepScore c score
  if v.best < score then ⟨tally, score, [c]⟩
  else if score == v.best then ⟨tally, v.best, v.leaders ++ [c]⟩
  else ⟨tally, v.best, v.leaders⟩

/-- One more child: its score is read off the table as it is now. -/
def Survey.visit [Logarithm] (t : Tree) (weight : Score) (v : Survey) (c : Nat) : Survey :=
  v.add c (ucb1 t v.tally weight c)

/-- A pass over children. -/
def survey [Logarithm] (t : Tree) (tally : Tally) (weight : Score) (places : List Nat) : Survey :=
  places.foldl (Survey.visit t weight) ⟨tally, Score.bottom, []⟩

/-- Only children that were passed over lead. -/
theorem mem_of_mem_leaders [Logarithm] {t : Tree} {tally : Tally} {weight : Score}
    {places : List Nat} {c : Nat} (h : c ∈ (survey t tally weight places).leaders) :
    c ∈ places := by
  have hpass : ∀ (places : List Nat) (v : Survey),
      c ∈ (places.foldl (Survey.visit t weight) v).leaders → c ∈ v.leaders ∨ c ∈ places := by
    intro places
    induction places with
    | nil => exact fun v h => .inl h
    | cons d places ih =>
      intro v h
      rcases ih _ h with hlead | hmem
      · have hvisit : c ∈ v.leaders ∨ c = d := by
          unfold Survey.visit Survey.add at hlead
          dsimp only at hlead
          split at hlead
          · exact .inr (List.mem_singleton.1 hlead)
          · split at hlead
            · exact (List.mem_append.1 hlead).imp_right List.mem_singleton.1
            · exact .inl hlead
        exact hvisit.imp_right fun hcd : c = d => hcd ▸ List.mem_cons_self
      · exact .inr (List.mem_cons_of_mem _ hmem)
  exact (hpass places _ h).resolve_left List.not_mem_nil

/-- What a search changes from step to step. -/
structure Session (γ σ : Type) where
  tally : Tally
  /-- Iterations since the counters were zero. -/
  completed : Nat
  source : γ
  channel : Channel σ

variable {γ σ : Type}

namespace Session

/-- Gives an event to the sink if it wants events. -/
def emit [Sink σ] (e : Event) (s : Session γ σ) : Session γ σ :=
  { s with channel := s.channel.emit e }

/-- Adds a message to the journal. -/
def log (m : Message) (s : Session γ σ) : Session γ σ := { s with channel := s.channel.log m }

end Session

variable [RandomSource γ]

namespace Session

/-- Draws an element of a list. -/
def choose {α : Type} (xs : List α) (s : Session γ σ) : Option α × Session γ σ :=
  let (x, source) := RandomSource.choose xs s.source
  (x, { s with source := source })

end Session

variable [Logarithm]

/-- A child with the greatest score, drawn from all such children, and that score.  The scores of
    all children are kept. -/
def bestChild (t : Tree) (weight : Score) (i : Nat) (s : Session γ σ) :
    Option (Nat × Score) × Session γ σ :=
  let found := survey t s.tally weight (t.children i)
  let (choice, s) := { s with tally := found.tally }.choose found.leaders
  (choice.map (·, found.best), s)

/-- The child that is drawn is a child of the node. -/
theorem mem_children_of_bestChild {t : Tree} {weight : Score} {i c : Nat} {score : Score}
    {s : Session γ σ} (h : (bestChild t weight i s).1 = some (c, score)) : c ∈ t.children i := by
  simp only [bestChild, Session.choose, Option.map_eq_some_iff, Prod.mk.injEq] at h
  obtain ⟨d, hd, rfl, _⟩ := h
  exact mem_of_mem_leaders (RandomSource.mem_of_choose hd)

/-- A child of the node has no visits. -/
def hasUnvisited (t : Tree) (tally : Tally) (i : Nat) : Bool :=
  (t.children i).any fun c => tally.visits c == 0

/-- Walks from a node to children with the greatest score, up to the first node that is a leaf or
    has a child without visits. -/
def select [Sink σ] (t : Tree) (weight : Score) (i : Nat) (s : Session γ σ) : Nat × Session γ σ :=
  if (t.node i).isLeaf || hasUnvisited t s.tally i then (i, s)
  else
    match _h : bestChild t weight i s with
    | (none, s) => (i, s)
    | (some (c, score), s) =>
      let message := Message.selectionMoved (t.id i) (t.id c) score (s.tally.visits c)
        (s.tally.wins c)
      select t weight c ((s.log message).emit (.selectionStep (t.id i) (t.id c) score))
termination_by t.size - i
decreasing_by
  exact Tree.size_sub_lt (mem_children_of_bestChild (by rw [_h]))

section Select

variable [Sink σ] {t : Tree} {weight : Score} {i c : Nat} {score : Score} {s s' : Session γ σ}

/-- The walk ends at a leaf and at a node with a child without visits. -/
theorem select_of_stop (h : ((t.node i).isLeaf || hasUnvisited t s.tally i) = true) :
    select t weight i s = (i, s) := by
  rw [select, if_pos h]

/-- It ends where no child can be drawn. -/
theorem select_of_bestChild_none (h : ¬((t.node i).isLeaf || hasUnvisited t s.tally i) = true)
    (hbest : bestChild t weight i s = (none, s')) : select t weight i s = (i, s') := by
  rw [select, if_neg h]
  split
  · rename_i hbest'
    rw [hbest] at hbest'
    cases hbest'
    rfl
  · rename_i hbest'
    rw [hbest] at hbest'
    cases hbest'

/-- Otherwise it goes on from the child that was drawn. -/
theorem select_of_bestChild (h : ¬((t.node i).isLeaf || hasUnvisited t s.tally i) = true)
    (hbest : bestChild t weight i s = (some (c, score), s')) :
    select t weight i s = select t weight c
      ((s'.log (.selectionMoved (t.id i) (t.id c) score (s'.tally.visits c)
        (s'.tally.wins c))).emit (.selectionStep (t.id i) (t.id c) score)) := by
  rw [select, if_neg h]
  split
  · rename_i hbest'
    rw [hbest] at hbest'
    cases hbest'
  · rename_i hbest'
    rw [hbest] at hbest'
    cases hbest'
    rfl

end Select

end GameSearch.Mcts
