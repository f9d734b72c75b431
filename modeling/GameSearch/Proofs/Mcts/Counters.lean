/-
  GameSearch.Proofs.Mcts.Counters

  What each step of a Monte Carlo search does to the counters.  Events, messages and
  random draws leave the table alone, scores are kept without touching a counter, and
  a backpropagation adds one visit to every node of a line.

    * `SameCounts`, `SameTable` — nothing was counted; nor was a score kept
    * `visits_recordVisits`     — one more visit at each place of a list, none elsewhere
    * `backpropagate_tally`     — a backpropagation does this on the line of a node
-/
import GameSearch.Mcts.Engine
import GameSearch.Proofs.Tree.Ancestry

namespace GameSearch.Mcts

-- ============================================================================
-- One table
-- ============================================================================

/-- The counters of a node after one more visit. -/
def Entry.count (win : Bool) (e : Entry) : Entry :=
  { e with visits := e.visits + 1, wins := if win then e.wins + 1 else e.wins }

namespace Tally

theorem entry_modify (t : Tally) (f : Entry → Entry) (i j : Nat) :
    (Tally.mk (t.entries.modify i f)).entry j =
      if i = j ∧ i < t.entries.size then f (t.entry j) else t.entry j := by
  simp only [entry, Array.getD_eq_getD_getElem?, Array.getElem?_modify]
  by_cases hij : i = j
  · subst hij
    by_cases hi : i < t.entries.size
    · simp [hi]
    · simp [hi]
  · simp [hij]

theorem entry_zero (size i : Nat) : (zero size).entry i = Entry.zero := by
  simp only [entry, zero, Array.getD_eq_getD_getElem?, Array.getElem?_replicate]
  split <;> rfl

theorem visits_zero (size i : Nat) : (zero size).visits i = 0 := by
  rw [visits, entry_zero]
  rfl

theorem wins_zero (size i : Nat) : (zero size).wins i = 0 := by
  rw [wins, entry_zero]
  rfl

@[simp] theorem size_zero (size : Nat) : (zero size).entries.size = size := by
  simp [zero]

@[simp] theorem size_recordVisit (t : Tally) (i : Nat) (win : Bool) :
    (t.recordVisit i win).entries.size = t.entries.size := Array.size_modify

@[simp] theorem size_keepScore (t : Tally) (i : Nat) (score : Score) :
    (t.keepScore i score).entries.size = t.entries.size := Array.size_modify

variable {t : Tally} {i : Nat}

/-- Outside the table stands an entry without visits. -/
theorem entry_of_size_le (h : t.entries.size ≤ i) : t.entry i = Entry.zero := by
  rw [entry, Array.getD_eq_getD_getElem?, Array.getElem?_eq_none h]
  rfl

theorem visits_of_size_le (h : t.entries.size ≤ i) : t.visits i = 0 := by
  rw [visits, entry_of_size_le h]
  rfl

theorem entry_recordVisit (hi : i < t.entries.size) (win : Bool) (j : Nat) :
    (t.recordVisit i win).entry j = if j = i then (t.entry j).count win else t.entry j := by
  rw [recordVisit, entry_modify]
  by_cases hij : i = j
  · rw [if_pos ⟨hij, hi⟩, if_pos hij.symm]
    rfl
  · rw [if_neg (fun h => hij h.1), if_neg (fun h => hij h.symm)]

/-- Counts one more visit at each of some places. -/
def recordVisits (places : List Nat) (win : Bool) (t : Tally) : Tally :=
  places.foldl (fun t i => t.recordVisit i win) t

theorem recordVisits_cons (i : Nat) (places : List Nat) (win : Bool) (t : Tally) :
    t.recordVisits (i :: places) win = (t.recordVisit i win).recordVisits places win := rfl

@[simp] theorem size_recordVisits (places : List Nat) (win : Bool) (t : Tally) :
    (t.recordVisits places win).entries.size = t.entries.size := by
  induction places generalizing t with
  | nil => rfl
  | cons i places ih =>
    rw [recordVisits_cons, ih, size_recordVisit]

variable {places : List Nat}

/-- A visit leaves the kept scores alone. -/
theorem score_recordVisit (i : Nat) (win : Bool) (j : Nat) :
    (t.recordVisit i win).score j = t.score j := by
  rw [score, score, recordVisit, entry_modify]
  split <;> rfl

theorem score_keepScore (i : Nat) (x : Score) (j : Nat) :
    (t.keepScore i x).score j = if i = j ∧ i < t.entries.size then x else t.score j := by
  rw [score, score, keepScore, entry_modify]
  split <;> rfl

/-- No place stands twice in the list, so none is counted twice. -/
theorem entry_recordVisits (hnodup : places.Nodup) (hsize : ∀ i ∈ places, i < t.entries.size)
    (win : Bool) (j : Nat) :
    (t.recordVisits places win).entry j =
      if j ∈ places then (t.entry j).count win else t.entry j := by
  induction places generalizing t with
  | nil => rfl
  | cons i places ih =>
    obtain ⟨hi, hnodup⟩ := List.nodup_cons.1 hnodup
    have hrest : ∀ k ∈ places, k < (t.recordVisit i win).entries.size := by
      intro k hk
      rw [size_recordVisit]
      exact hsize k (List.mem_cons_of_mem _ hk)
    rw [recordVisits_cons, ih hnodup hrest, entry_recordVisit (hsize i List.mem_cons_self)]
    by_cases hj : j = i
    · simp [hj, hi]
    · simp [hj]

/-- Places that are not in the list are not counted. -/
theorem entry_recordVisits_of_not_mem {j : Nat} (hj : j ∉ places) (win : Bool) :
    (t.recordVisits places win).entry j = t.entry j := by
  induction places generalizing t with
  | nil => rfl
  | cons i places ih =>
    obtain ⟨hij, hj⟩ := not_or.1 (mt List.mem_cons.2 hj)
    rw [recordVisits_cons, ih hj, recordVisit, entry_modify, if_neg fun h => hij h.1.symm]

theorem visits_recordVisits (hnodup : places.Nodup) (hsize : ∀ i ∈ places, i < t.entries.size)
    (win : Bool) (j : Nat) :
    (t.recordVisits places win).visits j = t.visits j + if j ∈ places then 1 else 0 := by
  rw [visits, entry_recordVisits hnodup hsize]
  split <;> rfl

theorem wins_recordVisits (hnodup : places.Nodup) (hsize : ∀ i ∈ places, i < t.entries.size)
    (win : Bool) (j : Nat) :
    (t.recordVisits places win).wins j =
      t.wins j + if j ∈ places ∧ win = true then 1 else 0 := by
  rw [wins, entry_recordVisits hnodup hsize]
  by_cases hj : j ∈ places
  · cases win <;> simp [hj, Entry.count, wins]
  · simp [hj, wins]

/-- Tables of one size with the same visits and wins everywhere. -/
structure SameCounts (t t' : Tally) : Prop where
  size : t'.entries.size = t.entries.size
  visits : ∀ i, t'.visits i = t.visits i
  wins : ∀ i, t'.wins i = t.wins i

theorem SameCounts.refl (t : Tally) : SameCounts t t :=
  ⟨rfl, fun _ => rfl, fun _ => rfl⟩

theorem SameCounts.trans {t t' t'' : Tally} (h : SameCounts t t') (h' : SameCounts t' t'') :
    SameCounts t t'' :=
  ⟨h'.size.trans h.size, fun i => (h'.visits i).trans (h.visits i),
    fun i => (h'.wins i).trans (h.wins i)⟩

theorem SameCounts.symm {t t' : Tally} (h : SameCounts t t') : SameCounts t' t :=
  ⟨h.size.symm, fun i => (h.visits i).symm, fun i => (h.wins i).symm⟩

/-- One more visit on both sides. -/
theorem SameCounts.recordVisit {t t' : Tally} (h : SameCounts t t') (i : Nat) (win : Bool) :
    SameCounts (t.recordVisit i win) (t'.recordVisit i win) := by
  have hentry : ∀ j, ((t'.recordVisit i win).entry j).visits =
        ((t.recordVisit i win).entry j).visits ∧
      ((t'.recordVisit i win).entry j).wins = ((t.recordVisit i win).entry j).wins := by
    intro j
    have hvisits : (t'.entry j).visits = (t.entry j).visits := h.visits j
    have hwins : (t'.entry j).wins = (t.entry j).wins := h.wins j
    rw [Tally.recordVisit, Tally.recordVisit, entry_modify, entry_modify, h.size]
    split
    · dsimp only
      rw [hvisits, hwins]
      exact ⟨rfl, rfl⟩
    · exact ⟨hvisits, hwins⟩
  refine ⟨?_, fun j => (hentry j).1, fun j => (hentry j).2⟩
  rw [size_recordVisit, size_recordVisit, h.size]

/-- Shares of wins do not depend on the scores that were kept. -/
theorem SameCounts.winRate {t t' : Tally} (h : SameCounts t t') (i : Nat) :
    t'.winRate i = t.winRate i := by
  have hvisits : (t'.entry i).visits = (t.entry i).visits := h.visits i
  have hwins : (t'.entry i).wins = (t.entry i).wins := h.wins i
  rw [Tally.winRate, Tally.winRate, Entry.winRate, Entry.winRate, hvisits, hwins]

theorem sameCounts_keepScore (t : Tally) (i : Nat) (score : Score) :
    SameCounts t (t.keepScore i score) := by
  have hentry : ∀ j, ((t.keepScore i score).entry j).visits = (t.entry j).visits ∧
      ((t.keepScore i score).entry j).wins = (t.entry j).wins := by
    intro j
    rw [keepScore, entry_modify]
    split <;> exact ⟨rfl, rfl⟩
  exact ⟨size_keepScore t i score, fun j => (hentry j).1, fun j => (hentry j).2⟩

end Tally

-- ============================================================================
-- Sessions
-- ============================================================================

variable {γ σ : Type}

namespace Session

/-- Sessions that differ in the source of choices and the channel at most. -/
structure SameTable (s s' : Session γ σ) : Prop where
  tally : s'.tally = s.tally
  completed : s'.completed = s.completed

/-- Sessions that may differ in kept scores too. -/
structure SameCounts (s s' : Session γ σ) : Prop where
  tally : Tally.SameCounts s.tally s'.tally
  completed : s'.completed = s.completed

variable {s s' s'' : Session γ σ}

theorem SameTable.trans (h : SameTable s s') (h' : SameTable s' s'') : SameTable s s'' :=
  ⟨h'.tally.trans h.tally, h'.completed.trans h.completed⟩

theorem SameTable.sameCounts (h : SameTable s s') : SameCounts s s' := by
  refine ⟨?_, h.completed⟩
  rw [h.tally]
  exact Tally.SameCounts.refl _

theorem SameCounts.refl (s : Session γ σ) : SameCounts s s := ⟨Tally.SameCounts.refl _, rfl⟩

theorem SameCounts.trans (h : SameCounts s s') (h' : SameCounts s' s'') : SameCounts s s'' :=
  ⟨h.tally.trans h'.tally, h'.completed.trans h.completed⟩

theorem sameTable_log (m : Message) (s : Session γ σ) : SameTable s (s.log m) := ⟨rfl, rfl⟩

theorem sameTable_emit [Sink σ] (e : Event) (s : Session γ σ) : SameTable s (s.emit e) :=
  ⟨rfl, rfl⟩

theorem sameTable_choose [RandomSource γ] {α : Type} (xs : List α) (s : Session γ σ) :
    SameTable s (s.choose xs).2 := ⟨rfl, rfl⟩

end Session

namespace Engine

theorem reset_tally (s : Session γ σ) : (reset s).tally = Tally.zero s.tally.entries.size := rfl

variable [RandomSource γ]

theorem sameTable_descend (e : Engine) (i : Nat) (s : Session γ σ) :
    s.SameTable (e.descend i s).2 := by
  fun_induction descend e i s with
  | case1 i s c s' h ih =>
    obtain rfl : s' = (s.choose (e.tree.children i)).2 := by rw [h]
    exact (Session.sameTable_choose _ s).trans ih
  | case2 i s s' h =>
    obtain rfl : s' = (s.choose (e.tree.children i)).2 := by rw [h]
    exact Session.sameTable_choose _ s

theorem sameTable_resultAt (e : Engine) (leaf : Nat) (s : Session γ σ) :
    s.SameTable (e.resultAt leaf s).2 := by
  unfold resultAt
  split <;> exact ⟨rfl, rfl⟩

variable [Sink σ]

/-- A playout counts nothing. -/
theorem sameTable_simulate (e : Engine) (i : Nat) (s : Session γ σ) :
    s.SameTable (e.simulate i s).2 := by
  have hdescend := e.sameTable_descend i s
  have hresult := e.sameTable_resultAt (e.descend i s).1 (e.descend i s).2
  exact (hdescend.trans hresult).trans (Session.sameTable_emit _ _)

/-- Expansion counts nothing. -/
theorem sameTable_expand (e : Engine) (i : Nat) (s : Session γ σ) :
    s.SameTable (e.expand i s).2 := by
  have hchoose := s.sameTable_choose ((e.tree.children i).filter fun c => s.tally.visits c == 0)
  unfold expand
  split
  · rename_i c s' h
    rw [h] at hchoose
    exact hchoose.trans (Session.sameTable_emit _ _)
  · rename_i s' h
    rw [h] at hchoose
    exact hchoose

omit [RandomSource γ]

/-- A backpropagation counts the nodes of one line. -/
theorem backpropagate_tally (e : Engine) (i : Nat) (result : Score) (s : Session γ σ) :
    (e.backpropagate i result s).tally =
      s.tally.recordVisits (e.tree.ancestors i) (isWin result) := by
  unfold backpropagate
  generalize e.tree.ancestors i = places
  induction places generalizing s with
  | nil => rfl
  | cons a places ih => exact ih _

theorem backpropagate_completed (e : Engine) (i : Nat) (result : Score)
    (s : Session γ σ) : (e.backpropagate i result s).completed = s.completed := by
  unfold backpropagate
  generalize e.tree.ancestors i = places
  induction places generalizing s with
  | nil => rfl
  | cons a places ih => exact ih _

end Engine

end GameSearch.Mcts
