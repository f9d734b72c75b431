/-
  GameSearch.Proofs.Mcts.Operations

  Whatever a caller may do with an engine, in any order.  What single iterations, resets
  and steps that count nothing pass on is passed on by every sequence of operations, so
  a run needs no argument of its own.

    * `Accepted`          — the settings of an engine are in range
    * `Op`, `perform`     — a sequence of operations on a session
    * `Invariant`         — a statement that the elementary steps pass on
    * `Invariant.perform` — every sequence of operations passes it on
-/
import GameSearch.Proofs.Mcts.Selection
import GameSearch.Proofs.Tree.WellFormed
import GameSearch.Random.Generator

namespace GameSearch.Mcts

/-- An operation on a session. -/
inductive Op (γ σ : Type) : Type 1 where
  | iterate
  | run
  | runWhile {π : Type} (ask : Nat → Tally → π → Bool × π) (p : π)
  | reset
  | expand (i : Nat)
  | simulate (i : Nat)
  | recommend
  | backpropagate (i : Nat) (result : Score)
  /-- The caller goes on with another source of random choices and another channel. -/
  | handOver (source : γ) (channel : Channel σ)

/-- Whether an operation counts a result that no iteration found. -/
def Op.isManual {γ σ : Type} : Op γ σ → Bool
  | .backpropagate _ _ => true
  | _ => false

namespace Engine

theorem checkWeight_eq_ok_iff {weight : Score} :
    Config.checkWeight weight = .ok () ↔
      weight.isNaN = false ∧ weight.isInf = false ∧ ¬ weight < 0 := by
  unfold Config.checkWeight
  split
  · rename_i h
    constructor
    · intro hok
      cases hok
    · rintro ⟨hnan, hinf, -⟩
      rw [hnan, hinf] at h
      exact absurd h Bool.false_ne_true
  · rename_i h
    rw [Bool.not_eq_true, Bool.or_eq_false_iff] at h
    split
    · rename_i hneg
      constructor
      · intro hok
        cases hok
      · exact fun hok => absurd hneg hok.2.2
    · rename_i hneg
      exact ⟨fun _ => ⟨h.1, h.2, hneg⟩, fun _ => rfl⟩

/-- An engine is made of its settings if there is an iteration and the weight is in range. -/
theorem create_eq_ok_iff {t : Tree} {iterations : Nat} {weight : Score} {e : Engine} :
    create t iterations weight = .ok e ↔
      1 ≤ iterations ∧ Config.checkWeight weight = .ok () ∧ e = ⟨t, iterations, weight⟩ := by
  unfold create
  split
  · rename_i hbelow
    constructor
    · intro hok
      cases hok
    · rintro ⟨hone, -⟩
      omega
  · rename_i hone
    cases hcheck : Config.checkWeight weight with
    | error fault =>
      constructor
      · intro hok
        cases hok
      · rintro ⟨-, hok, -⟩
        cases hok
    | ok u =>
      constructor
      · intro hok
        exact ⟨by omega, rfl, (Except.ok.inj hok).symm⟩
      · rintro ⟨-, -, rfl⟩
        rfl

/-- An engine whose settings are in range. -/
def Accepted (e : Engine) : Prop := create e.tree e.iterations e.weight = .ok e

theorem Accepted.weight {e : Engine} (h : e.Accepted) : e.weight.isFinite = true := by
  obtain ⟨-, hcheck, -⟩ := create_eq_ok_iff.1 h
  obtain ⟨hnan, hinf, -⟩ := checkWeight_eq_ok_iff.1 hcheck
  exact Score.isFinite_of_isNaN hnan hinf

/-- An engine over the small tree, for use in examples. -/
def small : Engine := ⟨Tree.small, 10, 1.4⟩

theorem accepted_small : small.Accepted := by
  have hnan : (1.4 : Score).isNaN = false := by decide
  have hinf : (1.4 : Score).isInf = false := by decide
  have hpos : ¬ (1.4 : Score) < 0 := by decide
  exact create_eq_ok_iff.2 ⟨by decide, checkWeight_eq_ok_iff.2 ⟨hnan, hinf, hpos⟩, rfl⟩

/-- A session of that engine before any iteration. -/
def smallStart : Session Random.Generator NullSink :=
  small.start (Random.Generator.ofSeed 7) ⟨NullSink.mk, Journal.silent⟩

variable {γ σ : Type} [RandomSource γ] [Sink σ] [Logarithm]

/-- The session after an operation. -/
def apply (e : Engine) (s : Session γ σ) : Op γ σ → Session γ σ
  | .iterate => (e.iterate s).2
  | .run => (e.run s).2
  | .runWhile ask p => (e.runWhile ask p s).2.2
  | .reset => reset s
  | .expand i => (e.expand i s).2
  | .simulate i => (e.simulate i s).2
  | .recommend => (e.recommend s).2
  | .backpropagate i result => e.backpropagate i result s
  | .handOver source channel => { s with source := source, channel := channel }

/-- The session after a sequence of operations. -/
def perform (e : Engine) (ops : List (Op γ σ)) (s : Session γ σ) : Session γ σ :=
  ops.foldl e.apply s

omit [Sink σ] in
/-- A recommendation keeps scores and counts nothing. -/
theorem sameCounts_recommend (e : Engine) (s : Session γ σ) :
    s.SameCounts (e.recommend s).2 := by
  have hcounts := sameCounts_bestChild e.tree 0 e.tree.root s
  unfold recommend
  split
  · rename_i s' h
    rw [h] at hcounts
    exact hcounts
  · rename_i c score s' h
    rw [h] at hcounts
    dsimp only
    split
    · exact hcounts.trans (Session.sameTable_log _ _).sameCounts
    · exact hcounts

theorem sameCounts_conclude (e : Engine) (aborted : Bool) (s : Session γ σ) :
    s.SameCounts (e.conclude aborted s).2 := by
  have hcounts := e.sameCounts_recommend s
  unfold conclude
  dsimp only
  split
  · refine hcounts.trans (Session.SameTable.sameCounts ?_)
    exact (Session.sameTable_log _ _).trans (Session.sameTable_emit _ _)
  · exact hcounts.trans (Session.sameTable_log _ _).sameCounts

/-- A loop completes no more iterations than it has left. -/
theorem iterateWhile_completed_le (e : Engine) {π : Type} (ask : Nat → Tally → π → Bool × π)
    (remaining : Nat) (p : π) (s : Session γ σ) :
    (e.iterateWhile ask remaining p s).2.2.completed ≤ s.completed + remaining := by
  induction remaining generalizing p s with
  | zero => exact Nat.le_refl _
  | succ remaining ih =>
    unfold iterateWhile
    dsimp only
    split
    · have hle := ih (ask s.completed s.tally p).2 (e.iterate s).2
      rw [(iterate_spec e s).1] at hle
      omega
    · show s.completed ≤ s.completed + (remaining + 1)
      omega

/-- A run is a loop from zeroed counters and its conclusion. -/
theorem runWhile_session (e : Engine) {π : Type} (ask : Nat → Tally → π → Bool × π) (p : π)
    (s : Session γ σ) :
    (e.runWhile ask p s).2.2 =
      (e.conclude (e.iterateWhile ask e.iterations p (reset s)).1
        (e.iterateWhile ask e.iterations p (reset s)).2.2).2 := rfl

theorem runWhile_completed_le (e : Engine) {π : Type} (ask : Nat → Tally → π → Bool × π) (p : π)
    (s : Session γ σ) : (e.runWhile ask p s).2.2.completed ≤ e.iterations := by
  have hle := e.iterateWhile_completed_le ask e.iterations p (reset s)
  have hzero : (reset s).completed = 0 := rfl
  rw [hzero, Nat.zero_add] at hle
  rw [runWhile_session, (e.sameCounts_conclude _ _).completed]
  exact hle

/-- No operation completes more iterations than a run has, or one. -/
theorem apply_completed_le (e : Engine) (s : Session γ σ) (op : Op γ σ) :
    (e.apply s op).completed ≤ s.completed + (e.iterations + 1) := by
  cases op with
  | iterate =>
    have : (e.apply s .iterate).completed = s.completed + 1 := (iterate_spec e s).1
    omega
  | run =>
    have : (e.apply s .run).completed ≤ e.iterations := e.runWhile_completed_le _ _ s
    omega
  | runWhile ask p =>
    have : (e.apply s (.runWhile ask p)).completed ≤ e.iterations :=
      e.runWhile_completed_le ask p s
    omega
  | reset => exact Nat.zero_le _
  | expand i =>
    have : (e.apply s (.expand i)).completed = s.completed := (e.sameTable_expand i s).completed
    omega
  | simulate i =>
    have : (e.apply s (.simulate i)).completed = s.completed := (e.sameTable_simulate i s).completed
    omega
  | recommend =>
    have : (e.apply s .recommend).completed = s.completed := (e.sameCounts_recommend s).completed
    omega
  | backpropagate i result =>
    have : (e.apply s (.backpropagate i result)).completed = s.completed :=
      e.backpropagate_completed i result s
    omega
  | handOver source channel => exact Nat.le_add_right _ _

theorem perform_completed_le (e : Engine) (ops : List (Op γ σ)) (s : Session γ σ) :
    (e.perform ops s).completed ≤ s.completed + ops.length * (e.iterations + 1) := by
  induction ops generalizing s with
  | nil => exact Nat.le_add_right _ _
  | cons op ops ih =>
    have hrest := ih (e.apply s op)
    have hop := e.apply_completed_le s op
    rw [List.length_cons, Nat.add_mul, Nat.one_mul]
    show (e.perform ops (e.apply s op)).completed ≤ _
    omega

/-- A statement about sessions that survives iterations, resets and whatever counts nothing. -/
structure Invariant (e : Engine) (p : Session γ σ → Prop) : Prop where
  quiet : ∀ {s s' : Session γ σ}, s.SameCounts s' → p s → p s'
  iterate : ∀ {s : Session γ σ}, p s → p (e.iterate s).2
  reset : ∀ {s : Session γ σ}, p s → p (reset s)

namespace Invariant

variable {e : Engine} {p : Session γ σ → Prop} {π : Type}

theorem iterateWhile (hp : Invariant e p) (ask : Nat → Tally → π → Bool × π) (remaining : Nat)
    (q : π) {s : Session γ σ} (h : p s) : p (e.iterateWhile ask remaining q s).2.2 := by
  induction remaining generalizing q s with
  | zero => exact h
  | succ remaining ih =>
    unfold Engine.iterateWhile
    dsimp only
    split
    · exact ih _ (hp.iterate h)
    · exact hp.quiet (s := s) ⟨Tally.SameCounts.refl s.tally, rfl⟩ h

theorem runWhile (hp : Invariant e p) (ask : Nat → Tally → π → Bool × π) (q : π)
    {s : Session γ σ} (h : p s) : p (e.runWhile ask q s).2.2 := by
  have hloop := hp.iterateWhile ask e.iterations q (hp.reset h)
  rw [runWhile_session]
  exact hp.quiet (e.sameCounts_conclude _ _) hloop

theorem apply (hp : Invariant e p) {op : Op γ σ} (hop : op.isManual = false) {s : Session γ σ}
    (h : p s) : p (e.apply s op) := by
  cases op with
  | iterate => exact hp.iterate h
  | run => exact hp.runWhile _ () h
  | runWhile ask q => exact hp.runWhile ask q h
  | reset => exact hp.reset h
  | expand i => exact hp.quiet (e.sameTable_expand i s).sameCounts h
  | simulate i => exact hp.quiet (e.sameTable_simulate i s).sameCounts h
  | recommend => exact hp.quiet (e.sameCounts_recommend s) h
  | backpropagate i result => cases hop
  | handOver source channel => exact hp.quiet (s := s) ⟨Tally.SameCounts.refl s.tally, rfl⟩ h

/-- No counting by hand, but otherwise any operations in any order. -/
theorem perform (hp : Invariant e p) {ops : List (Op γ σ)} (hops : ∀ op ∈ ops, op.isManual = false)
    {s : Session γ σ} (h : p s) : p (e.perform ops s) := by
  induction ops generalizing s with
  | nil => exact h
  | cons op ops ih =>
    have hop := hops op List.mem_cons_self
    exact ih (fun op hmem => hops op (List.mem_cons_of_mem _ hmem)) (hp.apply hop h)

end Invariant

end Engine

end GameSearch.Mcts
