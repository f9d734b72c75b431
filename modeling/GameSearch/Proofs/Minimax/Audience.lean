/-
  GameSearch.Proofs.Minimax.Audience

  A minimax run does not depend on who listens.  Two runs with the same table, one with any
  sink and one with a log, are taken through the same search side by side.  Each step writes
  the same to both tables, and the sink hears what the log records.

    * `Run.Follows`      — two runs with one table, the sink of one behind the log of the other
    * `agree_enter`, `agree_absorb`, `agree_close` — the steps of a search
    * `agree_search`     — whole searches
    * `agree_evaluate`   — whole evaluations
    * `overheard_evaluate`, `overheard_evaluateIterative` — a sink has no say in either traversal
-/
import GameSearch.Proofs.Minimax.Traversal
import GameSearch.Proofs.Sink.Hearing

namespace GameSearch.Minimax

variable {σ : Type} [Sink σ] {s : σ} {r : Run σ} {taped : Run EventLog}

namespace Run

/-- The tables are the same, and the sink has heard what the log holds. -/
structure Follows (s : σ) (r : Run σ) (taped : Run EventLog) : Prop where
  outcome : r.outcome = taped.outcome
  channel : Channel.Follows s r.channel taped.channel

/-- Two steps with results: the results are the same too. -/
def Agree {α : Type} (s : σ) (x : α × Run σ) (y : α × Run EventLog) : Prop :=
  x.1 = y.1 ∧ Follows s x.2 y.2

theorem Follows.arrive (h : Follows s r taped) (e : Engine) (i : Nat) (w : Window) :
    Follows s (r.arrive e i w) (taped.arrive e i w) where
  outcome := congrArg (Outcome.enter i w) h.outcome
  channel := h.channel.emit _

theorem Follows.resolve (h : Follows s r taped) (e : Engine) (i : Nat) (value : Score)
    (best : Option Nat) : Follows s (r.resolve e i value best) (taped.resolve e i value best) where
  outcome := congrArg (Outcome.resolve i value best) h.outcome
  channel := h.channel.emit _

theorem Follows.cut (h : Follows s r taped) (e : Engine) (parent child : Nat) :
    Follows s (r.cut e parent child) (taped.cut e parent child) where
  outcome := congrArg (Outcome.prune parent child) h.outcome
  channel := h.channel.emit _

theorem Follows.prune (h : Follows s r taped) (e : Engine) (f : Frame) (rest : List Nat) :
    Follows s (r.prune e f rest) (taped.prune e f rest) := by
  have hfold : ∀ (rest : List Nat) {r : Run σ} {taped : Run EventLog}, Follows s r taped →
      Follows s (rest.foldl (fun r c => r.cut e f.node c) r)
        (rest.foldl (fun r c => r.cut e f.node c) taped) := by
    intro rest
    induction rest with
    | nil => exact fun h => h
    | cons c rest ih => exact fun h => ih (h.cut e f.node c)
  exact hfold rest ⟨h.outcome, h.channel.log _⟩

theorem agree_enter (h : Follows s r taped) (e : Engine) (i : Nat) (w : Window) :
    Agree s (r.enter e i w) (taped.enter e i w) := by
  have harrived := h.arrive e i w
  unfold enter
  dsimp only
  split
  · split
    · rename_i value _
      exact ⟨rfl, harrived.resolve e i value none⟩
    · exact ⟨rfl, harrived⟩
  · exact ⟨rfl, harrived⟩

theorem agree_absorb (h : Follows s r taped) (e : Engine) (c : Nat) (value : Score) (o : Open) :
    Agree s (r.absorb e c value o) (taped.absorb e c value o) := by
  unfold absorb
  dsimp only
  split
  · exact ⟨rfl, h.prune e _ _⟩
  · exact ⟨rfl, h⟩

theorem agree_close (h : Follows s r taped) (e : Engine) (f : Frame) :
    Agree s (r.close e f) (taped.close e f) :=
  ⟨rfl, h.resolve e f.node f.value f.best⟩

end Run

open Run

mutual

/-- Searches of one subtree agree if the runs before them did. -/
theorem agree_search (e : Engine) (i : Nat) (w : Window) {r : Run σ} {taped : Run EventLog}
    (h : Follows s r taped) : Agree s (search e i w r) (search e i w taped) := by
  have henter := agree_enter h e i w
  rw [search, search]
  revert henter
  rcases r.enter e i w with ⟨entered, r⟩
  rcases taped.enter e i w with ⟨entered', taped⟩
  rintro ⟨rfl : entered = entered', h : Follows s r taped⟩
  rcases entered with fault | _ | value
  · exact ⟨rfl, h⟩
  · exact agree_searchChildren e (e.opened i w) h
  · exact ⟨rfl, h⟩
termination_by 2 * e.tree.subtreeSize i
decreasing_by
  rw [e.work_opened i w]
  omega

theorem agree_searchChildren (e : Engine) (o : Open) {r : Run σ} {taped : Run EventLog}
    (h : Follows s r taped) : Agree s (searchChildren e o r) (searchChildren e o taped) := by
  cases hc : o.takeChild (e.tree.children o.frame.node) with
  | none =>
    rw [searchChildren_of_takeChild_none hc, searchChildren_of_takeChild_none hc]
    exact ⟨rfl, (agree_close h e o.frame).2⟩
  | some taken =>
    obtain ⟨c, o'⟩ := taken
    have hchild := agree_search e c o'.frame.window h
    rw [searchChildren_of_takeChild hc, searchChildren_of_takeChild hc]
    revert hchild
    rcases search e c o'.frame.window r with ⟨result, r⟩
    rcases search e c o'.frame.window taped with ⟨result', taped⟩
    rintro ⟨rfl : result = result', h : Follows s r taped⟩
    cases result with
    | error fault => exact ⟨rfl, h⟩
    | ok value =>
      -- both runs go on with the same open node
      obtain ⟨hopen, h⟩ := agree_absorb h e c value o'
      have hrest := agree_searchChildren e (r.absorb e c value o').1 h
      rw [hopen] at hrest
      dsimp only
      rw [hopen]
      exact hrest
termination_by 2 * e.work o + 1
decreasing_by
  all_goals
    have h := Engine.work_takeChild hc
    have hpos := Tree.subtreeSize_eq e.tree c
  · omega
  · have hle := e.work_absorb_le c value o' r
    omega

end

/-- Evaluations agree if the channels before them did. -/
theorem agree_evaluate (e : Engine) (i : Nat) (w : Window) {ch : Channel σ}
    {log : Channel EventLog} (h : Channel.Follows s ch log) :
    (e.evaluate i w ch).1 = (e.evaluate i w log).1 ∧
      Channel.Follows s (e.evaluate i w ch).2 (e.evaluate i w log).2 := by
  unfold Engine.evaluate Engine.evaluateBy
  cases e.prepare w with
  | error err => exact ⟨rfl, h⟩
  | ok v =>
    have hrun : Follows s ⟨Outcome.empty e.tree.size i, ch⟩ ⟨Outcome.empty e.tree.size i, log⟩ :=
      ⟨rfl, h⟩
    have hsearch := agree_search e i v hrun
    dsimp only
    revert hsearch
    rcases search e i v ⟨Outcome.empty e.tree.size i, ch⟩ with ⟨result, r⟩
    rcases search e i v ⟨Outcome.empty e.tree.size i, log⟩ with ⟨result', taped⟩
    rintro ⟨rfl : result = result', houtcome, hchannel⟩
    cases result with
    | error fault => exact ⟨rfl, hchannel⟩
    | ok value =>
      refine ⟨?_, hchannel.log _⟩
      show Except.ok (r.outcome.finish value) = Except.ok (taped.outcome.finish value)
      rw [houtcome]

/-- An evaluation pays no attention to its sink. -/
theorem overheard_evaluate (e : Engine) (i : Nat) (w : Window) (ch : Channel σ) :
    Overheard (e.evaluate i w .deaf) (e.evaluate i w .recording) ch.sink (e.evaluate i w ch) := by
  obtain ⟨hresult, hsink⟩ := agree_evaluate e i w ch.follows_recording
  have hquiet := (agree_evaluate e i w Channel.deaf.follows_recording).1
  exact ⟨hresult.trans hquiet.symm, hsink⟩

theorem overheard_evaluateIterative (e : Engine) (i : Nat) (w : Window) (ch : Channel σ) :
    Overheard (e.evaluateIterative i w .deaf) (e.evaluateIterative i w .recording) ch.sink
      (e.evaluateIterative i w ch) := by
  rw [evaluateIterative_eq_evaluate, evaluateIterative_eq_evaluate, evaluateIterative_eq_evaluate]
  exact overheard_evaluate e i w ch

end GameSearch.Minimax
