/-
  GameSearch.Proofs.Minimax.Value

  Minimax values and leftmost best children, by recursion on the tree alone.  No window
  and no cutoff occurs here; searches are measured against these definitions.

    * `Tree.minimaxValue`       — the value of a position
    * `LeftmostBest`            — the child a side picks: the leftmost of the best ones
    * `Frame.plain`             — bookkeeping that takes every child at its minimax value
    * `leftmostBest_plain`      — it ends with the leftmost best child and its value
    * `isFinite_minimaxValue`   — values are finite if all leaves have values
    * `leftmostBest_of_bestChild?` — so plain minimax picks the leftmost best child
-/
import GameSearch.Proofs.Minimax.Side
import GameSearch.Proofs.Tree.Queries

namespace GameSearch

open Minimax

/-- The best of the given values for a side. -/
def optimum : Kind → List Score → Score
  | .max, values => values.foldl Score.larger Score.bottom
  | .min, values => values.foldl Score.smaller Score.top

namespace Tree

/-- The minimax value of a node: its own value if it has one, as leaves do, and else the best
    value of a child for the side to move. -/
def minimaxValue (t : Tree) (i : Nat) : Score :=
  match (t.node i).value with
  | some value => value
  | none => optimum (t.kind i) ((t.children i).attach.map fun ⟨c, _⟩ => minimaxValue t c)
termination_by t.size - i
decreasing_by exact size_sub_lt ‹_›

variable {t : Tree} {i : Nat}

theorem minimaxValue_of_value {value : Score} (h : (t.node i).value = some value) :
    t.minimaxValue i = value := by
  rw [minimaxValue, h]

theorem minimaxValue_of_none (h : (t.node i).value = none) :
    t.minimaxValue i = optimum (t.kind i) ((t.children i).map t.minimaxValue) := by
  rw [minimaxValue, h]
  simp

theorem minimaxValue_of_children (h : t.children i ≠ []) :
    t.minimaxValue i = optimum (t.kind i) ((t.children i).map t.minimaxValue) :=
  minimaxValue_of_none (t.wellFormed.internal_value i h)

end Tree

namespace Minimax

/-- The child stands in the list, all places before it have strictly worse values, and none
    after it has a better one. -/
def LeftmostBest (kind : Kind) (value : Nat → Score) (places : List Nat) (c : Nat) : Prop :=
  ∃ left right, places = left ++ c :: right ∧
    (∀ d ∈ left, better kind (value c) (value d) = true) ∧
    ∀ d ∈ right, better kind (value d) (value c) = false

variable {kind : Kind} {value : Nat → Score} {places : List Nat} {c d : Nat}

theorem LeftmostBest.mem (h : LeftmostBest kind value places c) : c ∈ places := by
  obtain ⟨left, right, rfl, -, -⟩ := h
  simp

theorem leftmostBest_singleton : LeftmostBest kind value [c] c :=
  ⟨[], [], rfl, fun d h => (by cases h), fun d h => (by cases h)⟩

/-- A further child that is not better changes nothing. -/
theorem LeftmostBest.keep (h : LeftmostBest kind value places c)
    (hd : better kind (value d) (value c) = false) :
    LeftmostBest kind value (places ++ [d]) c := by
  obtain ⟨left, right, rfl, hleft, hright⟩ := h
  refine ⟨left, right ++ [d], by simp, hleft, ?_⟩
  intro x hx
  rcases List.mem_append.1 hx with hx | hx
  · exact hright x hx
  · rw [List.mem_singleton.1 hx]
    exact hd

/-- A better child takes over: whoever was not better than the old one is worse than it. -/
theorem LeftmostBest.replace (h : LeftmostBest kind value places c)
    (hnum : ∀ x ∈ places ++ [d], (value x).isNaN = false)
    (hd : better kind (value d) (value c) = true) :
    LeftmostBest kind value (places ++ [d]) d := by
  have hdnum : (value d).isNaN = false := hnum d (by simp)
  have hcnum : (value c).isNaN = false := hnum c (by simp [h.mem])
  have hdc := (better_iff hdnum hcnum).1 hd
  obtain ⟨left, right, rfl, hleft, hright⟩ := h
  refine ⟨left ++ c :: right, [], rfl, ?_, fun x hx => (by cases hx)⟩
  intro x hx
  have hxnum : (value x).isNaN = false := hnum x (List.mem_append_left _ hx)
  rw [better_iff hdnum hxnum]
  rcases List.mem_append.1 hx with hx | hx
  · have := (better_iff hcnum hxnum).1 (hleft x hx)
    omega
  · rcases List.mem_cons.1 hx with rfl | hx
    · exact hdc
    · have hnot := hright x hx
      rw [← Bool.not_eq_true, better_iff hxnum hcnum] at hnot
      omega

namespace Frame

/-- The bookkeeping for a node whose children are taken at their minimax values, without
    narrowing the window. -/
def plain (t : Tree) (places : List Nat) (f : Frame) : Frame :=
  places.foldl (fun f c => f.absorb false c (t.minimaxValue c)) f

variable {t : Tree} {f : Frame}

@[simp]
theorem plain_nil : f.plain t [] = f := rfl

@[simp]
theorem plain_cons :
    f.plain t (c :: places) = (f.absorb false c (t.minimaxValue c)).plain t places := rfl

@[simp]
theorem plain_kind (places : List Nat) (f : Frame) : (f.plain t places).kind = f.kind := by
  induction places generalizing f with
  | nil => rfl
  | cons c places ih => rw [plain_cons, ih, absorb_kind]

/-- The values and children of plain bookkeeping do not depend on the window. -/
theorem plain_best_congr {f g : Frame} (hkind : f.kind = g.kind) (hvalue : f.value = g.value)
    (hbest : f.best = g.best) (places : List Nat) :
    (f.plain t places).best = (g.plain t places).best := by
  induction places generalizing f g with
  | nil => exact hbest
  | cons c places ih =>
    rw [plain_cons, plain_cons]
    refine ih ?_ ?_ ?_
    · rw [absorb_kind, absorb_kind, hkind]
    · rw [absorb_value, absorb_value, hkind, hvalue]
    · rw [absorb_best, absorb_best, hkind, hvalue, hbest]

theorem plain_value (places : List Nat) (f : Frame) :
    (f.plain t places).value =
      match f.kind with
      | .max => (places.map t.minimaxValue).foldl Score.larger f.value
      | .min => (places.map t.minimaxValue).foldl Score.smaller f.value := by
  induction places generalizing f with
  | nil => cases hk : f.kind <;> rfl
  | cons c places ih =>
    rw [plain_cons, ih, absorb_kind, absorb_value]
    cases hk : f.kind with
    | max => simp [better, Score.larger]
    | min => simp [better, Score.smaller]

/-- The best value and child so far are those of the leftmost best of the places. -/
structure Picks (t : Tree) (places : List Nat) (c : Nat) (f : Frame) : Prop where
  best : f.best = some c
  value : f.value = t.minimaxValue c
  leftmost : LeftmostBest f.kind t.minimaxValue places c

theorem Picks.absorb (h : Picks t places c f)
    (hnum : ∀ x ∈ places ++ [d], (t.minimaxValue x).isNaN = false) :
    ∃ b, Picks t (places ++ [d]) b (f.absorb false d (t.minimaxValue d)) := by
  obtain ⟨hbest, hvalue, hleftmost⟩ := h
  cases hd : better f.kind (t.minimaxValue d) f.value with
  | true =>
    refine ⟨d, ?_, ?_, ?_⟩
    · rw [absorb_best, hd]
      rfl
    · rw [absorb_value, hd]
      rfl
    · rw [absorb_kind]
      rw [hvalue] at hd
      exact hleftmost.replace hnum hd
  | false =>
    refine ⟨c, ?_, ?_, ?_⟩
    · rw [absorb_best, hd]
      exact hbest
    · rw [absorb_value, hd]
      exact hvalue
    · rw [absorb_kind]
      rw [hvalue] at hd
      exact hleftmost.keep hd

theorem Picks.plain {rest : List Nat} (h : Picks t places c f)
    (hnum : ∀ x ∈ places ++ rest, (t.minimaxValue x).isNaN = false) :
    ∃ b, Picks t (places ++ rest) b (f.plain t rest) := by
  induction rest generalizing places c f with
  | nil =>
    rw [List.append_nil]
    exact ⟨c, h⟩
  | cons d rest ih =>
    have hsplit : places ++ d :: rest = (places ++ [d]) ++ rest := by simp
    rw [hsplit] at hnum ⊢
    obtain ⟨b, hb⟩ := h.absorb fun x hx => hnum x (List.mem_append_left _ hx)
    exact ih hb hnum

/-- A node with children of finite values ends with the leftmost best one. -/
theorem exists_picks_plain (hne : places ≠ [])
    (hfin : ∀ x ∈ places, (t.minimaxValue x).isFinite = true) (node : Nat) (kind : Kind)
    (w : Window) : ∃ b, Picks t places b ((Frame.start node kind w).plain t places) := by
  have hnum : ∀ x ∈ places, (t.minimaxValue x).isNaN = false := fun x hx =>
    (Score.rank_of_isFinite (hfin x hx)).1
  cases places with
  | nil => exact absurd rfl hne
  | cons c rest =>
    -- any finite value is better than the one a frame starts with
    have hc : better kind (t.minimaxValue c) (worst kind) = true := by
      rw [better_iff (hnum c List.mem_cons_self) (isNaN_worst kind)]
      exact standing_worst_lt (hfin c List.mem_cons_self)
    have hfirst : Picks t [c] c ((Frame.start node kind w).absorb false c (t.minimaxValue c)) := by
      refine ⟨?_, ?_, leftmostBest_singleton⟩
      · rw [absorb_best]
        simp only [start, hc, if_true]
      · rw [absorb_value]
        simp only [start, hc, if_true]
    exact hfirst.plain hnum

end Frame

end Minimax

namespace Tree

variable {t : Tree} {i : Nat}

/-- The minimax value of an internal node is the value that its plain bookkeeping ends with. -/
theorem minimaxValue_eq_plain (h : t.children i ≠ []) (w : Window) :
    t.minimaxValue i = ((Frame.start i (t.kind i) w).plain t (t.children i)).value := by
  rw [minimaxValue_of_children h, Frame.plain_value, Frame.start]
  cases t.kind i <;> rfl

theorem isFinite_minimaxValue (ht : t.LeavesValued) (hi : i < t.size) :
    (t.minimaxValue i).isFinite = true := by
  induction i using childInduction (t := t) with
  | step i ih =>
    by_cases hleaf : t.children i = []
    · have hsome := ht i hi hleaf
      obtain ⟨value, hvalue⟩ := Option.isSome_iff_exists.1 hsome
      rw [minimaxValue_of_value hvalue]
      exact t.wellFormed.value_finite i value hvalue
    · have hfin : ∀ c ∈ t.children i, (t.minimaxValue c).isFinite = true := fun c hc =>
        ih c hc (lt_size_of_mem_children hc)
      obtain ⟨c, hc⟩ := Frame.exists_picks_plain hleaf hfin i (t.kind i) Window.full
      rw [minimaxValue_eq_plain hleaf Window.full, hc.value]
      exact hfin c hc.leftmost.mem

theorem isNaN_minimaxValue (ht : t.LeavesValued) (hi : i < t.size) :
    (t.minimaxValue i).isNaN = false :=
  (Score.rank_of_isFinite (isFinite_minimaxValue ht hi)).1

/-- The child that plain minimax picks at a node; leaves have none. -/
def bestChild? (t : Tree) (i : Nat) : Option Nat :=
  ((Frame.start i (t.kind i) .full).plain t (t.children i)).best

/-- The window plays no part in the choice. -/
theorem best_plain_start (t : Tree) (i : Nat) (w : Window) :
    ((Frame.start i (t.kind i) w).plain t (t.children i)).best = t.bestChild? i := by
  apply Frame.plain_best_congr <;> rfl

theorem bestChild?_of_leaf (h : t.children i = []) : t.bestChild? i = none := by
  rw [bestChild?, h]
  rfl

/-- Plain minimax picks the leftmost of the best children. -/
theorem leftmostBest_of_bestChild? (ht : t.LeavesValued) (h : t.children i ≠ []) :
    ∃ c, t.bestChild? i = some c ∧
      LeftmostBest (t.kind i) t.minimaxValue (t.children i) c := by
  have hfin : ∀ c ∈ t.children i, (t.minimaxValue c).isFinite = true := fun c hc =>
    isFinite_minimaxValue ht (lt_size_of_mem_children hc)
  obtain ⟨c, hbest, -, hleftmost⟩ := Frame.exists_picks_plain h hfin i (t.kind i) .full
  refine ⟨c, hbest, ?_⟩
  rw [Frame.plain_kind] at hleftmost
  exact hleftmost

end Tree

end GameSearch
