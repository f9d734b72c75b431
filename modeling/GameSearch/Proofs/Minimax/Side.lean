/-
  GameSearch.Proofs.Minimax.Side

  Scores and windows as the side to move sees them.  On its number line better scores
  stand further up, whichever side it is: the minimising side turns the line around.
  A window then has an own bound, which the side raises, and the other side's bound,
  above which scores do not matter any more.

    * `standing`          — where a score stands on the line of a side
    * `better_iff`        — better scores stand further up
    * `inside_iff`        — the scores of a window lie between these bounds
    * `isClosed_iff`      — a window is closed when the other bound is not above the own one
    * `standing_narrow`   — narrowing raises the own bound to the score
-/
import GameSearch.Minimax.Frame
import GameSearch.Proofs.Score.Order

namespace GameSearch.Minimax

/-- Where a score stands on the line of a side. -/
def standing (kind : Kind) (x : Score) : Int :=
  match kind with
  | .max => x.rank
  | .min => -x.rank

/-- A strictly better score stands further up. -/
theorem better_iff {kind : Kind} {x y : Score} (hx : x.isNaN = false) (hy : y.isNaN = false) :
    better kind x y = true ↔ standing kind y < standing kind x := by
  cases kind with
  | max =>
    show decide (y < x) = true ↔ y.rank < x.rank
    rw [decide_eq_true_iff, Score.lt_iff_rank hy hx]
  | min =>
    show decide (x < y) = true ↔ -y.rank < -x.rank
    rw [decide_eq_true_iff, Score.lt_iff_rank hx hy]
    omega

theorem isNaN_worst (kind : Kind) : (worst kind).isNaN = false := by
  cases kind with
  | max => exact Score.isNaN_bottom
  | min => exact Score.isNaN_top

theorem standing_worst_le (kind : Kind) (x : Score) :
    standing kind (worst kind) ≤ standing kind x := by
  cases kind with
  | max => exact Score.rank_bottom_le x
  | min =>
    show -Score.top.rank ≤ -x.rank
    have := Score.rank_le_top x
    omega

/-- A finite score is better than the worst one. -/
theorem standing_worst_lt {kind : Kind} {x : Score} (h : x.isFinite = true) :
    standing kind (worst kind) < standing kind x := by
  obtain ⟨-, hbottom, htop⟩ := Score.rank_of_isFinite h
  cases kind with
  | max => exact hbottom
  | min =>
    show -Score.top.rank < -x.rank
    omega

namespace Window

/-- The bound that a side raises. -/
def own (kind : Kind) (w : Window) : Score :=
  match kind with
  | .max => w.alpha
  | .min => w.beta

/-- The bound that the other side keeps. -/
def other (kind : Kind) (w : Window) : Score :=
  match kind with
  | .max => w.beta
  | .min => w.alpha

/-- Both bounds are numbers. -/
structure Proper (w : Window) : Prop where
  alpha : w.alpha.isNaN = false
  beta : w.beta.isNaN = false

variable {w : Window} {kind : Kind} {x : Score}

theorem Proper.own (hw : w.Proper) (kind : Kind) : (w.own kind).isNaN = false := by
  cases kind with
  | max => exact hw.alpha
  | min => exact hw.beta

theorem Proper.other (hw : w.Proper) (kind : Kind) : (w.other kind).isNaN = false := by
  cases kind with
  | max => exact hw.beta
  | min => exact hw.alpha

/-- The bounds of a window in which the lower one is less than the upper one are numbers. -/
theorem proper_of_lt (h : w.alpha < w.beta) : w.Proper :=
  ⟨(Score.isNaN_of_lt h).1, (Score.isNaN_of_lt h).2⟩

theorem full_lt : full.alpha < full.beta := by decide

/-- Either side sees the bounds of a window in the same order. -/
theorem lt_iff_standing (kind : Kind) (hw : w.Proper) :
    w.alpha < w.beta ↔ standing kind (w.own kind) < standing kind (w.other kind) := by
  rw [Score.lt_iff_rank hw.alpha hw.beta]
  cases kind with
  | max => rfl
  | min =>
    show _ ↔ -w.beta.rank < -w.alpha.rank
    omega

theorem isClosed_iff (kind : Kind) (hw : w.Proper) :
    w.isClosed = true ↔ standing kind (w.other kind) ≤ standing kind (w.own kind) := by
  show decide (w.beta ≤ w.alpha) = true ↔ _
  rw [decide_eq_true_iff, Score.le_iff_rank hw.beta hw.alpha]
  cases kind with
  | max => rfl
  | min =>
    show _ ↔ -w.alpha.rank ≤ -w.beta.rank
    omega

/-- The score lies strictly between the bounds. -/
def Inside (w : Window) (x : Score) : Prop := w.alpha < x ∧ x < w.beta

theorem inside_iff (kind : Kind) (hw : w.Proper) (hx : x.isNaN = false) :
    w.Inside x ↔ standing kind (w.own kind) < standing kind x ∧
      standing kind x < standing kind (w.other kind) := by
  rw [Inside, Score.lt_iff_rank hw.alpha hx, Score.lt_iff_rank hx hw.beta]
  cases kind with
  | max => rfl
  | min =>
    show _ ↔ -w.beta.rank < -x.rank ∧ -x.rank < -w.alpha.rank
    omega

/-- A window with a score inside is open. -/
theorem Inside.lt (h : w.Inside x) : w.alpha < w.beta := by
  obtain ⟨hα, hβ⟩ := h
  have hx := (Score.isNaN_of_lt hα).2
  have hw : w.Proper := ⟨(Score.isNaN_of_lt hα).1, (Score.isNaN_of_lt hβ).2⟩
  rw [Score.lt_iff_rank hw.alpha hx] at hα
  rw [Score.lt_iff_rank hx hw.beta] at hβ
  rw [Score.lt_iff_rank hw.alpha hw.beta]
  omega

/-- Every finite score is inside the full window. -/
theorem full_inside (h : x.isFinite = true) : full.Inside x := by
  obtain ⟨hx, hbottom, htop⟩ := Score.rank_of_isFinite h
  exact ⟨(Score.lt_iff_rank Score.isNaN_bottom hx).2 hbottom,
    (Score.lt_iff_rank hx Score.isNaN_top).2 htop⟩

theorem other_narrow : (w.narrow kind x).other kind = w.other kind := by
  cases kind <;> rfl

/-- Narrowing raises the own bound to the score if that stands above it. -/
theorem own_narrow (hw : w.Proper) (hx : x.isNaN = false) :
    (w.narrow kind x).own kind =
      if standing kind (w.own kind) < standing kind x then x else w.own kind := by
  cases kind with
  | max =>
    show (if w.alpha < x then x else w.alpha) = if w.alpha.rank < x.rank then x else w.alpha
    simp only [Score.lt_iff_rank hw.alpha hx]
  | min =>
    show (if x < w.beta then x else w.beta) = if -w.beta.rank < -x.rank then x else w.beta
    simp only [Score.lt_iff_rank hx hw.beta, Int.neg_lt_neg_iff]

theorem standing_narrow (hw : w.Proper) (hx : x.isNaN = false) :
    standing kind ((w.narrow kind x).own kind) =
      max (standing kind (w.own kind)) (standing kind x) := by
  rw [own_narrow hw hx]
  split <;> omega

theorem Proper.narrow (hw : w.Proper) (hx : x.isNaN = false) : (w.narrow kind x).Proper := by
  have hown : ((w.narrow kind x).own kind).isNaN = false := by
    rw [own_narrow hw hx]
    split
    · exact hx
    · exact hw.own kind
  have hother : ((w.narrow kind x).other kind).isNaN = false := by
    rw [other_narrow]
    exact hw.other kind
  cases kind with
  | max => exact ⟨hown, hother⟩
  | min => exact ⟨hother, hown⟩

end Window

end GameSearch.Minimax
