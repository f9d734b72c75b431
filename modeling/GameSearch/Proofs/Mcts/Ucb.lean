/-
  GameSearch.Proofs.Mcts.Ucb

  Scores of nodes are numbers.  Of the logarithm only its size at numbers of visits is
  used; counters are below 2^64, and the weight is finite.

    * `LawfulLogarithm` — what is known of the logarithm
    * `shortLogarithm`  — a logarithm of which that is known
    * `isNaN_ucb1`      — the score of a node is not NaN
    * `isFinite_ucb1_zero` — nor infinite if the weight is zero and there were visits
-/
import GameSearch.Mcts.Selection
import GameSearch.Proofs.Score.Rounding

namespace GameSearch

open Score

/-- The logarithms of the integers from one to 2^64 are zero, as that of one is, or lie between
    one half and 64. -/
class LawfulLogarithm [Logarithm] : Prop where
  bounds : ∀ n, 1 ≤ n → n < 2 ^ 64 →
    (Logarithm.log (Float.ofNat n) == Float.ofNat 0) = true ∨
      (0.5 : Score) ≤ Logarithm.log (Float.ofNat n) ∧ Logarithm.log (Float.ofNat n) ≤ 64

/-- The logarithms of the integers from two to sixteen. -/
def logarithms : List (Score × Score) :=
  [(2, 0.6931471805599453), (3, 1.0986122886681098), (4, 1.3862943611198906),
   (5, 1.6094379124341003), (6, 1.791759469228055), (7, 1.9459101490553132),
   (8, 2.0794415416798357), (9, 2.1972245773362196), (10, 2.302585092994046),
   (11, 2.3978952727983707), (12, 2.4849066497880004), (13, 2.5649493574615367),
   (14, 2.6390573296152584), (15, 2.70805020110221), (16, 2.772588722239781)]

/-- The logarithm of a table: zero up to one, and that of sixteen beyond it. -/
@[reducible] def shortLogarithm : Logarithm where
  log x :=
    if x ≤ 1 then 0
    else match logarithms.find? fun row => x ≤ row.1 with
      | some row => row.2
      | none => 2.772588722239781

theorem lawful_shortLogarithm : @LawfulLogarithm shortLogarithm := by
  refine @LawfulLogarithm.mk shortLogarithm fun n _ _ => ?_
  have hrows : ∀ row ∈ logarithms, (0.5 : Score) ≤ row.2 ∧ row.2 ≤ 64 := by decide
  have hlast : (0.5 : Score) ≤ 2.772588722239781 ∧ (2.772588722239781 : Score) ≤ 64 := by
    decide
  unfold shortLogarithm
  dsimp only
  split
  · exact .inl (by decide)
  · right
    split
    · rename_i row hfind
      exact hrows row (List.mem_of_find?_eq_some hfind)
    · exact hlast

namespace Mcts

/-- The share of wins is zero or of moderate size. -/
theorem share_cases {wins visits : Nat} (hwins : wins < 2 ^ 64) (hvisits : 0 < visits)
    (hvisits' : visits < 2 ^ 64) :
    IsZero (Float.ofNat wins / Float.ofNat visits) ∨
      Normal (-118) 14 (Float.ofNat wins / Float.ofNat visits) := by
  have hden := normal_ofNat hvisits hvisits'
  by_cases hzero : wins = 0
  · left
    rw [hzero]
    exact isZero_div isZero_ofNat_zero hden
  · right
    have hnum := normal_ofNat (Nat.pos_of_ne_zero hzero) hwins
    exact normal_div hnum hden (by omega) (by omega)

/-- So it is finite. -/
theorem isFinite_share {wins visits : Nat} (hwins : wins < 2 ^ 64) (hvisits : 0 < visits)
    (hvisits' : visits < 2 ^ 64) : (Float.ofNat wins / Float.ofNat visits).isFinite = true :=
  (share_cases hwins hvisits hvisits').elim IsZero.isFinite Normal.isFinite

variable [Logarithm] [LawfulLogarithm]

/-- The square root in the exploration term is finite. -/
theorem isFinite_sqrt_log {parent visits : Nat} (hparent : 0 < parent) (hparent' : parent < 2 ^ 64)
    (hvisits : 0 < visits) (hvisits' : visits < 2 ^ 64) :
    (Logarithm.log (Float.ofNat parent) / Float.ofNat visits).sqrt.isFinite = true := by
  have hden := normal_ofNat hvisits hvisits'
  rcases LawfulLogarithm.bounds parent hparent hparent' with hzero | ⟨hlo, hhi⟩
  · exact (isZero_sqrt (isZero_div (isZero_of_beq hzero) hden)).isFinite
  · have hlog := normal_of_le (isNaN_of_le hlo).2 hlo hhi
    have hquotient := normal_div hlog hden (by omega) (by omega)
    exact (normal_sqrt hquotient (by omega) (by omega)).isFinite

/-- The score of a node is a number, with any finite weight. -/
theorem isNaN_ucb1 (t : Tree) {tally : Tally} {weight : Score} (hweight : weight.isFinite = true)
    (hvisits : ∀ j, tally.visits j < 2 ^ 64) {i : Nat} (hwins : tally.wins i < 2 ^ 64) :
    (ucb1 t tally weight i).isNaN = false := by
  unfold ucb1
  split
  · exact isNaN_top
  · rename_i hi
    have hpos : 0 < tally.visits i := Nat.pos_of_ne_zero hi
    refine isNaN_add (isFinite_share hwins hpos (hvisits i)) ?_
    cases t.parent i with
    | none =>
      show (0 : Score).isNaN = false
      decide
    | some p =>
      show (if tally.visits p = 0 then top else _ : Score).isNaN = false
      split
      · exact isNaN_top
      · rename_i hp
        exact isNaN_mul hweight
          (isFinite_sqrt_log (Nat.pos_of_ne_zero hp) (hvisits p) hpos (hvisits i))

/-- With weight zero the score of a node that was visited, below a parent that was visited too, is
    finite: the exploration term vanishes. -/
theorem isFinite_ucb1_zero (t : Tree) {tally : Tally} (hvisits : ∀ j, tally.visits j < 2 ^ 64)
    {i : Nat} (hwins : tally.wins i < 2 ^ 64) (hi : 0 < tally.visits i)
    (hparent : ∀ p, t.parent i = some p → 0 < tally.visits p) :
    (ucb1 t tally 0 i).isFinite = true := by
  have hzero : IsZero (0 : Score) := isZero_of_beq (by decide)
  have hsum : ∀ x : Score, IsZero x →
      (Float.ofNat (tally.wins i) / Float.ofNat (tally.visits i) + x).isFinite = true := by
    intro x hx
    rcases share_cases hwins hi (hvisits i) with hshare | hshare
    · exact (isZero_add hshare hx).isFinite
    · exact (normal_add_zero hshare (by omega) (by omega) hx).isFinite
  rw [ucb1, if_neg (Nat.ne_of_gt hi)]
  dsimp only
  cases hp : t.parent i with
  | none => exact hsum 0 hzero
  | some p =>
    have hpos := hparent p hp
    dsimp only
    rw [if_neg (Nat.ne_of_gt hpos)]
    exact hsum _ (isZero_mul hzero (isFinite_sqrt_log hpos (hvisits p) hi (hvisits i)))

end Mcts

end GameSearch
