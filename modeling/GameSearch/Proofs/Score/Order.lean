/-
  GameSearch.Proofs.Score.Order

  Comparisons of doubles in terms of whole numbers.  Every score has a rank on the
  number line; two scores that are numbers compare as their ranks do, and both
  zeros have the same rank.  With these lemmas facts about best values, windows and
  cutoffs become linear arithmetic.

    * `rank`            — the place of a score on the number line
    * `lt_iff_rank`, `le_iff_rank`, `beq_iff_rank` — comparisons of numbers
    * `rank_bottom_le`, `rank_le_top`              — the infinities are the ends
-/
import Mathlib
import GameSearch.Score

namespace GameSearch.Score

open Float.Model Float.Model.UnpackedFloat

/-- Where an unpacked double stands on the number line.  The exponent counts for more than any
    significand, as significands have 53 bits. -/
def unpackedRank : UnpackedFloat → Int
  | .notANumber => 0
  | .zero _ => 0
  | .infinity .negative => -2 ^ 64
  | .infinity .positive => 2 ^ 64
  | .finite .negative m e _ => -((e + 1075) * 2 ^ 53 + m)
  | .finite .positive m e _ => (e + 1075) * 2 ^ 53 + m

/-- Where a score stands on the number line. -/
def rank (x : Score) : Int := unpackedRank x.toModel.unpack

-- ============================================================================
-- Unpacked doubles
-- ============================================================================

/-- The fields are those of a double: 53 bits of significand, the first of them set unless the
    exponent is the least one, and exponents from -1074 to 971. -/
def InRange : UnpackedFloat → Prop
  | .finite _ m e _ => m < 2 ^ 53 ∧ -1074 ≤ e ∧ e ≤ 971 ∧ (-1074 < e → 2 ^ 52 ≤ m)
  | _ => True

/-- The exponent field of a double that is neither infinite nor NaN. -/
theorem unpackExponent_lt {b : BitVec Format.binary64.numBits} (h : unpackExponent b ≠ -1#_) :
    (unpackExponent b).toNat < 2047 := by
  have hlt : (unpackExponent b).toNat < 2 ^ 11 := (unpackExponent b).isLt
  have hne : (unpackExponent b).toNat ≠ 2047 := by
    intro heq
    apply h
    apply BitVec.eq_of_toNat_eq
    rw [heq]
    rfl
  omega

theorem toNat_append_one {k : Nat} (m : BitVec k) : (1#1 ++ m).toNat = 2 ^ k + m.toNat := by
  have hm := m.isLt
  rw [BitVec.toNat_append, ← Nat.shiftLeft_add_eq_or_of_lt hm, Nat.shiftLeft_eq]
  simp

theorem inRange_unpack (b : BitVec Format.binary64.numBits) :
    InRange (UnpackedFloat.unpack Format.binary64 b) := by
  unfold UnpackedFloat.unpack
  dsimp only
  split
  · split <;> trivial
  · rename_i hexp
    have hlt := unpackExponent_lt hexp
    have hm : (unpackMantissa b).toNat < 2 ^ 52 := (unpackMantissa b).isLt
    split
    · rename_i hzero
      split
      · trivial
      · -- subnormal: the exponent is the least one
        have h₀ : (unpackExponent b).toNat = 0 := by rw [hzero]; rfl
        rw [InRange, h₀]
        simp only [Format.exponentBias]
        omega
    · rename_i hzero
      have h₀ : (unpackExponent b).toNat ≠ 0 := by
        intro heq
        exact hzero (BitVec.eq_of_toNat_eq heq)
      have hs : (1#1 ++ unpackMantissa b).toNat = 2 ^ 52 + (unpackMantissa b).toNat :=
        toNat_append_one _
      rw [InRange, hs]
      simp only [Format.exponentBias]
      omega

/-- Comparing exponents first and significands second is comparing ranks. -/
theorem compare_then {m₁ m₂ : Nat} {e₁ e₂ : Int} (h₁ : m₁ < 2 ^ 53) (h₂ : m₂ < 2 ^ 53) :
    (compare e₁ e₂).then (compare m₁ m₂) =
      compare ((e₁ + 1075) * 2 ^ 53 + m₁) ((e₂ + 1075) * 2 ^ 53 + m₂) := by
  rcases Int.lt_trichotomy e₁ e₂ with h | h | h
  · rw [Int.compare_eq_lt.2 h, Int.compare_eq_lt.2 (by omega)]
    rfl
  · rw [Int.compare_eq_eq.2 h]
    rcases Nat.lt_trichotomy m₁ m₂ with hm | hm | hm
    · rw [Nat.compare_eq_lt.2 hm, Int.compare_eq_lt.2 (by omega)]
      rfl
    · rw [Nat.compare_eq_eq.2 hm, Int.compare_eq_eq.2 (by omega)]
      rfl
    · rw [Nat.compare_eq_gt.2 hm, Int.compare_eq_gt.2 (by omega)]
      rfl
  · rw [Int.compare_eq_gt.2 h, Int.compare_eq_gt.2 (by omega)]
    rfl

theorem compare_neg (a b : Int) : compare (-a) (-b) = compare b a := by
  rcases Int.lt_trichotomy a b with h | h | h
  · rw [Int.compare_eq_gt.2 h, Int.compare_eq_gt.2 (by omega)]
  · rw [Int.compare_eq_eq.2 h.symm, Int.compare_eq_eq.2 (by omega)]
  · rw [Int.compare_eq_lt.2 h, Int.compare_eq_lt.2 (by omega)]

/-- Unpacked doubles that are numbers compare as their ranks do. -/
theorem compare_eq_rank {x y : UnpackedFloat} (hx : InRange x) (hy : InRange y)
    (nx : x.isNaN = false) (ny : y.isNaN = false) :
    x.compare y = some (compare (unpackedRank x) (unpackedRank y)) := by
  have lt : ∀ {a b : Int}, a < b → some Ordering.lt = some (compare a b) :=
    fun h => by rw [Int.compare_eq_lt.2 h]
  have gt : ∀ {a b : Int}, b < a → some Ordering.gt = some (compare a b) :=
    fun h => by rw [Int.compare_eq_gt.2 h]
  cases x with
  | notANumber => cases nx
  | infinity s₁ =>
    cases y with
    | notANumber => cases ny
    | infinity s₂ => cases s₁ <;> cases s₂ <;> rfl
    | zero s₂ => cases s₁ <;> rfl
    | finite s₂ m₂ e₂ p₂ =>
      obtain ⟨h₁, h₂, h₃⟩ := hy
      cases s₁ <;> cases s₂ <;> simp only [UnpackedFloat.compare, unpackedRank] <;>
        first | (apply lt; omega) | (apply gt; omega)
  | zero s₁ =>
    cases y with
    | notANumber => cases ny
    | infinity s₂ => cases s₂ <;> rfl
    | zero s₂ => rfl
    | finite s₂ m₂ e₂ p₂ =>
      obtain ⟨h₁, h₂, h₃⟩ := hy
      cases s₂ <;> simp only [UnpackedFloat.compare, unpackedRank] <;>
        first | (apply lt; omega) | (apply gt; omega)
  | finite s₁ m₁ e₁ p₁ =>
    obtain ⟨h₁, h₂, h₃⟩ := hx
    cases y with
    | notANumber => cases ny
    | infinity s₂ =>
      cases s₁ <;> cases s₂ <;> simp only [UnpackedFloat.compare, unpackedRank] <;>
        first | (apply lt; omega) | (apply gt; omega)
    | zero s₂ =>
      cases s₁ <;> simp only [UnpackedFloat.compare, unpackedRank] <;>
        first | (apply lt; omega) | (apply gt; omega)
    | finite s₂ m₂ e₂ p₂ =>
      obtain ⟨h₄, h₅, h₆⟩ := hy
      cases s₁ <;> cases s₂ <;> simp only [UnpackedFloat.compare, unpackedRank]
      · -- both negative: the larger magnitude is the smaller number
        rw [compare_then h₁ h₄, Int.compare_swap, compare_neg]
      · apply lt
        omega
      · apply gt
        omega
      · rw [compare_then h₁ h₄]

-- ============================================================================
-- Scores
-- ============================================================================

theorem compare_toModel {x y : Score} (hx : x.isNaN = false) (hy : y.isNaN = false) :
    x.toModel.unpack.compare y.toModel.unpack = some (compare x.rank y.rank) :=
  compare_eq_rank (inRange_unpack _) (inRange_unpack _) hx hy

theorem lt_iff_compare {x y : Score} :
    x < y ↔ x.toModel.unpack.compare y.toModel.unpack = some .lt := by
  show decide (x.toModel < y.toModel) = true ↔ _
  rw [decide_eq_true_iff]
  exact beq_iff_eq

theorem le_iff_compare {x y : Score} :
    x ≤ y ↔ (x.toModel.unpack.compare y.toModel.unpack).any (·.isLE) = true := by
  show decide (x.toModel ≤ y.toModel) = true ↔ _
  exact decide_eq_true_iff

theorem lt_iff_rank {x y : Score} (hx : x.isNaN = false) (hy : y.isNaN = false) :
    x < y ↔ x.rank < y.rank := by
  rw [lt_iff_compare, compare_toModel hx hy, Option.some.injEq, Int.compare_eq_lt]

theorem le_iff_rank {x y : Score} (hx : x.isNaN = false) (hy : y.isNaN = false) :
    x ≤ y ↔ x.rank ≤ y.rank := by
  rw [le_iff_compare, compare_toModel hx hy, Option.any_some, Int.isLE_compare]

theorem beq_iff_rank {x y : Score} (hx : x.isNaN = false) (hy : y.isNaN = false) :
    (x == y) = true ↔ x.rank = y.rank := by
  have h : (x == y) = (x.toModel.unpack.compare y.toModel.unpack == some .eq) := rfl
  rw [h, compare_toModel hx hy, beq_iff_eq, Option.some.injEq, Int.compare_eq_eq]

/-- What can be compared is a number. -/
theorem isNaN_of_compare {x y : Score} {o : Ordering}
    (h : x.toModel.unpack.compare y.toModel.unpack = some o) :
    x.isNaN = false ∧ y.isNaN = false := by
  show x.toModel.unpack.isNaN = false ∧ y.toModel.unpack.isNaN = false
  generalize x.toModel.unpack = u at h ⊢
  generalize y.toModel.unpack = v at h ⊢
  cases u with
  | notANumber => exact absurd h (by simp [UnpackedFloat.compare])
  | _ =>
    cases v with
    | notANumber => exact absurd h (by simp [UnpackedFloat.compare])
    | _ => exact ⟨rfl, rfl⟩

theorem isNaN_of_lt {x y : Score} (h : x < y) : x.isNaN = false ∧ y.isNaN = false :=
  isNaN_of_compare (lt_iff_compare.1 h)

theorem isNaN_of_beq {x y : Score} (h : (x == y) = true) : x.isNaN = false ∧ y.isNaN = false :=
  isNaN_of_compare (beq_iff_eq.1 h)

theorem isNaN_of_le {x y : Score} (h : x ≤ y) : x.isNaN = false ∧ y.isNaN = false := by
  obtain ⟨o, ho, -⟩ := (Option.any_eq_true _ _).1 (le_iff_compare.1 h)
  exact isNaN_of_compare ho

-- ============================================================================
-- The infinities
-- ============================================================================

theorem unpackedRank_bounds {x : UnpackedFloat} (hx : InRange x) :
    -2 ^ 64 ≤ unpackedRank x ∧ unpackedRank x ≤ 2 ^ 64 := by
  cases x with
  | notANumber => decide
  | zero s => exact ⟨by simp only [unpackedRank]; omega, by simp only [unpackedRank]; omega⟩
  | infinity s => cases s <;> decide
  | finite s m e p =>
    obtain ⟨h₁, h₂, h₃⟩ := hx
    cases s <;> simp only [unpackedRank] <;> omega

theorem rank_bottom : bottom.rank = -2 ^ 64 := by decide

theorem rank_top : top.rank = 2 ^ 64 := by decide

theorem isNaN_bottom : bottom.isNaN = false := by decide

theorem isNaN_top : top.isNaN = false := by decide

theorem rank_bottom_le (x : Score) : bottom.rank ≤ x.rank := by
  rw [rank_bottom]
  exact (unpackedRank_bounds (inRange_unpack _)).1

theorem rank_le_top (x : Score) : x.rank ≤ top.rank := by
  rw [rank_top]
  exact (unpackedRank_bounds (inRange_unpack _)).2

/-- What is neither NaN nor infinite is finite. -/
theorem isFinite_of_isNaN {x : Score} (hnan : x.isNaN = false) (hinf : x.isInf = false) :
    x.isFinite = true := by
  have hn : x.toModel.unpack.isNaN = false := hnan
  have hi : x.toModel.unpack.isInf = false := hinf
  show x.toModel.unpack.isFinite = true
  cases hu : x.toModel.unpack with
  | notANumber => rw [hu] at hn; cases hn
  | infinity s => rw [hu] at hi; cases hi
  | zero s => rfl
  | finite s m e p => rfl

/-- A finite score is a number strictly between the infinities. -/
theorem rank_of_isFinite {x : Score} (h : x.isFinite = true) :
    x.isNaN = false ∧ bottom.rank < x.rank ∧ x.rank < top.rank := by
  have hf : x.toModel.unpack.isFinite = true := h
  have hr : InRange x.toModel.unpack := inRange_unpack _
  have hn : x.isNaN = x.toModel.unpack.isNaN := rfl
  rw [hn, rank_bottom, rank_top, rank]
  cases hu : x.toModel.unpack with
  | notANumber => rw [hu] at hf; cases hf
  | infinity s => rw [hu] at hf; cases hf
  | zero s => refine ⟨rfl, ?_, ?_⟩ <;> simp only [unpackedRank] <;> omega
  | finite s m e p =>
    rw [hu] at hr
    obtain ⟨h₁, h₂, h₃⟩ := hr
    refine ⟨rfl, ?_, ?_⟩ <;> cases s <;> simp only [unpackedRank] <;> omega

end GameSearch.Score
