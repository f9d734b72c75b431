/-
  GameSearch.Proofs.Score.Overflow

  When a product of positive doubles is finite.  A result that is rounded to 53 bits goes up by
  half a unit in the last place at most, so nothing below `(2 ^ 54 - 1) * 2 ^ 970`, the
  middle between the greatest double and the next power of two, is rounded to infinity.

    * `roundsTo_round`    — what rounding to 53 bits leads to
    * `exponent_le`       — a number below the middle keeps an exponent in range
    * `converts_ofNat`, `converts_powerOfTen` — what a counter and a power of ten become
    * `isSome_scaled?`    — digits and an exponent that make a double
-/
import GameSearch.Decimal.Reader
import GameSearch.Proofs.Score.Rounding

namespace GameSearch.Score

open Float.Model Float.Model.UnpackedFloat

-- ============================================================================
-- Significands
-- ============================================================================

/-- Rounding a significand without its last `k` bits; a half is rounded up. -/
def halfUp (m k : Nat) : Nat := (2 * m + 2 ^ k) / 2 ^ (k + 1)

theorem roundBit_shiftRight (em : ExtendedMantissa) (k : Nat) :
    (em >>> (k + 1)).roundBit = (em.mantissa / 2 ^ k % 2 != 0) := by
  rw [← mantissa_shiftRight em k]
  rfl

theorem roundedMantissa_le (em : ExtendedMantissa) :
    em.roundedMantissa ≤ em.mantissa + em.roundBit.toNat := by
  obtain ⟨m, r, s⟩ := em
  cases r <;> cases s <;>
    simp only [ExtendedMantissa.roundedMantissa, ExtendedMantissa.accuracy,
      Accuracy.roundToNearestEven, Bool.toNat_true, Bool.toNat_false] <;>
    omega

/-- Ties are rounded up at most. -/
theorem roundedMantissa_shiftRight_le (m k : Nat) :
    (ExtendedMantissa.ofMantissaAndAccuracy m .exact >>> k).roundedMantissa ≤ halfUp m k := by
  cases k with
  | zero =>
    show m ≤ (2 * m + 2 ^ 0) / 2 ^ (0 + 1)
    omega
  | succ k =>
    have hle := roundedMantissa_le (ExtendedMantissa.ofMantissaAndAccuracy m .exact >>> (k + 1))
    rw [roundBit_shiftRight, mantissa_shiftRight, mantissa_ofMantissaAndAccuracy] at hle
    have hhalf : halfUp m (k + 1) = (m / 2 ^ k + 1) / 2 := by
      have hpos := Nat.two_pow_pos k
      rw [halfUp, show 2 * m + 2 ^ (k + 1) = (m + 2 ^ k) * 2 by rw [Nat.pow_succ]; omega,
        Nat.pow_succ 2 (k + 1), Nat.mul_div_mul_right _ _ (by decide), Nat.pow_succ,
        ← Nat.div_div_eq_div_mul, Nat.add_div_right _ hpos]
    have hbit : (m / 2 ^ k % 2 != 0).toNat = m / 2 ^ k % 2 := by
      rcases Nat.mod_two_eq_zero_or_one (m / 2 ^ k) with h | h <;> rw [h] <;> rfl
    rw [hbit, Nat.pow_succ, ← Nat.div_div_eq_div_mul] at hle
    omega

-- ============================================================================
-- Rounding
-- ============================================================================

/-- A positive number `m * 2 ^ e` is rounded to 53 bits, `r * 2 ^ t`.  Before a carry they are
    `kept`. -/
structure RoundsTo (m : Nat) (e : Int) (kept r : Nat) (t : Int) : Prop where
  least : 2 ^ 52 ≤ r
  greatest : r < 2 ^ 53
  low : m / 2 ^ (m.log2 - 52) ≤ kept
  high : kept ≤ halfUp m (m.log2 - 52)
  carry : r = kept ∧ t = e + (m.log2 - 52 : Nat) ∨
    kept = 2 ^ 53 ∧ r = 2 ^ 52 ∧ t = e + (m.log2 - 52 : Nat) + 1

theorem roundsTo_round {m : Nat} {e : Int} (hbits : 2 ^ 52 ≤ m)
    (hlo : -1021 ≤ totalExponent m e) :
    ∃ kept r t p, roundWithAccuracy Format.binary64 .positive m e .exact =
      .finite .positive r t p ∧ RoundsTo m e kept r t := by
  have hne : m ≠ 0 := by
    have : 0 < 2 ^ 52 := by decide
    omega
  have hlog : 52 ≤ m.log2 := (Nat.le_log2 hne).2 hbits
  have hT : totalExponent m e = m.log2 + 1 + e := rfl
  have hexp := (shiftToTargetExponent_eq m e .exact).2
  have hshift : (max (totalExponent m e - 53) (-1074) - e).toNat = m.log2 - 52 := by omega
  have hfirst : (shiftToTargetExponent Format.binary64 m e .exact).1 =
      ExtendedMantissa.ofMantissaAndAccuracy m .exact >>> (m.log2 - 52) := by
    rw [← hshift]
    rfl
  -- the first shift leaves 53 digits
  have hpow : 2 ^ m.log2 = 2 ^ 52 * 2 ^ (m.log2 - 52) := by
    rw [← Nat.pow_add]
    congr 1
    omega
  have hpos : 0 < 2 ^ (m.log2 - 52) := Nat.two_pow_pos _
  have hlow : 2 ^ 52 ≤ m / 2 ^ (m.log2 - 52) := by
    rw [Nat.le_div_iff_mul_le hpos, ← hpow]
    exact Nat.log2_self_le hne
  have hhigh : m / 2 ^ (m.log2 - 52) < 2 ^ 53 := by
    rw [Nat.div_lt_iff_lt_mul hpos]
    have hlt : m < 2 ^ (m.log2 + 1) := Nat.lt_log2_self
    rw [Nat.pow_succ, hpow] at hlt
    omega
  obtain ⟨hge, hle⟩ := roundedMantissa_bounds
    (ExtendedMantissa.ofMantissaAndAccuracy m .exact >>> (m.log2 - 52))
  have hup := roundedMantissa_shiftRight_le m (m.log2 - 52)
  rw [mantissa_shiftRight, mantissa_ofMantissaAndAccuracy] at hge hle
  rw [roundWithAccuracy_eq]
  dsimp only
  rw [hfirst, hexp]
  generalize (ExtendedMantissa.ofMantissaAndAccuracy m .exact >>>
    (m.log2 - 52)).roundedMantissa = kept at hge hle hup
  have hexponent : max e (max (totalExponent m e - 53) (-1074)) = e + (m.log2 - 52 : Nat) := by
    omega
  rw [hexponent]
  -- the second one makes up for a carry
  obtain ⟨hmant, hlast⟩ := shiftToTargetExponent_eq kept (e + (m.log2 - 52 : Nat)) .exact
  have hT' : totalExponent kept (e + (m.log2 - 52 : Nat)) =
    kept.log2 + 1 + (e + (m.log2 - 52 : Nat)) := rfl
  rcases Nat.lt_or_eq_of_le (show kept ≤ 2 ^ 53 by omega) with hlt | rfl
  · have hkept := log2_normal (show 2 ^ 52 ≤ kept by omega) hlt
    rw [show (max (totalExponent kept (e + (m.log2 - 52 : Nat)) - 53) (-1074) -
      (e + (m.log2 - 52 : Nat))).toNat = 0 by omega, Nat.pow_zero, Nat.div_one] at hmant
    have hsame : (shiftToTargetExponent Format.binary64 kept (e + (m.log2 - 52 : Nat))
        .exact).2 = e + (m.log2 - 52 : Nat) := by
      rw [hlast]
      omega
    rw [dif_neg (by omega)]
    refine ⟨kept, _, _, _, rfl, ?_⟩
    rw [hmant, hsame]
    exact ⟨by omega, hlt, hge, hup, .inl ⟨rfl, rfl⟩⟩
  · have hkept : (2 ^ 53 : Nat).log2 = 53 := Nat.log2_two_pow
    rw [show (max (totalExponent (2 ^ 53) (e + (m.log2 - 52 : Nat)) - 53) (-1074) -
      (e + (m.log2 - 52 : Nat))).toNat = 1 by omega] at hmant
    have hnext : (shiftToTargetExponent Format.binary64 (2 ^ 53) (e + (m.log2 - 52 : Nat))
        .exact).2 = e + (m.log2 - 52 : Nat) + 1 := by
      rw [hlast]
      omega
    have hr : (shiftToTargetExponent Format.binary64 (2 ^ 53) (e + (m.log2 - 52 : Nat))
        .exact).1.mantissa = 2 ^ 52 := hmant.trans (by decide)
    rw [dif_neg (by omega)]
    refine ⟨2 ^ 53, _, _, _, rfl, ?_⟩
    rw [hr, hnext]
    exact ⟨Nat.le_refl _, by decide, hge, hup, .inr ⟨rfl, rfl, rfl⟩⟩

variable {m kept r : Nat} {e t : Int}

theorem RoundsTo.value (h : RoundsTo m e kept r t) :
    r * 2 ^ (t - e).toNat = kept * 2 ^ (m.log2 - 52) := by
  rcases h.carry with ⟨rfl, ht⟩ | ⟨rfl, rfl, ht⟩
  · rw [show (t - e).toNat = m.log2 - 52 by omega]
  · rw [show (t - e).toNat = m.log2 - 52 + 1 by omega, Nat.pow_succ 2 (m.log2 - 52)]
    omega

/-- The middle between the greatest double and the next power of two. -/
def middle : Nat := (2 ^ 54 - 1) * 2 ^ 970

theorem middle_mul_two_pow (c : Nat) : middle * 2 ^ c = (2 ^ 54 - 1) * 2 ^ (970 + c) := by
  rw [middle, Nat.mul_assoc, Nat.pow_add]

/-- What lies below the middle is rounded to a double. -/
theorem RoundsTo.exponent_le (h : RoundsTo m e kept r t) (hbits : 2 ^ 52 ≤ m) {c : Nat}
    (he : -c ≤ e) (hlt : m * 2 ^ (e + c).toNat < middle * 2 ^ c) : t ≤ 971 := by
  rw [middle_mul_two_pow] at hlt
  have hne : m ≠ 0 := by
    have : 0 < 2 ^ 52 := by decide
    omega
  have hlog : 52 ≤ m.log2 := (Nat.le_log2 hne).2 hbits
  have hhigh := h.high
  have hcarry := h.carry
  have hk : m.log2 = m.log2 - 52 + 52 := by omega
  generalize m.log2 - 52 = k at hhigh hcarry hk
  -- the leading digit stands below that of the middle
  have hlead : m.log2 + (e + c).toNat < 1024 + c := by
    rw [← Nat.pow_lt_pow_iff_right (show 1 < 2 by decide)]
    calc 2 ^ (m.log2 + (e + c).toNat) = 2 ^ m.log2 * 2 ^ (e + c).toNat := Nat.pow_add ..
      _ ≤ m * 2 ^ (e + c).toNat := Nat.mul_le_mul_right _ (Nat.log2_self_le hne)
      _ < (2 ^ 54 - 1) * 2 ^ (970 + c) := hlt
      _ ≤ 2 ^ 54 * 2 ^ (970 + c) := Nat.mul_le_mul_right _ (by decide)
      _ = 2 ^ (1024 + c) := by rw [← Nat.pow_add]; congr 1; omega
  by_cases hlast : e + k = 971
  · -- there is no carry in the last position
    have htwice : 2 * m < (2 ^ 54 - 1) * 2 ^ k := by
      have hscale : (e + c).toNat + k = 970 + c + 1 := by omega
      generalize 970 + c = j at hlt hscale
      refine Nat.lt_of_mul_lt_mul_right (a := 2 ^ j) ?_
      calc 2 * m * 2 ^ j = m * (2 ^ (e + c).toNat * 2 ^ k) := by
            rw [← Nat.pow_add, hscale, Nat.pow_succ]
            ring
        _ = m * 2 ^ (e + c).toNat * 2 ^ k := (Nat.mul_assoc ..).symm
        _ < (2 ^ 54 - 1) * 2 ^ j * 2 ^ k := Nat.mul_lt_mul_of_pos_right hlt (Nat.two_pow_pos k)
        _ = (2 ^ 54 - 1) * 2 ^ k * 2 ^ j := Nat.mul_right_comm ..
    have hkept : halfUp m k < 2 ^ 53 := by
      rw [halfUp, Nat.div_lt_iff_lt_mul (Nat.two_pow_pos _), Nat.pow_succ]
      omega
    omega
  · omega

/-- It is read back as it was rounded. -/
theorem unpack_pack_round (hbits : 2 ^ 52 ≤ m) (hlo : -1021 ≤ totalExponent m e) {c : Nat}
    (he : -c ≤ e) (hlt : m * 2 ^ (e + c).toNat < middle * 2 ^ c) :
    ∃ kept r t p, (Float.Model.pack (roundWithAccuracy Format.binary64 .positive m e
      .exact)).unpack = .finite .positive r t p ∧ RoundsTo m e kept r t := by
  obtain ⟨kept, r, t, p, hround, hrounds⟩ := roundsTo_round hbits hlo
  have hlow : -1074 ≤ t := by
    have hT : totalExponent m e = m.log2 + 1 + e := rfl
    have hcarry := hrounds.carry
    omega
  refine ⟨kept, r, t, p, ?_, hrounds⟩
  rw [hround]
  exact unpack_pack_full p hrounds.least hrounds.greatest hlow (hrounds.exponent_le hbits he hlt)

-- ============================================================================
-- Integers rounded up
-- ============================================================================

/-- A counter rounded to 53 bits; a half is rounded up. -/
def roundUp (n : Nat) : Nat := halfUp n (n.log2 - 52) * 2 ^ (n.log2 - 52)

/-- Counters of at most 53 bits stay as they are. -/
theorem roundUp_of_log2_le {n : Nat} (h : n.log2 ≤ 52) : roundUp n = n := by
  rw [roundUp, Nat.sub_eq_zero_of_le h, halfUp]
  omega

theorem halfUp_mono {m n : Nat} (h : m ≤ n) (k : Nat) : halfUp m k ≤ halfUp n k :=
  Nat.div_le_div_right (by omega)

/-- Rounding to 53 bits goes no further than to the next power of two. -/
theorem roundUp_le_two_pow {n : Nat} : roundUp n ≤ 2 ^ (n.log2 + 1) := by
  by_cases hlog : n.log2 ≤ 52
  · rw [roundUp_of_log2_le hlog]
    exact Nat.le_of_lt Nat.lt_log2_self
  · obtain ⟨k, hk⟩ : ∃ k, n.log2 = 52 + k := ⟨n.log2 - 52, by omega⟩
    have hlt : n < 2 ^ (n.log2 + 1) := Nat.lt_log2_self
    rw [roundUp, hk, Nat.add_sub_cancel_left]
    rw [hk, show 52 + k + 1 = 53 + k by omega, Nat.pow_add] at hlt
    have hhalf : halfUp n k ≤ 2 ^ 53 := by
      rw [halfUp, ← Nat.lt_succ_iff, Nat.div_lt_iff_lt_mul (Nat.two_pow_pos _), Nat.pow_succ 2 k]
      omega
    calc halfUp n k * 2 ^ k ≤ 2 ^ 53 * 2 ^ k := Nat.mul_le_mul_right _ hhalf
      _ = 2 ^ (52 + k + 1) := by rw [← Nat.pow_add]; congr 1; omega

theorem two_pow_le_roundUp {n : Nat} (hn : n ≠ 0) : 2 ^ n.log2 ≤ roundUp n := by
  have hle : 2 ^ n.log2 ≤ n := Nat.log2_self_le hn
  by_cases hlog : n.log2 ≤ 52
  · rw [roundUp_of_log2_le hlog]
    exact hle
  · obtain ⟨k, hk⟩ : ∃ k, n.log2 = 52 + k := ⟨n.log2 - 52, by omega⟩
    rw [roundUp, hk, Nat.add_sub_cancel_left]
    rw [hk, Nat.pow_add] at hle
    have hhalf : 2 ^ 52 ≤ halfUp n k := by
      rw [halfUp, Nat.le_div_iff_mul_le (Nat.two_pow_pos _), Nat.pow_succ 2 k]
      omega
    rw [Nat.pow_add]
    exact Nat.mul_le_mul_right _ hhalf

/-- A greater counter is not rounded to less. -/
theorem roundUp_mono {m n : Nat} (h : m ≤ n) : roundUp m ≤ roundUp n := by
  by_cases hm : m = 0
  · rw [hm, roundUp_of_log2_le (by decide)]
    exact Nat.zero_le _
  have hn : n ≠ 0 := by omega
  have hlog : m.log2 ≤ n.log2 := (Nat.le_log2 hn).2 (Nat.le_trans (Nat.log2_self_le hm) h)
  rcases Nat.lt_or_eq_of_le hlog with hlt | heq
  · calc roundUp m ≤ 2 ^ (m.log2 + 1) := roundUp_le_two_pow
      _ ≤ 2 ^ n.log2 := Nat.pow_le_pow_right (by decide) hlt
      _ ≤ roundUp n := two_pow_le_roundUp hn
  · rw [roundUp, roundUp, heq]
    exact Nat.mul_le_mul_right _ (halfUp_mono h _)

theorem halfUp_mul_two_pow (n j k : Nat) : halfUp (n * 2 ^ j) (k + j) = halfUp n k := by
  have hfactor : 2 * (n * 2 ^ j) + 2 ^ (k + j) = (2 * n + 2 ^ k) * 2 ^ j := by
    rw [Nat.pow_add, Nat.add_mul, Nat.mul_assoc]
  rw [halfUp, halfUp, hfactor, show k + j + 1 = k + 1 + j by omega, Nat.pow_add 2 (k + 1),
    Nat.mul_div_mul_right _ _ (Nat.two_pow_pos j)]

/-- Trailing zeros make no difference. -/
theorem roundUp_mul_two_pow {n : Nat} (hn : n ≠ 0) (j : Nat) :
    roundUp (n * 2 ^ j) = roundUp n * 2 ^ j := by
  have hlog := log2_mul_two_pow hn j
  by_cases hbits : 52 ≤ n.log2
  · rw [roundUp, roundUp, hlog, show n.log2 + j - 52 = n.log2 - 52 + j by omega,
      halfUp_mul_two_pow, Nat.pow_add, Nat.mul_assoc]
  · -- there are fewer bits dropped than there are trailing zeros
    obtain ⟨i, hi⟩ : ∃ i, j = i + (n.log2 + j - 52) := ⟨j - (n.log2 + j - 52), by omega⟩
    rw [roundUp_of_log2_le (show n.log2 ≤ 52 by omega), roundUp, hlog]
    generalize n.log2 + j - 52 = k at hi
    rw [hi, Nat.pow_add, ← Nat.mul_assoc]
    have hhalf := halfUp_mul_two_pow (n * 2 ^ i) k 0
    rw [Nat.zero_add] at hhalf
    rw [hhalf, halfUp]
    congr 1
    omega

-- ============================================================================
-- Integers as doubles
-- ============================================================================

/-- The double is positive, with a full significand, and not above the integer rounded up. -/
def Converts (x : Score) (n : Nat) : Prop :=
  match x.toModel.unpack with
  | .finite .positive m e _ => 2 ^ 52 ≤ m ∧ -52 ≤ e ∧ m * 2 ^ (e + 52).toNat ≤ roundUp n * 2 ^ 52
  | _ => False

instance (x : Score) (n : Nat) : Decidable (Converts x n) := by
  unfold Converts
  split <;> infer_instance

variable {x y : Score} {n k : Nat}

theorem converts_iff : Converts x n ↔ ∃ m e p, x.toModel.unpack = .finite .positive m e p ∧
    2 ^ 52 ≤ m ∧ -52 ≤ e ∧ m * 2 ^ (e + 52).toNat ≤ roundUp n * 2 ^ 52 := by
  unfold Converts
  split
  · rename_i m e p hu
    constructor
    · exact fun h => ⟨m, e, p, hu, h⟩
    · rintro ⟨m', e', p', h, hbounds⟩
      rw [hu, UnpackedFloat.finite.injEq] at h
      obtain ⟨-, rfl, rfl⟩ := h
      exact hbounds
  · rename_i hnot
    constructor
    · exact fun h => h.elim
    · rintro ⟨m, e, p, h, -⟩
      exact hnot m e p h

/-- Integers are scaled up and rounded. -/
theorem converts_of_round {j kept r : Nat} {t : Int} {p : 0 < r} (hn : n ≠ 0)
    (hj : 52 ≤ n.log2 + j) (hx : x.toModel.unpack = .finite .positive r t p)
    (hrounds : RoundsTo (n * 2 ^ j) (-j) kept r t) : Converts x n := by
  have hlog := log2_mul_two_pow hn j
  have hcarry := hrounds.carry
  refine converts_iff.2 ⟨r, t, p, hx, hrounds.least, by omega, ?_⟩
  have hle : r * 2 ^ (t - -j).toNat ≤ roundUp n * 2 ^ j := by
    rw [hrounds.value, ← roundUp_mul_two_pow hn]
    exact Nat.mul_le_mul_right _ hrounds.high
  refine Nat.le_of_mul_le_mul_right (c := 2 ^ j) ?_ (Nat.two_pow_pos j)
  calc r * 2 ^ (t + 52).toNat * 2 ^ j = r * 2 ^ (t - -j).toNat * 2 ^ 52 := by
        rw [Nat.mul_assoc, Nat.mul_assoc, ← Nat.pow_add, ← Nat.pow_add]
        congr 2
        omega
    _ ≤ roundUp n * 2 ^ j * 2 ^ 52 := Nat.mul_le_mul_right _ hle
    _ = roundUp n * 2 ^ 52 * 2 ^ j := Nat.mul_right_comm ..

theorem converts_ofNat (hpos : 0 < n) (hn : n < 2 ^ 64) : Converts (Float.ofNat n) n := by
  have hne : n ≠ 0 := Nat.ne_of_gt hpos
  obtain ⟨j, hj, hround⟩ := unpack_ofNat hpos hn
  obtain ⟨m, e, p, hu, -⟩ := normalIn_elim (normal_ofNat hpos hn)
  have hlog := log2_mul_two_pow hne j
  have hne' : n * 2 ^ j ≠ 0 := Nat.mul_ne_zero hne (Nat.ne_of_gt (Nat.two_pow_pos j))
  have hT : totalExponent (n * 2 ^ j) (-j) = (n * 2 ^ j).log2 + 1 + -j := rfl
  obtain ⟨kept, r, t, q, hr, hrounds⟩ := roundsTo_round (e := -j)
    ((Nat.le_log2 hne').1 (by omega)) (by omega)
  exact converts_of_round hne hj (hround.trans hr) hrounds

/-- The powers of ten that are doubles themselves. -/
theorem converts_powerOfTen_small : ∀ k ≤ 22, Converts (Decimal.powerOfTen k) (10 ^ k) := by
  decide

theorem powerOfTen_lt_middle (hk : k ≤ 308) : 10 ^ k < middle := by
  calc 10 ^ k ≤ 10 ^ 308 := Nat.pow_le_pow_right (by decide) hk
    _ < middle := by decide +kernel

theorem converts_powerOfTen (hk : k ≤ 308) : Converts (Decimal.powerOfTen k) (10 ^ k) := by
  by_cases hsmall : k ≤ 22
  · exact converts_powerOfTen_small k hsmall
  · have hne : 10 ^ k ≠ 0 := Nat.ne_of_gt (Nat.pow_pos (by decide))
    have hunpack : (Decimal.powerOfTen k).toModel.unpack = (Float.Model.pack
        (UnpackedFloat.ofScientific Format.binary64 1 k)).unpack := by
      show (Float.ofScientific 1 false k).toModel.unpack = _
      rw [Float.ofScientific, dif_neg fun h => hsmall h.2]
      rfl
    have hscaled : 1 * 2 ^ 53 * 10 ^ k = 10 ^ k * 2 ^ 53 := by
      rw [Nat.one_mul, Nat.mul_comm]
    rw [ofScientific_eq_round (by decide) (by omega), hscaled] at hunpack
    have hlog := log2_mul_two_pow hne 53
    have hbits : 2 ^ 52 ≤ 10 ^ k * 2 ^ 53 :=
      Nat.le_trans (by decide) (Nat.le_mul_of_pos_left (2 ^ 53) (Nat.pow_pos (by decide)))
    have hT : totalExponent (10 ^ k * 2 ^ 53) (-(53 : Nat)) =
      (10 ^ k * 2 ^ 53).log2 + 1 + -(53 : Nat) := rfl
    obtain ⟨kept, r, t, p, hr, hrounds⟩ := unpack_pack_round (e := -(53 : Nat)) (c := 53) hbits
      (by omega) (Int.le_refl _) (by
        rw [Int.add_left_neg, Int.toNat_zero, Nat.pow_zero, Nat.mul_one]
        exact Nat.mul_lt_mul_of_pos_right (powerOfTen_lt_middle hk) (Nat.two_pow_pos 53))
    exact converts_of_round hne (by omega) (hunpack.trans hr) hrounds

-- ============================================================================
-- Products with powers of ten
-- ============================================================================

/-- A product of two integers is finite if it lies below the middle even with both of them rounded
    up. -/
theorem isInf_mul_of_converts {a b : Nat} (hx : Converts x a) (hy : Converts y b)
    (hlt : roundUp a * roundUp b < middle) : (x * y).isInf = false := by
  obtain ⟨m₁, e₁, p₁, hu₁, hm₁, he₁, hle₁⟩ := converts_iff.1 hx
  obtain ⟨m₂, e₂, p₂, hu₂, hm₂, he₂, hle₂⟩ := converts_iff.1 hy
  have hbits : 2 ^ 104 ≤ m₁ * m₂ :=
    calc 2 ^ 104 = 2 ^ 52 * 2 ^ 52 := by decide
      _ ≤ m₁ * m₂ := Nat.mul_le_mul hm₁ hm₂
  have hlog : 104 ≤ (m₁ * m₂).log2 := (Nat.le_log2 (by omega)).2 hbits
  have hT : totalExponent (m₁ * m₂) (e₁ + e₂) = (m₁ * m₂).log2 + 1 + (e₁ + e₂) := rfl
  have hproduct : m₁ * m₂ * 2 ^ (e₁ + e₂ + (104 : Nat)).toNat < middle * 2 ^ 104 := by
    calc m₁ * m₂ * 2 ^ (e₁ + e₂ + (104 : Nat)).toNat
        = m₁ * 2 ^ (e₁ + 52).toNat * (m₂ * 2 ^ (e₂ + 52).toNat) := by
          rw [show (e₁ + e₂ + (104 : Nat)).toNat = (e₁ + 52).toNat + (e₂ + 52).toNat by omega,
            Nat.pow_add]
          ring
      _ ≤ roundUp a * 2 ^ 52 * (roundUp b * 2 ^ 52) := Nat.mul_le_mul hle₁ hle₂
      _ = roundUp a * roundUp b * 2 ^ 104 := by ring
      _ < middle * 2 ^ 104 := Nat.mul_lt_mul_of_pos_right hlt (Nat.two_pow_pos 104)
  obtain ⟨kept, r, t, p, hr, -⟩ := unpack_pack_round (m := m₁ * m₂) (e := e₁ + e₂) (c := 104)
    (by omega) (by omega) (by omega) hproduct
  have hfinite : (x * y).toModel.unpack = .finite .positive r t p := by
    show (Float.Model.pack (UnpackedFloat.mul Format.binary64 _ _)).unpack = _
    rw [hu₁, hu₂]
    exact hr
  show (x * y).toModel.unpack.isInf = false
  rw [hfinite]
  rfl

/-- The greatest number halfway between two doubles that is not in the last step up to the
    greatest double. -/
def nearGreatest : Nat := (2 ^ 54 - 3) * 2 ^ 970

theorem nearGreatest_lt : nearGreatest < 10 ^ 309 := by decide +kernel

/-- The greatest counter whose product with a power of ten does not exceed this. -/
def greatestCounter (k : Nat) : Nat := min (2 ^ 64 - 1) (nearGreatest / 10 ^ k)

theorem roundUp_greatestCounter_lt (hk : k ≤ 308) :
    roundUp (greatestCounter k) * roundUp (10 ^ k) < middle := by
  by_cases hlarge : 289 ≤ k
  · have hrows : ∀ j < 20, roundUp (greatestCounter (289 + j)) * roundUp (10 ^ (289 + j)) < middle :=
      by decide +kernel
    obtain ⟨j, rfl⟩ := Nat.exists_eq_add_of_le hlarge
    exact hrows j (by omega)
  · -- below that no counter is too great
    have hbelow : k ≤ 288 := Nat.le_of_lt_succ (Nat.lt_of_not_le hlarge)
    have hpower := Nat.pow_le_pow_right (show 0 < 10 by decide) hbelow
    calc roundUp (greatestCounter k) * roundUp (10 ^ k)
        ≤ roundUp (2 ^ 64 - 1) * roundUp (10 ^ 288) :=
          Nat.mul_le_mul (roundUp_mono (Nat.min_le_left _ _)) (roundUp_mono hpower)
      _ < middle := by decide +kernel

/-- The product of a counter and a power of ten is finite, unless it exceeds that number. -/
theorem isInf_mul_powerOfTen (hpos : 0 < n) (hn : n < 2 ^ 64) (hk : k ≤ 308)
    (hle : n * 10 ^ k ≤ nearGreatest) :
    (Float.ofNat n * Decimal.powerOfTen k).isInf = false := by
  have hgreatest : n ≤ greatestCounter k :=
    Nat.le_min.2 ⟨by omega, (Nat.le_div_iff_mul_le (Nat.pow_pos (by decide))).2 hle⟩
  refine isInf_mul_of_converts (converts_ofNat hpos hn) (converts_powerOfTen hk) ?_
  exact Nat.lt_of_le_of_lt
    (Nat.mul_le_mul_right _ (roundUp_mono hgreatest))
    (roundUp_greatestCounter_lt hk)

/-- So it is found when decimal digits are read. -/
theorem isSome_scaled? {e : Int} (hpos : 0 < n) (hn : n < 2 ^ 64)
    (hle : 0 ≤ e → n * 10 ^ e.toNat ≤ nearGreatest) : (Decimal.scaled? n e).isSome = true := by
  cases e with
  | negSucc k => rfl
  | ofNat k =>
    have hle : n * 10 ^ k ≤ nearGreatest := hle (Int.natCast_nonneg k)
    have hk : k < 309 := by
      rw [← Nat.pow_lt_pow_iff_right (show 1 < 10 by decide)]
      calc 10 ^ k ≤ n * 10 ^ k := Nat.le_mul_of_pos_left _ hpos
        _ ≤ nearGreatest := hle
        _ < 10 ^ 309 := nearGreatest_lt
    have hk : k ≤ 308 := Nat.le_of_lt_succ hk
    have hfinite := isInf_mul_powerOfTen hpos hn hk hle
    simp only [Decimal.scaled?, hk, if_true]
    rw [hfinite]
    rfl

end GameSearch.Score
