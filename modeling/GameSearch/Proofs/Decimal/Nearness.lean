/-
  GameSearch.Proofs.Decimal.Nearness

  The decimal that is written for a double stands for a number near it: at most half a unit
  in the last place away.  The writer computes with natural numbers; here the reals in question
  are compared as rationals.

    * `numerator_eq`                 — the fraction the writer computes with
    * `near_of_readsBack`            — what reads back lies near
    * `near_shortest`                — so the shortest decimal does
    * `exists_reading_of_isFinite`   — what the bits of a finite double stand for
    * `power_shortest_bounds`        — where the leading digit stands
    * `value_shortest_le_of_double`  — how near the decimal comes to the range of doubles
-/
import Mathlib
import GameSearch.Decimal.Notation
import GameSearch.Proofs.Score.Order

namespace GameSearch.Decimal

/-- The number that a decimal stands for. -/
def Scaled.value (d : Scaled) : ℚ := d.digits * 10 ^ d.exponent

/-- The number that a double stands for. -/
def Binary.value (x : Binary) : ℚ := x.significand * 2 ^ x.exponent

-- ============================================================================
-- Numbers that read back
-- ============================================================================

/-- A power with an exponent of any sign, as a fraction of natural numbers. -/
theorem pow_toNat (a : Nat) (ha : a ≠ 0) (k : Int) :
    ((a ^ k.toNat : Nat) : ℚ) = (a ^ (-k).toNat : Nat) * (a : ℚ) ^ k := by
  have ha' : (a : ℚ) ≠ 0 := Nat.cast_ne_zero.2 ha
  rcases Int.le_total 0 k with hk | hk
  · rw [show (-k).toNat = 0 by omega, pow_zero, Nat.cast_one, one_mul, Nat.cast_pow, ← zpow_natCast,
      Int.toNat_of_nonneg hk]
  · rw [show k.toNat = 0 by omega, pow_zero, Nat.cast_one, Nat.cast_pow, ← zpow_natCast,
      Int.toNat_of_nonneg (by omega), ← zpow_add₀ ha', Int.add_left_neg, zpow_zero]

namespace Binary

variable {x : Binary} {scale : Int} {c : Nat}

theorem numerator_eq (x : Binary) (k : Int) :
    (x.numerator k : ℚ) = x.denominator k * (2 ^ x.exponent * 10 ^ k) := by
  have htwo := pow_toNat 2 (by decide) x.exponent
  have hten := pow_toNat 10 (by decide) k
  show (((2 ^ x.exponent.toNat : Nat) * (10 ^ k.toNat : Nat) : Nat) : ℚ) =
    (((2 ^ (-x.exponent).toNat : Nat) * (10 ^ (-k).toNat : Nat) : Nat) : ℚ) * _
  rw [Nat.cast_mul, Nat.cast_mul, htwo, hten]
  push_cast
  ring

theorem denominator_pos (x : Binary) (k : Int) : 0 < x.denominator k :=
  Nat.mul_pos (Nat.pow_pos (by decide)) (Nat.pow_pos (by decide))

/-- What reads back lies in the interval that is as wide above as below, ends included. -/
theorem le_of_readsBack (h : x.readsBack scale c = true) :
    (4 * x.significand - 2) * x.numerator scale ≤ 4 * c * x.denominator scale ∧
      4 * c * x.denominator scale ≤ (4 * x.significand + 2) * x.numerator scale := by
  have hlow : 4 * x.significand - 2 ≤
      if x.narrowBelow then 4 * x.significand - 1 else 4 * x.significand - 2 := by
    split <;> omega
  have hlow := Nat.mul_le_mul_right (x.numerator scale) hlow
  unfold readsBack at h
  dsimp only at h
  split at h <;> simp only [Bool.and_eq_true, decide_eq_true_eq] at h
  · exact ⟨Nat.le_trans hlow h.1, h.2⟩
  · exact ⟨Nat.le_trans hlow (Nat.le_of_lt h.1), Nat.le_of_lt h.2⟩

/-- What reads back lies at most half a unit away. -/
theorem near_of_readsBack (hs : x.significand ≠ 0) (h : x.readsBack scale c = true) :
    |Scaled.value ⟨c, -scale⟩ - x.value| ≤ 2 ^ x.exponent / 2 := by
  obtain ⟨hlow, hhigh⟩ := le_of_readsBack h
  have hden : (0 : ℚ) < x.denominator scale := Nat.cast_pos.2 (x.denominator_pos scale)
  have hten : (0 : ℚ) < 10 ^ scale := zpow_pos (by norm_num) _
  have hlow : (4 * x.significand - 2 : ℚ) * (2 ^ x.exponent * 10 ^ scale) ≤ 4 * c := by
    refine le_of_mul_le_mul_right ?_ hden
    have hcast : (((4 * x.significand - 2 : Nat) * x.numerator scale : Nat) : ℚ) ≤
      ((4 * c * x.denominator scale : Nat) : ℚ) := Nat.cast_le.2 hlow
    rw [Nat.cast_mul, numerator_eq, Nat.cast_sub (by omega)] at hcast
    push_cast at hcast
    linarith
  have hhigh : 4 * (c : ℚ) ≤ (4 * x.significand + 2 : ℚ) * (2 ^ x.exponent * 10 ^ scale) := by
    refine le_of_mul_le_mul_right ?_ hden
    have hcast : ((4 * c * x.denominator scale : Nat) : ℚ) ≤
      (((4 * x.significand + 2 : Nat) * x.numerator scale : Nat) : ℚ) := Nat.cast_le.2 hhigh
    rw [Nat.cast_mul _ (x.numerator scale), numerator_eq] at hcast
    push_cast at hcast
    linarith
  have hc : Scaled.value ⟨c, -scale⟩ * 10 ^ scale = c := by
    rw [Scaled.value, mul_assoc, ← zpow_add₀ (by norm_num), Int.add_left_neg, zpow_zero, mul_one]
  rw [abs_le, value]
  constructor
  · refine le_of_mul_le_mul_right ?_ hten
    rw [sub_mul, hc]
    linarith
  · refine le_of_mul_le_mul_right ?_ hten
    rw [sub_mul, hc]
    linarith

end Binary

-- ============================================================================
-- The shortest decimal
-- ============================================================================

/-- Moving zeros into the exponent leaves the number as it is. -/
theorem Scaled.value_strip (d : Scaled) : d.strip.value = d.value := by
  fun_induction Scaled.strip d with
  | case1 d h ih =>
    obtain ⟨m, hm⟩ := Nat.dvd_of_mod_eq_zero h.2
    rw [ih, Scaled.value, Scaled.value]
    dsimp only
    rw [hm, Nat.mul_div_cancel_left _ (by decide), zpow_add₀ (by norm_num), zpow_one]
    push_cast
    ring
  | case2 d h => rfl

theorem Tie.nearer_eq (tie : Tie) (value unit below : Nat) :
    tie.nearer value unit below = below ∨ tie.nearer value unit below = below + 1 := by
  unfold Tie.nearer
  dsimp only
  split
  · exact .inl rfl
  · split
    · exact .inr rfl
    · split
      · exact .inr rfl
      · split
        · exact .inl rfl
        · exact .inr rfl

namespace Binary

variable {x : Binary} (tie : Tie)

theorem value_exact (x : Binary) : x.exact.value = x.value := by
  rw [exact]
  split
  · have hfive := pow_toNat 5 (by decide) (-x.exponent)
    rw [show (- -x.exponent).toNat = 0 by omega, pow_zero, Nat.cast_one, one_mul] at hfive
    have hcancel : (5 : ℚ) ^ (-x.exponent) * 5 ^ x.exponent = 1 := by
      rw [← zpow_add₀ (by norm_num), Int.add_left_neg, zpow_zero]
    show ((x.significand * 5 ^ (-x.exponent).toNat : Nat) : ℚ) * 10 ^ x.exponent = _
    rw [Nat.cast_mul, hfive, value, show (10 : ℚ) = 5 * 2 by norm_num, mul_zpow, Nat.cast_ofNat]
    linear_combination (x.significand * 2 ^ x.exponent : ℚ) * hcancel
  · have htwo := pow_toNat 2 (by decide) x.exponent
    rw [show (-x.exponent).toNat = 0 by omega, pow_zero, Nat.cast_one, one_mul] at htwo
    show ((x.significand * 2 ^ x.exponent.toNat : Nat) : ℚ) * 10 ^ (0 : Int) = _
    rw [Nat.cast_mul, htwo, zpow_zero, mul_one]
    rfl

theorem readsBack_of_hit? {scale : Int} {c : Nat} (h : x.hit? tie scale = some c) :
    x.readsBack scale c = true := by
  unfold hit? at h
  dsimp only at h
  split at h <;> cases h
  · rename_i hbelow habove
    rcases tie.nearer_eq (x.significand * x.numerator scale) (x.denominator scale)
      (x.significand * x.numerator scale / x.denominator scale) with h | h
    · rw [h]
      exact hbelow
    · rw [h]
      exact habove
  · assumption
  · assumption

/-- The shortest decimal lies at most half a unit away. -/
theorem near_shortest (hs : x.significand ≠ 0) :
    |(x.shortest tie).value - x.value| ≤ 2 ^ x.exponent / 2 := by
  rw [shortest, if_neg hs]
  dsimp only
  rw [Scaled.value_strip]
  cases hfound : (List.range' 1 17).findSome? fun n : Nat =>
      (x.hit? tie (n - x.decimalScale)).map fun digits =>
        (⟨digits, x.decimalScale - n⟩ : Scaled) with
  | none =>
    rw [Option.getD_none, value_exact, sub_self, abs_zero]
    positivity
  | some d =>
    obtain ⟨n, -, hn⟩ := List.exists_of_findSome?_eq_some hfound
    obtain ⟨c, hc, rfl⟩ := Option.map_eq_some_iff.1 hn
    have hnear := near_of_readsBack hs (readsBack_of_hit? tie hc)
    rw [Int.neg_sub] at hnear
    exact hnear

theorem half_le_value_shortest (hs : x.significand ≠ 0) :
    2 ^ x.exponent / 2 ≤ (x.shortest tie).value := by
  have hnear := (abs_le.1 (near_shortest tie hs)).1
  have htwo : (0 : ℚ) < 2 ^ x.exponent := zpow_pos (by norm_num) _
  have hone : (1 : ℚ) ≤ x.significand := Nat.one_le_cast.2 (Nat.pos_of_ne_zero hs)
  have hvalue : (2 : ℚ) ^ x.exponent ≤ x.value := le_mul_of_one_le_left htwo.le hone
  linarith

theorem value_shortest_le (hs : x.significand ≠ 0) :
    (x.shortest tie).value ≤ (2 * x.significand + 1) * 2 ^ (x.exponent - 1) := by
  have hnear := (abs_le.1 (near_shortest tie hs)).2
  rw [value] at hnear
  rw [zpow_sub_one₀ (by norm_num)]
  linarith

theorem digits_shortest_ne_zero (hs : x.significand ≠ 0) : (x.shortest tie).digits ≠ 0 := by
  intro hzero
  have hhalf := half_le_value_shortest tie hs
  have htwo : (0 : ℚ) < 2 ^ x.exponent := zpow_pos (by norm_num) _
  rw [Scaled.value, hzero, Nat.cast_zero, zero_mul] at hhalf
  linarith

end Binary

-- ============================================================================
-- The bits of a double
-- ============================================================================

section Bits

open Float.Model Float.Model.UnpackedFloat

/-- The magnitude is that of a double. -/
structure Binary.Double (x : Binary) : Prop where
  significand_lt : x.significand < 2 ^ 53
  least : -1074 ≤ x.exponent
  greatest : x.exponent ≤ 971
  /-- The gaps differ only next to a power of two. -/
  narrow : x.narrowBelow = true → x.significand = 2 ^ 52

theorem toNat_unpackExponent (b : BitVec 64) :
    (@unpackExponent Format.binary64 b).toNat = b.toNat / 2 ^ 52 % 2 ^ 11 := by
  show ((b.extractLsb 62 52).cast _).toNat = _
  rw [BitVec.toNat_cast, BitVec.extractLsb_toNat, Nat.shiftRight_eq_div_pow]

theorem biased_lt_of_isFinite {x : Float} (h : x.isFinite = true) :
    ((x.toBits >>> 52) &&& 0x7FF).toNat < 2047 := by
  have hexponent : ((x.toBits >>> 52) &&& 0x7FF).toNat =
      (@unpackExponent Format.binary64 x.toModel.toBits.toBitVec).toNat := by
    rw [toNat_unpackExponent, UInt64.toNat_and, UInt64.toNat_shiftRight]
    show x.toBits.toNat >>> 52 &&& (2 ^ 11 - 1) = _
    rw [Nat.and_two_pow_sub_one_eq_mod, Nat.shiftRight_eq_div_pow]
    rfl
  rw [hexponent]
  apply Score.unpackExponent_lt
  intro hfull
  have hfinite : (UnpackedFloat.unpack Format.binary64 x.toModel.toBits.toBitVec).isFinite =
    true := h
  unfold UnpackedFloat.unpack at hfinite
  dsimp only at hfinite
  rw [if_pos hfull] at hfinite
  split at hfinite <;> cases hfinite

theorem exists_reading_of_isFinite {x : Float} (h : x.isFinite = true) :
    ∃ negative magnitude, Reading.ofFloat x = .finite negative magnitude ∧ magnitude.Double := by
  have hbiased := biased_lt_of_isFinite h
  have hfraction : (x.toBits &&& 0xFFFFFFFFFFFFF).toNat < 2 ^ 52 := by
    rw [UInt64.toNat_and]
    show x.toBits.toNat &&& (2 ^ 52 - 1) < _
    rw [Nat.and_two_pow_sub_one_eq_mod]
    exact Nat.mod_lt _ (by decide)
  unfold Reading.ofFloat
  dsimp only
  rw [if_neg (by simpa using Nat.ne_of_lt hbiased)]
  split
  · exact ⟨_, _, rfl, by dsimp only; omega, Int.le_refl _, by dsimp only; omega, nofun⟩
  · rename_i hzero
    have hzero : ((x.toBits >>> 52) &&& 0x7FF).toNat ≠ 0 := by simpa using hzero
    refine ⟨_, _, rfl, ?_, ?_, ?_, ?_⟩
    case refine_1 =>
      show 2 ^ 52 + _ < 2 ^ 53
      omega
    case refine_2 =>
      dsimp only
      omega
    case refine_3 =>
      dsimp only
      omega
    case refine_4 =>
      intro hnarrow
      simp only [Bool.and_eq_true, beq_iff_eq] at hnarrow
      show 2 ^ 52 + _ = _
      rw [hnarrow.1, Nat.add_zero]

end Bits

-- ============================================================================
-- How great the shortest decimal is
-- ============================================================================

/-- The power of ten of the leading digit. -/
def Scaled.power (d : Scaled) : Int := (digitsOf d.digits).length + d.exponent - 1

theorem pow_le_of_length_digitsOf {n k : Nat} (hn : n ≠ 0) (h : (digitsOf n).length = k + 1) :
    10 ^ k ≤ n := by
  cases k with
  | zero => exact Nat.pos_of_ne_zero hn
  | succ k =>
    refine Nat.le_of_not_lt fun hlt => ?_
    have := (Nat.length_toDigits_le_iff (b := 10) (by decide) (Nat.succ_pos k)).2 hlt
    rw [← digitsOf, h] at this
    omega

/-- A decimal lies between the powers of ten next to its leading digit. -/
theorem Scaled.power_bounds {d : Scaled} (h : d.digits ≠ 0) :
    10 ^ d.power ≤ d.value ∧ d.value < 10 ^ (d.power + 1) := by
  obtain ⟨k, hk⟩ := Nat.exists_eq_succ_of_ne_zero
    (List.length_pos_iff.2 (Nat.toDigits_ne_nil (n := d.digits) (b := 10))).ne'
  have hlow := pow_le_of_length_digitsOf h hk
  have hhigh := (Nat.length_toDigits_le_iff (b := 10) (n := d.digits) (by decide)
    (Nat.succ_pos k)).1 hk.le
  have hten : (0 : ℚ) < 10 ^ d.exponent := zpow_pos (by norm_num) _
  have hpower : d.power = k + d.exponent := by
    rw [power, digitsOf, hk]
    push_cast
    ring
  rw [hpower, value]
  constructor
  · rw [zpow_add₀ (by norm_num), zpow_natCast]
    refine mul_le_mul_of_nonneg_right ?_ hten.le
    exact_mod_cast hlow
  · rw [add_right_comm, zpow_add₀ (by norm_num)]
    refine mul_lt_mul_of_pos_right ?_ hten
    exact_mod_cast hhigh

theorem two_pow_1024_le : 2 ^ 1024 ≤ 10 ^ 309 := by decide +kernel

theorem two_pow_1075_le : 2 ^ 1075 ≤ 10 ^ 324 := by decide +kernel

namespace Binary

variable {x : Binary} (tie : Tie)

/-- The leading digit of a double stands within 324 places of the point. -/
theorem power_shortest_bounds (h : x.Double) (hs : x.significand ≠ 0) :
    -325 < (x.shortest tie).power ∧ (x.shortest tie).power < 309 := by
  obtain ⟨hlow, hhigh⟩ := Scaled.power_bounds (digits_shortest_ne_zero tie hs)
  have hleast := h.least
  have hgreatest := h.greatest
  constructor
  · have hten : ((2 ^ 1075 : Nat) : ℚ) ≤ ((10 ^ 324 : Nat) : ℚ) := Nat.cast_le.2 two_pow_1075_le
    have hlt : (10 : ℚ) ^ (-324 : Int) < 10 ^ ((x.shortest tie).power + 1) :=
      calc (10 : ℚ) ^ (-324 : Int) ≤ 2 ^ (-1075 : Int) := by
            rw [zpow_neg, zpow_neg]
            refine inv_anti₀ (zpow_pos (by norm_num) _) ?_
            rw [Nat.cast_pow, Nat.cast_pow] at hten
            exact hten
        _ ≤ 2 ^ (x.exponent - 1) := zpow_le_zpow_right₀ (by norm_num) (by omega)
        _ = 2 ^ x.exponent / 2 := by rw [zpow_sub_one₀ (by norm_num), div_eq_mul_inv]
        _ ≤ (x.shortest tie).value := half_le_value_shortest tie hs
        _ < 10 ^ ((x.shortest tie).power + 1) := hhigh
    have := (zpow_lt_zpow_iff_right₀ (by norm_num)).1 hlt
    omega
  · have hten : ((2 ^ 1024 : Nat) : ℚ) ≤ ((10 ^ 309 : Nat) : ℚ) := Nat.cast_le.2 two_pow_1024_le
    have hcast : (2 * x.significand + 1 : ℚ) < 2 ^ (54 : Int) := by
      have hlt := h.significand_lt
      have : 2 * x.significand + 1 < 2 ^ 54 := by omega
      exact_mod_cast this
    have hlt : (10 : ℚ) ^ (x.shortest tie).power < 10 ^ (309 : Int) :=
      calc (10 : ℚ) ^ (x.shortest tie).power ≤ (x.shortest tie).value := hlow
        _ ≤ (2 * x.significand + 1) * 2 ^ (x.exponent - 1) := value_shortest_le tie hs
        _ < 2 ^ (54 : Int) * 2 ^ (x.exponent - 1) :=
          mul_lt_mul_of_pos_right hcast (zpow_pos (by norm_num) _)
        _ = 2 ^ (54 + (x.exponent - 1)) := (zpow_add₀ (by norm_num) _ _).symm
        _ ≤ 2 ^ (1024 : Int) := zpow_le_zpow_right₀ (by norm_num) (by omega)
        _ ≤ 10 ^ (309 : Int) := by
          rw [Nat.cast_pow, Nat.cast_pow] at hten
          exact hten
    exact (zpow_lt_zpow_iff_right₀ (by norm_num)).1 hlt

/-- The greatest double. -/
def greatest : Binary := ⟨2 ^ 53 - 1, 971, false⟩

/-- The shortest decimal of a double is not above the middle between the two greatest doubles,
    unless the double is the greatest one. -/
theorem value_shortest_le_of_double (h : x.Double) (hs : x.significand ≠ 0) :
    x = greatest ∨ (x.shortest tie).value ≤ (2 ^ 54 - 3) * 2 ^ (970 : Int) := by
  have hlt := h.significand_lt
  have hvalue := value_shortest_le tie hs
  have htop : (0 : ℚ) < 2 ^ (970 : Int) := zpow_pos (by norm_num) _
  rcases Int.lt_or_eq_of_le h.greatest with hq | hq
  · -- below the last step the significand counts half as much
    have hstep : (2 : ℚ) ^ (x.exponent - 1) ≤ 2 ^ (970 : Int) / 2 := by
      rw [zpow_sub_one₀ (by norm_num), ← div_eq_mul_inv]
      exact div_le_div_of_nonneg_right (zpow_le_zpow_right₀ (by norm_num) (by omega)) (by norm_num)
    have hcast : (2 * x.significand + 2 : ℚ) ≤ 2 ^ 54 := by
      have : 2 * x.significand + 2 ≤ 2 ^ 54 := by omega
      exact_mod_cast this
    right
    generalize (2 : ℚ) ^ (970 : Int) = top at *
    calc (x.shortest tie).value ≤ (2 * x.significand + 1) * 2 ^ (x.exponent - 1) := hvalue
      _ ≤ (2 * x.significand + 1) * (top / 2) := by gcongr
      _ ≤ (2 ^ 54 - 1) * (top / 2) := by gcongr; linarith
      _ ≤ (2 ^ 54 - 3) * top := by linarith
  · by_cases hlast : x.significand = 2 ^ 53 - 1
    · left
      obtain ⟨s, q, narrow⟩ := x
      obtain rfl : q = 971 := hq
      obtain rfl : s = 2 ^ 53 - 1 := hlast
      cases narrow with
      | false => rfl
      | true => cases h.narrow rfl
    · have hcast : (2 * x.significand + 4 : ℚ) ≤ 2 ^ 54 := by
        have : 2 * x.significand + 4 ≤ 2 ^ 54 := by omega
        exact_mod_cast this
      right
      rw [hq, show (971 : Int) - 1 = 970 from rfl] at hvalue
      generalize (2 : ℚ) ^ (970 : Int) = top at *
      calc (x.shortest tie).value ≤ (2 * x.significand + 1) * top := hvalue
        _ ≤ (2 ^ 54 - 3) * top := by gcongr; linarith

theorem shortest_greatest : greatest.shortest .toEven = ⟨17976931348623157, 292⟩ := by
  have hfound : ((List.range' 1 17).findSome? fun n : Nat =>
      (greatest.hit? .toEven (n - greatest.decimalScale)).map fun digits =>
        (⟨digits, greatest.decimalScale - n⟩ : Scaled)) = some ⟨17976931348623157, 292⟩ := by
    decide +kernel
  rw [shortest, if_neg (by decide)]
  dsimp only
  rw [hfound, Option.getD_some, Scaled.strip, dif_neg (by decide)]

end Binary

end GameSearch.Decimal
