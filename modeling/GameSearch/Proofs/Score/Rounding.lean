/-
  GameSearch.Proofs.Score.Rounding

  How far arithmetic on doubles can go astray.  Positive doubles of moderate size stay
  such under division and square roots, and the results of sums and products of finite
  doubles are numbers.  Sizes are given by bounds on the exponent of a 53-bit significand.

    * `NormalIn`           — positive, with a full significand and bounds on the exponent
    * `normalIn_round`     — rounding keeps the position of the leading digit, or moves it by one
    * `unpack_pack_normal` — packing such a double loses nothing
    * `normal_ofNat`, `normal_div`, `normal_sqrt` — counters, quotients and roots
    * `isNaN_mul`, `isNaN_add`                    — products and sums
    * `isZero_mul`, `normal_add_zero`             — products and sums with zero
-/
import GameSearch.Proofs.Score.Order

namespace GameSearch.Score

open Float.Model Float.Model.UnpackedFloat

-- ============================================================================
-- Packing
-- ============================================================================

theorem unpackSign_packComponents {f : Format} (s : Sign) (e : BitVec f.exponentBits)
    (m : BitVec f.mantissaBitsWithoutImplicit) :
    unpackSign (packComponents f s e m) = s.toBitVec := by
  ext i hi
  have hzero : i = 0 := by omega
  subst hzero
  have hskip :
      ¬ f.mantissaBitsWithoutImplicit + f.exponentBits < f.mantissaBitsWithoutImplicit := by
    omega
  simp [unpackSign, packComponents, BitVec.getLsbD_append, BitVec.getLsbD_eq_getElem,
    BitVec.getElem_append, hskip]

theorem ofBitVec_toBitVec (s : Sign) : Sign.ofBitVec s.toBitVec = s := by
  cases s <;> rfl

/-- Reading the fields of a packed double back. -/
theorem unpack_packComponents (s : Sign) (e : BitVec Format.binary64.exponentBits)
    (m : BitVec Format.binary64.mantissaBitsWithoutImplicit) :
    UnpackedFloat.unpack Format.binary64 (packComponents Format.binary64 s e m) =
      if e = -1#_ then if m = 0#_ then .infinity s else .notANumber
      else if e = 0#_ then
        if h : m = 0#_ then .zero s
        else .finite s m.toNat ((e.toNat : Int) - 1075 + 1) (by
          simpa [BitVec.toNat_pos, BitVec.pos_iff_ne_zero])
      else .finite s (1#1 ++ m).toNat ((e.toNat : Int) - 1075)
        (by rw [toNat_append_one]; omega) := by
  simp only [UnpackedFloat.unpack, unpackMantissa_packComponents, unpackExponent_packComponents,
    unpackSign_packComponents, ofBitVec_toBitVec]
  rfl

theorem exponentBias_eq : Format.binary64.exponentBias = 1023 := rfl

theorem mantissaBits_eq : Format.binary64.mantissaBits = 53 := rfl

/-- A packed number is not read back as NaN. -/
theorem isNaN_unpack_pack {u : UnpackedFloat} (h : u.isNaN = false) :
    (Float.Model.pack u).unpack.isNaN = false := by
  show (UnpackedFloat.unpack Format.binary64 (UnpackedFloat.pack Format.binary64 u)).isNaN = false
  cases u with
  | notANumber => cases h
  | infinity s => cases s <;> decide
  | zero s => cases s <;> decide
  | finite s m e p =>
    unfold UnpackedFloat.pack
    dsimp only
    split
    · cases s <;> decide
    · rename_i hexp
      split
      · -- the exponent field of a finite number is not full
        rw [unpack_packComponents, if_neg]
        · split
          · split <;> rfl
          · rfl
        · intro heq
          have hnat := congrArg BitVec.toNat heq
          simp only [BitVec.neg_one_eq_allOnes, BitVec.toNat_ofNat, BitVec.toNat_allOnes] at hnat
          omega
      · rw [unpack_packComponents, if_neg (by decide), if_pos rfl]
        split <;> rfl

/-- Positive, with a significand of 53 bits, and an exponent between the bounds. -/
def NormalIn (lo hi : Int) : UnpackedFloat → Prop
  | .finite .positive m e _ => 2 ^ 52 ≤ m ∧ m < 2 ^ 53 ∧ lo ≤ e ∧ e ≤ hi
  | _ => False

theorem normalIn_elim {lo hi : Int} {u : UnpackedFloat} (h : NormalIn lo hi u) :
    ∃ m e p, u = .finite .positive m e p ∧ 2 ^ 52 ≤ m ∧ m < 2 ^ 53 ∧ lo ≤ e ∧ e ≤ hi := by
  cases u with
  | finite s m e p =>
    cases s with
    | negative => cases h
    | positive => exact ⟨m, e, p, rfl, h⟩
  | notANumber => cases h
  | infinity s => cases h
  | zero s => cases h

theorem log2_normal {m : Nat} (h₁ : 2 ^ 52 ≤ m) (h₂ : m < 2 ^ 53) : m.log2 = 52 := by
  have hne : m ≠ 0 := by omega
  have hlow := (Nat.le_log2 hne).2 h₁
  have hhigh := (Nat.log2_lt hne).2 h₂
  omega

/-- Packing a double with a full significand loses nothing. -/
theorem unpack_pack_full {s : Sign} {m : Nat} {e : Int} (p : 0 < m) (h₁ : 2 ^ 52 ≤ m)
    (h₂ : m < 2 ^ 53) (h₃ : -1074 ≤ e) (h₄ : e ≤ 971) :
    (Float.Model.pack (.finite s m e p)).unpack = .finite s m e p := by
  show UnpackedFloat.unpack Format.binary64 (UnpackedFloat.pack Format.binary64 _) = _
  have hlog := log2_normal h₁ h₂
  unfold UnpackedFloat.pack
  dsimp only
  rw [exponentBias_eq, hlog, if_neg (by omega), if_pos (by rw [mantissaBits_eq])]
  have hexp : (BitVec.ofNat 11 (e + (1023 : Nat) + (52 : Nat)).toNat).toNat =
      (e + (1023 : Nat) + (52 : Nat)).toNat := by
    rw [BitVec.toNat_ofNat]
    omega
  have hm : (BitVec.ofNat 52 m).toNat = m - 2 ^ 52 := by
    rw [BitVec.toNat_ofNat]
    omega
  rw [unpack_packComponents, if_neg, if_neg]
  · rw [UnpackedFloat.finite.injEq, toNat_append_one, hm, hexp]
    refine ⟨rfl, ?_, ?_⟩ <;> omega
  · intro heq
    have hnat := congrArg BitVec.toNat heq
    rw [hexp, BitVec.toNat_zero] at hnat
    omega
  · intro heq
    have hnat := congrArg BitVec.toNat heq
    rw [hexp, BitVec.neg_one_eq_allOnes, BitVec.toNat_allOnes] at hnat
    omega

theorem unpack_pack_normal {lo hi : Int} {u : UnpackedFloat} (h : NormalIn lo hi u)
    (hlo : -1074 ≤ lo) (hhi : hi ≤ 971) : (Float.Model.pack u).unpack = u := by
  obtain ⟨m, e, p, rfl, h₁, h₂, h₃, h₄⟩ := normalIn_elim h
  exact unpack_pack_full p h₁ h₂ (by omega) (by omega)

theorem unpack_pack_zero (s : Sign) : (Float.Model.pack (.zero s)).unpack = .zero s := by
  cases s <;> rfl

-- ============================================================================
-- Rounding
-- ============================================================================

theorem mantissa_shiftRight (em : ExtendedMantissa) (k : Nat) :
    (em >>> k).mantissa = em.mantissa / 2 ^ k := by
  show (k.repeat ExtendedMantissa.shiftRightOne em).mantissa = _
  induction k with
  | zero => simp [Nat.repeat]
  | succ k ih =>
    show (k.repeat ExtendedMantissa.shiftRightOne em).mantissa / 2 = _
    rw [ih, Nat.div_div_eq_div_mul, Nat.pow_succ]

theorem mantissa_ofMantissaAndAccuracy (m : Nat) (a : Accuracy) :
    (ExtendedMantissa.ofMantissaAndAccuracy m a).mantissa = m := by
  cases a with
  | exact => rfl
  | inexact o => cases o <;> rfl

/-- Rounding goes up by one at most. -/
theorem roundedMantissa_bounds (em : ExtendedMantissa) :
    em.mantissa ≤ em.roundedMantissa ∧ em.roundedMantissa ≤ em.mantissa + 1 := by
  obtain ⟨m, r, s⟩ := em
  cases r <;> cases s <;>
    simp only [ExtendedMantissa.roundedMantissa, ExtendedMantissa.accuracy,
      Accuracy.roundToNearestEven] <;>
    omega

theorem targetExponent_eq (T : Int) : Format.binary64.targetExponent T = max (T - 53) (-1074) := rfl

/-- Shifting moves the exponent up to its target and drops as many digits. -/
theorem shiftToTargetExponent_eq (m : Nat) (e : Int) (a : Accuracy) :
    (shiftToTargetExponent Format.binary64 m e a).1.mantissa =
        m / 2 ^ (max (totalExponent m e - 53) (-1074) - e).toNat ∧
      (shiftToTargetExponent Format.binary64 m e a).2 =
        max e (max (totalExponent m e - 53) (-1074)) := by
  unfold shiftToTargetExponent shiftToExponent
  dsimp only
  rw [mantissa_shiftRight, mantissa_ofMantissaAndAccuracy, targetExponent_eq]
  refine ⟨rfl, ?_⟩
  omega

/-- A significand of 53 bits stays; the one that rounding up can lead to is shifted by one. -/
theorem shiftToTargetExponent_carry {r : Nat} {e : Int} (h₁ : 2 ^ 52 ≤ r) (h₂ : r ≤ 2 ^ 53)
    (he : -1074 ≤ e) :
    2 ^ 52 ≤ (shiftToTargetExponent Format.binary64 r e .exact).1.mantissa ∧
      (shiftToTargetExponent Format.binary64 r e .exact).1.mantissa < 2 ^ 53 ∧
      e ≤ (shiftToTargetExponent Format.binary64 r e .exact).2 ∧
      (shiftToTargetExponent Format.binary64 r e .exact).2 ≤ e + 1 := by
  obtain ⟨hmant, hexp⟩ := shiftToTargetExponent_eq r e .exact
  have hT : totalExponent r e = r.log2 + 1 + e := rfl
  rw [hmant, hexp]
  rcases Nat.lt_or_eq_of_le h₂ with hlt | rfl
  · have hlog := log2_normal h₁ hlt
    have hshift : (max (totalExponent r e - 53) (-1074) - e).toNat = 0 := by omega
    rw [hshift, Nat.pow_zero, Nat.div_one]
    exact ⟨h₁, hlt, by omega, by omega⟩
  · have hlog : (2 ^ 53 : Nat).log2 = 53 := Nat.log2_two_pow
    have hshift : (max (totalExponent (2 ^ 53) e - 53) (-1074) - e).toNat = 1 := by omega
    rw [hshift]
    exact ⟨by decide, by decide, by omega, by omega⟩

/-- Rounding shifts, rounds, and shifts once more. -/
theorem roundWithAccuracy_eq (s : Sign) (m : Nat) (e : Int) (a : Accuracy) :
    roundWithAccuracy Format.binary64 s m e a =
      let first := shiftToTargetExponent Format.binary64 m e a
      let last := shiftToTargetExponent Format.binary64 first.1.roundedMantissa first.2 .exact
      if h : last.1.mantissa = 0 then .zero s
      else .finite s last.1.mantissa last.2 (Nat.pos_of_ne_zero h) := rfl

/-- A significand of at least 53 bits whose exponent is not too small is rounded to 53 bits, and
    the position of its leading digit moves up by one at most. -/
theorem normalIn_round {m : Nat} {e : Int} (a : Accuracy) (hbits : 2 ^ 52 ≤ m)
    (hlo : -1021 ≤ totalExponent m e) :
    NormalIn (totalExponent m e - 53) (totalExponent m e - 52)
      (roundWithAccuracy Format.binary64 .positive m e a) := by
  have hne : m ≠ 0 := by
    have : 0 < 2 ^ 52 := by decide
    omega
  have hlog : 52 ≤ m.log2 := (Nat.le_log2 hne).2 hbits
  have hT : totalExponent m e = m.log2 + 1 + e := rfl
  obtain ⟨hmant, hexp⟩ := shiftToTargetExponent_eq m e a
  obtain ⟨hge, hle⟩ :=
    roundedMantissa_bounds (shiftToTargetExponent Format.binary64 m e a).1
  -- the first shift leaves 53 digits
  have hshift : (max (totalExponent m e - 53) (-1074) - e).toNat = m.log2 - 52 := by omega
  have hpow : 2 ^ m.log2 = 2 ^ 52 * 2 ^ (m.log2 - 52) := by
    rw [← Nat.pow_add]
    congr 1
    omega
  have hpos : 0 < 2 ^ (m.log2 - 52) := Nat.two_pow_pos _
  have hlow : 2 ^ 52 ≤ m / 2 ^ (m.log2 - 52) := by
    rw [Nat.le_div_iff_mul_le hpos, ← hpow]
    exact Nat.log2_self_le hne
  have hhigh : m / 2 ^ (m.log2 - 52) < 2 ^ 53 := by
    rw [Nat.div_lt_iff_lt_mul hpos]
    have hlt : m < 2 ^ (m.log2 + 1) := Nat.lt_log2_self
    rw [Nat.pow_succ, hpow] at hlt
    omega
  rw [hshift] at hmant
  -- the second one makes up for a carry
  obtain ⟨h₁, h₂, h₃, h₄⟩ := shiftToTargetExponent_carry
    (r := (shiftToTargetExponent Format.binary64 m e a).1.roundedMantissa)
    (e := (shiftToTargetExponent Format.binary64 m e a).2) (by omega) (by omega) (by omega)
  rw [roundWithAccuracy_eq]
  dsimp only
  rw [dif_neg (by omega)]
  exact ⟨h₁, h₂, by omega, by omega⟩

theorem isNaN_roundWithAccuracy (s : Sign) (m : Nat) (e : Int) (a : Accuracy) :
    (roundWithAccuracy Format.binary64 s m e a).isNaN = false := by
  rw [roundWithAccuracy_eq]
  dsimp only
  split <;> rfl

theorem isNaN_normalize (m : Int) (e : Int) (s : Sign) :
    (UnpackedFloat.normalize Format.binary64 m e s).isNaN = false := by
  unfold UnpackedFloat.normalize
  split
  · exact isNaN_roundWithAccuracy _ _ _ _
  · rfl
  · exact isNaN_roundWithAccuracy _ _ _ _

-- ============================================================================
-- Operations on unpacked doubles
-- ============================================================================

theorem NormalIn.mono {lo hi lo' hi' : Int} {u : UnpackedFloat} (h : NormalIn lo hi u)
    (hlo : lo' ≤ lo) (hhi : hi ≤ hi') : NormalIn lo' hi' u := by
  obtain ⟨m, e, p, rfl, h₁, h₂, h₃, h₄⟩ := normalIn_elim h
  exact ⟨h₁, h₂, by omega, by omega⟩

theorem log2_mul_two_pow {n : Nat} (hn : n ≠ 0) (k : Nat) : (n * 2 ^ k).log2 = n.log2 + k := by
  induction k with
  | zero => rw [Nat.pow_zero, Nat.mul_one, Nat.add_zero]
  | succ k ih =>
    have hne : n * 2 ^ k ≠ 0 := Nat.mul_ne_zero hn (Nat.ne_of_gt (Nat.two_pow_pos k))
    rw [Nat.pow_succ, ← Nat.mul_assoc, Nat.mul_comm _ 2, Nat.log2_two_mul hne, ih, Nat.add_assoc]

/-- A significand of 53 bits stays as it is. -/
theorem roundWithAccuracy_full {m : Nat} {e : Int} (p : 0 < m) (h₁ : 2 ^ 52 ≤ m) (h₂ : m < 2 ^ 53)
    (he : -1074 ≤ e) :
    roundWithAccuracy Format.binary64 .positive m e .exact = .finite .positive m e p := by
  have hlog := log2_normal h₁ h₂
  have hT : totalExponent m e = m.log2 + 1 + e := rfl
  have hshift : (max (totalExponent m e - 53) (-1074) - e).toNat = 0 := by omega
  obtain ⟨hmant, hexp⟩ := shiftToTargetExponent_eq m e .exact
  rw [hshift, Nat.pow_zero, Nat.div_one] at hmant
  have hkept : (shiftToTargetExponent Format.binary64 m e .exact).1 =
      ExtendedMantissa.ofMantissaAndAccuracy m .exact >>>
        (max (totalExponent m e - 53) (-1074) - e).toNat := rfl
  rw [hshift] at hkept
  have hsame : (shiftToTargetExponent Format.binary64 m e .exact).2 = e := by
    rw [hexp]
    omega
  have hrounded : (shiftToTargetExponent Format.binary64 m e .exact).1.roundedMantissa = m := by
    rw [hkept]
    rfl
  rw [roundWithAccuracy_eq]
  dsimp only
  rw [hrounded, hsame, dif_neg (by omega), UnpackedFloat.finite.injEq]
  exact ⟨rfl, hmant, hsame⟩

/-- Counters of less than 53 bits are scaled up before they are rounded. -/
theorem ofNat_eq_round {n : Nat} (hpos : 0 < n) :
    UnpackedFloat.ofNat Format.binary64 n =
      roundWithAccuracy Format.binary64 .positive (n * 2 ^ (52 - n.log2))
        (-(52 - n.log2 : Nat)) .exact := by
  have hT : totalExponent n 0 = n.log2 + 1 + 0 := rfl
  have hcompare : compare (n : Int) 0 = .gt := Int.compare_eq_gt.2 (by omega)
  have hnat : UnpackedFloat.ofNat Format.binary64 n =
      roundWithAccuracy Format.binary64 .positive
        (n <<< (0 - Format.binary64.targetExponent (totalExponent n 0)).toNat)
        (0 - (0 - Format.binary64.targetExponent (totalExponent n 0)).toNat) .exact := by
    unfold UnpackedFloat.ofNat UnpackedFloat.ofInt UnpackedFloat.normalize
    rw [hcompare]
    rfl
  have hscale : (0 - Format.binary64.targetExponent (totalExponent n 0)).toNat = 52 - n.log2 := by
    rw [targetExponent_eq]
    omega
  rw [hnat, hscale, Nat.shiftLeft_eq, Int.zero_sub]

/-- The quotient of positive doubles, with the exponent from which rounding starts. -/
theorem div_finite (m₁ m₂ : Nat) (e₁ e₂ : Int) (p₁ : 0 < m₁) (p₂ : 0 < m₂) {t : Int}
    (ht : min (e₁ - e₂)
      (Format.binary64.targetExponent (totalExponent m₁ e₁ - totalExponent m₂ e₂)) = t) :
    UnpackedFloat.div Format.binary64 (.finite .positive m₁ e₁ p₁) (.finite .positive m₂ e₂ p₂) =
      roundWithAccuracy Format.binary64 .positive (m₁ <<< (e₁ - e₂ - t).toNat / m₂) t
        (accuracyOfFraction (m₁ <<< (e₁ - e₂ - t).toNat % m₂) m₂) := by
  subst ht
  rfl

/-- The root of a positive double, with the exponent from which rounding starts. -/
theorem sqrt_finite (m : Nat) (e : Int) (p : 0 < m) {t : Int}
    (ht : min (e.ediv 2)
      (Format.binary64.targetExponent ((totalExponent m e + 1).ediv 2)) = t) :
    ∃ a, UnpackedFloat.sqrt Format.binary64 (.finite .positive m e p) =
      roundWithAccuracy Format.binary64 .positive (Nat.sqrt (m <<< (e - 2 * t).toNat)) t a := by
  subst ht
  exact ⟨_, rfl⟩

theorem normalIn_div {a b c d : Int} {x y : UnpackedFloat} (hx : NormalIn a b x)
    (hy : NormalIn c d y) (hlo : -900 ≤ a - d) :
    NormalIn (a - d - 53) (b - c - 51) (UnpackedFloat.div Format.binary64 x y) := by
  obtain ⟨m₁, e₁, p₁, rfl, h₁, h₂, h₃, h₄⟩ := normalIn_elim hx
  obtain ⟨m₂, e₂, p₂, rfl, h₅, h₆, h₇, h₈⟩ := normalIn_elim hy
  have hT₁ : totalExponent m₁ e₁ = m₁.log2 + 1 + e₁ := rfl
  have hT₂ : totalExponent m₂ e₂ = m₂.log2 + 1 + e₂ := rfl
  have hlog₁ := log2_normal h₁ h₂
  have hlog₂ := log2_normal h₅ h₆
  have htarget : min (e₁ - e₂)
      (Format.binary64.targetExponent (totalExponent m₁ e₁ - totalExponent m₂ e₂)) =
        e₁ - e₂ - 53 := by
    rw [targetExponent_eq]
    omega
  have hshift : (e₁ - e₂ - (e₁ - e₂ - 53)).toNat = 53 := by omega
  have hdiv := div_finite m₁ m₂ e₁ e₂ p₁ p₂ htarget
  rw [hshift] at hdiv
  rw [hdiv, Nat.shiftLeft_eq]
  -- the quotient has 53 or 54 digits
  have hlow : 2 ^ 52 ≤ m₁ * 2 ^ 53 / m₂ := by
    rw [Nat.le_div_iff_mul_le p₂]
    omega
  have hhigh : m₁ * 2 ^ 53 / m₂ < 2 ^ 54 := by
    rw [Nat.div_lt_iff_lt_mul p₂]
    omega
  have hne : m₁ * 2 ^ 53 / m₂ ≠ 0 := by omega
  have hlog : 52 ≤ (m₁ * 2 ^ 53 / m₂).log2 := (Nat.le_log2 hne).2 hlow
  have hlog' : (m₁ * 2 ^ 53 / m₂).log2 < 54 := (Nat.log2_lt hne).2 hhigh
  have hT : totalExponent (m₁ * 2 ^ 53 / m₂) (e₁ - e₂ - 53) =
      (m₁ * 2 ^ 53 / m₂).log2 + 1 + (e₁ - e₂ - 53) := rfl
  exact (normalIn_round _ hlow (by omega)).mono (by omega) (by omega)

theorem normalIn_sqrt {a b : Int} {x : UnpackedFloat} (hx : NormalIn a b x) (hlo : -900 ≤ a) :
    NormalIn (a / 2 - 26) (b / 2 - 25) (UnpackedFloat.sqrt Format.binary64 x) := by
  obtain ⟨m, e, p, rfl, h₁, h₂, h₃, h₄⟩ := normalIn_elim hx
  have hT : totalExponent m e = m.log2 + 1 + e := rfl
  have hlog := log2_normal h₁ h₂
  have htarget : min (e.ediv 2)
      (Format.binary64.targetExponent ((totalExponent m e + 1).ediv 2)) = e / 2 - 26 := by
    rw [targetExponent_eq]
    show min (e / 2) (max ((totalExponent m e + 1) / 2 - 53) (-1074)) = _
    omega
  obtain ⟨acc, hsqrt⟩ := sqrt_finite m e p htarget
  rw [hsqrt, Nat.shiftLeft_eq]
  -- the radicand has 105 or 106 digits, so the root has 53
  have hradicand : 2 ^ 104 ≤ m * 2 ^ (e - 2 * (e / 2 - 26)).toNat ∧
      m * 2 ^ (e - 2 * (e / 2 - 26)).toNat < 2 ^ 106 := by
    have hk : (e - 2 * (e / 2 - 26)).toNat = 52 ∨ (e - 2 * (e / 2 - 26)).toNat = 53 := by omega
    rcases hk with hk | hk <;> rw [hk] <;> omega
  generalize m * 2 ^ (e - 2 * (e / 2 - 26)).toNat = n at hradicand ⊢
  have hle := Nat.sqrt_le n
  have hlt := Nat.lt_succ_sqrt n
  have hlow : 2 ^ 52 ≤ Nat.sqrt n := by
    refine Nat.not_lt.1 fun hnot => ?_
    have hsquare : (Nat.sqrt n + 1) * (Nat.sqrt n + 1) ≤ 2 ^ 52 * 2 ^ 52 :=
      Nat.mul_le_mul (by omega) (by omega)
    have hlt' : n < (Nat.sqrt n + 1) * (Nat.sqrt n + 1) := hlt
    omega
  have hhigh : Nat.sqrt n < 2 ^ 53 := by
    refine Nat.not_le.1 fun hnot => ?_
    have hsquare : 2 ^ 53 * 2 ^ 53 ≤ Nat.sqrt n * Nat.sqrt n :=
      Nat.mul_le_mul (by omega) (by omega)
    omega
  have hlogr := log2_normal hlow hhigh
  have hTr : totalExponent (Nat.sqrt n) (e / 2 - 26) = (Nat.sqrt n).log2 + 1 + (e / 2 - 26) := rfl
  exact (normalIn_round acc hlow (by omega)).mono (by omega) (by omega)

-- ============================================================================
-- Scores
-- ============================================================================

/-- Positive, with a full significand, and an exponent between the bounds. -/
def Normal (lo hi : Int) (x : Score) : Prop := NormalIn lo hi x.toModel.unpack

/-- The unpacked double is one of the two zeros. -/
def unpackedIsZero : UnpackedFloat → Bool
  | .zero _ => true
  | _ => false

/-- One of the two zeros. -/
def IsZero (x : Score) : Prop := unpackedIsZero x.toModel.unpack = true

variable {x y : Score} {a b c d : Int}

theorem isZero_iff : IsZero x ↔ ∃ s, x.toModel.unpack = .zero s := by
  unfold IsZero
  cases x.toModel.unpack with
  | zero s => exact ⟨fun _ => ⟨s, rfl⟩, fun _ => rfl⟩
  | notANumber => exact ⟨fun h => (by cases h), fun ⟨s, h⟩ => (by cases h)⟩
  | infinity s => exact ⟨fun h => (by cases h), fun ⟨s, h⟩ => (by cases h)⟩
  | finite s m e p => exact ⟨fun h => (by cases h), fun ⟨s, h⟩ => (by cases h)⟩

theorem isZero_ofNat_zero : IsZero (Float.ofNat 0) := by
  show unpackedIsZero (Float.ofNat 0).toModel.unpack = true
  decide

/-- Whatever equals zero is one of the two zeros. -/
theorem isZero_of_beq (h : (x == Float.ofNat 0) = true) : IsZero x := by
  obtain ⟨s, hs⟩ := isZero_iff.1 isZero_ofNat_zero
  have hcompare : (x.toModel.unpack.compare (Float.ofNat 0).toModel.unpack == some .eq) = true := h
  rw [hs, beq_iff_eq] at hcompare
  refine isZero_iff.2 ?_
  cases hu : x.toModel.unpack with
  | zero s' => exact ⟨s', rfl⟩
  | notANumber =>
    rw [hu] at hcompare
    cases hcompare
  | infinity s' =>
    rw [hu] at hcompare
    cases s' <;> cases hcompare
  | finite s' m e p =>
    rw [hu] at hcompare
    cases s' <;> cases hcompare

theorem Normal.isFinite (h : Normal a b x) : x.isFinite = true := by
  obtain ⟨m, e, p, hu, -⟩ := normalIn_elim h
  show x.toModel.unpack.isFinite = true
  rw [hu]
  rfl

theorem IsZero.isFinite (h : IsZero x) : x.isFinite = true := by
  obtain ⟨s, hu⟩ := isZero_iff.1 h
  show x.toModel.unpack.isFinite = true
  rw [hu]
  rfl

theorem normal_div (hx : Normal a b x) (hy : Normal c d y) (hlo : -900 ≤ a - d)
    (hhi : b - c ≤ 900) : Normal (a - d - 53) (b - c - 51) (x / y) := by
  have h := normalIn_div hx hy hlo
  show NormalIn _ _ (Float.Model.pack _).unpack
  rw [unpack_pack_normal h (by omega) (by omega)]
  exact h

theorem normal_sqrt (hx : Normal a b x) (hlo : -900 ≤ a) (hhi : b ≤ 900) :
    Normal (a / 2 - 26) (b / 2 - 25) x.sqrt := by
  have h := normalIn_sqrt hx hlo
  show NormalIn _ _ (Float.Model.pack _).unpack
  rw [unpack_pack_normal h (by omega) (by omega)]
  exact h

theorem isZero_div (hx : IsZero x) (hy : Normal c d y) : IsZero (x / y) := by
  obtain ⟨s, hs⟩ := isZero_iff.1 hx
  obtain ⟨m, e, p, hu, -⟩ := normalIn_elim hy
  refine isZero_iff.2 ⟨s / .positive, ?_⟩
  show (Float.Model.pack
    (UnpackedFloat.div Format.binary64 x.toModel.unpack y.toModel.unpack)).unpack = _
  rw [hs, hu]
  exact unpack_pack_zero _

theorem isZero_sqrt (hx : IsZero x) : IsZero x.sqrt := by
  obtain ⟨s, hs⟩ := isZero_iff.1 hx
  refine isZero_iff.2 ⟨s, ?_⟩
  show (Float.Model.pack (UnpackedFloat.sqrt Format.binary64 x.toModel.unpack)).unpack = _
  rw [hs]
  exact unpack_pack_zero s

theorem unpack_one : ∃ p, (Float.ofBits 0x3FF0000000000000).toModel.unpack =
    .finite .positive (2 ^ 52) (-52) p := ⟨by decide, by rfl⟩

/-- A number with more than 53 bits is rounded to the position of its leading digit. -/
theorem normalIn_scaled {n j : Nat} (hpos : 0 < n) (hj : 52 ≤ n.log2 + j) :
    NormalIn (n.log2 - 52) (n.log2 - 51)
      (roundWithAccuracy Format.binary64 .positive (n * 2 ^ j) (-j) .exact) := by
  have hlog := log2_mul_two_pow (Nat.ne_of_gt hpos) j
  have hne : n * 2 ^ j ≠ 0 :=
    Nat.mul_ne_zero (Nat.ne_of_gt hpos) (Nat.ne_of_gt (Nat.two_pow_pos j))
  have hT : totalExponent (n * 2 ^ j) (-j) = (n * 2 ^ j).log2 + 1 + -j := rfl
  exact (normalIn_round .exact ((Nat.le_log2 hne).1 (by omega)) (by omega)).mono
    (by omega) (by omega)

/-- Multiples of powers of ten are scaled up before they are rounded. -/
theorem ofScientific_eq_round {n k : Nat} (hne : n ≠ 0) (hk : k ≤ 2048) :
    UnpackedFloat.ofScientific Format.binary64 n k =
      roundWithAccuracy Format.binary64 .positive (n * 2 ^ 53 * 10 ^ k) (-(53 : Nat)) .exact := by
  have hpos : 0 < n <<< 53 := by
    rw [Nat.shiftLeft_eq]
    exact Nat.mul_pos (Nat.pos_of_ne_zero hne) (Nat.two_pow_pos 53)
  have hmul : UnpackedFloat.ofScientific Format.binary64 n k =
      UnpackedFloat.mul Format.binary64 (.finite .positive (n <<< 53) (-53) hpos)
        (.finite .positive (10 ^ k) 0 (Nat.pow_pos (by decide))) := by
    have hbits : (2 : Int) ^ Format.binary64.exponentBits = 2048 := by decide
    unfold UnpackedFloat.ofScientific
    rw [dif_neg hne, hbits, if_neg (by omega), if_neg (by omega), if_pos (by omega)]
    rfl
  have hround : UnpackedFloat.mul Format.binary64 (.finite .positive (n <<< 53) (-53) hpos)
      (.finite .positive (10 ^ k) 0 (Nat.pow_pos (by decide))) =
      roundWithAccuracy Format.binary64 .positive (n <<< 53 * 10 ^ k) (-53 + 0) .exact := rfl
  rw [hmul, hround, Nat.shiftLeft_eq]
  rfl

/-- Whichever way a counter is converted, it is scaled up and rounded. -/
theorem unpack_ofNat {n : Nat} (hpos : 0 < n) (hn : n < 2 ^ 64) :
    ∃ j, 52 ≤ n.log2 + j ∧ (Float.ofNat n).toModel.unpack =
      roundWithAccuracy Format.binary64 .positive (n * 2 ^ j) (-j) .exact := by
  have hne : n ≠ 0 := Nat.ne_of_gt hpos
  have hlog : n.log2 < 64 := (Nat.log2_lt hne).2 hn
  have hpack : ∀ {j : Nat}, 52 ≤ n.log2 + j →
      (Float.Model.pack (roundWithAccuracy Format.binary64 .positive (n * 2 ^ j) (-j)
        .exact)).unpack = roundWithAccuracy Format.binary64 .positive (n * 2 ^ j) (-j) .exact :=
    fun hj => unpack_pack_normal (normalIn_scaled hpos hj) (by omega) (by omega)
  show ∃ j, _ ∧ (Float.ofScientific n false 0).toModel.unpack = _
  unfold Float.ofScientific
  split
  · -- small counters are converted exactly and multiplied by one
    rename_i hsmall
    have hbits : n.log2 < 53 := (Nat.log2_lt hne).2 hsmall.1
    have htoNat : n.toUInt64.toNat = n := Nat.mod_eq_of_lt hn
    have hscaled := log2_mul_two_pow hne (52 - n.log2)
    have hne' : n * 2 ^ (52 - n.log2) ≠ 0 :=
      Nat.mul_ne_zero hne (Nat.ne_of_gt (Nat.two_pow_pos _))
    have hfull := roundWithAccuracy_full (e := -(52 - n.log2 : Nat)) (Nat.pos_of_ne_zero hne')
      ((Nat.le_log2 hne').1 (by omega)) ((Nat.log2_lt hne').1 (by omega)) (by omega)
    have hcounter : (n.toUInt64.toFloat).toModel.unpack = .finite .positive
        (n * 2 ^ (52 - n.log2)) (-(52 - n.log2 : Nat)) (Nat.pos_of_ne_zero hne') := by
      show (Float.Model.pack (UnpackedFloat.ofNat Format.binary64 n.toUInt64.toNat)).unpack = _
      rw [htoNat, ofNat_eq_round hpos, hpack (by omega), hfull]
    obtain ⟨p, hone⟩ := unpack_one
    refine ⟨52 - n.log2 + 52, by omega, ?_⟩
    rw [← hpack (by omega)]
    show (Float.Model.pack (UnpackedFloat.mul Format.binary64 _
      (Float.ofBits 0x3FF0000000000000).toModel.unpack)).unpack = _
    rw [hcounter, hone]
    show (Float.Model.pack (roundWithAccuracy Format.binary64 .positive
      (n * 2 ^ (52 - n.log2) * 2 ^ 52) (-(52 - n.log2 : Nat) + -52) .exact)).unpack = _
    rw [Nat.mul_assoc, ← Nat.pow_add,
      show (-(52 - n.log2 : Nat) + -52 : Int) = -(52 - n.log2 + 52 : Nat) by omega]
  · -- large ones are rounded as products with one
    refine ⟨53, by omega, ?_⟩
    have hround := ofScientific_eq_round hne (Nat.zero_le 2048)
    rw [Nat.pow_zero, Nat.mul_one] at hround
    rw [← hpack (by omega), ← hround]
    rfl

/-- Counters that are not zero are converted to doubles of moderate size. -/
theorem normal_ofNat {n : Nat} (hpos : 0 < n) (hn : n < 2 ^ 64) :
    Normal (-52) 13 (Float.ofNat n) := by
  have hlog : n.log2 < 64 := (Nat.log2_lt (Nat.ne_of_gt hpos)).2 hn
  obtain ⟨j, hj, hround⟩ := unpack_ofNat hpos hn
  rw [Normal, hround]
  exact (normalIn_scaled hpos hj).mono (by omega) (by omega)

theorem isNaN_unpacked_mul {u v : UnpackedFloat} (hu : u.isFinite = true) (hv : v.isFinite = true) :
    (UnpackedFloat.mul Format.binary64 u v).isNaN = false := by
  cases u with
  | notANumber => cases hu
  | infinity s => cases hu
  | zero s =>
    cases v with
    | notANumber => cases hv
    | infinity s' => cases hv
    | zero s' => rfl
    | finite s' m' e' p' => rfl
  | finite s m e p =>
    cases v with
    | notANumber => cases hv
    | infinity s' => cases hv
    | zero s' => rfl
    | finite s' m' e' p' => exact isNaN_roundWithAccuracy _ _ _ _

/-- Products of finite scores are numbers. -/
theorem isNaN_mul (hx : x.isFinite = true) (hy : y.isFinite = true) : (x * y).isNaN = false :=
  isNaN_unpack_pack (isNaN_unpacked_mul hx hy)

theorem isNaN_unpacked_add {u v : UnpackedFloat} (hu : u.isFinite = true) (hv : v.isNaN = false) :
    (UnpackedFloat.add Format.binary64 u v).isNaN = false := by
  cases u with
  | notANumber => cases hu
  | infinity s => cases hu
  | zero s =>
    cases v with
    | notANumber => cases hv
    | infinity s' => rfl
    | zero s' => cases s <;> cases s' <;> rfl
    | finite s' m' e' p' => rfl
  | finite s m e p =>
    cases v with
    | notANumber => cases hv
    | infinity s' => rfl
    | zero s' => rfl
    | finite s' m' e' p' => exact isNaN_normalize _ _ _

/-- The sum of a finite score and a number is a number. -/
theorem isNaN_add (hx : x.isFinite = true) (hy : y.isNaN = false) : (x + y).isNaN = false :=
  isNaN_unpack_pack (isNaN_unpacked_add hx hy)

/-- Zero times a finite score is zero. -/
theorem isZero_mul (hx : IsZero x) (hy : y.isFinite = true) : IsZero (x * y) := by
  obtain ⟨s, hs⟩ := isZero_iff.1 hx
  have hfinite : y.toModel.unpack.isFinite = true := hy
  have hproduct :
      ∃ s', UnpackedFloat.mul Format.binary64 (.zero s) y.toModel.unpack = .zero s' := by
    cases hu : y.toModel.unpack with
    | notANumber =>
      rw [hu] at hfinite
      cases hfinite
    | infinity s' =>
      rw [hu] at hfinite
      cases hfinite
    | zero s' => exact ⟨s * s', rfl⟩
    | finite s' m e p => exact ⟨s * s', rfl⟩
  obtain ⟨s', hs'⟩ := hproduct
  refine isZero_iff.2 ⟨s', ?_⟩
  show (Float.Model.pack
    (UnpackedFloat.mul Format.binary64 x.toModel.unpack y.toModel.unpack)).unpack = _
  rw [hs, hs']
  exact unpack_pack_zero s'

theorem isZero_add (hx : IsZero x) (hy : IsZero y) : IsZero (x + y) := by
  obtain ⟨s, hs⟩ := isZero_iff.1 hx
  obtain ⟨s', hs'⟩ := isZero_iff.1 hy
  show unpackedIsZero (Float.Model.pack
    (UnpackedFloat.add Format.binary64 x.toModel.unpack y.toModel.unpack)).unpack = true
  rw [hs, hs']
  cases s <;> cases s' <;> rfl

/-- Adding zero changes nothing. -/
theorem normal_add_zero (hx : Normal a b x) (hlo : -1074 ≤ a) (hhi : b ≤ 971) (hy : IsZero y) :
    Normal a b (x + y) := by
  obtain ⟨s, hs⟩ := isZero_iff.1 hy
  obtain ⟨m, e, p, hu, -⟩ := normalIn_elim hx
  have hsum : UnpackedFloat.add Format.binary64 x.toModel.unpack y.toModel.unpack =
      x.toModel.unpack := by
    rw [hs, hu]
    rfl
  show NormalIn _ _ (Float.Model.pack
    (UnpackedFloat.add Format.binary64 x.toModel.unpack y.toModel.unpack)).unpack
  rw [hsum, unpack_pack_normal hx hlo hhi]
  exact hx

theorem rank_half : (0.5 : Score).rank = 1022 * 2 ^ 53 + 2 ^ 52 := by decide

theorem rank_sixtyFour : (64 : Score).rank = 1029 * 2 ^ 53 + 2 ^ 52 := by decide

/-- Scores from one half to 64 are of moderate size. -/
theorem normal_of_le (hx : x.isNaN = false) (hlo : (0.5 : Score) ≤ x) (hhi : x ≤ 64) :
    Normal (-53) (-46) x := by
  rw [le_iff_rank (by decide) hx, rank_half] at hlo
  rw [le_iff_rank hx (by decide), rank_sixtyFour] at hhi
  have hrange : InRange x.toModel.unpack := inRange_unpack _
  unfold rank at hlo hhi
  unfold Normal
  cases hu : x.toModel.unpack with
  | notANumber =>
    rw [hu] at hlo
    exact absurd hlo (by decide)
  | zero s =>
    rw [hu] at hlo
    cases s <;> exact absurd hlo (by decide)
  | infinity s =>
    rw [hu] at hlo hhi
    cases s with
    | negative => exact absurd hlo (by decide)
    | positive => exact absurd hhi (by decide)
  | finite s m e p =>
    rw [hu] at hlo hhi hrange
    obtain ⟨h₁, h₂, h₃, h₄⟩ := hrange
    cases s with
    | negative =>
      simp only [unpackedRank] at hlo
      omega
    | positive =>
      simp only [unpackedRank] at hlo hhi
      have hexp : -53 ≤ e := by omega
      exact ⟨h₄ (by omega), h₁, hexp, by omega⟩

end GameSearch.Score
