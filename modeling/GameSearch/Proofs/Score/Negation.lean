/-
  GameSearch.Proofs.Score.Negation

  Changing the sign of a double turns the number line around, infinities and both zeros
  included.  Nothing is rounded: every double is read back as it was packed.

    * `unpack_pack_of_inRange` — packing a double loses nothing
    * `unpack_neg`             — only the sign changes
    * `neg_lt_neg_iff`, `neg_le_neg_iff` — comparisons of any two scores, NaN included
-/
import GameSearch.Proofs.Score.Rounding

namespace GameSearch.Score

open Float.Model Float.Model.UnpackedFloat

-- ============================================================================
-- Unpacked doubles
-- ============================================================================

/-- A double with less than 53 bits of significand is read back as it was packed. -/
theorem unpack_pack_subnormal {s : Sign} {m : Nat} (p : 0 < m) (hm : m < 2 ^ 52) :
    (Float.Model.pack (.finite s m (-1074) p)).unpack = .finite s m (-1074) p := by
  show UnpackedFloat.unpack Format.binary64 (UnpackedFloat.pack Format.binary64 _) = _
  have hlog : m.log2 < 52 := (Nat.log2_lt (by omega)).2 hm
  have hfield : (BitVec.ofNat 52 m).toNat = m := by
    rw [BitVec.toNat_ofNat]
    omega
  have hne : BitVec.ofNat 52 m ≠ 0#52 := by
    intro heq
    have hnat := congrArg BitVec.toNat heq
    rw [hfield, BitVec.toNat_zero] at hnat
    omega
  unfold UnpackedFloat.pack
  dsimp only
  rw [exponentBias_eq, mantissaBits_eq, if_neg (by decide), if_neg (by omega),
    unpack_packComponents, if_neg (by decide), if_pos rfl, dif_neg hne, UnpackedFloat.finite.injEq]
  exact ⟨rfl, hfield, rfl⟩

/-- Every double is read back as it was packed. -/
theorem unpack_pack_of_inRange {u : UnpackedFloat} (h : InRange u) :
    (Float.Model.pack u).unpack = u := by
  cases u with
  | notANumber => rfl
  | infinity s => cases s <;> rfl
  | zero s => exact unpack_pack_zero s
  | finite s m e p =>
    obtain ⟨hbits, hlo, hhi, hfull⟩ := h
    by_cases hm : m < 2 ^ 52
    · have he : e = -1074 := by omega
      subst he
      exact unpack_pack_subnormal p hm
    · exact unpack_pack_full p (Nat.not_lt.1 hm) hbits hlo hhi

theorem inRange_neg {u : UnpackedFloat} (h : InRange u) : InRange u.neg := by
  cases u <;> exact h

theorem unpackedRank_neg (u : UnpackedFloat) : unpackedRank u.neg = -unpackedRank u := by
  cases u with
  | notANumber => rfl
  | infinity s => cases s <;> rfl
  | zero s => rfl
  | finite s m e p =>
    cases s with
    | negative =>
      show (e + 1075) * 2 ^ 53 + (m : Int) = - -_
      rw [Int.neg_neg]
    | positive => rfl

-- ============================================================================
-- Scores
-- ============================================================================

variable {x y : Score}

theorem unpack_neg (x : Score) : (-x).toModel.unpack = x.toModel.unpack.neg :=
  unpack_pack_of_inRange (inRange_neg (inRange_unpack _))

@[simp]
theorem isNaN_neg (x : Score) : (-x).isNaN = x.isNaN := by
  show (-x).toModel.unpack.isNaN = x.toModel.unpack.isNaN
  rw [unpack_neg]
  cases x.toModel.unpack <;> rfl

@[simp]
theorem isFinite_neg (x : Score) : (-x).isFinite = x.isFinite := by
  show (-x).toModel.unpack.isFinite = x.toModel.unpack.isFinite
  rw [unpack_neg]
  cases x.toModel.unpack <;> rfl

@[simp]
theorem rank_neg (x : Score) : (-x).rank = -x.rank := by
  rw [rank, unpack_neg]
  exact unpackedRank_neg _

/-- Changing both signs turns a comparison around, also if a score is NaN. -/
@[simp]
theorem neg_lt_neg_iff : -x < -y ↔ y < x := by
  constructor
  · intro h
    obtain ⟨hx, hy⟩ := isNaN_of_lt h
    rw [lt_iff_rank hx hy, rank_neg, rank_neg] at h
    rw [isNaN_neg] at hx hy
    rw [lt_iff_rank hy hx]
    omega
  · intro h
    obtain ⟨hy, hx⟩ := isNaN_of_lt h
    rw [lt_iff_rank hy hx] at h
    rw [lt_iff_rank ((isNaN_neg x).trans hx) ((isNaN_neg y).trans hy), rank_neg, rank_neg]
    omega

@[simp]
theorem neg_le_neg_iff : -x ≤ -y ↔ y ≤ x := by
  constructor
  · intro h
    obtain ⟨hx, hy⟩ := isNaN_of_le h
    rw [le_iff_rank hx hy, rank_neg, rank_neg] at h
    rw [isNaN_neg] at hx hy
    rw [le_iff_rank hy hx]
    omega
  · intro h
    obtain ⟨hy, hx⟩ := isNaN_of_le h
    rw [le_iff_rank hy hx] at h
    rw [le_iff_rank ((isNaN_neg x).trans hx) ((isNaN_neg y).trans hy), rank_neg, rank_neg]
    omega

theorem neg_bottom : -bottom = top := by decide

theorem neg_top : -top = bottom := by decide

theorem neg_larger (x y : Score) : -x.larger y = (-x).smaller (-y) := by
  simp only [larger, smaller, neg_lt_neg_iff]
  split <;> rfl

theorem neg_smaller (x y : Score) : -x.smaller y = (-x).larger (-y) := by
  simp only [larger, smaller, neg_lt_neg_iff]
  split <;> rfl

end GameSearch.Score
