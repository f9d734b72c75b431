/-
  GameSearch.Proofs.Json.Doubles

  What is written for a finite double is read as a double.  The digits that the reader keeps never
  stand for more than was written, and what is written lies within the range of doubles.

    * `exists_positional`       — the digits before and after the point
    * `mul_pow_le_value`        — what is kept of a decimal, against the decimal
    * `isSome_scaled?_of_takes` — so it is within range
    * `readsReal_realText`      — the text of a finite double is read as a double
-/
import GameSearch.Proofs.Decimal.Nearness
import GameSearch.Proofs.Json.Numbers
import GameSearch.Proofs.Score.Overflow

namespace GameSearch.Json

open Decimal

-- ============================================================================
-- Positional form
-- ============================================================================

/-- The positional form of a number with at most sixteen digits before the point. -/
theorem exists_positional {digits : List Char} (point : Int) (hdigits : Digits digits)
    (hne : digits ≠ []) (hzero : digits.head? ≠ some '0') (hpoint : point ≤ 16) :
    ∃ whole fraction, positional ['.', '0'] digits point = whole ++ '.' :: fraction ∧
      Leading whole ∧ whole.length ≤ 16 ∧ Digits fraction ∧ fraction ≠ [] := by
  unfold positional
  split
  · refine ⟨['0'], _, rfl, leading_digitsOf 0, by decide, ?_, ?_⟩
    · exact (digits_replicate_zero _).append hdigits
    · exact List.append_ne_nil_of_right_ne_nil _ hne
  · split
    · rename_i hpos hle
      refine ⟨digits ++ List.replicate (point.toNat - digits.length) '0', ['0'], ?_, ?_, ?_, ?_, ?_⟩
      case refine_1 => rfl
      case refine_2 =>
        refine ⟨hdigits.append (digits_replicate_zero _),
          List.append_ne_nil_of_left_ne_nil hne _, fun h => ?_⟩
        rw [List.head?_append_of_ne_nil _ hne] at h
        exact absurd h hzero
      case refine_3 =>
        rw [List.length_append, List.length_replicate]
        omega
      case refine_4 => exact digits_digitsOf 0
      case refine_5 => decide
    · rename_i hpos hgt
      refine ⟨digits.take point.toNat, digits.drop point.toNat, rfl, ⟨?_, ?_, fun h => ?_⟩,
        ?_, ?_, ?_⟩
      case refine_1 => exact hdigits.take _
      case refine_2 =>
        rw [Ne, List.take_eq_nil_iff]
        exact fun h => h.elim (by omega) hne
      case refine_3 =>
        rw [List.head?_take, if_neg (by omega)] at h
        exact absurd h hzero
      case refine_4 =>
        rw [List.length_take]
        omega
      case refine_5 => exact hdigits.drop _
      case refine_6 =>
        rw [Ne, List.drop_eq_nil_iff]
        omega

-- ============================================================================
-- Decimals within the range of doubles
-- ============================================================================

variable {d : Scaled} {taken dropped : List Char}

/-- What is kept of a decimal does not stand for more than the decimal. -/
theorem mul_pow_le_value (h : Takes 0 (digitsOf d.digits) taken dropped) :
    (extend 0 taken : ℚ) * 10 ^ (d.power + 1 - taken.length) ≤ d.value := by
  have hlength : (digitsOf d.digits).length = taken.length + dropped.length := by
    rw [h.split, List.length_append]
  have hexponent : d.power + 1 - taken.length = dropped.length + d.exponent := by
    rw [Scaled.power, hlength]
    push_cast
    ring
  have hle : extend 0 taken * 10 ^ dropped.length ≤ d.digits :=
    calc extend 0 taken * 10 ^ dropped.length ≤ extend (extend 0 taken) dropped :=
          mul_pow_le_extend _ _
      _ = extend 0 (digitsOf d.digits) := by rw [h.split, extend_append]
      _ = d.digits := extend_digitsOf _
  rw [hexponent, zpow_add₀ (by norm_num), zpow_natCast, ← mul_assoc, Scaled.value]
  refine mul_le_mul_of_nonneg_right ?_ (zpow_pos (by norm_num) _).le
  exact_mod_cast hle

theorem cast_nearGreatest : (Score.nearGreatest : ℚ) = (2 ^ 54 - 3) * 2 ^ (970 : Int) := by
  have hcast : ((2 ^ 54 - 3 : Nat) : ℚ) = 2 ^ 54 - 3 := by norm_num
  rw [Score.nearGreatest, Nat.cast_mul, hcast, Nat.cast_pow]
  rfl

/-- So it is within range, too. -/
theorem isSome_scaled?_of_takes (hd : d.digits ≠ 0)
    (hvalue : d = ⟨17976931348623157, 292⟩ ∨ d.value ≤ (2 ^ 54 - 3) * 2 ^ (970 : Int))
    (h : Takes 0 (digitsOf d.digits) taken dropped) :
    (scaled? (extend 0 taken) (d.power + 1 - taken.length)).isSome = true := by
  have hdigits := digits_digitsOf d.digits
  rcases hvalue with rfl | hvalue
  · have hlt : extend 0 (digitsOf 17976931348623157) < 2 ^ 64 := by
      rw [extend_digitsOf]
      decide
    obtain rfl := h.dropped_eq_nil hlt
    have hsplit : taken = digitsOf 17976931348623157 := by rw [h.split, List.append_nil]
    subst hsplit
    rw [extend_digitsOf]
    decide +kernel
  · have htaken : taken ≠ [] := h.taken_ne_nil hdigits Nat.toDigits_ne_nil (by decide)
    have hpos : 0 < extend 0 taken := by
      refine extend_pos (fun c hc => hdigits c ?_) htaken ?_
      · rw [h.split]
        exact List.mem_append_left _ hc
      · rw [← List.head?_append_of_ne_nil taken htaken, ← h.split]
        exact head?_digitsOf hd
    refine Score.isSome_scaled? hpos h.fits fun hexponent => ?_
    have hle := (mul_pow_le_value h).trans hvalue
    rw [← cast_nearGreatest, ← Int.toNat_of_nonneg hexponent, zpow_natCast] at hle
    exact_mod_cast hle

/-- What is written for a decimal within the range of doubles is read as a double. -/
theorem readsReal_render (negative : Bool) (hd : d.digits ≠ 0) (hpower : d.power.natAbs < 2 ^ 31)
    (hvalue : d = ⟨17976931348623157, 292⟩ ∨ d.value ≤ (2 ^ 54 - 3) * 2 ^ (970 : Int)) :
    ReadsReal (readUnsigned negative) (realNotation.render d) := by
  have hdigits := digits_digitsOf d.digits
  have hzero := head?_digitsOf hd
  unfold Notation.render
  dsimp only
  rw [if_neg hd]
  split
  · rename_i hpositional
    have hpower : d.power ≤ 15 := of_decide_eq_true (Bool.and_eq_true_iff.1 hpositional).1
    obtain ⟨whole, fraction, htext, hwhole, hlength, hfraction, hne⟩ :=
      exists_positional (d.power + 1) hdigits Nat.toDigits_ne_nil hzero (by omega)
    have hlt : extend 0 whole < 10 ^ 16 :=
      calc extend 0 whole < (0 + 1) * 10 ^ whole.length := extend_lt hwhole.digits 0
        _ ≤ 10 ^ 16 := by
          rw [zero_add, one_mul]
          exact Nat.pow_le_pow_right (by decide) hlength
    refine (congrArg (ReadsReal (readUnsigned negative)) htext).mpr ?_
    exact readsReal_point hwhole (by omega) hfraction hne
  · exact readsReal_exponential hdigits Nat.toDigits_ne_nil hzero hpower fun taken dropped h =>
      isSome_scaled?_of_takes hd hvalue h

-- ============================================================================
-- The text of a double
-- ============================================================================

/-- The text of the magnitude of a double is read as a double. -/
theorem readsReal_shortest (negative : Bool) {x : Binary} (h : x.Double) :
    ReadsReal (readUnsigned negative) (realNotation.render (x.shortest .toEven)) := by
  by_cases hs : x.significand = 0
  · rw [Binary.shortest, if_pos hs]
    exact readsReal_point (leading_digitsOf 0) (by decide) (digits_digitsOf 0)
      (List.cons_ne_nil '0' [])
  · obtain ⟨hlow, hhigh⟩ := Binary.power_shortest_bounds .toEven h hs
    refine readsReal_render negative (Binary.digits_shortest_ne_zero .toEven hs) (by omega) ?_
    rcases Binary.value_shortest_le_of_double .toEven h hs with rfl | hvalue
    · exact .inl Binary.shortest_greatest
    · exact .inr hvalue

/-- The text of a finite double is that of its magnitude, with a sign in front if it is negative. -/
theorem exists_realText {x : Score} (h : x.isFinite = true) :
    ∃ (negative : Bool) (magnitude : Binary), magnitude.Double ∧ realText x =
      (if negative then ['-'] else []) ++ realNotation.render (magnitude.shortest .toEven) := by
  obtain ⟨negative, magnitude, hreading, hdouble⟩ := exists_reading_of_isFinite h
  refine ⟨negative, magnitude, hdouble, ?_⟩
  rw [realText, if_pos h, Notation.float, hreading]
  cases negative <;> exact String.toList_ofList

/-- The text of a finite double is read as a double. -/
theorem readsReal_realText {x : Score} (h : x.isFinite = true) :
    ReadsReal readNumber (realText x) := by
  obtain ⟨negative, magnitude, hdouble, htext⟩ := exists_realText h
  obtain ⟨y, hy⟩ := readsReal_shortest negative hdouble
  refine ⟨y, fun s hs => ?_⟩
  rw [htext]
  cases negative with
  | true => exact hy s hs
  | false => exact readNumber_of_readUnsigned (hy s hs)

-- ============================================================================
-- Control characters
-- ============================================================================

theorem printable_positional {mark digits : List Char} (hmark : Printable mark)
    (hdigits : Digits digits) (point : Int) : Printable (positional mark digits point) := by
  intro c hc
  rcases mem_positional hc with h | h | rfl | rfl
  · exact hdigits.printable c h
  · exact hmark c h
  · decide
  · decide

theorem printable_exponential {plus digits : List Char} (hplus : Printable plus)
    (hdigits : Digits digits) (power : Int) : Printable (exponential plus digits power) := by
  have hfraction : Printable (if (digits.drop 1).isEmpty then [] else '.' :: digits.drop 1) := by
    split
    · decide
    · exact .cons (by decide) (hdigits.drop 1).printable
  have hsign : Printable (if power < 0 then ['-'] else plus) := by
    split
    · decide
    · exact hplus
  exact ((hdigits.take 1).printable.append hfraction).append
    (.cons (by decide) (hsign.append (digits_digitsOf _).printable))

/-- A number is written without control characters. -/
theorem printable_realText (x : Score) : Printable (realText x) := by
  have hmark : Printable realNotation.wholeMark := by decide
  have hplus : Printable realNotation.exponentPlus := by decide
  have hrender (d : Scaled) : Printable (realNotation.render d) := by
    unfold Notation.render
    dsimp only
    generalize (if d.digits = 0 then (0 : Int) else _) = power
    split
    · exact printable_positional hmark (digits_digitsOf _) _
    · exact printable_exponential hplus (digits_digitsOf _) _
  unfold realText
  split
  · unfold Notation.float
    cases Reading.ofFloat x with
    | nan => decide
    | infinite negative => cases negative <;> decide
    | finite negative magnitude =>
      dsimp only
      rw [String.toList_ofList]
      cases negative with
      | true => exact .cons (by decide) (hrender _)
      | false => exact hrender _
  · decide

end GameSearch.Json
