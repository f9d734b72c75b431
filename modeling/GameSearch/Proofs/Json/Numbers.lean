/-
  GameSearch.Proofs.Json.Numbers

  Numbers are read to their end.  The reader keeps the first digits of a number, as many as fit
  64 bits, and counts the others.

    * `extend`                 — the number that some digits make
    * `Takes`                  — how many digits are kept
    * `readUnsigned_leading`   — the digits before the point
    * `readsReal_point`        — a number with a point
    * `readsReal_exponential`  — a number with an exponent
    * `readNumber_integerText` — the text of an integer is read as that integer
-/
import Mathlib.Data.List.Basic
import Mathlib.Tactic.Ring
import GameSearch.Proofs.Json.Strings

namespace GameSearch.Json

open Decimal (digitsOf)

-- ============================================================================
-- Digits
-- ============================================================================

/-- All of the characters are digits. -/
def Digits (ds : List Char) : Prop := ∀ c ∈ ds, c.isDigit = true

/-- The number that the digits `n` and then these make. -/
abbrev extend (n : Nat) (ds : List Char) : Nat := Nat.ofDigitChars 10 ds n

variable {c : Char} {b : UInt8} {ds cs : List Char} {n : Nat} {s : Bytes} {negative : Bool}

theorem Digits.append (h : Digits ds) (h' : Digits cs) : Digits (ds ++ cs) := fun c hc =>
  (List.mem_append.1 hc).elim (h c) (h' c)

theorem Digits.take (h : Digits ds) (n : Nat) : Digits (ds.take n) := fun c hc =>
  h c (List.mem_of_mem_take hc)

theorem Digits.drop (h : Digits ds) (n : Nat) : Digits (ds.drop n) := fun c hc =>
  h c (List.mem_of_mem_drop hc)

theorem Digits.of_cons (h : Digits (c :: ds)) : c.isDigit = true ∧ Digits ds :=
  ⟨h c List.mem_cons_self, fun d hd => h d (List.mem_cons_of_mem c hd)⟩

theorem digits_digitsOf (n : Nat) : Digits (digitsOf n) := fun _ hc =>
  Nat.isDigit_of_mem_toDigits (by decide) (by decide) hc

theorem digits_replicate_zero (n : Nat) : Digits (List.replicate n '0') := fun c hc => by
  rw [List.eq_of_mem_replicate hc]
  rfl

theorem head?_digitsOf (h : n ≠ 0) : (digitsOf n).head? ≠ some '0' := by
  induction n using Nat.strongRecOn with
  | ind n ih =>
    rw [digitsOf]
    rcases Nat.lt_or_ge n 10 with hlt | hge
    · rw [Nat.toDigits_of_lt_base hlt, List.head?_cons, Ne, Option.some_inj, Nat.digitChar_eq_zero]
      exact h
    · rw [Nat.toDigits_of_base_le (by decide) hge,
        List.head?_append_of_ne_nil _ Nat.toDigits_ne_nil]
      exact ih (n / 10) (by omega) (by omega)

theorem extend_digitsOf (n : Nat) : extend 0 (digitsOf n) = n := Nat.ofDigitChars_ten_toDigits

theorem extend_append (n : Nat) (ds cs : List Char) :
    extend n (ds ++ cs) = extend (extend n ds) cs := Nat.ofDigitChars_append n

theorem extend_cons (n : Nat) (c : Char) (ds : List Char) :
    extend n (c :: ds) = extend (extend n [c]) ds := extend_append n [c] ds

theorem extend_singleton (n : Nat) (c : Char) : extend n [c] = 10 * n + (c.toNat - 48) := by
  rw [extend, Nat.ofDigitChars_cons, Nat.ofDigitChars_nil]
  rfl

theorem mul_pow_le_extend (n : Nat) (ds : List Char) : n * 10 ^ ds.length ≤ extend n ds := by
  rw [extend, Nat.ofDigitChars_eq_ofDigitChars_zero, Nat.mul_comm]
  exact Nat.le_add_right _ _

theorem le_extend (n : Nat) (ds : List Char) : n ≤ extend n ds :=
  le_trans (Nat.le_mul_of_pos_right n (Nat.pow_pos (by decide))) (mul_pow_le_extend n ds)

theorem toNat_of_isDigit (h : c.isDigit = true) : 48 ≤ c.toNat ∧ c.toNat ≤ 57 :=
  Char.isDigit_iff_toNat.1 h

theorem Digits.printable (h : Digits ds) : Printable ds := fun c hc =>
  le_trans (by decide) (toNat_of_isDigit (h c hc)).1

theorem extend_singleton_le (h : c.isDigit = true) (n : Nat) : extend n [c] ≤ 10 * n + 9 := by
  have := (toNat_of_isDigit h).2
  rw [extend_singleton]
  omega

theorem extend_lt (h : Digits ds) (n : Nat) : extend n ds < (n + 1) * 10 ^ ds.length := by
  induction ds generalizing n with
  | nil =>
    rw [extend, Nat.ofDigitChars_nil, List.length_nil, pow_zero, mul_one]
    exact Nat.lt_succ_self n
  | cons c ds ih =>
    obtain ⟨hc, hds⟩ := h.of_cons
    have hdigit := extend_singleton_le hc n
    calc extend n (c :: ds) = extend (extend n [c]) ds := extend_cons n c ds
      _ < (extend n [c] + 1) * 10 ^ ds.length := ih hds _
      _ ≤ ((n + 1) * 10) * 10 ^ ds.length := Nat.mul_le_mul_right _ (by omega)
      _ = (n + 1) * 10 ^ (c :: ds).length := by rw [List.length_cons, pow_succ', mul_assoc]

theorem extend_pos (hdigits : Digits ds) (hne : ds ≠ []) (hzero : ds.head? ≠ some '0') :
    0 < extend n ds := by
  obtain ⟨c, ds, rfl⟩ := List.exists_cons_of_ne_nil hne
  have hlow := (toNat_of_isDigit hdigits.of_cons.1).1
  have hc : c.toNat ≠ 48 := fun h => hzero (congrArg some (Char.toNat_inj.1 h))
  rw [extend_cons, extend_singleton]
  exact lt_of_lt_of_le (by omega) (le_extend _ ds)

/-- A digit is one byte, with which the reader extends a number by that digit. -/
theorem encode_cons_digit (h : c.isDigit = true) (cs : List Char) :
    ∃ b, encode (c :: cs) = b :: encode cs ∧ isDigit b = true ∧
      ∀ n, n * 10 + digitValue b = extend n [c] := by
  obtain ⟨hlow, hhigh⟩ := toNat_of_isDigit h
  have hcode : (UInt8.ofNat c.toNat).toNat = c.toNat :=
    UInt8.toNat_ofNat_of_lt' (Nat.lt_of_le_of_lt hhigh (by decide))
  refine ⟨UInt8.ofNat c.toNat, ?_, ?_, fun n => ?_⟩
  · rw [encode_cons, utf8EncodeChar_of_lt (by omega)]
    rfl
  · rw [isDigit, Bool.and_eq_true, decide_eq_true_eq, decide_eq_true_eq, UInt8.le_iff_toNat_le,
      UInt8.le_iff_toNat_le, hcode]
    exact ⟨hlow, hhigh⟩
  · rw [digitValue, hcode, extend_singleton, Nat.mul_comm]

/-- The first digit of a number. -/
theorem extend_digitValue (h : ∀ n, n * 10 + digitValue b = extend n [c]) (ds : List Char) :
    extend (digitValue b) ds = extend 0 (c :: ds) := by
  rw [extend_cons, ← h 0, Nat.zero_mul, Nat.zero_add]

theorem startsWithDigit_encode (h : Digits ds) (hne : ds ≠ []) (s : Bytes) :
    startsWithDigit (encode ds ++ s) = true := by
  cases ds with
  | nil => exact absurd rfl hne
  | cons c ds =>
    obtain ⟨b, hencode, hb, -⟩ := encode_cons_digit h.of_cons.1 ds
    rw [hencode]
    exact hb

theorem takeWhile_of_startsWithDigit (h : startsWithDigit s = false) :
    s.takeWhile isDigit = [] := by
  cases s with
  | nil => rfl
  | cons b s => exact List.takeWhile_cons_of_neg (by rw [show isDigit b = false from h]; decide)

theorem dropWhile_of_startsWithDigit (h : startsWithDigit s = false) :
    s.dropWhile isDigit = s := by
  cases s with
  | nil => rfl
  | cons b s => exact List.dropWhile_cons_of_neg (by rw [show isDigit b = false from h]; decide)

theorem dropWhile_encode (hds : Digits ds) (h : startsWithDigit s = false) :
    (encode ds ++ s).dropWhile isDigit = s := by
  induction ds with
  | nil => exact dropWhile_of_startsWithDigit h
  | cons c ds ih =>
    obtain ⟨hc, hds⟩ := hds.of_cons
    obtain ⟨b, hencode, hb, -⟩ := encode_cons_digit hc ds
    rw [hencode, List.cons_append, List.dropWhile_cons_of_pos hb, ih hds]

-- ============================================================================
-- Digits that are kept
-- ============================================================================

/-- Of some digits after the number `n` the reader keeps the first ones, as long as all of them
    together fit 64 bits. -/
structure Takes (n : Nat) (ds taken dropped : List Char) : Prop where
  split : ds = taken ++ dropped
  fits : extend n taken < 2 ^ 64
  full : ∀ c ∈ dropped.head?, 2 ^ 64 ≤ extend n (taken ++ [c])

theorem exists_takes (ds : List Char) (hn : n < 2 ^ 64) :
    ∃ taken dropped, Takes n ds taken dropped := by
  induction ds generalizing n with
  | nil => exact ⟨[], [], rfl, hn, nofun⟩
  | cons c ds ih =>
    by_cases hlt : extend n [c] < 2 ^ 64
    · obtain ⟨taken, dropped, h⟩ := ih hlt
      exact ⟨c :: taken, dropped, congrArg (c :: ·) h.split, h.fits, h.full⟩
    · refine ⟨[], c :: ds, rfl, hn, fun d hd => ?_⟩
      cases hd
      exact Nat.le_of_not_lt hlt

namespace Takes

variable {taken dropped : List Char}

theorem takeDigits_encode (h : Takes n ds taken dropped) (hds : Digits ds)
    (hs : startsWithDigit s = false) :
    takeDigits n (encode ds ++ s) = (extend n taken, taken.length, encode dropped ++ s) := by
  obtain rfl := h.split
  induction taken generalizing n with
  | nil =>
    cases dropped with
    | nil =>
      cases s with
      | nil => rfl
      | cons b s =>
        show takeDigits n (b :: s) = _
        rw [takeDigits, show isDigit b = false from hs]
        rfl
    | cons c dropped =>
      obtain ⟨b, hencode, -, hnext⟩ := encode_cons_digit hds.of_cons.1 dropped
      have hfull : ¬ extend n [c] < 2 ^ 64 := Nat.not_lt.2 (h.full c rfl)
      rw [List.nil_append, hencode, List.cons_append, takeDigits, hnext,
        if_neg (by simpa using fun _ => hfull)]
      rfl
  | cons c taken ih =>
    obtain ⟨hc, hrest⟩ := Digits.of_cons hds
    obtain ⟨b, hencode, hb, hnext⟩ := encode_cons_digit hc (taken ++ dropped)
    have hlt : extend n [c] < 2 ^ 64 := lt_of_le_of_lt (le_extend _ taken) h.fits
    have htakes : Takes (extend n [c]) (taken ++ dropped) taken dropped := ⟨rfl, h.fits, h.full⟩
    rw [List.cons_append, hencode, List.cons_append, takeDigits, hnext, hb,
      if_pos (by simpa using hlt), ih htakes hrest]
    rfl

theorem taken_ne_nil (h : Takes n ds taken dropped) (hds : Digits ds) (hne : ds ≠ [])
    (hn : 10 * n + 9 < 2 ^ 64) : taken ≠ [] := by
  rintro rfl
  cases ds with
  | nil => exact hne rfl
  | cons c ds =>
    have hdigit := extend_singleton_le hds.of_cons.1 n
    have hfull : 2 ^ 64 ≤ extend n [c] :=
      h.full c (by rw [← show c :: ds = dropped from h.split]; rfl)
    omega

theorem dropped_eq_nil (h : Takes n ds taken dropped) (hlt : extend n ds < 2 ^ 64) :
    dropped = [] := by
  cases dropped with
  | nil => rfl
  | cons c dropped =>
    have hfull := h.full c rfl
    have hle : extend n (taken ++ [c]) ≤ extend n ds := by
      rw [h.split.trans (List.append_cons taken c dropped), extend_append n (taken ++ [c]) dropped]
      exact le_extend _ _
    omega

theorem digits_dropped (h : Takes n ds taken dropped) (hds : Digits ds) : Digits dropped :=
  fun c hc => hds c (by rw [h.split]; exact List.mem_append_right _ hc)

end Takes

/-- Digits of an exponent below `2 ^ 31` are all taken. -/
theorem takeExponent_encode (hds : Digits ds) (hlt : extend n ds < 2 ^ 31)
    (hs : startsWithDigit s = false) : takeExponent n (encode ds ++ s) = .inl (extend n ds, s) := by
  induction ds generalizing n with
  | nil =>
    cases s with
    | nil => rfl
    | cons b s =>
      show takeExponent n (b :: s) = _
      rw [takeExponent, show isDigit b = false from hs]
      rfl
  | cons c ds ih =>
    obtain ⟨hc, hds⟩ := hds.of_cons
    obtain ⟨b, hencode, hb, hnext⟩ := encode_cons_digit hc ds
    rw [extend_cons] at hlt ⊢
    have hle : extend n [c] < 2 ^ 31 := lt_of_le_of_lt (le_extend _ ds) hlt
    rw [hencode, List.cons_append, takeExponent, hnext, if_pos hb, if_pos hle, ih hds hlt]

-- ============================================================================
-- Numbers with a point or an exponent
-- ============================================================================

/-- What follows does not go on with a number. -/
def EndsNumber (s : Bytes) : Prop :=
  ∀ b ∈ s.head?, isDigit b = false ∧ b ≠ 0x2E ∧ isExponentMark b = false

theorem EndsNumber.startsWithDigit (h : EndsNumber s) : startsWithDigit s = false := by
  cases s with
  | nil => rfl
  | cons b s => exact (h b rfl).1

/-- Some text is read as one double, whatever follows that does not go on with a number. -/
def ReadsReal (read : Reader Number) (cs : List Char) : Prop :=
  ∃ y, ∀ s, EndsNumber s → read (encode cs ++ s) = .ok (.real y, s)

/-- Digits as they stand before a point: no zero comes first, unless it is the only one. -/
structure Leading (ds : List Char) : Prop where
  digits : Digits ds
  ne_nil : ds ≠ []
  zero : ds.head? = some '0' → ds = ['0']

theorem leading_digitsOf (n : Nat) : Leading (digitsOf n) := by
  refine ⟨digits_digitsOf n, Nat.toDigits_ne_nil, fun h => ?_⟩
  by_cases hzero : n = 0
  · rw [hzero]
    rfl
  · exact absurd h (head?_digitsOf hzero)

/-- The digits before the point are read to their end if they fit 64 bits. -/
theorem readUnsigned_leading (h : Leading ds) (hlt : extend 0 ds < 2 ^ 64)
    (hs : startsWithDigit s = false) :
    readUnsigned negative (encode ds ++ s) = readTail negative (extend 0 ds) 0 s := by
  cases ds with
  | nil => exact absurd rfl h.ne_nil
  | cons c ds =>
    obtain ⟨hc, hds⟩ := h.digits.of_cons
    obtain ⟨b, hencode, hb, hnext⟩ := encode_cons_digit hc ds
    rw [hencode, List.cons_append, readUnsigned]
    by_cases hzero : c = '0'
    · subst hzero
      obtain rfl : ds = [] := (List.cons.inj (h.zero rfl)).2
      have hbyte : b = 0x30 := List.singleton_inj.1 hencode.symm
      rw [hbyte, if_pos (by decide)]
      show (if startsWithDigit s = true then _ else _) = _
      rw [hs]
      rfl
    · have hpos : 0 < extend 0 [c] :=
        extend_pos (h.digits.take 1) (List.cons_ne_nil c []) fun h => hzero (Option.some.inj h)
      have hbyte : b ≠ 0x30 := by
        rintro rfl
        rw [← hnext 0] at hpos
        exact absurd hpos (by decide)
      have hextend := extend_digitValue hnext ds
      have hfits : extend (digitValue b) ds < 2 ^ 64 := by rwa [hextend]
      obtain ⟨taken, dropped, htakes⟩ := exists_takes ds (lt_of_le_of_lt (le_extend _ _) hfits)
      obtain rfl := htakes.dropped_eq_nil hfits
      have hsplit : taken = ds := by rw [htakes.split, List.append_nil]
      rw [if_neg (by simpa using hbyte), if_pos hb, htakes.takeDigits_encode hds hs, hsplit,
        hextend]
      show readTail negative _ (List.takeWhile isDigit s).length (List.dropWhile isDigit s) = _
      rw [takeWhile_of_startsWithDigit hs, dropWhile_of_startsWithDigit hs]
      rfl

theorem exists_finishReal (negative : Bool) (m : Nat) (e : Int)
    (h : (Decimal.scaled? m e).isSome = true) :
    ∃ y, ∀ s, finishReal negative m e s = .ok (.real y, s) := by
  obtain ⟨x, hx⟩ := Option.isSome_iff_exists.1 h
  refine ⟨signed negative x, fun s => ?_⟩
  rw [finishReal, hx]

/-- What is read behind the digits after a point: an exponent, or nothing. -/
def afterFraction (negative : Bool) (significand : Nat) (exponent : Int) : Reader Number
  | [] => finishReal negative significand exponent []
  | b :: s =>
    if isExponentMark b then readExponent negative significand exponent s
    else finishReal negative significand exponent (b :: s)

theorem EndsNumber.afterFraction (h : EndsNumber s) (m : Nat) (e : Int) :
    afterFraction negative m e s = finishReal negative m e s := by
  cases s with
  | nil => rfl
  | cons b s => exact if_neg (by rw [(h b rfl).2.2]; decide)

theorem readFraction_encode {taken dropped : List Char} (h : Takes n ds taken dropped)
    (hds : Digits ds) (hne : ds ≠ []) (hs : startsWithDigit s = false) (e : Int) :
    readFraction negative n e (encode ds ++ s) =
      afterFraction negative (extend n taken) (e - taken.length) s := by
  refine (if_pos (startsWithDigit_encode hds hne s)).trans ?_
  rw [h.takeDigits_encode hds hs]
  dsimp only
  rw [dropWhile_encode (h.digits_dropped hds) hs]
  cases s <;> rfl

/-- A number with digits before and after a point is read as a double. -/
theorem readsReal_point {whole fraction : List Char} (hwhole : Leading whole)
    (hlt : 10 * extend 0 whole + 9 < 2 ^ 64) (hfraction : Digits fraction) (hne : fraction ≠ []) :
    ReadsReal (readUnsigned negative) (whole ++ '.' :: fraction) := by
  have hfits : extend 0 whole < 2 ^ 64 := by omega
  obtain ⟨taken, dropped, htakes⟩ := exists_takes fraction hfits
  -- a digit is kept, so the exponent is negative, and numbers only get smaller
  obtain ⟨k, hk⟩ := Nat.exists_eq_succ_of_ne_zero
    (List.length_pos_iff.2 (htakes.taken_ne_nil hfraction hne hlt)).ne'
  have hexponent : ((0 : Nat) : Int) - (taken.length : Nat) = .negSucc k := by
    rw [hk]
    omega
  obtain ⟨y, hy⟩ := exists_finishReal negative (extend (extend 0 whole) taken) (.negSucc k) rfl
  refine ⟨y, fun s hs => ?_⟩
  have hdot : encode ('.' :: fraction) = 0x2E :: encode fraction := rfl
  rw [encode_append, hdot, List.append_assoc, List.cons_append,
    readUnsigned_leading hwhole hfits rfl]
  show readFraction negative (extend 0 whole) (0 : Nat) (encode fraction ++ s) = _
  rw [readFraction_encode htakes hfraction hne hs.startsWithDigit, hexponent, hs.afterFraction]
  exact hy s

theorem readExponent_digits (negative : Bool) (hds : Digits ds) (hne : ds ≠ [])
    (hlt : extend 0 ds < 2 ^ 31) (hs : startsWithDigit s = false) (m : Nat) (e : Int) :
    readExponent negative m e (0x2B :: (encode ds ++ s)) =
        finishReal negative m (e + extend 0 ds) s ∧
      readExponent negative m e (0x2D :: (encode ds ++ s)) =
        finishReal negative m (e - extend 0 ds) s := by
  obtain ⟨c, ds, rfl⟩ := List.exists_cons_of_ne_nil hne
  obtain ⟨hc, hds⟩ := hds.of_cons
  obtain ⟨b, hencode, hb, hnext⟩ := encode_cons_digit hc ds
  have hextend := extend_digitValue hnext ds
  have htake := takeExponent_encode hds (by rwa [hextend]) hs
  rw [hencode, List.cons_append]
  constructor
  · refine (if_pos hb).trans ?_
    rw [htake, hextend]
    rfl
  · refine (if_pos hb).trans ?_
    rw [htake, hextend]
    rfl

/-- The exponent is read to its end. -/
theorem readExponent_encode {power : Int} (hpower : power.natAbs < 2 ^ 31)
    (hs : startsWithDigit s = false) (m : Nat) (e : Int) :
    readExponent negative m e
        (encode ((if power < 0 then ['-'] else ['+']) ++ digitsOf power.natAbs) ++ s) =
      finishReal negative m (e + power) s := by
  have hlt : extend 0 (digitsOf power.natAbs) < 2 ^ 31 := by rwa [extend_digitsOf]
  obtain ⟨hup, hdown⟩ := readExponent_digits negative (digits_digitsOf _)
    Nat.toDigits_ne_nil hlt hs m e
  rw [extend_digitsOf] at hup hdown
  split
  · rw [show e + power = e - power.natAbs by omega]
    exact hdown
  · rw [show e + power = e + power.natAbs by omega]
    exact hup

/-- A number with one digit before the point and an exponent is read as a double, if what is kept
    of it is within the range of doubles. -/
theorem readsReal_exponential {digits : List Char} {power : Int} (hdigits : Digits digits)
    (hne : digits ≠ []) (hzero : digits.head? ≠ some '0') (hpower : power.natAbs < 2 ^ 31)
    (hscaled : ∀ taken dropped, Takes 0 digits taken dropped →
      (Decimal.scaled? (extend 0 taken) (power + 1 - taken.length)).isSome = true) :
    ReadsReal (readUnsigned negative) (Decimal.exponential ['+'] digits power) := by
  obtain ⟨c, fraction, rfl⟩ := List.exists_cons_of_ne_nil hne
  obtain ⟨hc, hfraction⟩ := hdigits.of_cons
  have hleading : Leading [c] :=
    ⟨fun d hd => hdigits d (by rw [List.mem_singleton.1 hd]; exact List.mem_cons_self),
      List.cons_ne_nil c [], fun h => absurd h hzero⟩
  have hfirst : extend 0 [c] < 2 ^ 64 :=
    lt_trans (extend_lt hleading.digits 0) (by rw [List.length_singleton]; decide)
  have hmark (cs : List Char) : encode ('e' :: cs) = 0x65 :: encode cs := rfl
  by_cases hnone : fraction = []
  · subst hnone
    obtain ⟨y, hy⟩ := exists_finishReal negative _ _ (hscaled [c] [] ⟨rfl, hfirst, nofun⟩)
    refine ⟨y, fun s hs => ?_⟩
    show readUnsigned negative (encode ([c] ++ 'e' :: _) ++ s) = _
    rw [encode_append, hmark, List.append_assoc, List.cons_append,
      readUnsigned_leading hleading hfirst rfl]
    show readExponent negative _ (0 : Nat) (_ ++ s) = _
    rw [readExponent_encode hpower hs.startsWithDigit,
      show ((0 : Nat) : Int) + power = power + 1 - ([c].length : Nat) by simp]
    exact hy s
  · obtain ⟨taken, dropped, htakes⟩ := exists_takes fraction hfirst
    obtain ⟨y, hy⟩ := exists_finishReal negative _ _
      (hscaled (c :: taken) dropped ⟨congrArg (c :: ·) htakes.split, htakes.fits, htakes.full⟩)
    refine ⟨y, fun s hs => ?_⟩
    have htext : Decimal.exponential ['+'] (c :: fraction) power =
        [c] ++ '.' :: (fraction ++
          'e' :: ((if power < 0 then ['-'] else ['+']) ++ digitsOf power.natAbs)) := by
      rw [Decimal.exponential]
      dsimp only [List.drop_one, List.tail_cons, List.take_succ_cons, List.take_zero]
      rw [if_neg (by rwa [List.isEmpty_iff])]
      rfl
    have hdot (cs : List Char) : encode ('.' :: cs) = 0x2E :: encode cs := rfl
    rw [htext, encode_append, hdot, encode_append, hmark, List.append_assoc, List.cons_append,
      readUnsigned_leading hleading hfirst rfl, List.append_assoc, List.cons_append]
    show readFraction negative _ (0 : Nat) (encode fraction ++ 0x65 :: _) = _
    rw [readFraction_encode htakes hfraction hnone rfl]
    show readExponent negative _ _ (_ ++ s) = _
    rw [readExponent_encode hpower hs.startsWithDigit,
      show ((0 : Nat) : Int) - taken.length + power = power + 1 - ((c :: taken).length : Nat) by
        rw [List.length_cons]; push_cast; ring]
    exact hy s

theorem beq_eq_false_of_startsNumber {w : UInt8} (h : startsNumber b = true)
    (hw : startsNumber w = false) : (b == w) = false := by
  rw [beq_eq_false_iff_ne]
  rintro rfl
  rw [h] at hw
  cases hw

/-- What is read as a number starts like one. -/
theorem startsNumber_of_readNumber {r : Number × Bytes} (h : readNumber (b :: s) = .ok r) :
    startsNumber b = true := by
  unfold readNumber at h
  split at h
  · rename_i heq
    cases heq
    rfl
  · cases hdigit : isDigit b with
    | true => rw [startsNumber, hdigit, Bool.or_true]
    | false =>
      have hzero : (b == 0x30) = false := by
        rw [beq_eq_false_iff_ne]
        rintro rfl
        cases hdigit
      rw [readUnsigned, hzero, hdigit] at h
      cases h

/-- A number without sign does not begin with one. -/
theorem readNumber_of_readUnsigned {r : Number × Bytes} (h : readUnsigned false s = .ok r) :
    readNumber s = .ok r := by
  unfold readNumber
  split
  · cases h
  · exact h

theorem readUnsigned_digitsOf (hn : n < 2 ^ 64) (hs : EndsNumber s) :
    readUnsigned negative (encode (digitsOf n) ++ s) = .ok (wholeNumber negative n, s) := by
  rw [readUnsigned_leading (leading_digitsOf n) (by rwa [extend_digitsOf]) hs.startsWithDigit,
    extend_digitsOf]
  cases s with
  | nil => rfl
  | cons b s =>
    obtain ⟨-, hdot, hmark⟩ := hs b rfl
    rw [readTail, if_neg (by simpa using hdot), if_neg (by rw [hmark]; decide)]
    rfl

/-- A sign makes an integer of what is not zero and lies above the least one of 64 bits. -/
theorem wholeNumber_negative (hpos : 0 < n) (hn : n ≤ 2 ^ 63) :
    wholeNumber true n = .integer (-n) := by
  have hzero : (n == 0) = false := beq_eq_false_iff_ne.2 hpos.ne'
  rw [wholeNumber, hzero, decide_eq_false (Nat.not_lt.2 hn)]
  rfl

/-- The text of an integer that fits 64 bits, with or without sign, is read as that integer. -/
theorem readNumber_integerText {n : Int} (hlow : -2 ^ 63 ≤ n) (hhigh : n < 2 ^ 64)
    (hs : EndsNumber s) : readNumber (encode (integerText n) ++ s) = .ok (.integer n, s) := by
  cases n with
  | ofNat n =>
    have hn : n < 2 ^ 64 := Int.ofNat_lt.1 hhigh
    exact readNumber_of_readUnsigned (readUnsigned_digitsOf hn hs)
  | negSucc n =>
    show readUnsigned true (encode (digitsOf (n + 1)) ++ s) = _
    rw [readUnsigned_digitsOf (by omega) hs, wholeNumber_negative (Nat.succ_pos n) (by omega)]
    rfl

end GameSearch.Json
