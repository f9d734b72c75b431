/-
  GameSearch.Proofs.Json.Skipping

  Passing over blanks, numbers and strings.  What the grammar allows is passed over up to its end,
  even where it could not be read: a number may be too large, and four hexadecimal digits need not
  make a character.

    * `Blanks.skipSpace`      — blanks
    * `Numeral.skipNumber`    — numbers
    * `StringBody.skipString` — strings
-/
import Mathlib.Data.List.DropRight
import GameSearch.Proofs.Json.Grammar

namespace GameSearch.Json

variable {b : UInt8} {s r : Bytes} {c : Char} {cs ds : List Char}

-- ============================================================================
-- Blanks
-- ============================================================================

theorem isSpace_iff : isSpace b = true ↔ b = 0x20 ∨ b = 0x0A ∨ b = 0x09 ∨ b = 0x0D := by
  simp only [isSpace, Bool.or_eq_true, beq_iff_eq, or_assoc]

theorem skipSpace_of_isSpace (h : isSpace b = false) : skipSpace (b :: s) = b :: s :=
  List.dropWhile_cons_of_neg (by rw [h]; decide)

theorem skipSpace_skipSpace (s : Bytes) : skipSpace (skipSpace s) = skipSpace s :=
  List.dropWhile_idempotent _ _

/-- Blanks are passed over. -/
theorem Blanks.skipSpace (h : Blanks cs) (s : Bytes) :
    skipSpace (encode cs ++ s) = skipSpace s := by
  refine List.dropWhile_append_of_pos fun b hb => ?_
  obtain ⟨c, hc, hb⟩ := List.mem_flatMap.1 hb
  have hblank := h c hc
  simp only [List.mem_cons, List.not_mem_nil, or_false] at hblank
  rcases hblank with rfl | rfl | rfl | rfl <;>
    (rw [utf8EncodeChar_of_lt (by decide), List.mem_singleton] at hb; rw [hb]; rfl)

-- ============================================================================
-- Numbers
-- ============================================================================

theorem exponentSign_of_isDigit (h : isDigit b = true) :
    exponentSign (b :: s) = (false, b :: s) := by
  unfold exponentSign
  split
  · rename_i heq
    cases heq
    cases h
  · rename_i heq
    cases heq
    cases h
  · rfl

theorem exponentSign_encode {sign : List Char} (hsign : sign ∈ [[], ['+'], ['-']])
    (h : isDigit b = true) : (exponentSign (encode sign ++ b :: s)).2 = b :: s := by
  simp only [List.mem_cons, List.not_mem_nil, or_false] at hsign
  rcases hsign with rfl | rfl | rfl
  · exact congrArg Prod.snd (exponentSign_of_isDigit h)
  · rfl
  · rfl

theorem skipOptionalExponent_cons (b : UInt8) (s : Bytes) :
    skipOptionalExponent (b :: s) = if isExponentMark b then skipExponent s else .ok (b :: s) := rfl

theorem exists_encode_mark (hmark : c ∈ ['e', 'E']) (cs : List Char) :
    ∃ b, encode (c :: cs) = b :: encode cs ∧ isExponentMark b = true ∧ isDigit b = false ∧
      b ≠ 0x2E := by
  simp only [List.mem_cons, List.not_mem_nil, or_false] at hmark
  rcases hmark with rfl | rfl <;> exact ⟨_, rfl, rfl, rfl, by decide⟩

theorem Exponent.skipOptionalExponent (h : Exponent cs) (hs : EndsNumber s) :
    skipOptionalExponent (encode cs ++ s) = .ok s := by
  cases h with
  | absent =>
    cases s with
    | nil => rfl
    | cons b s =>
      show Json.skipOptionalExponent (b :: s) = _
      rw [skipOptionalExponent_cons, (hs b rfl).2.2]
      rfl
  | @present mark sign ds hmark hsign hdigits hne =>
    obtain ⟨b, hencode, hb, -⟩ := exists_encode_mark hmark (sign ++ ds)
    obtain ⟨c, ds, rfl⟩ := List.exists_cons_of_ne_nil hne
    obtain ⟨hc, hds⟩ := hdigits.of_cons
    obtain ⟨d, hfirst, hd, -⟩ := encode_cons_digit hc ds
    rw [hencode, List.cons_append, skipOptionalExponent_cons, if_pos hb, encode_append, hfirst,
      List.append_assoc, List.cons_append, skipExponent, exponentSign_encode hsign hd]
    dsimp only
    rw [if_pos hd, dropWhile_encode hds hs.startsWithDigit]

/-- An exponent goes on neither with digits nor with a point. -/
theorem Exponent.head (h : Exponent cs) (hs : EndsNumber s) :
    startsWithDigit (encode cs ++ s) = false ∧ (encode cs ++ s).head? ≠ some 0x2E := by
  cases h with
  | absent => exact ⟨hs.startsWithDigit, fun h => (hs _ h).2.1 rfl⟩
  | @present mark sign ds hmark =>
    obtain ⟨b, hencode, -, hdigit, hpoint⟩ := exists_encode_mark hmark (sign ++ ds)
    rw [hencode]
    exact ⟨hdigit, fun h => hpoint (Option.some.inj h)⟩

theorem skipTail_of_noPoint (h : s.head? ≠ some 0x2E) : skipTail s = skipOptionalExponent s := by
  cases s with
  | nil => rfl
  | cons b s =>
    have hpoint : b ≠ 0x2E := fun heq => h (congrArg some heq)
    rw [skipTail, if_neg (by simpa using hpoint)]

theorem Fraction.skipTail (h : Fraction cs) (hexponent : Exponent ds) (hs : EndsNumber s) :
    skipTail (encode cs ++ (encode ds ++ s)) = .ok s := by
  cases h with
  | absent =>
    show Json.skipTail (encode ds ++ s) = _
    rw [skipTail_of_noPoint (hexponent.head hs).2, hexponent.skipOptionalExponent hs]
  | @present digits hdigits hne =>
    show (if startsWithDigit (encode digits ++ (encode ds ++ s)) then
      skipOptionalExponent ((encode digits ++ (encode ds ++ s)).dropWhile isDigit) else _) = _
    rw [if_pos (startsWithDigit_encode hdigits hne _),
      dropWhile_encode hdigits (hexponent.head hs).1, hexponent.skipOptionalExponent hs]

theorem Fraction.startsWithDigit (h : Fraction cs) (hexponent : Exponent ds) (hs : EndsNumber s) :
    startsWithDigit (encode cs ++ (encode ds ++ s)) = false := by
  cases h with
  | absent => exact (hexponent.head hs).1
  | present => rfl

/-- Digits are passed over, however many there are. -/
theorem skipUnsigned_leading (h : Leading ds) (hs : startsWithDigit s = false) :
    skipUnsigned (encode ds ++ s) = skipTail s := by
  obtain ⟨c, ds, rfl⟩ := List.exists_cons_of_ne_nil h.ne_nil
  obtain ⟨hc, hds⟩ := h.digits.of_cons
  by_cases hzero : c = '0'
  · subst hzero
    obtain rfl : ds = [] := (List.cons.inj (h.zero rfl)).2
    show (if startsWithDigit s = true then _ else skipTail s) = _
    rw [hs]
    rfl
  · obtain ⟨b, hencode, hb, hnext⟩ := encode_cons_digit hc ds
    have hpos : 0 < extend 0 [c] :=
      extend_pos (h.digits.take 1) (List.cons_ne_nil c []) fun h => hzero (Option.some.inj h)
    have hbyte : b ≠ 0x30 := by
      rintro rfl
      rw [← hnext 0] at hpos
      exact absurd hpos (by decide)
    rw [hencode, List.cons_append, skipUnsigned, if_neg (by simpa using hbyte), if_pos hb,
      dropWhile_encode hds hs]

theorem Magnitude.skipUnsigned (h : Magnitude cs) (hs : EndsNumber s) :
    skipUnsigned (encode cs ++ s) = .ok s := by
  obtain ⟨hwhole, hfraction, hexponent⟩ := h
  rw [encode_append, encode_append, List.append_assoc, List.append_assoc,
    skipUnsigned_leading hwhole (hfraction.startsWithDigit hexponent hs),
    hfraction.skipTail hexponent hs]

theorem skipNumber_of_skipUnsigned (h : skipUnsigned s = .ok r) : skipNumber s = .ok r := by
  unfold skipNumber
  split
  · cases h
  · exact h

/-- A number is passed over, whatever follows that does not go on with it. -/
theorem Numeral.skipNumber (h : Numeral cs) (hs : EndsNumber s) :
    skipNumber (encode cs ++ s) = .ok s := by
  obtain ⟨hsign, hmagnitude⟩ := h
  simp only [List.mem_cons, List.not_mem_nil, or_false] at hsign
  rcases hsign with rfl | rfl
  · exact skipNumber_of_skipUnsigned (hmagnitude.skipUnsigned hs)
  · exact hmagnitude.skipUnsigned hs

theorem Numeral.exists_cons (h : Numeral cs) :
    ∃ b t, encode cs = b :: t ∧ startsNumber b = true := by
  obtain ⟨hsign, ⟨hwhole, -, -⟩⟩ := h
  simp only [List.mem_cons, List.not_mem_nil, or_false] at hsign
  rcases hsign with rfl | rfl
  · obtain ⟨c, ds, rfl⟩ := List.exists_cons_of_ne_nil hwhole.ne_nil
    obtain ⟨b, hencode, hb, -⟩ := encode_cons_digit hwhole.digits.of_cons.1 ds
    refine ⟨b, _, by rw [List.nil_append, encode_append, hencode, List.cons_append], ?_⟩
    rw [startsNumber, hb, Bool.or_true]
  · exact ⟨0x2D, _, rfl, rfl⟩

-- ============================================================================
-- Strings
-- ============================================================================

theorem skipString_plain (h : Plain b) : skipString (b :: s) = skipString s := by
  have hcontrol : ¬ b < 0x20 := UInt8.not_lt.2 h.noControl
  rw [skipString]
  simp only [beq_iff_eq, h.noQuote, h.noBackslash, hcontrol, if_false]

theorem skipString_plains {bytes : List UInt8} (h : ∀ b ∈ bytes, Plain b) (s : Bytes) :
    skipString (bytes ++ s) = skipString s := by
  induction bytes with
  | nil => rfl
  | cons b bytes ih =>
    obtain ⟨hb, hbytes⟩ := List.forall_mem_cons.1 h
    rw [List.cons_append, skipString_plain hb, ih hbytes]

theorem skipString_backslash (h : skipEscape s = .ok r) :
    skipString (0x5C :: s) = skipString r := by
  rw [skipString]
  simp only [show ((0x5C : UInt8) == 0x22) = false from rfl,
    show ((0x5C : UInt8) == 0x5C) = true from rfl, Bool.false_eq_true, if_false, if_true]
  split
  · rename_i f hf
    rw [h] at hf
    cases hf
  · rename_i r' hr
    rw [h] at hr
    cases hr
    rfl

theorem skipEscape_letter (hletter : c ∈ ['"', '\\', '/', 'b', 'f', 'n', 'r', 't'])
    (cs : List Char) (s : Bytes) :
    skipEscape (encode (c :: cs) ++ s) = .ok (encode cs ++ s) := by
  simp only [List.mem_cons, List.not_mem_nil, or_false] at hletter
  rcases hletter with rfl | rfl | rfl | rfl | rfl | rfl | rfl | rfl <;> rfl

/-- A hexadecimal digit is one byte. -/
theorem exists_hexValue (h : c ∈ hexDigits) (cs : List Char) :
    ∃ b n, encode (c :: cs) = b :: encode cs ∧ hexValue b = some n := by
  have hall : hexDigits.all fun c =>
      c.toNat < 0x80 && (hexValue (UInt8.ofNat c.toNat)).isSome := by decide
  obtain ⟨hlow, hvalue⟩ := Bool.and_eq_true_iff.1 (List.all_eq_true.1 hall c h)
  obtain ⟨n, hn⟩ := Option.isSome_iff_exists.1 hvalue
  refine ⟨UInt8.ofNat c.toNat, n, ?_, hn⟩
  rw [encode_cons, utf8EncodeChar_of_lt (of_decide_eq_true hlow)]
  rfl

theorem skipEscape_codePoint {w x y z : Char} (h : ∀ c ∈ [w, x, y, z], c ∈ hexDigits)
    (cs : List Char) (s : Bytes) :
    skipEscape (encode ('u' :: w :: x :: y :: z :: cs) ++ s) = .ok (encode cs ++ s) := by
  obtain ⟨b₁, n₁, hw, hn₁⟩ := exists_hexValue (h w (by simp)) (x :: y :: z :: cs)
  obtain ⟨b₂, n₂, hx, hn₂⟩ := exists_hexValue (h x (by simp)) (y :: z :: cs)
  obtain ⟨b₃, n₃, hy, hn₃⟩ := exists_hexValue (h y (by simp)) (z :: cs)
  obtain ⟨b₄, n₄, hz, hn₄⟩ := exists_hexValue (h z (by simp)) cs
  show (readHex (encode (w :: x :: y :: z :: cs) ++ s)).map (·.2) = _
  rw [hw, hx, hy, hz]
  simp only [List.cons_append, readHex, hn₁, hn₂, hn₃, hn₄]
  rfl

/-- A string is passed over up to its closing quote. -/
theorem StringBody.skipString (h : StringBody cs) (s : Bytes) :
    skipString (encode cs ++ 0x22 :: s) = .ok s := by
  induction h with
  | nil =>
    show Json.skipString (0x22 :: s) = _
    rw [Json.skipString]
    rfl
  | plain hspace hspecial _ ih =>
    rw [encode_cons, List.append_assoc,
      skipString_plains fun b => plain_of_mem_utf8EncodeChar hspace hspecial]
    exact ih
  | escape hletter _ ih => exact (skipString_backslash (skipEscape_letter hletter _ _)).trans ih
  | codePoint hdigits _ ih =>
    exact (skipString_backslash (skipEscape_codePoint hdigits _ _)).trans ih

end GameSearch.Json
