/-
  GameSearch.Proofs.Json.Grammar

  The grammar of JSON.  It is said over characters and knows no limits: numbers may be as large and
  brackets as deep as one likes, four hexadecimal digits need not make a character, and blanks may
  be in front of every token inside a list or an object.

    * `Numeral`, `StringBody` — numbers, and what stands between the quotes of a string
    * `Lead`                  — what stands in front of an element of a list or an object
    * `Grammar`               — values, and what follows an element
    * `grammar_chars`         — the compact text of every value is in the grammar
-/
import GameSearch.Json.Skip
import GameSearch.Proofs.Json.Doubles

namespace GameSearch.Json

-- ============================================================================
-- Numbers
-- ============================================================================

/-- A point and the digits after it, or nothing. -/
inductive Fraction : List Char → Prop where
  | absent : Fraction []
  | present {ds : List Char} (hdigits : Digits ds) (hne : ds ≠ []) : Fraction ('.' :: ds)

/-- A power of ten with its letter, or nothing. -/
inductive Exponent : List Char → Prop where
  | absent : Exponent []
  | present {mark : Char} {sign ds : List Char} (hmark : mark ∈ ['e', 'E'])
      (hsign : sign ∈ [[], ['+'], ['-']]) (hdigits : Digits ds) (hne : ds ≠ []) :
      Exponent (mark :: (sign ++ ds))

/-- A number without sign: digits, with or without a fraction and an exponent. -/
inductive Magnitude : List Char → Prop where
  | intro {whole fraction exponent : List Char} (hwhole : Leading whole)
      (hfraction : Fraction fraction) (hexponent : Exponent exponent) :
      Magnitude (whole ++ (fraction ++ exponent))

/-- A number. -/
inductive Numeral : List Char → Prop where
  | intro {sign cs : List Char} (hsign : sign ∈ [[], ['-']]) (hmagnitude : Magnitude cs) :
      Numeral (sign ++ cs)

theorem magnitude_digitsOf (n : Nat) : Magnitude (Decimal.digitsOf n) := by
  have hmagnitude := Magnitude.intro (leading_digitsOf n) .absent .absent
  rwa [List.append_nil, List.append_nil] at hmagnitude

theorem magnitude_positional {digits : List Char} {point : Int} (hdigits : Digits digits)
    (hne : digits ≠ []) (hzero : digits.head? ≠ some '0') (hpoint : point ≤ 16) :
    Magnitude (Decimal.positional ['.', '0'] digits point) := by
  obtain ⟨whole, fraction, htext, hwhole, -, hfraction, hnil⟩ :=
    exists_positional point hdigits hne hzero hpoint
  have hmagnitude := Magnitude.intro hwhole (.present hfraction hnil) .absent
  rw [List.append_nil] at hmagnitude
  rw [htext]
  exact hmagnitude

theorem magnitude_exponential {digits : List Char} (hdigits : Digits digits) (hne : digits ≠ [])
    (hzero : digits.head? ≠ some '0') (power : Int) :
    Magnitude (Decimal.exponential ['+'] digits power) := by
  obtain ⟨c, ds, rfl⟩ := List.exists_cons_of_ne_nil hne
  have hwhole : Leading [c] := ⟨hdigits.take 1, List.cons_ne_nil c [], fun h => absurd h hzero⟩
  have hfraction : Fraction (if ds.isEmpty then [] else '.' :: ds) := by
    split
    · exact .absent
    · rename_i hds
      exact .present hdigits.of_cons.2 (by rwa [List.isEmpty_iff] at hds)
  have hexponent : Exponent
      ('e' :: ((if power < 0 then ['-'] else ['+']) ++ Decimal.digitsOf power.natAbs)) := by
    refine .present (by decide) ?_ (digits_digitsOf _) Nat.toDigits_ne_nil
    split <;> decide
  have hmagnitude := Magnitude.intro hwhole hfraction hexponent
  rw [← List.append_assoc] at hmagnitude
  exact hmagnitude

theorem magnitude_render (d : Decimal.Scaled) : Magnitude (realNotation.render d) := by
  have hdigits := digits_digitsOf d.digits
  unfold Decimal.Notation.render
  dsimp only
  by_cases hd : d.digits = 0
  · -- zero is the one number that starts with a zero
    rw [if_pos hd, if_pos (by decide), hd]
    exact .intro (leading_digitsOf 0) (.present (digits_digitsOf 0) (by decide)) .absent
  · have hzero := head?_digitsOf hd
    rw [if_neg hd]
    split
    · rename_i hpositional
      have hpower := of_decide_eq_true (Bool.and_eq_true_iff.1 hpositional).1
      exact magnitude_positional hdigits Nat.toDigits_ne_nil hzero (by omega)
    · exact magnitude_exponential hdigits Nat.toDigits_ne_nil hzero _

theorem numeral_integerText (n : Int) : Numeral (integerText n) := by
  cases n with
  | ofNat n => exact @Numeral.intro [] _ (by decide) (magnitude_digitsOf n)
  | negSucc n => exact @Numeral.intro ['-'] _ (by decide) (magnitude_digitsOf (n + 1))

theorem numeral_realText {x : Score} (h : x.isFinite = true) : Numeral (realText x) := by
  obtain ⟨negative, magnitude, -, htext⟩ := exists_realText h
  rw [htext]
  refine .intro ?_ (magnitude_render _)
  cases negative <;> decide

theorem numeral_ofFloat {x : Score} (h : x.isFinite = true) : Numeral (Json.ofFloat x).chars := by
  rw [Json.ofFloat, if_pos h, chars]
  exact numeral_realText h

-- ============================================================================
-- Strings
-- ============================================================================

/-- The digits of hexadecimal numbers. -/
def hexDigits : List Char :=
  ['0', '1', '2', '3', '4', '5', '6', '7', '8', '9', 'a', 'b', 'c', 'd', 'e', 'f',
    'A', 'B', 'C', 'D', 'E', 'F']

/-- What may stand between the quotes of a string. -/
inductive StringBody : List Char → Prop where
  | nil : StringBody []
  /-- A character that stands for itself. -/
  | plain {c : Char} {cs : List Char} (hspace : 0x20 ≤ c.toNat) (hspecial : c ∉ ['"', '\\'])
      (hbody : StringBody cs) : StringBody (c :: cs)
  /-- A backslash and a letter. -/
  | escape {c : Char} {cs : List Char} (hletter : c ∈ ['"', '\\', '/', 'b', 'f', 'n', 'r', 't'])
      (hbody : StringBody cs) : StringBody ('\\' :: c :: cs)
  /-- A backslash and four hexadecimal digits, whatever they make. -/
  | codePoint {a b c d : Char} {cs : List Char} (hdigits : ∀ x ∈ [a, b, c, d], x ∈ hexDigits)
      (hbody : StringBody cs) : StringBody ('\\' :: 'u' :: a :: b :: c :: d :: cs)

theorem digitChar_mem_hexDigits {n : Nat} (hn : n < 16) : n.digitChar ∈ hexDigits := by
  interval_cases n <;> decide

theorem StringBody.escapeChar {cs : List Char} (h : StringBody cs) (c : Char) :
    StringBody (Json.escapeChar c ++ cs) := by
  unfold Json.escapeChar
  split_ifs with hspecial hspace
  · refine .escape ?_ h
    rcases Bool.or_eq_true_iff.1 hspecial with hc | hc <;> rw [of_decide_eq_true hc] <;> decide
  · refine .plain hspace ?_ h
    simpa using hspecial
  · exact .escape (by decide) h
  · exact .escape (by decide) h
  · exact .escape (by decide) h
  · exact .escape (by decide) h
  · exact .escape (by decide) h
  · refine .codePoint ?_ h
    have hhigh := digitChar_mem_hexDigits (n := c.toNat / 16) (by omega)
    have hlow := digitChar_mem_hexDigits (n := c.toNat % 16) (by omega)
    have hzero : '0' ∈ hexDigits := by decide
    simpa using ⟨hzero, hhigh, hlow⟩

theorem stringBody_escapes (cs : List Char) : StringBody (cs.flatMap escapeChar) := by
  induction cs with
  | nil => exact .nil
  | cons c cs ih => exact ih.escapeChar c

-- ============================================================================
-- Values
-- ============================================================================

/-- Blanks between tokens. -/
def Blanks (cs : List Char) : Prop := ∀ c ∈ cs, c ∈ [' ', '\n', '\t', '\r']

/-- The character that opens a bracket. -/
def Bracket.opener : Bracket → Char
  | .list => '['
  | .object => '\x7b'

/-- The character that closes a bracket. -/
def Bracket.closer : Bracket → Char
  | .list => ']'
  | .object => '\x7d'

/-- What stands in front of an element: blanks, and in an object a key and a colon. -/
inductive Lead : Bracket → List Char → Prop where
  | item {blanks : List Char} (hblanks : Blanks blanks) : Lead .list blanks
  | field {before key after blanks : List Char} (hbefore : Blanks before) (hkey : StringBody key)
      (hafter : Blanks after) (hblanks : Blanks blanks) :
      Lead .object (before ++ '"' :: (key ++ '"' :: (after ++ ':' :: blanks)))

/-- The parts that values are made of. -/
inductive Part where
  | value
  /-- All that follows an element of a list or an object, its end included. -/
  | rest (bracket : Bracket)

/-- Which texts are parts of which kind. -/
inductive Grammar : Part → List Char → Prop where
  | word {cs : List Char} (hword : cs ∈ ["null".toList, "true".toList, "false".toList]) :
      Grammar .value cs
  | number {cs : List Char} (hnumber : Numeral cs) : Grammar .value cs
  | string {cs : List Char} (hbody : StringBody cs) : Grammar .value ('"' :: (cs ++ ['"']))
  | empty {bracket : Bracket} {blanks : List Char} (hblanks : Blanks blanks) :
      Grammar .value (bracket.opener :: (blanks ++ [bracket.closer]))
  | filled {bracket : Bracket} {lead cs rest : List Char} (hlead : Lead bracket lead)
      (hvalue : Grammar .value cs) (hrest : Grammar (.rest bracket) rest) :
      Grammar .value (bracket.opener :: (lead ++ (cs ++ rest)))
  | last {bracket : Bracket} {blanks : List Char} (hblanks : Blanks blanks) :
      Grammar (.rest bracket) (blanks ++ [bracket.closer])
  | more {bracket : Bracket} {blanks lead cs rest : List Char} (hblanks : Blanks blanks)
      (hlead : Lead bracket lead) (hvalue : Grammar .value cs)
      (hrest : Grammar (.rest bracket) rest) :
      Grammar (.rest bracket) (blanks ++ ',' :: (lead ++ (cs ++ rest)))

/-- What holds of scalars, and of lists and objects if it holds of what is in them, holds of every
    value. -/
theorem induction {motive : Json → Prop} (null : motive .null) (bool : ∀ b, motive (.bool b))
    (integer : ∀ n, motive (.integer n)) (real : ∀ x, motive (.real x))
    (string : ∀ text, motive (.string text))
    (list : ∀ items, (∀ x ∈ items, motive x) → motive (.list items))
    (object : ∀ fields, (∀ f ∈ fields, motive f.2) → motive (.object fields)) (j : Json) :
    motive j :=
  match j with
  | .null => null
  | .bool b => bool b
  | .integer n => integer n
  | .real x => real x
  | .string text => string text
  | .list items => list items fun x _ => induction null bool integer real string list object x
  | .object fields =>
    object fields fun f _ => induction null bool integer real string list object f.2
termination_by sizeOf j
decreasing_by
  · have := List.sizeOf_lt_of_mem ‹x ∈ items›
    simp only [Json.list.sizeOf_spec]
    omega
  · have := List.sizeOf_lt_of_mem ‹f ∈ fields›
    obtain ⟨key, value⟩ := f
    simp only [Json.object.sizeOf_spec, Prod.mk.sizeOf_spec] at this ⊢
    omega

theorem blanks_nil : Blanks [] := List.forall_mem_nil _

theorem lead_field (key : String) : Lead .object (quote key ++ [':']) := by
  have hlead := Lead.field blanks_nil (stringBody_escapes key.toList) blanks_nil blanks_nil
  rw [quote, List.cons_append, List.append_assoc]
  exact hlead

theorem grammar_itemChars {items : List Json} (h : ∀ x ∈ items, Grammar .value x.chars) :
    Grammar (.rest .list) (itemChars items) := by
  induction items with
  | nil =>
    rw [itemChars]
    exact .last blanks_nil
  | cons x items ih =>
    obtain ⟨hx, hitems⟩ := List.forall_mem_cons.1 h
    rw [itemChars]
    exact .more blanks_nil (.item blanks_nil) hx (ih hitems)

theorem grammar_fieldChars {fields : List (String × Json)}
    (h : ∀ f ∈ fields, Grammar .value f.2.chars) :
    Grammar (.rest .object) (fieldChars fields) := by
  induction fields with
  | nil =>
    rw [fieldChars]
    exact .last blanks_nil
  | cons f fields ih =>
    obtain ⟨key, x⟩ := f
    obtain ⟨hx, hfields⟩ := List.forall_mem_cons.1 h
    have hrest := Grammar.more blanks_nil (lead_field key) hx (ih hfields)
    rw [List.append_assoc] at hrest
    rw [fieldChars]
    exact hrest

/-- The compact text of a value is in the grammar. -/
theorem grammar_chars (j : Json) : Grammar .value j.chars := by
  induction j using Json.induction with
  | null =>
    rw [chars]
    exact .word (by decide)
  | bool b =>
    rw [chars]
    refine .word ?_
    cases b <;> decide
  | integer n =>
    rw [chars]
    exact .number (numeral_integerText n)
  | real x =>
    rw [chars]
    cases hfinite : x.isFinite with
    | true => exact .number (numeral_realText hfinite)
    | false =>
      rw [realText, hfinite, if_neg Bool.false_ne_true]
      exact .word (by decide)
  | string text =>
    rw [chars]
    exact .string (stringBody_escapes text.toList)
  | list items ih =>
    cases items with
    | nil =>
      rw [chars]
      exact @Grammar.empty .list _ blanks_nil
    | cons x items =>
      obtain ⟨hx, hitems⟩ := List.forall_mem_cons.1 ih
      rw [chars]
      exact Grammar.filled (Lead.item blanks_nil) hx (grammar_itemChars hitems)
  | object fields ih =>
    cases fields with
    | nil =>
      rw [chars]
      exact @Grammar.empty .object _ blanks_nil
    | cons f fields =>
      obtain ⟨key, x⟩ := f
      obtain ⟨hx, hfields⟩ := List.forall_mem_cons.1 ih
      have hall := Grammar.filled (lead_field key) hx (grammar_fieldChars hfields)
      rw [List.append_assoc] at hall
      rw [chars]
      exact hall

end GameSearch.Json
