/-
  GameSearch.Proofs.Json.Passing

  Passing over values of any form.  The walk over nested values keeps the open brackets on a
  stack.  From in front of a value it comes to the place behind it with the same brackets open,
  and it takes no more turns for that than the value has bytes, so the fuel is enough.

    * `Skips`             — a text that is passed over as a scalar
    * `Passes`            — a text that is passed over inside any brackets
    * `PassesRest`        — what follows an element, passed over up to the end of its bracket
    * `Grammar.passed`    — what the grammar allows is passed over
    * `Grammar.skipValue` — so it is passed over as a value
-/
import GameSearch.Proofs.Json.Skipping

namespace GameSearch.Json

variable {s r : Bytes} {cs lead blanks rest : List Char} {bracket : Bracket}

-- ============================================================================
-- Turns
-- ============================================================================

/-- The text of a value is passed over inside any brackets and with any blanks in front of it, in
    no more turns than it has bytes; it starts with a byte that is no blank and does not end a
    list. -/
structure Passes (cs : List Char) : Prop where
  starts : ∃ b t, encode cs = b :: t ∧ isSpace b = false ∧ b ≠ 0x5D
  turns : ∃ n ≤ (encode cs).length, ∀ fuel outer r s, EndsNumber s →
    skipSpace r = encode cs ++ s →
    skipNested (fuel + n) .beforeValue outer r = skipNested fuel .afterValue outer s

/-- The rest of a list or an object, from behind an element up to the closing bracket, is passed
    over; it does not go on with a number. -/
structure PassesRest (bracket : Bracket) (cs : List Char) : Prop where
  ends : ∀ s, EndsNumber (encode cs ++ s)
  turns : ∃ n ≤ (encode cs).length, ∀ fuel outer s,
    skipNested (fuel + n) .afterValue (bracket :: outer) (encode cs ++ s) =
      skipNested fuel .afterValue outer s

theorem Passes.skipSpace (h : Passes cs) (s : Bytes) :
    skipSpace (encode cs ++ s) = encode cs ++ s := by
  obtain ⟨b, t, htext, hspace, -⟩ := h.starts
  rw [htext]
  exact skipSpace_of_isSpace hspace

-- ============================================================================
-- Scalars
-- ============================================================================

/-- The text is passed over as a scalar, whatever follows that does not go on with a number. -/
def Skips (cs : List Char) : Prop :=
  ∀ s, EndsNumber s → ∃ b t, encode cs ++ s = b :: t ∧ skipScalar? b t = some (.ok s)

theorem skips_word (h : cs ∈ ["null".toList, "true".toList, "false".toList]) : Skips cs := by
  simp only [List.mem_cons, List.not_mem_nil, or_false] at h
  rcases h with rfl | rfl | rfl <;> exact fun s _ => ⟨_, _, rfl, rfl⟩

theorem Numeral.skips (h : Numeral cs) : Skips cs := by
  intro s hs
  have hskip := h.skipNumber hs
  obtain ⟨b, t, htext, hstart⟩ := h.exists_cons
  rw [htext, List.cons_append] at hskip
  refine ⟨b, t ++ s, by rw [htext, List.cons_append], ?_⟩
  rw [skipScalar?, beq_eq_false_of_startsNumber hstart (w := 0x6E) rfl,
    beq_eq_false_of_startsNumber hstart (w := 0x74) rfl,
    beq_eq_false_of_startsNumber hstart (w := 0x66) rfl, hstart, hskip]
  rfl

theorem encode_quoted (cs : List Char) (s : Bytes) :
    encode ('"' :: (cs ++ ['"'])) ++ s = 0x22 :: (encode cs ++ 0x22 :: s) := by
  rw [encode_cons, encode_append, List.append_assoc, List.append_assoc]
  rfl

theorem StringBody.skips (h : StringBody cs) : Skips ('"' :: (cs ++ ['"'])) := by
  intro s _
  refine ⟨0x22, _, encode_quoted cs s, ?_⟩
  show some (Json.skipString (encode cs ++ 0x22 :: s)) = _
  rw [h.skipString]

/-- A scalar takes one turn. -/
theorem Skips.passes (h : Skips cs) : Passes cs := by
  have hstarts : ∀ {b t s}, skipScalar? b t = some (.ok s) → isSpace b = false ∧ b ≠ 0x5D := by
    intro b t s hskip
    constructor
    · rw [Bool.eq_false_iff]
      intro hspace
      rcases isSpace_iff.1 hspace with rfl | rfl | rfl | rfl <;> cases hskip
    · rintro rfl
      cases hskip
  constructor
  case starts =>
    obtain ⟨b, t, htext, hskip⟩ := h [] nofun
    rw [List.append_nil] at htext
    exact ⟨b, t, htext, hstarts hskip⟩
  case turns =>
    refine ⟨1, ?_, fun fuel outer r s hs hr => ?_⟩
    · obtain ⟨b, t, htext, -⟩ := h [] nofun
      rw [List.append_nil] at htext
      rw [htext]
      exact Nat.succ_pos _
    · obtain ⟨b, t, htext, hskip⟩ := h s hs
      rw [skipNested, hr, htext]
      dsimp only
      rw [hskip]

-- ============================================================================
-- In front of an element
-- ============================================================================

/-- A key is passed over with its colon. -/
theorem skipKey_encode {before key after : List Char} (hbefore : Blanks before)
    (hkey : StringBody key) (hafter : Blanks after) (s : Bytes) :
    skipKey (encode before ++ 0x22 :: (encode key ++ 0x22 :: (encode after ++ 0x3A :: s))) =
      .ok s := by
  rw [skipKey, hbefore.skipSpace, skipSpace_of_isSpace (by decide)]
  dsimp only
  rw [if_pos (by decide), hkey.skipString]
  dsimp only
  rw [hafter.skipSpace, skipSpace_of_isSpace (by decide)]
  rfl

theorem encode_field (before key after blanks : List Char) (s : Bytes) :
    encode (before ++ '"' :: (key ++ '"' :: (after ++ ':' :: blanks))) ++ s =
      encode before ++
        0x22 :: (encode key ++ 0x22 :: (encode after ++ 0x3A :: (encode blanks ++ s))) := by
  have hquote (cs : List Char) : encode ('"' :: cs) = 0x22 :: encode cs := rfl
  have hcolon (cs : List Char) : encode (':' :: cs) = 0x3A :: encode cs := rfl
  simp only [encode_append, hquote, hcolon, List.append_assoc, List.cons_append]

theorem skipToValue_skipSpace (h : skipToValue bracket s = .ok r) :
    ∃ r', skipToValue bracket (skipSpace s) = .ok r' ∧ skipSpace r' = skipSpace r := by
  cases bracket with
  | list =>
    cases h
    exact ⟨_, rfl, skipSpace_skipSpace s⟩
  | object =>
    refine ⟨r, ?_, rfl⟩
    show skipKey (skipSpace s) = _
    rw [skipKey, skipSpace_skipSpace]
    exact h

namespace Lead

/-- What stands in front of an element is passed over, up to blanks. -/
theorem skipToValue (h : Lead bracket lead) (s : Bytes) :
    ∃ r, skipToValue bracket (encode lead ++ s) = .ok r ∧ skipSpace r = skipSpace s := by
  cases h with
  | item hblanks => exact ⟨_, rfl, hblanks.skipSpace s⟩
  | @field before key after blanks hbefore hkey hafter hblanks =>
    refine ⟨encode blanks ++ s, ?_, hblanks.skipSpace s⟩
    rw [encode_field]
    exact skipKey_encode hbefore hkey hafter _

/-- It does not end the list or the object. -/
theorem exists_cons (h : Lead bracket lead) (hcs : Passes cs) (s : Bytes) :
    ∃ b t, skipSpace (encode lead ++ (encode cs ++ s)) = b :: t ∧ b ≠ bracket.closing := by
  cases h with
  | item hblanks =>
    obtain ⟨b, t, htext, -, hend⟩ := hcs.starts
    refine ⟨b, t ++ s, ?_, hend⟩
    rw [hblanks.skipSpace, hcs.skipSpace, htext, List.cons_append]
  | @field before key after blanks hbefore =>
    refine ⟨0x22, encode key ++ 0x22 :: (encode after ++ 0x3A :: (encode blanks ++
      (encode cs ++ s))), ?_, by decide⟩
    rw [encode_field, hbefore.skipSpace]
    exact skipSpace_of_isSpace (by decide)

end Lead

-- ============================================================================
-- Lists and objects
-- ============================================================================

/-- A comma leads to the next element. -/
theorem skipNested_comma (hblanks : Blanks blanks) (h : skipToValue bracket s = .ok r) (fuel : Nat)
    (outer : List Bracket) :
    skipNested (fuel + 1) .afterValue (bracket :: outer) (encode blanks ++ 0x2C :: s) =
      skipNested fuel .beforeValue (bracket :: outer) r := by
  rw [skipNested, hblanks.skipSpace, skipSpace_of_isSpace (by decide)]
  dsimp only
  rw [if_pos (by decide), h]

/-- A closing bracket leads behind the list or the object. -/
theorem skipNested_closer (hblanks : Blanks blanks) (fuel : Nat) (outer : List Bracket) :
    skipNested (fuel + 1) .afterValue (bracket :: outer) (encode blanks ++ bracket.closing :: s) =
      skipNested fuel .afterValue outer s := by
  rw [skipNested, hblanks.skipSpace]
  cases bracket <;> rfl

/-- The turn at an opening bracket. -/
theorem skipNested_opener (hr : skipSpace r = encode [bracket.opener] ++ s) (fuel : Nat)
    (outer : List Bracket) :
    skipNested (fuel + 1) .beforeValue outer r =
      match skipSpace s with
      | [] => .error ⟨bracket.eof, []⟩
      | b :: s =>
        if b == bracket.closing then skipNested fuel .afterValue outer s
        else match skipToValue bracket (b :: s) with
          | .error f => .error f
          | .ok s => skipNested fuel .beforeValue (bracket :: outer) s := by
  rw [skipNested, hr]
  cases bracket <;> rfl

/-- An opening bracket leads to the first element. -/
theorem skipNested_first {b : UInt8} {t : Bytes} (hr : skipSpace r = encode [bracket.opener] ++ s)
    (hs : skipSpace s = b :: t) (hb : b ≠ bracket.closing)
    {s' : Bytes} (h : skipToValue bracket (skipSpace s) = .ok s') (fuel : Nat)
    (outer : List Bracket) :
    skipNested (fuel + 1) .beforeValue outer r =
      skipNested fuel .beforeValue (bracket :: outer) s' := by
  rw [hs] at h
  rw [skipNested_opener hr, hs]
  dsimp only
  rw [if_neg (by simpa using hb), h]

theorem encode_opener_append (bracket : Bracket) (cs : List Char) (s : Bytes) :
    encode (bracket.opener :: cs) ++ s = encode [bracket.opener] ++ (encode cs ++ s) := by
  rw [← List.singleton_append, encode_append, List.append_assoc]

theorem encode_closer (bracket : Bracket) : encode [bracket.closer] = [bracket.closing] := by
  cases bracket <;> rfl

/-- What begins with a blank, a comma or a closing bracket does not go on with a number. -/
theorem endsNumber_token {c : Char} (h : c ∈ [' ', '\n', '\t', '\r', ',', ']', '\x7d'])
    (cs : List Char) (s : Bytes) : EndsNumber (encode (c :: cs) ++ s) := by
  intro b hb
  simp only [List.mem_cons, List.not_mem_nil, or_false] at h
  rcases h with rfl | rfl | rfl | rfl | rfl | rfl | rfl <;> (cases hb; decide)

theorem Blanks.endsNumber (hblanks : Blanks blanks) {c : Char} (hc : c ∈ [',', ']', '\x7d'])
    (cs : List Char) (s : Bytes) : EndsNumber (encode (blanks ++ c :: cs) ++ s) := by
  cases blanks with
  | nil => exact endsNumber_token (List.mem_append_right [' ', '\n', '\t', '\r'] hc) _ _
  | cons d blanks =>
    exact endsNumber_token (List.mem_append_left [',', ']', '\x7d'] (hblanks d List.mem_cons_self))
      _ _

theorem passesRest_last (hblanks : Blanks blanks) :
    PassesRest bracket (blanks ++ [bracket.closer]) := by
  constructor
  case ends =>
    refine hblanks.endsNumber ?_ []
    cases bracket <;> decide
  case turns =>
    refine ⟨1, ?_, fun fuel outer s => ?_⟩
    · rw [encode_append, encode_closer, List.length_append]
      exact Nat.le_add_left _ _
    · rw [encode_append, encode_closer, List.append_assoc]
      exact skipNested_closer hblanks fuel outer

/-- One more element, from the comma to the place behind it, and what comes after it. -/
theorem PassesRest.more (hblanks : Blanks blanks) (hlead : Lead bracket lead) (h : Passes cs)
    (hrest : PassesRest bracket rest) :
    PassesRest bracket (blanks ++ ',' :: (lead ++ (cs ++ rest))) := by
  have hcomma (cs : List Char) : encode (',' :: cs) = 0x2C :: encode cs := rfl
  obtain ⟨n, hn, hturns⟩ := h.turns
  obtain ⟨m, hm, hmore⟩ := hrest.turns
  constructor
  case ends => exact hblanks.endsNumber (by decide) _
  case turns =>
    refine ⟨m + n + 1, ?_, fun fuel outer s => ?_⟩
    · simp only [encode_append, hcomma, List.length_append, List.length_cons]
      omega
    · obtain ⟨r, hskip, hr⟩ := hlead.skipToValue (encode cs ++ (encode rest ++ s))
      rw [h.skipSpace] at hr
      rw [encode_append, hcomma, encode_append, encode_append]
      simp only [List.append_assoc, List.cons_append, ← Nat.add_assoc]
      exact (skipNested_comma hblanks hskip _ outer).trans
        ((hturns _ _ _ _ (hrest.ends s) hr).trans (hmore _ _ _))

theorem starts_opener (bracket : Bracket) (cs : List Char) :
    ∃ b t, encode (bracket.opener :: cs) = b :: t ∧ isSpace b = false ∧ b ≠ 0x5D := by
  cases bracket <;> exact ⟨_, _, rfl, by decide, by decide⟩

theorem length_encode_opener (bracket : Bracket) (cs : List Char) :
    (encode (bracket.opener :: cs)).length = (encode cs).length + 1 := by
  cases bracket <;> rfl

/-- A list or an object without elements takes one turn. -/
theorem passes_empty (hblanks : Blanks blanks) :
    Passes (bracket.opener :: (blanks ++ [bracket.closer])) := by
  constructor
  case starts => exact starts_opener bracket _
  case turns =>
    refine ⟨1, ?_, fun fuel outer r s _ hr => ?_⟩
    · rw [length_encode_opener]
      exact Nat.le_add_left _ _
    · rw [encode_opener_append, encode_append, encode_closer, List.append_assoc] at hr
      rw [skipNested_opener hr, hblanks.skipSpace]
      cases bracket <;> rfl

/-- A list or an object with at least one element. -/
theorem Passes.filled (hlead : Lead bracket lead) (h : Passes cs)
    (hrest : PassesRest bracket rest) : Passes (bracket.opener :: (lead ++ (cs ++ rest))) := by
  obtain ⟨n, hn, hturns⟩ := h.turns
  obtain ⟨m, hm, hmore⟩ := hrest.turns
  constructor
  case starts => exact starts_opener bracket _
  case turns =>
    refine ⟨m + n + 1, ?_, fun fuel outer r s _ hr => ?_⟩
    · simp only [length_encode_opener, encode_append, List.length_append]
      omega
    · rw [encode_opener_append, encode_append, encode_append, List.append_assoc,
        List.append_assoc] at hr
      obtain ⟨b, t, htext, hend⟩ := hlead.exists_cons h (encode rest ++ s)
      obtain ⟨r₁, hskip₁, hr₁⟩ := hlead.skipToValue (encode cs ++ (encode rest ++ s))
      obtain ⟨r₂, hskip, hr₂⟩ := skipToValue_skipSpace hskip₁
      rw [hr₁, h.skipSpace] at hr₂
      simp only [← Nat.add_assoc]
      exact (skipNested_first hr htext hend hskip _ outer).trans
        ((hturns _ _ _ _ (hrest.ends s) hr₂).trans (hmore _ _ _))

-- ============================================================================
-- Values of any form
-- ============================================================================

/-- A part of the grammar is passed over as what it is. -/
def Part.Passed : Part → List Char → Prop
  | .value => Passes
  | .rest bracket => PassesRest bracket

namespace Grammar

theorem passed {part : Part} (h : Grammar part cs) : part.Passed cs := by
  induction h with
  | word hword => exact (skips_word hword).passes
  | number hnumber => exact hnumber.skips.passes
  | string hbody => exact hbody.skips.passes
  | empty hblanks => exact passes_empty hblanks
  | filled hlead _ _ hvalue hrest => exact Passes.filled hlead hvalue hrest
  | last hblanks => exact passesRest_last hblanks
  | more hblanks hlead _ _ hvalue hrest => exact PassesRest.more hblanks hlead hvalue hrest

/-- The text of any value is passed over. -/
theorem passes (h : Grammar .value cs) : Passes cs := h.passed

/-- What follows an element does not go on with a number. -/
theorem endsNumber (h : Grammar (.rest bracket) cs) (s : Bytes) : EndsNumber (encode cs ++ s) :=
  (show PassesRest bracket cs from h.passed).ends s

/-- What is in the grammar is passed over as a value, whatever follows that does not go on with a
    number. -/
theorem skipValue (h : Grammar .value cs) (hs : EndsNumber s) :
    skipValue (encode cs ++ s) = .ok s := by
  obtain ⟨n, hn, hturns⟩ := h.passes.turns
  -- after the last turn some fuel is left
  obtain ⟨fuel, hfuel⟩ : ∃ fuel, (encode cs ++ s).length + 2 = fuel + 1 + n := by
    refine ⟨(encode cs ++ s).length + 1 - n, ?_⟩
    rw [List.length_append]
    omega
  rw [Json.skipValue, hfuel, hturns _ _ _ s hs (h.passes.skipSpace s)]
  rfl

end Grammar

end GameSearch.Json
