/-
  GameSearch.Proofs.Json.Strings

  Strings are read as they were written.  A character stands in a text as its bytes or as an
  escape, and either way the reader finds its bytes again.

  Bytes below 0x80 stand for the characters with these codes.  All bytes of other characters
  are 0x80 or more, so they are never taken for a quote, a backslash or a control character.

    * `encode`                 — the bytes of some characters
    * `readStringBytes_escape` — one character is read back
    * `readString_quote`       — and so is a whole string
    * `printable_quote`        — no control character is written
-/
import GameSearch.Json.Scalar
import Mathlib.Tactic.IntervalCases

namespace GameSearch.Json

-- ============================================================================
-- Characters as bytes
-- ============================================================================

/-- The bytes of some characters. -/
def encode (cs : List Char) : Bytes := cs.flatMap String.utf8EncodeChar

theorem encode_append (cs ds : List Char) : encode (cs ++ ds) = encode cs ++ encode ds :=
  List.flatMap_append

theorem encode_cons (c : Char) (cs : List Char) :
    encode (c :: cs) = String.utf8EncodeChar c ++ encode cs := rfl

theorem toByteArray_ofList (cs : List Char) :
    (String.ofList cs).toByteArray = ⟨(encode cs).toArray⟩ := by
  rw [String.toByteArray_ofList, List.utf8Encode, encode]
  ext1
  simp

theorem bytesOfText_ofList (cs : List Char) : bytesOfText (String.ofList cs) = encode cs := by
  rw [bytesOfText, String.toUTF8_eq_toByteArray, toByteArray_ofList]

theorem fromUTF8?_encode (cs : List Char) :
    String.fromUTF8? ⟨(encode cs).toArray⟩ = some (String.ofList cs) := by
  rw [← toByteArray_ofList]
  exact dif_pos (String.ofList cs).isValidUTF8

theorem textOfBytes_encode (cs : List Char) : textOfBytes (encode cs) = String.ofList cs := by
  rw [textOfBytes, fromUTF8?_encode]
  rfl

variable {c : Char} {b : UInt8} {s : Bytes}

/-- A character below 0x80 is one byte. -/
theorem utf8EncodeChar_of_lt (h : c.toNat < 0x80) :
    String.utf8EncodeChar c = [UInt8.ofNat c.toNat] :=
  if_pos (Nat.le_of_lt_succ h)

/-- The bytes of other characters are 0x80 or more. -/
theorem le_of_mem_utf8EncodeChar (h : 0x80 ≤ c.toNat) (hb : b ∈ String.utf8EncodeChar c) :
    0x80 ≤ b := by
  have hlarge : ∀ n k : Nat, 0x80 ≤ k → n + k < 256 → 0x80 ≤ UInt8.ofNat (n + k) := by
    intro n k hk hlt
    rw [UInt8.le_iff_toNat_le, UInt8.toNat_ofNat_of_lt' hlt]
    exact Nat.le_trans hk (Nat.le_add_left k n)
  have hnot : ¬ c.val.toNat ≤ 0x7f := Nat.not_le.2 h
  unfold String.utf8EncodeChar at hb
  dsimp only at hb
  rw [if_neg hnot] at hb
  split at hb
  · simp only [List.mem_cons, List.not_mem_nil, or_false] at hb
    rcases hb with rfl | rfl <;> apply hlarge <;> omega
  · split at hb
    · simp only [List.mem_cons, List.not_mem_nil, or_false] at hb
      rcases hb with rfl | rfl | rfl <;> apply hlarge <;> omega
    · simp only [List.mem_cons, List.not_mem_nil, or_false] at hb
      rcases hb with rfl | rfl | rfl | rfl <;> apply hlarge <;> omega

/-- The bytes of a character that is no control character are a space or more. -/
theorem space_le_of_mem_utf8EncodeChar (h : 0x20 ≤ c.toNat) (hb : b ∈ String.utf8EncodeChar c) :
    0x20 ≤ b := by
  by_cases hc : c.toNat < 0x80
  · rw [utf8EncodeChar_of_lt hc, List.mem_singleton] at hb
    rw [hb, UInt8.le_iff_toNat_le, UInt8.toNat_ofNat_of_lt' (Nat.lt_trans hc (by decide))]
    exact h
  · exact UInt8.le_trans (by decide) (le_of_mem_utf8EncodeChar (Nat.not_lt.1 hc) hb)

/-- None of the characters is a control character. -/
def Printable (cs : List Char) : Prop := ∀ c ∈ cs, 0x20 ≤ c.toNat

instance (cs : List Char) : Decidable (Printable cs) :=
  List.decidableBAll (fun c : Char => 0x20 ≤ c.toNat) cs

theorem Printable.append {cs ds : List Char} (h : Printable cs) (h' : Printable ds) :
    Printable (cs ++ ds) := fun c hc =>
  (List.mem_append.1 hc).elim (h c) (h' c)

theorem Printable.cons {cs : List Char} (hc : 0x20 ≤ c.toNat) (h : Printable cs) :
    Printable (c :: cs) := fun d hd =>
  (List.mem_cons.1 hd).elim (fun heq => heq ▸ hc) (h d)

/-- Text without control characters has no bytes below a space. -/
theorem Printable.le_of_mem_encode {cs : List Char} (h : Printable cs) (hb : b ∈ encode cs) :
    0x20 ≤ b := by
  obtain ⟨c, hc, hb⟩ := List.mem_flatMap.1 hb
  exact space_le_of_mem_utf8EncodeChar (h c hc) hb

-- ============================================================================
-- Characters inside a string
-- ============================================================================

/-- What a string begins with, in front of what follows it. -/
def before (bytes : List UInt8) : Except Failure (List UInt8 × Bytes) →
    Except Failure (List UInt8 × Bytes) :=
  Except.map fun (rest, s) => (bytes ++ rest, s)

theorem before_before (xs ys : List UInt8) (r : Except Failure (List UInt8 × Bytes)) :
    before xs (before ys r) = before (xs ++ ys) r := by
  cases r with
  | error f => rfl
  | ok r =>
    obtain ⟨rest, s⟩ := r
    exact congrArg (fun bytes => Except.ok (bytes, s)) (List.append_assoc xs ys rest).symm

/-- A byte that may stand in a string as it is. -/
structure Plain (b : UInt8) : Prop where
  noQuote : b ≠ 0x22
  noBackslash : b ≠ 0x5C
  noControl : 0x20 ≤ b

/-- A character that may stand in a string as it is does so as its bytes. -/
theorem plain_of_mem_utf8EncodeChar (hspace : 0x20 ≤ c.toNat) (hspecial : c ∉ ['"', '\\'])
    (hb : b ∈ String.utf8EncodeChar c) : Plain b := by
  have hlow := space_le_of_mem_utf8EncodeChar hspace hb
  by_cases hc : c.toNat < 0x80
  · -- a single byte, with the code of the character
    rw [utf8EncodeChar_of_lt hc, List.mem_singleton] at hb
    have hcode : b.toNat = c.toNat := by
      rw [hb, UInt8.toNat_ofNat_of_lt' (Nat.lt_trans hc (by decide))]
    have hne : ∀ d ∈ ['"', '\\'], b.toNat ≠ d.toNat := by
      intro d hd heq
      rw [hcode, Char.toNat_inj] at heq
      exact hspecial (heq ▸ hd)
    refine ⟨?_, ?_, hlow⟩
    · rintro rfl
      exact hne '"' (by decide) rfl
    · rintro rfl
      exact hne '\\' (by decide) rfl
  · have hlarge := le_of_mem_utf8EncodeChar (Nat.not_lt.1 hc) hb
    refine ⟨?_, ?_, hlow⟩
    · rintro rfl
      exact absurd hlarge (by decide)
    · rintro rfl
      exact absurd hlarge (by decide)

theorem readStringBytes_plain (h : Plain b) :
    readStringBytes (b :: s) = before [b] (readStringBytes s) := by
  have hcontrol : ¬ b < 0x20 := UInt8.not_lt.2 h.noControl
  rw [readStringBytes]
  simp only [beq_iff_eq, h.noQuote, h.noBackslash, hcontrol, if_false]
  cases readStringBytes s <;> rfl

theorem readStringBytes_plains {bytes : List UInt8} (h : ∀ b ∈ bytes, Plain b) :
    readStringBytes (bytes ++ s) = before bytes (readStringBytes s) := by
  induction bytes with
  | nil =>
    rw [List.nil_append]
    cases readStringBytes s <;> rfl
  | cons b bytes ih =>
    rw [List.cons_append, readStringBytes_plain (h b List.mem_cons_self),
      ih fun x hx => h x (List.mem_cons_of_mem b hx), before_before]
    rfl

/-- An escape is read as what it stands for. -/
theorem readStringBytes_backslash {r : Bytes} {bytes : List UInt8}
    (h : readEscape s = .ok (bytes, r)) :
    readStringBytes (0x5C :: s) = before bytes (readStringBytes r) := by
  rw [readStringBytes]
  simp only [show ((0x5C : UInt8) == 0x22) = false from rfl,
    show ((0x5C : UInt8) == 0x5C) = true from rfl, Bool.false_eq_true, if_false, if_true]
  split
  · rename_i f hf
    rw [h] at hf
    cases hf
  · rename_i x r' hx
    rw [h] at hx
    cases hx
    cases readStringBytes r <;> rfl

/-- The escape of a control character stands for it. -/
theorem exists_escape_of_control (h : c.toNat < 0x20) :
    ∃ tail, escapeChar c = '\\' :: tail ∧
      ∀ s, readEscape (encode tail ++ s) = .ok (String.utf8EncodeChar c, s) := by
  obtain ⟨n, hn, rfl⟩ : ∃ n < 0x20, c = Char.ofNat n := ⟨c.toNat, h, (Char.ofNat_toNat c).symm⟩
  interval_cases n <;> exact ⟨_, rfl, fun s => rfl⟩

/-- A character in a string is read back, whether it is escaped or not. -/
theorem readStringBytes_escape (c : Char) (s : Bytes) :
    readStringBytes (encode (escapeChar c) ++ s) =
      before (String.utf8EncodeChar c) (readStringBytes s) := by
  by_cases hspecial : c = '"' ∨ c = '\\'
  · have hescape : escapeChar c = ['\\', c] := if_pos (by simpa using hspecial)
    rw [hescape]
    rcases hspecial with rfl | rfl <;> exact readStringBytes_backslash rfl
  · by_cases hcontrol : c.toNat < 0x20
    · obtain ⟨tail, htail, hread⟩ := exists_escape_of_control hcontrol
      rw [htail]
      exact readStringBytes_backslash (hread s)
    · have hescape : escapeChar c = [c] := by
        rw [escapeChar, if_neg (by simpa using hspecial), if_pos (Nat.not_lt.1 hcontrol)]
      have hencode : encode [c] = String.utf8EncodeChar c := List.append_nil _
      rw [hescape, hencode]
      exact readStringBytes_plains fun b =>
        plain_of_mem_utf8EncodeChar (Nat.not_lt.1 hcontrol) (by simpa using hspecial)

-- ============================================================================
-- Whole strings
-- ============================================================================

theorem readStringBytes_escapes (cs : List Char) (s : Bytes) :
    readStringBytes (encode (cs.flatMap escapeChar) ++ 0x22 :: s) = .ok (encode cs, s) := by
  induction cs with
  | nil =>
    show readStringBytes (0x22 :: s) = _
    rw [readStringBytes]
    rfl
  | cons c cs ih =>
    rw [List.flatMap_cons, encode_append, List.append_assoc, readStringBytes_escape, ih]
    rfl

/-- What is written between quotes is read behind the first of them. -/
theorem readString_quote (text : String) (s : Bytes) :
    ∃ rest, encode (quote text) ++ s = 0x22 :: rest ∧ readString rest = .ok (text, s) := by
  refine ⟨encode (text.toList.flatMap escapeChar) ++ 0x22 :: s, ?_, ?_⟩
  · have hquote : String.utf8EncodeChar '"' = [0x22] := rfl
    rw [quote, encode_cons, encode_append, encode_cons, hquote, List.append_assoc,
      List.append_assoc]
    rfl
  · rw [readString, readStringBytes_escapes]
    show Except.ok (textOfBytes _, s) = _
    rw [textOfBytes_encode, String.ofList_toList]

-- ============================================================================
-- Control characters
-- ============================================================================

theorem le_digitChar (n : Nat) : 0x20 ≤ (Nat.digitChar n).toNat := by
  by_cases h : n < 16
  · interval_cases n <;> decide
  · rw [Nat.digitChar_eq_star.2 (Nat.not_lt.1 h)]
    decide

theorem printable_escapeChar (c : Char) : Printable (escapeChar c) := by
  unfold escapeChar
  split_ifs with hspecial hspace
  · rcases Bool.or_eq_true_iff.1 hspecial with h | h <;> rw [of_decide_eq_true h] <;> decide
  · exact .cons hspace (by decide)
  · decide
  · decide
  · decide
  · decide
  · decide
  · have hletters : Printable ['\\', 'u', '0', '0'] := by decide
    exact hletters.append (.cons (le_digitChar _) (.cons (le_digitChar _) (by decide)))

/-- A string is written without control characters. -/
theorem printable_quote (text : String) : Printable (quote text) := by
  refine .cons (by decide) (.append (fun c hc => ?_) (by decide))
  obtain ⟨d, -, hd⟩ := List.mem_flatMap.1 hc
  exact printable_escapeChar d c hd

end GameSearch.Json
