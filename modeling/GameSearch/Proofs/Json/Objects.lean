/-
  GameSearch.Proofs.Json.Objects

  Objects are read field by field.  A scalar is read to its end if what follows does
  not go on with a number, and what follows a field never does.  The fields of an object are
  sorted by key when they are read, so with distinct keys they come back in another order.

    * `ScalarText`        — a text that is read as a scalar
    * `objectChars`       — an object whose values are given as texts
    * `ReadsFields`       — fields that are read one by one
    * `exists_readFields` — so they are read from the text of their object
    * `readValue_object`  — as the fields of an object of scalars are
    * `printable_object`  — its text is one line
-/
import Mathlib.Data.List.Perm.Basic
import GameSearch.Json.Reader
import GameSearch.Proofs.Json.Skipping

namespace GameSearch.Json

variable {cs : List Char} {j : Json} {s : Bytes}

-- ============================================================================
-- Scalars
-- ============================================================================

/-- The text is read as the scalar, whatever follows that does not go on with a number. -/
def ScalarText (cs : List Char) (j : Json) : Prop :=
  ∀ s, EndsNumber s → readScalar? (encode cs ++ s) = some (.ok (j, s))

/-- A number as a value. -/
def Number.toJson : Number → Json
  | .integer n => .integer n
  | .real x => .real x

theorem readScalar?_of_readNumber {n : Number} {r : Bytes} (h : readNumber s = .ok (n, r)) :
    readScalar? s = some (.ok (n.toJson, r)) := by
  cases s with
  | nil => cases h
  | cons b s =>
    have hstart := startsNumber_of_readNumber h
    rw [readScalar?, beq_eq_false_of_startsNumber hstart (w := 0x6E) rfl,
      beq_eq_false_of_startsNumber hstart (w := 0x74) rfl,
      beq_eq_false_of_startsNumber hstart (w := 0x66) rfl, hstart, h]
    cases n <;> rfl

theorem scalarText_null : ScalarText "null".toList .null := fun _ _ => rfl

theorem scalarText_quote (text : String) : ScalarText (quote text) (.string text) := by
  intro s _
  obtain ⟨rest, hencode, hread⟩ := readString_quote text s
  rw [hencode, readScalar?]
  show some ((readString rest).map _) = _
  rw [hread]
  rfl

theorem scalarText_integerText {n : Nat} (hn : n < 2 ^ 64) :
    ScalarText (integerText n) (.integer n) := fun _ hs =>
  readScalar?_of_readNumber (readNumber_integerText (by omega) (by omega) hs)

theorem scalarText_realText {x : Score} (h : x.isFinite = true) :
    ∃ y, ScalarText (realText x) (.real y) := by
  obtain ⟨y, hy⟩ := readsReal_realText h
  exact ⟨y, fun s hs => readScalar?_of_readNumber (hy s hs)⟩

/-- No blank begins a scalar. -/
theorem skipSpace_of_readScalar? {r : Except Failure (Json × Bytes)} (h : readScalar? s = some r) :
    skipSpace s = s := by
  cases s with
  | nil => rfl
  | cons b s =>
    refine List.dropWhile_cons_of_neg fun hspace => ?_
    rcases isSpace_iff.1 hspace with rfl | rfl | rfl | rfl <;> cases h

theorem readValue_scalar (h : ScalarText cs j) (hs : EndsNumber s) (nesting : Nat) :
    readValue nesting (encode cs ++ s) = .ok (j, s) := by
  have hread := h s hs
  have hskip := skipSpace_of_readScalar? hread
  unfold readValue
  rw [hskip]
  cases hcases : encode cs ++ s with
  | nil =>
    rw [hcases] at hread
    cases hread
  | cons b t =>
    rw [hcases] at hread
    dsimp only
    rw [hread]

theorem ofBytes_scalar (h : ScalarText cs j) : ofBytes (encode cs) = .ok j := by
  have hread := readValue_scalar (s := []) h nofun nestingLimit
  rw [List.append_nil] at hread
  rw [ofBytes, readAll, hread]
  rfl

-- ============================================================================
-- Fields
-- ============================================================================

/-- Puts fields one after the other into an object. -/
def insertFields (fields : List (String × Json)) :
    List (String × Json) → List (String × Json) :=
  List.foldl (fun object (key, value) => insertField key value object) fields

theorem perm_insertField {key : String} {fields : List (String × Json)}
    (h : key ∉ fields.map Prod.fst) (value : Json) :
    (insertField key value fields).Perm ((key, value) :: fields) := by
  induction fields with
  | nil => exact .refl _
  | cons field fields ih =>
    obtain ⟨k, v⟩ := field
    obtain ⟨hne, hrest⟩ := not_or.1 (mt List.mem_cons.2 h)
    rw [insertField, if_neg hne]
    split
    · exact .refl _
    · exact ((ih hrest).cons (k, v)).trans (.swap _ _ _)

/-- With distinct keys no field is replaced. -/
theorem perm_insertFields {fields more : List (String × Json)}
    (h : ((fields ++ more).map Prod.fst).Nodup) :
    (insertFields fields more).Perm (fields ++ more) := by
  induction more generalizing fields with
  | nil =>
    rw [List.append_nil]
    exact .refl _
  | cons field more ih =>
    obtain ⟨key, value⟩ := field
    have hmiddle : (fields ++ (key, value) :: more).Perm ((key, value) :: fields ++ more) :=
      List.perm_middle
    have hnodup := (hmiddle.map Prod.fst).nodup_iff.1 h
    have hkey : key ∉ fields.map Prod.fst := fun hmem =>
      (List.nodup_cons.1 hnodup).1 (List.map_append ▸ List.mem_append_left _ hmem)
    have hinsert := (perm_insertField hkey value).append_right more
    have hnodup' := ((hinsert.map Prod.fst).nodup_iff).2 hnodup
    exact (ih hnodup').trans (hinsert.trans hmiddle.symm)

/-- One field of an object, as the reader of values reads it. -/
def member (nesting : Nat) (fields : List (String × Json)) (key : String) :
    Reader (List (String × Json)) := fun s =>
  match readColon s with
  | .error f => .error f
  | .ok s => (readValue nesting s).map fun (x, s) => (insertField key x fields, s)

/-- The second field is what the first one is read as. -/
structure FieldText (f g : String × Json) : Prop where
  key : g.1 = f.1
  value : ScalarText f.2.chars g.2

/-- The fields of an object after the first, and its end; each with a key and the text of its
    value. -/
def memberChars : List (String × List Char) → List Char
  | [] => ['\x7d']
  | m :: ms => ',' :: (quote m.1 ++ ':' :: (m.2 ++ memberChars ms))

/-- An object of such fields. -/
def objectChars : List (String × List Char) → List Char
  | [] => ['\x7b', '\x7d']
  | m :: ms => '\x7b' :: (quote m.1 ++ ':' :: (m.2 ++ memberChars ms))

/-- A field with the text of its value. -/
def spelled (f : String × Json) : String × List Char := (f.1, f.2.chars)

theorem fieldChars_eq (fs : List (String × Json)) :
    fieldChars fs = memberChars (fs.map spelled) := by
  induction fs with
  | nil =>
    rw [fieldChars]
    rfl
  | cons f fs ih =>
    rw [fieldChars, ih]
    rfl

theorem chars_object (fs : List (String × Json)) :
    (Json.object fs).chars = objectChars (fs.map spelled) := by
  cases fs with
  | nil =>
    rw [chars]
    rfl
  | cons f fs =>
    rw [chars, fieldChars_eq]
    rfl

variable {f g : String × Json} {fs gs : List (String × Json)} {m : String × List Char}
  {ms : List (String × List Char)}

theorem endsNumber_memberChars (ms : List (String × List Char)) (s : Bytes) :
    EndsNumber (encode (memberChars ms) ++ s) := by
  intro b hb
  cases ms <;> (cases hb; decide)

theorem encode_colon (cs : List Char) : encode (':' :: cs) = 0x3A :: encode cs := rfl

/-- Behind its key a field is read to its end. -/
theorem member_spelled (h : FieldText f g) (hs : EndsNumber s) (nesting : Nat)
    (object : List (String × Json)) :
    member nesting object g.1 (0x3A :: (encode (spelled f).2 ++ s)) =
      .ok (insertField g.1 g.2 object, s) := by
  show (readValue nesting (encode f.2.chars ++ s)).map _ = _
  rw [readValue_scalar h.value hs]
  rfl

/-- A turn of the loop over the fields, from a byte that is no blank and does not end the object. -/
theorem readFieldsFrom_step {σ : Type} {field : σ → String → Reader σ} {state next : σ} {b : UInt8}
    {key : String} {first : Bool} {r t : Bytes} (hspace : isSpace b = false) (hbrace : b ≠ 0x7D)
    (hkey : readKey first (b :: s) = .ok (key, r)) (hfield : field state key r = .ok (next, t))
    (fuel : Nat) :
    readFieldsFrom field (fuel + 1) first state (b :: s) =
      readFieldsFrom field fuel false next t := by
  rw [readFieldsFrom, skipSpace_of_isSpace hspace]
  dsimp only
  rw [if_neg (by simpa using hbrace), hkey]
  dsimp only
  rw [hfield]

/-- Fields are read one after the other, each from behind its key, and what was read so far goes
    from one state to another. -/
inductive ReadsFields {σ : Type} (field : σ → String → Reader σ) :
    σ → List (String × List Char) → σ → Prop where
  | nil (state : σ) : ReadsFields field state [] state
  | cons {m : String × List Char} {ms : List (String × List Char)} {state next last : σ}
      (step : ∀ s, EndsNumber s → field state m.1 (0x3A :: (encode m.2 ++ s)) = .ok (next, s))
      (rest : ReadsFields field next ms last) : ReadsFields field state (m :: ms) last

/-- A field is read, and then those after it. -/
theorem readFieldsFrom_member {σ : Type} {field : σ → String → Reader σ} {state next : σ}
    (h : field state m.1 (0x3A :: (encode m.2 ++ s)) = .ok (next, s)) (first : Bool)
    (fuel : Nat) :
    readFieldsFrom field (fuel + 1) first state
        ((if first then [] else [0x2C]) ++ (encode (quote m.1 ++ ':' :: m.2) ++ s)) =
      readFieldsFrom field fuel false next s := by
  obtain ⟨rest, hencode, hread⟩ := readString_quote m.1 (0x3A :: (encode m.2 ++ s))
  have htext : encode (quote m.1 ++ ':' :: m.2) ++ s = 0x22 :: rest := by
    rw [encode_append, encode_colon, List.append_assoc, List.cons_append, hencode]
  rw [htext]
  cases first with
  | true =>
    have hkey : readKey true (0x22 :: rest) = .ok (m.1, 0x3A :: (encode m.2 ++ s)) := hread
    exact readFieldsFrom_step rfl (by decide) hkey h fuel
  | false =>
    have hkey : readKey false (0x2C :: 0x22 :: rest) = .ok (m.1, 0x3A :: (encode m.2 ++ s)) :=
      hread
    exact readFieldsFrom_step rfl (by decide) hkey h fuel

theorem encode_memberChars_cons (m : String × List Char) (ms : List (String × List Char)) :
    encode (memberChars (m :: ms)) =
      0x2C :: (encode (quote m.1 ++ ':' :: m.2) ++ encode (memberChars ms)) := by
  rw [memberChars, ← encode_append, List.append_assoc, List.cons_append]
  rfl

theorem length_lt_encode_memberChars (ms : List (String × List Char)) :
    ms.length < (encode (memberChars ms)).length := by
  induction ms with
  | nil => decide
  | cons m ms ih =>
    rw [encode_memberChars_cons, List.length_cons, List.length_cons, List.length_append]
    omega

theorem encode_objectChars_cons (m : String × List Char) (ms : List (String × List Char)) :
    encode (objectChars (m :: ms)) =
      0x7B :: (encode (quote m.1 ++ ':' :: m.2) ++ encode (memberChars ms)) := by
  rw [objectChars, ← encode_append, List.append_assoc, List.cons_append]
  rfl

namespace ReadsFields

variable {σ : Type} {field : σ → String → Reader σ} {start state last : σ}

/-- The fields after the first are read to the end of the object. -/
theorem readFieldsFrom (h : ReadsFields field state ms last) {fuel : Nat}
    (hfuel : ms.length < fuel) (s : Bytes) :
    readFieldsFrom field fuel false state (encode (memberChars ms) ++ s) = .ok (last, s) := by
  induction h generalizing fuel with
  | nil state =>
    obtain ⟨fuel, rfl⟩ := Nat.exists_eq_add_of_lt hfuel
    rfl
  | @cons m ms state next last hstep _ ih =>
    obtain ⟨fuel, rfl⟩ := Nat.exists_eq_succ_of_ne_zero (Nat.ne_of_gt (Nat.zero_lt_of_lt hfuel))
    have hfield := readFieldsFrom_member (hstep _ (endsNumber_memberChars ms s)) false fuel
    rw [encode_memberChars_cons, List.cons_append, List.append_assoc]
    exact hfield.trans (ih (Nat.lt_of_succ_lt_succ hfuel))

/-- Behind the opening brace of an object all its fields are read. -/
theorem exists_readFields (h : ReadsFields field start ms last) (s : Bytes) :
    ∃ rest, encode (objectChars ms) ++ s = 0x7B :: rest ∧
      readFields field start rest = .ok (last, s) := by
  cases h with
  | nil start => exact ⟨0x7D :: s, rfl, rfl⟩
  | @cons m ms start next last hstep h =>
    refine ⟨encode (quote m.1 ++ ':' :: m.2) ++ (encode (memberChars ms) ++ s), ?_, ?_⟩
    · rw [encode_objectChars_cons, List.cons_append, List.append_assoc]
    · have hlength := length_lt_encode_memberChars ms
      have hfield := readFieldsFrom_member (hstep _ (endsNumber_memberChars ms s)) true
        (encode (quote m.1 ++ ':' :: m.2) ++ (encode (memberChars ms) ++ s)).length
      refine hfield.trans (h.readFieldsFrom ?_ s)
      rw [List.length_append, List.length_append]
      omega

end ReadsFields

-- ============================================================================
-- Objects
-- ============================================================================

theorem readValue_brace (nesting : Nat) (s : Bytes) :
    readValue (nesting + 1) (0x7B :: s) =
      (readFields (member nesting) [] s).map fun (fields, s) => (.object fields, s) := by
  rw [readValue]
  rfl

/-- The fields of an object of scalars are inserted one by one. -/
theorem readsFields_member (h : List.Forall₂ FieldText fs gs) (nesting : Nat)
    (object : List (String × Json)) :
    ReadsFields (member nesting) object (fs.map spelled) (insertFields object gs) := by
  induction h generalizing object with
  | nil => exact .nil object
  | @cons f g fs gs hf _ ih =>
    refine .cons (fun s hs => ?_) (ih (insertField g.1 g.2 object))
    have hkey : (spelled f).1 = g.1 := hf.key.symm
    rw [hkey]
    exact member_spelled hf hs nesting object

/-- An object of scalars is read to its end; its fields come back in the order of insertion. -/
theorem readValue_object (h : List.Forall₂ FieldText fs gs) (nesting : Nat) (s : Bytes) :
    readValue (nesting + 1) (encode (Json.object fs).chars ++ s) =
      .ok (.object (insertFields [] gs), s) := by
  obtain ⟨rest, htext, hread⟩ := (readsFields_member h nesting []).exists_readFields s
  rw [chars_object, htext, readValue_brace, hread]
  rfl

/-- Read as a whole text, an object of scalars with distinct keys has the same fields. -/
theorem ofBytes_object (h : List.Forall₂ FieldText fs gs) (hkeys : (gs.map Prod.fst).Nodup) :
    ∃ fields, ofBytes (encode (Json.object fs).chars) = .ok (.object fields) ∧
      fields.Perm gs := by
  have hread := readValue_object h 126 []
  rw [List.append_nil] at hread
  refine ⟨insertFields [] gs, ?_, perm_insertFields hkeys⟩
  rw [ofBytes, readAll, nestingLimit, hread]
  rfl

-- ============================================================================
-- Control characters
-- ============================================================================

theorem printable_fieldChars (h : ∀ f ∈ fs, Printable f.2.chars) : Printable (fieldChars fs) := by
  induction fs with
  | nil =>
    rw [fieldChars]
    decide
  | cons f fs ih =>
    obtain ⟨k, x⟩ := f
    have hrest := ih fun f hf => h f (List.mem_cons_of_mem _ hf)
    rw [fieldChars]
    exact .cons (by decide) (.append (printable_quote k)
      (.cons (by decide) (.append (h (k, x) List.mem_cons_self) hrest)))

/-- An object is written without control characters if its fields are. -/
theorem printable_object (h : ∀ f ∈ fs, Printable f.2.chars) :
    Printable (Json.object fs).chars := by
  cases fs with
  | nil =>
    rw [chars]
    decide
  | cons f fs =>
    obtain ⟨k, x⟩ := f
    have hrest := printable_fieldChars fun f hf => h f (List.mem_cons_of_mem _ hf)
    rw [chars]
    exact .cons (by decide) (.append (printable_quote k)
      (.cons (by decide) (.append (h (k, x) List.mem_cons_self) hrest)))

end GameSearch.Json
