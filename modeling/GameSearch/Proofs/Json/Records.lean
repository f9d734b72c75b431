/-
  GameSearch.Proofs.Json.Records

  Values of a given form are read from the text that is written for them.  A record is read from
  the text of an object: keys that it knows store their values, if no key comes twice, and the
  values of all other keys are passed over, whatever they are.

    * `ReadsAs`             — a text that is read as a value
    * `readsAs_int64`, `readsAs_ofFloat` — numbers; words and strings likewise
    * `readsAs_list`        — lists of such texts
    * `ReadsRecord`         — fields that are stored or passed over one by one
    * `readsAs_objectChars` — so an object with these fields is read as the record
    * `readRecord_field`    — an object of one field, with blanks in front of its value
-/
import GameSearch.Json.Record
import GameSearch.Proofs.Json.Objects
import GameSearch.Proofs.Json.Passing

namespace GameSearch.Json

variable {α σ : Type} {cs : List Char} {s t : Bytes} {b : UInt8} {x : α}

-- ============================================================================
-- Values
-- ============================================================================

/-- The text is read as the value, whatever follows that does not go on with a number. -/
def ReadsAs (value : Reader α) (cs : List Char) (x : α) : Prop :=
  ∀ s, EndsNumber s → value (encode cs ++ s) = .ok (x, s)

theorem readAll_of_eq {value : Reader α} (h : value s = .ok (x, [])) : readAll value s = .ok x := by
  rw [readAll, h]
  rfl

/-- A text that is read as a value, read on its own. -/
theorem ReadsAs.readAll {value : Reader α} (h : ReadsAs value cs x) :
    readAll value (encode cs) = .ok x := by
  have hread := h [] nofun
  rw [List.append_nil] at hread
  exact readAll_of_eq hread

theorem bytesOfText_text (j : Json) : bytesOfText j.text = encode j.chars :=
  bytesOfText_ofList j.chars

theorem readsAs_text (text : String) : ReadsAs readText (quote text) text := by
  intro s _
  obtain ⟨rest, hencode, hread⟩ := readString_quote text s
  rw [hencode]
  exact hread

theorem readsAs_bool (b : Bool) : ReadsAs readBool (Json.bool b).chars b := by
  intro s _
  rw [chars]
  cases b <;> rfl

/-- A number starts with a byte that is no blank and does not start a word. -/
theorem starts_of_startsNumber (h : startsNumber b = true) : isSpace b = false ∧ b ≠ 0x6E := by
  constructor
  · rw [Bool.eq_false_iff]
    intro hspace
    rcases isSpace_iff.1 hspace with rfl | rfl | rfl | rfl <;> cases h
  · rintro rfl
    cases h

/-- A number is read as what is made of it. -/
theorem ReadsAs.number {wanted : String} {use : Number → Bytes → Except Failure (α × Bytes)}
    {n : Number} (h : ReadsAs readNumber cs n) (huse : ∀ s, use n s = .ok (x, s)) :
    ReadsAs (readNumberOr wanted use) cs x := by
  intro s hs
  have hread := h s hs
  cases htext : encode cs ++ s with
  | nil =>
    rw [htext] at hread
    cases hread
  | cons b t =>
    rw [htext] at hread
    have hstart := startsNumber_of_readNumber hread
    rw [readNumberOr, skipSpace_of_isSpace (starts_of_startsNumber hstart).1]
    dsimp only
    rw [if_pos hstart, hread]
    exact huse s

theorem readsAs_integer {wanted : String} {low high n : Int} (hlow : low ≤ n) (hhigh : n ≤ high)
    (hleast : -2 ^ 63 ≤ n) (hgreatest : n < 2 ^ 64) :
    ReadsAs (readInteger wanted low high) (Json.integer n).chars n := by
  rw [chars]
  have hread : ReadsAs readNumber (integerText n) (.integer n) := fun _ hs =>
    readNumber_integerText hleast hgreatest hs
  refine hread.number fun s => ?_
  dsimp only
  rw [if_pos (by simpa using ⟨hlow, hhigh⟩)]

theorem readsAs_int64 {n : Int} (hlow : -2 ^ 63 ≤ n) (hhigh : n < 2 ^ 63) :
    ReadsAs readInt64 (Json.integer n).chars n :=
  readsAs_integer hlow (Int.le_sub_one_of_lt hhigh) hlow (by omega)

theorem readsAs_nat64 {n : Nat} (h : n < 2 ^ 64) :
    ReadsAs readNat64 (Json.integer n).chars n := by
  intro s hs
  have hlt : (n : Int) < 2 ^ 64 := Int.ofNat_lt.2 h
  have hread : ReadsAs (readInteger "u64" 0 (2 ^ 64 - 1)) (Json.integer n).chars n :=
    readsAs_integer (Int.natCast_nonneg n) (Int.le_sub_one_of_lt hlt) (by omega) hlt
  show (readInteger "u64" 0 (2 ^ 64 - 1) _).map _ = _
  rw [hread s hs]
  rfl

/-- A finite number whose text is read as the number itself is read so wherever it is written. -/
theorem readsAs_ofFloat {x : Score} (hfinite : x.isFinite = true)
    (hback : Json.readAll readFloat (bytesOfText (Json.ofFloat x).text) = .ok x) :
    ReadsAs readFloat (Json.ofFloat x).chars x := by
  rw [bytesOfText_text] at hback
  rw [Json.ofFloat, if_pos hfinite, chars] at hback ⊢
  obtain ⟨y, hy⟩ := readsReal_realText hfinite
  have hread : ReadsAs readFloat (realText x) y := ReadsAs.number hy fun _ => rfl
  obtain rfl : y = x := Except.ok.inj (hread.readAll.symm.trans hback)
  exact hread

theorem readsAs_null (value : Reader α) : ReadsAs (readNullable value) Json.null.chars none := by
  intro s _
  rw [chars]
  rfl

/-- What is not null is read as itself. -/
theorem ReadsAs.nullable {value : Reader α} (h : ReadsAs value cs x) (hcs : encode cs = b :: t)
    (hspace : isSpace b = false) (hnull : b ≠ 0x6E) :
    ReadsAs (readNullable value) cs (some x) := by
  intro s hs
  have hread := h s hs
  rw [hcs, List.cons_append] at hread ⊢
  unfold readNullable
  rw [skipSpace_of_isSpace hspace]
  split
  · rename_i heq
    exact absurd (List.cons.inj heq).1 hnull
  · rw [hread]
    rfl

/-- No number is null. -/
theorem ReadsAs.nullable_of_numeral {value : Reader α} (h : ReadsAs value cs x)
    (hcs : Numeral cs) : ReadsAs (readNullable value) cs (some x) := by
  obtain ⟨b, t, htext, hstart⟩ := hcs.exists_cons
  obtain ⟨hspace, hnull⟩ := starts_of_startsNumber hstart
  exact h.nullable htext hspace hnull

-- ============================================================================
-- Lists
-- ============================================================================

variable {item : Reader α} {items : List Json} {xs : List α} {j : Json}

/-- A turn of the loop over the items, from a byte that is no blank and does not end the list. -/
theorem readItemsFrom_step {r : Bytes} {first : Bool} (hspace : isSpace b = false)
    (hbracket : b ≠ 0x5D) (hnext : nextItem first (b :: s) = .ok r) (hitem : item r = .ok (x, t))
    (fuel : Nat) :
    readItemsFrom item (fuel + 1) first (b :: s) =
      (readItemsFrom item fuel false t).map fun (xs, s) => (x :: xs, s) := by
  rw [readItemsFrom, skipSpace_of_isSpace hspace]
  dsimp only
  rw [if_neg (by simpa using hbracket), hnext]
  dsimp only
  rw [hitem]
  dsimp only
  cases readItemsFrom item fuel false t <;> rfl

theorem endsNumber_itemChars (items : List Json) (s : Bytes) :
    EndsNumber (encode (itemChars items) ++ s) := by
  exact (grammar_itemChars fun j _ => grammar_chars j).endsNumber s

/-- The items after the first are read to the end of the list. -/
theorem readItemsFrom_itemChars (h : List.Forall₂ (fun j x => ReadsAs item j.chars x) items xs)
    {fuel : Nat} (hfuel : items.length < fuel) (s : Bytes) :
    readItemsFrom item fuel false (encode (itemChars items) ++ s) = .ok (xs, s) := by
  induction h generalizing fuel with
  | nil =>
    obtain ⟨fuel, rfl⟩ := Nat.exists_eq_add_of_lt hfuel
    rw [itemChars]
    rfl
  | @cons j x items xs hx _ ih =>
    obtain ⟨fuel, rfl⟩ := Nat.exists_eq_succ_of_ne_zero (Nat.ne_of_gt (Nat.zero_lt_of_lt hfuel))
    obtain ⟨b, t, hencode, hspace, hend⟩ := (grammar_chars j).passes.starts
    have hread := hx _ (endsNumber_itemChars items s)
    have htext : encode (itemChars (j :: items)) ++ s =
        0x2C :: (encode j.chars ++ (encode (itemChars items) ++ s)) := by
      rw [itemChars, ← List.append_assoc, ← encode_append]
      rfl
    have hnext : nextItem false (0x2C :: (encode j.chars ++ (encode (itemChars items) ++ s))) =
        .ok (encode j.chars ++ (encode (itemChars items) ++ s)) := by
      rw [hencode, List.cons_append, nextItem, if_neg Bool.false_ne_true, if_pos (by decide),
        skipSpace_of_isSpace hspace]
      exact if_neg (by simpa using hend)
    rw [htext, readItemsFrom_step rfl (by decide) hnext hread, ih (Nat.lt_of_succ_lt_succ hfuel)]
    rfl

theorem length_lt_encode_itemChars (items : List Json) :
    items.length < (encode (itemChars items)).length := by
  induction items with
  | nil =>
    rw [itemChars]
    decide
  | cons x items ih =>
    have hcomma : (encode (',' :: (x.chars ++ itemChars items))).length =
        (encode x.chars).length + (encode (itemChars items)).length + 1 := by
      rw [encode_cons, encode_append, List.length_append, List.length_append, Nat.add_comm]
      rfl
    rw [itemChars, hcomma, List.length_cons]
    omega

/-- A list is read if its items are and one more bracket may be opened. -/
theorem readsAs_list {nesting : Nat} (hnesting : nesting ≠ 0)
    (h : List.Forall₂ (fun j x => ReadsAs item j.chars x) items xs) :
    ReadsAs (readList nesting item) (Json.list items).chars xs := by
  intro s _
  have hopen : ∀ rest, readList nesting item (0x5B :: rest) = readItems item rest :=
    fun _ => if_neg hnesting
  cases h with
  | nil =>
    rw [chars]
    exact hopen (0x5D :: s)
  | @cons j x items xs hx hitems =>
    obtain ⟨b, t, hencode, hspace, hend⟩ := (grammar_chars j).passes.starts
    have hread := hx _ (endsNumber_itemChars items s)
    have hlength := length_lt_encode_itemChars items
    have htext : encode (Json.list (j :: items)).chars ++ s =
        0x5B :: (encode j.chars ++ (encode (itemChars items) ++ s)) := by
      rw [chars, ← List.append_assoc, ← encode_append]
      rfl
    rw [htext, hopen, readItems]
    generalize hfuel : (encode j.chars ++ (encode (itemChars items) ++ s)).length = fuel
    rw [List.length_append, List.length_append, hencode, List.length_cons] at hfuel
    rw [hencode, List.cons_append] at hread ⊢
    rw [readItemsFrom_step hspace hend rfl hread,
      readItemsFrom_itemChars hitems (by omega)]
    rfl

-- ============================================================================
-- Records
-- ============================================================================

variable {fields : List (Field σ)} {fs : List (String × Json)} {ms : List (String × List Char)}
  {start state last : σ} {seen : List String} {wanted : String} {nesting : Nat}

/-- The fields of an object are taken into a record one after the other.  The keys met so far are
    carried along, since a known key must not come twice. -/
inductive ReadsRecord (fields : List (Field σ)) :
    σ → List String → List (String × List Char) → σ → Prop where
  | nil (state : σ) (seen : List String) : ReadsRecord fields state seen [] state
  /-- A known key stores its value. -/
  | known {m : String × List Char} {ms : List (String × List Char)} {state next last : σ}
      {seen : List String} {field : Field σ} (hfind : fields.find? (·.key == m.1) = some field)
      (hnew : m.1 ∉ seen) (hread : ReadsAs (field.read state) m.2 next)
      (rest : ReadsRecord fields next (m.1 :: seen) ms last) :
      ReadsRecord fields state seen (m :: ms) last
  /-- The value of another key is passed over. -/
  | unknown {m : String × List Char} {ms : List (String × List Char)} {state last : σ}
      {seen : List String} (hfind : fields.find? (·.key == m.1) = none)
      (hvalue : Grammar .value m.2) (rest : ReadsRecord fields state seen ms last) :
      ReadsRecord fields state seen (m :: ms) last

/-- Fields that are all unknown leave the record as it is. -/
theorem ReadsRecord.of_unknown (h : ∀ f ∈ fs, fields.find? (·.key == f.1) = none) :
    ReadsRecord fields state seen (fs.map spelled) state := by
  induction fs with
  | nil => exact .nil state seen
  | cons f fs ih =>
    obtain ⟨hf, hfs⟩ := List.forall_mem_cons.1 h
    exact .unknown hf (grammar_chars f.2) (ih hfs)

theorem ReadsAs.field {value : Reader α} (h : ReadsAs value cs x) (key : String) (set : σ → α → σ)
    (state : σ) : ReadsAs ((Field.of key value set).read state) cs (set state x) := by
  intro s hs
  show (value (encode cs ++ s)).map _ = _
  rw [h s hs]
  rfl

/-- Behind its key a known field is stored. -/
theorem readRecordField_known {key : String} {field : Field σ} {next : σ}
    (hfind : fields.find? (·.key == key) = some field) (hnew : key ∉ seen)
    (hread : field.read state s = .ok (next, t)) :
    readRecordField fields (state, seen) key (0x3A :: s) = .ok ((next, key :: seen), t) := by
  have hcontains : seen.contains key = false := by simpa using hnew
  rw [readRecordField, hfind]
  dsimp only
  rw [hcontains, if_neg Bool.false_ne_true, show readColon (0x3A :: s) = .ok s from rfl]
  dsimp only
  rw [hread]
  rfl

/-- Behind an unknown key a value is passed over. -/
theorem readRecordField_unknown {key : String} (hfind : fields.find? (·.key == key) = none)
    (hskip : skipValue s = .ok t) :
    readRecordField fields (state, seen) key (0x3A :: s) = .ok ((state, seen), t) := by
  rw [readRecordField, hfind]
  dsimp only
  rw [show readColon (0x3A :: s) = .ok s from rfl]
  dsimp only
  rw [hskip]
  rfl

theorem ReadsRecord.readsFields (h : ReadsRecord fields state seen ms last) :
    ∃ seen', ReadsFields (readRecordField fields) (state, seen) ms (last, seen') := by
  induction h with
  | nil state seen => exact ⟨seen, .nil _⟩
  | known hfind hnew hread _ ih =>
    obtain ⟨seen', ih⟩ := ih
    exact ⟨seen', .cons (fun s hs => readRecordField_known hfind hnew (hread s hs)) ih⟩
  | unknown hfind hvalue _ ih =>
    obtain ⟨seen', ih⟩ := ih
    exact ⟨seen', .cons (fun s hs => readRecordField_unknown hfind (hvalue.skipValue hs)) ih⟩

theorem readRecord_brace (hnesting : nesting ≠ 0) (s : Bytes) :
    readRecord wanted nesting fields start (0x7B :: s) =
      (readFields (readRecordField fields) (start, []) s).map fun (state, s) => (state.1, s) := by
  rw [readRecord, skipSpace_of_isSpace (by decide)]
  dsimp only
  rw [if_neg (by decide), if_pos (by decide), if_neg hnesting]

/-- An object is read as a record if its fields are and one more bracket may be opened. -/
theorem readsAs_objectChars (hnesting : nesting ≠ 0) (h : ReadsRecord fields start [] ms last) :
    ReadsAs (readRecord wanted nesting fields start) (objectChars ms) last := by
  intro s _
  obtain ⟨seen, hfields⟩ := h.readsFields
  obtain ⟨rest, htext, hread⟩ := hfields.exists_readFields s
  rw [htext, readRecord_brace hnesting, hread]
  rfl

theorem readsAs_record (hnesting : nesting ≠ 0)
    (h : ReadsRecord fields start [] (fs.map spelled) last) :
    ReadsAs (readRecord wanted nesting fields start) (Json.object fs).chars last := by
  rw [chars_object]
  exact readsAs_objectChars hnesting h

/-- Blanks in front of a record are passed over. -/
theorem readRecord_append (h : Blanks cs) (s : Bytes) :
    readRecord wanted nesting fields start (encode cs ++ s) =
      readRecord wanted nesting fields start s := by
  rw [readRecord, readRecord, h.skipSpace]

/-- An object of one known field is read as a record, however its value is written. -/
theorem readRecord_field {key : String} {field : Field σ} (hnesting : nesting ≠ 0)
    (hfind : fields.find? (·.key == key) = some field)
    (hread : field.read start s = .ok (last, 0x7D :: t)) :
    readRecord wanted nesting fields start (encode ('\x7b' :: (quote key ++ [':'])) ++ s) =
      .ok (last, t) := by
  obtain ⟨rest, hencode, hkey⟩ := readString_quote key (0x3A :: s)
  have htext : encode ('\x7b' :: (quote key ++ [':'])) ++ s = 0x7B :: 0x22 :: rest := by
    rw [encode_cons, encode_append, ← hencode, List.append_assoc, List.append_assoc]
    rfl
  have hfirst : readKey true (0x22 :: rest) = .ok (key, 0x3A :: s) := hkey
  have hfield : readRecordField fields (start, []) key (0x3A :: s) =
      .ok ((last, [key]), 0x7D :: t) :=
    readRecordField_known hfind List.not_mem_nil hread
  rw [htext, readRecord_brace hnesting, readFields, List.length_cons,
    readFieldsFrom_step rfl (by decide) hfirst hfield]
  rfl

end GameSearch.Json
