/-
  GameSearch.Proofs.Tree.Document

  Specifications are read from the documents that are written for them.  A document is read
  twice.  The first reading only looks for a root and passes over everything else; the second
  one reads the specification itself, or the one under the key `root`.  Fields that are left out
  because they are empty come back as the defaults of the record.

    * `Spec.values`          — the numbers in a specification
    * `readsAs_toJson`       — a specification is read if it is not too high
    * `readForm_toJson`, `readForm_wrap` — the form of a document is recognised
    * `ofText_toJson`, `ofText_wrap`     — so both documents are read
    * `Tree.ofText_document` — and their tree is the one built from the specification
-/
import GameSearch.Loading
import GameSearch.Proofs.Json.Records
import GameSearch.Proofs.Tree.Positions

namespace GameSearch

open Json

-- ============================================================================
-- Specifications
-- ============================================================================

namespace Spec

mutual

/-- The numbers in a specification. -/
def values : Spec → List Score
  | ⟨_, value, children⟩ => value.toList ++ valuesAll children

/-- The numbers in a list of specifications. -/
def valuesAll : List Spec → List Score
  | [] => []
  | s :: rest => s.values ++ valuesAll rest

end

variable {s c : Spec} {nesting : Nat}

theorem mem_values_of_value {x : Score} (h : s.value = some x) : x ∈ s.values := by
  obtain ⟨id, value, children⟩ := s
  rw [values, show value = some x from h]
  exact List.mem_append_left _ (List.mem_singleton_self x)

theorem mem_valuesAll {specs : List Spec} {x : Score} (hc : c ∈ specs) (hx : x ∈ c.values) :
    x ∈ valuesAll specs := by
  induction specs with
  | nil => cases hc
  | cons first rest ih =>
    rw [valuesAll, List.mem_append]
    rcases List.mem_cons.1 hc with rfl | hc
    · exact .inl hx
    · exact .inr (ih hc)

theorem mem_values_of_child {x : Score} (hc : c ∈ s.children) (hx : x ∈ c.values) :
    x ∈ s.values := by
  obtain ⟨id, value, children⟩ := s
  rw [values]
  exact List.mem_append_right _ (mem_valuesAll hc hx)

theorem listToJson_eq_map (specs : List Spec) : listToJson specs = specs.map toJson := by
  induction specs with
  | nil => rw [listToJson]; rfl
  | cons s rest ih => rw [listToJson, ih]; rfl

/-- The field of an identifier; none if there is no identifier. -/
def idFields (s : Spec) : List (String × Json) :=
  match s.id with
  | some id => [("id", .string id)]
  | none => []

/-- The field of a value; none if there is no value. -/
def valueFields (s : Spec) : List (String × Json) :=
  match s.value with
  | some value => [("value", .ofFloat value)]
  | none => []

/-- The field of the successors; none if there are no successors. -/
def childFields (s : Spec) : List (String × Json) :=
  match s.children with
  | [] => []
  | _ => [("children", .list (s.children.map toJson))]

/-- The fields of a specification that are written. -/
def jsonFields (s : Spec) : List (String × Json) := s.idFields ++ s.valueFields ++ s.childFields

theorem toJson_eq (s : Spec) : s.toJson = .object s.jsonFields := by
  obtain ⟨id, value, children⟩ := s
  rw [toJson.eq_def]
  dsimp only
  rw [listToJson_eq_map]
  rfl

theorem find?_id (children : Reader (List Spec)) :
    (fields children).find? (·.key == "id") =
      some (.of "id" (readNullable readText) fun s id => { s with id := id }) := rfl

theorem find?_value (children : Reader (List Spec)) :
    (fields children).find? (·.key == "value") =
      some (.of "value" (readNullable readFloat) fun s value => { s with value := value }) := rfl

theorem find?_children (children : Reader (List Spec)) :
    (fields children).find? (·.key == "children") =
      some (.of "children" children fun s children => { s with children := children }) := rfl

/-- The fields that are written for a specification are read into the empty one. -/
theorem readsRecord_jsonFields {children : Reader (List Spec)} (s : Spec)
    (hvalue : ∀ x ∈ s.value, ReadsAs (readNullable readFloat) (Json.ofFloat x).chars (some x))
    (hchildren : s.children ≠ [] →
      ReadsAs children (Json.list (s.children.map toJson)).chars s.children) :
    ReadsRecord (fields children) ⟨none, none, []⟩ [] (s.jsonFields.map spelled) s := by
  obtain ⟨id, value, specs⟩ := s
  -- from the last field to the first, whichever of them are written
  have hthird : ∀ seen, "children" ∉ seen → ReadsRecord (fields children) ⟨id, value, []⟩ seen
      ((childFields ⟨id, value, specs⟩).map spelled) ⟨id, value, specs⟩ := by
    intro seen hnew
    cases specs with
    | nil => exact .nil _ _
    | cons first rest =>
      have hread := (hchildren (List.cons_ne_nil _ _)).field "children"
        (fun (s : Spec) children => { s with children := children }) ⟨id, value, []⟩
      exact .known (find?_children children) hnew hread (.nil _ _)
  have hsecond : ∀ seen, "value" ∉ seen → "children" ∉ seen →
      ReadsRecord (fields children) ⟨id, none, []⟩ seen
        ((valueFields ⟨id, value, specs⟩ ++ childFields ⟨id, value, specs⟩).map spelled)
        ⟨id, value, specs⟩ := by
    intro seen hnew hlast
    cases value with
    | none => exact hthird seen hlast
    | some x =>
      have hread := (hvalue x rfl).field "value"
        (fun (s : Spec) value => { s with value := value }) ⟨id, none, []⟩
      refine .known (find?_value children) hnew hread (hthird _ ?_)
      simpa [spelled] using hlast
  rw [jsonFields, List.append_assoc]
  cases id with
  | none => exact hsecond [] List.not_mem_nil List.not_mem_nil
  | some id =>
    have htext : ReadsAs (readNullable readText) (Json.string id).chars (some id) := by
      rw [chars]
      exact (readsAs_text id).nullable rfl (by decide) (by decide)
    have hread := htext.field "id" (fun (s : Spec) id => { s with id := id }) ⟨none, none, []⟩
    exact .known (find?_id children) List.not_mem_nil hread
      (hsecond _ (by simp [spelled]) (by simp [spelled]))

theorem height_lt_of_mem_children (hc : c ∈ s.children) : c.height < s.height := by
  rw [height_eq s]
  exact height_lt_heightAll hc

/-- A specification is read from the object that is written for it, if the two brackets of each
    level and the one of the last level may be opened and its numbers are read back. -/
theorem readsAs_toJson (nesting : Nat) (s : Spec) (hheight : 2 * s.height + 1 ≤ nesting)
    (hvalues : ∀ x ∈ s.values, ReadsAs (readNullable readFloat) (Json.ofFloat x).chars (some x)) :
    ReadsAs (read nesting) s.toJson.chars s := by
  have hvalue : ∀ x ∈ s.value, ReadsAs (readNullable readFloat) (Json.ofFloat x).chars (some x) :=
    fun x hx => hvalues x (mem_values_of_value hx)
  rw [toJson_eq]
  match nesting, hheight with
  | 1, hheight =>
    have hleaf : s.children = [] := List.eq_nil_iff_forall_not_mem.2 fun c hc => by
      have := height_lt_of_mem_children hc
      omega
    exact readsAs_record (by decide)
      (readsRecord_jsonFields s hvalue fun hne => absurd hleaf hne)
  | nesting + 2, hheight =>
    refine readsAs_record (Nat.succ_ne_zero _) (readsRecord_jsonFields s hvalue fun _ => ?_)
    refine readsAs_list (Nat.succ_ne_zero _) ?_
    rw [List.forall₂_map_left_iff, List.forall₂_same]
    intro c hc
    have hlt := height_lt_of_mem_children hc
    exact readsAs_toJson nesting c (by omega) fun x hx => hvalues x (mem_values_of_child hc hx)

/-- Keys of a specification are no roots. -/
theorem ne_root_of_mem_jsonFields {f : String × Json} (h : f ∈ s.jsonFields) : f.1 ≠ "root" := by
  obtain ⟨id, value, children⟩ := s
  simp only [jsonFields, idFields, valueFields, childFields, List.mem_append] at h
  rcases h with (h | h) | h
  · cases id <;> simp_all
  · cases value <;> simp_all
  · cases children <;> simp_all

end Spec

-- ============================================================================
-- Documents
-- ============================================================================

namespace Tree.Document

variable {spec : Spec} {blanks : List Char}

/-- A document that holds a text under the key `root`, with blanks in front of the text. -/
def wrap (blanks : List Char) (text : String) : String :=
  "\x7b\"root\":" ++ String.ofList blanks ++ text ++ "\x7d"

/-- Characters that count as blanks between tokens. -/
def Blank (blanks : List Char) : Prop := ∀ c ∈ blanks, c ∈ [' ', '\n', '\t', '\r']

theorem bytesOfText_wrap (blanks : List Char) (j : Json) :
    bytesOfText (wrap blanks j.text) =
      encode ('\x7b' :: (quote "root" ++ [':'])) ++
        (encode blanks ++ (encode j.chars ++ [0x7D])) := by
  have hopen : "\x7b\"root\":".toList = '\x7b' :: (quote "root" ++ [':']) := by decide
  have htext : wrap blanks j.text =
      String.ofList ('\x7b' :: (quote "root" ++ [':']) ++ (blanks ++ (j.chars ++ ['\x7d']))) := by
    rw [← String.toList_inj]
    simp only [wrap, text, String.toList_append, String.toList_ofList, hopen, List.append_assoc]
    rfl
  rw [htext, bytesOfText_ofList, encode_append, encode_append, encode_append]
  rfl

/-- The text of a specification has no root. -/
theorem readForm_toJson (spec : Spec) : ReadsAs readForm spec.toJson.chars false := by
  rw [Spec.toJson_eq]
  refine readsAs_record (by decide) (ReadsRecord.of_unknown fun f hf => ?_)
  have hne : ("root" == f.1) = false :=
    beq_eq_false_iff_ne.2 (Spec.ne_root_of_mem_jsonFields hf).symm
  exact List.find?_cons_of_neg (by rw [Field.of, hne]; decide)

/-- Behind a specification ends the object around it. -/
theorem endsNumber_brace (s : Bytes) : EndsNumber (0x7D :: s) := by
  intro b hb
  cases hb
  decide

/-- A root is found, if the text under the key is that of an object. -/
theorem readForm_wrap (hblanks : Blank blanks) (fields : List (String × Json)) :
    readForm (encode ('\x7b' :: (quote "root" ++ [':'])) ++
      (encode blanks ++ (encode (Json.object fields).chars ++ [0x7D]))) = .ok (true, []) := by
  refine readRecord_field (by decide) (List.find?_cons_of_pos rfl) ?_
  have hskip := (grammar_chars (.object fields)).skipValue (endsNumber_brace [])
  obtain ⟨t, htext⟩ : ∃ t, encode (Json.object fields).chars = 0x7B :: t := by
    rw [chars_object]
    cases fields <;> exact ⟨_, rfl⟩
  have hpresence : readPresence (encode blanks ++ (encode (Json.object fields).chars ++ [0x7D])) =
      .ok (true, [0x7D]) := by
    rw [htext, List.cons_append] at hskip ⊢
    rw [readPresence, Blanks.skipSpace hblanks, skipSpace_of_isSpace (by decide)]
    show (skipValue (0x7B :: (t ++ [0x7D]))).map (true, ·) = _
    rw [hskip]
    rfl
  show (readPresence _).map _ = _
  rw [hpresence]
  rfl

theorem exists_read_eq (nesting : Nat) :
    ∃ fields, Spec.read nesting = readRecord "struct TreeSpec" nesting fields ⟨none, none, []⟩ := by
  match nesting with
  | 0 => exact ⟨_, rfl⟩
  | 1 => exact ⟨_, rfl⟩
  | nesting + 2 => exact ⟨_, rfl⟩

/-- The specification under the key is read, whatever blanks are in front of it. -/
theorem readWrapped_wrap (hblanks : Blank blanks)
    (h : ReadsAs (Spec.read (nestingLimit - 1)) spec.toJson.chars spec) :
    readWrapped (encode ('\x7b' :: (quote "root" ++ [':'])) ++
      (encode blanks ++ (encode spec.toJson.chars ++ [0x7D]))) = .ok (spec, []) := by
  refine readRecord_field (by decide) (List.find?_cons_of_pos rfl) ?_
  have hread : Spec.read (nestingLimit - 1)
      (encode blanks ++ (encode spec.toJson.chars ++ [0x7D])) = .ok (spec, [0x7D]) := by
    obtain ⟨fields, hfields⟩ := exists_read_eq (nestingLimit - 1)
    rw [hfields, readRecord_append hblanks, ← hfields]
    exact h _ (endsNumber_brace [])
  show (Spec.read (nestingLimit - 1) _).map _ = _
  rw [hread]
  rfl

/-- The text of a specification is read as a document that holds it without a root. -/
theorem ofText_toJson (h : ReadsAs (Spec.read nestingLimit) spec.toJson.chars spec) :
    ofText spec.toJson.text = .ok (.bare spec) := by
  rw [ofText, bytesOfText_text, ofBytes, (readForm_toJson spec).readAll]
  dsimp only
  rw [h.readAll]
  rfl

/-- That text under the key `root` is read as a document that holds the specification there. -/
theorem ofText_wrap (hblanks : Blank blanks)
    (h : ReadsAs (Spec.read (nestingLimit - 1)) spec.toJson.chars spec) :
    ofText (wrap blanks spec.toJson.text) = .ok (.wrapped spec) := by
  have hform := readForm_wrap hblanks spec.jsonFields
  rw [← Spec.toJson_eq] at hform
  rw [ofText, bytesOfText_wrap, ofBytes, readAll_of_eq hform]
  dsimp only
  rw [readAll_of_eq (readWrapped_wrap hblanks h)]
  rfl

end Tree.Document

-- ============================================================================
-- Trees
-- ============================================================================

namespace Tree

variable {spec : Spec} {source : String} {document : Document}

theorem create_fst (limits : Limits) (spec : Spec) (j : Journal) :
    (create limits spec j).1 = build limits spec := by
  unfold create
  split <;> rename_i h <;> rw [h]

/-- The tree of a document that was read is the one that is built from its specification; a fault
    of the specification is passed on. -/
theorem ofText_document (h : Document.ofText source = .ok document) (limits : Limits)
    (j : Journal) :
    ofText limits source j =
      ((build limits document.root).mapError .tree, (create limits document.root j).2) := by
  rw [ofText, h, ← create_fst limits document.root j]
  dsimp only
  obtain ⟨result, j'⟩ := create limits document.root j
  cases result <;> rfl

/-- Documents are read as they are written, with or without the key `root` around them and whatever
    blanks are in front of the specification, if it is no higher than the limit on open brackets
    allows and its numbers are finite and read back as the same ones.  So their trees are the one
    that is built from the specification, or the fault is the same. -/
theorem document_round_trip (spec : Spec) (hheight : spec.height ≤ 62)
    (hfinite : ∀ x ∈ spec.values, x.isFinite = true)
    (hback : ∀ x ∈ spec.values, readAll readFloat (bytesOfText (Json.ofFloat x).text) = .ok x) :
    Document.ofText spec.toJson.text = .ok (.bare spec) ∧
    (∀ blanks, Document.Blank blanks →
      Document.ofText (Document.wrap blanks spec.toJson.text) = .ok (.wrapped spec)) ∧
    ∀ limits j,
      ofText limits spec.toJson.text j =
        ((build limits spec).mapError .tree, (create limits spec j).2) ∧
      ∀ blanks, Document.Blank blanks →
        ofText limits (Document.wrap blanks spec.toJson.text) j =
          ((build limits spec).mapError .tree, (create limits spec j).2) := by
  have hread : ∀ nesting, 125 ≤ nesting → ReadsAs (Spec.read nesting) spec.toJson.chars spec :=
    fun nesting hnesting => Spec.readsAs_toJson nesting spec (by omega) fun x hx =>
      (readsAs_ofFloat (hfinite x hx) (hback x hx)).nullable_of_numeral
        (numeral_ofFloat (hfinite x hx))
  have hbare := Document.ofText_toJson (hread nestingLimit (by decide))
  have hwrapped := fun blanks (hblanks : Document.Blank blanks) =>
    Document.ofText_wrap hblanks (hread (nestingLimit - 1) (by decide))
  exact ⟨hbare, hwrapped, fun limits j => ⟨ofText_document hbare limits j,
    fun blanks hblanks => ofText_document (hwrapped blanks hblanks) limits j⟩⟩

end Tree

/-- Identifiers and values are there or not on every level, and some have to be escaped. -/
def Spec.uneven : Spec :=
  ⟨none, some (-0.25), [
    .leaf "\"A\"\n" 1e300,
    ⟨some "", none, [⟨none, none, []⟩, .leaf "B" 0.1]⟩]⟩

theorem Tree.document_round_trip_uneven :
    Spec.uneven.height ≤ 62 ∧ (∀ x ∈ Spec.uneven.values, x.isFinite = true) ∧
      (∀ x ∈ Spec.uneven.values,
        readAll readFloat (bytesOfText (Json.ofFloat x).text) = .ok x) ∧
      Document.ofText Spec.uneven.toJson.text = .ok (.bare Spec.uneven) ∧
      Document.ofText (Document.wrap [' '] Spec.uneven.toJson.text) =
        .ok (.wrapped Spec.uneven) := by
  have hheight : Spec.uneven.height ≤ 62 := by decide
  have hfinite : ∀ x ∈ Spec.uneven.values, x.isFinite = true := by decide +kernel
  have hback : ∀ x ∈ Spec.uneven.values,
      readAll readFloat (bytesOfText (Json.ofFloat x).text) = .ok x := by
    have hoption : ∀ x ∈ Spec.uneven.values,
        (readAll readFloat (bytesOfText (Json.ofFloat x).text)).toOption = some x := by
      decide +kernel
    intro x hx
    have hsome := hoption x hx
    cases hread : readAll readFloat (bytesOfText (Json.ofFloat x).text) with
    | error e =>
      rw [hread] at hsome
      cases hsome
    | ok y =>
      rw [hread] at hsome
      exact congrArg Except.ok (Option.some.inj hsome)
  obtain ⟨hbare, hwrapped, -⟩ := document_round_trip Spec.uneven hheight hfinite hback
  exact ⟨hheight, hfinite, hback, hbare, hwrapped [' '] (by simp [Document.Blank])⟩

end GameSearch
