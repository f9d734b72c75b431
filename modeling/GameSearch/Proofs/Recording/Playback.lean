/-
  GameSearch.Proofs.Recording.Playback

  Reading undoes recording.  An event is written without control characters, so it stands on one
  line; the line is text and not blank, and what is read from it is an object with the fields of
  the event.

    * `Event.ReadsBack`   — what an event is read back as
    * `lines_line`        — the lines of a recording are the texts of its events
    * `readLine_event`    — a line is read back as its event
    * `readEvents_lines`  — and so are all of them
-/
import GameSearch.Proofs.Json.Objects
import GameSearch.Proofs.Recording.Capacity
import GameSearch.Recording.Playback

namespace GameSearch

-- ============================================================================
-- Events read back
-- ============================================================================

namespace Event

/-- What the value of a field is read back as: text and counters as themselves, a number that is
    not finite as null, and any other number as what its text is read as. -/
inductive Value.ReadsBack : Value → Json → Prop where
  | text (s : String) : ReadsBack (.text s) (.string s)
  | count (n : Nat) : ReadsBack (.count n) (.integer n)
  | notFinite {x : Score} (h : x.isFinite = false) : ReadsBack (.number x) .null
  | finite {x : Score} {y : Float} (h : x.isFinite = true)
      (hread : Json.ofBytes (Json.bytesOfText (String.ofList (Json.realText x))) = .ok (.real y)) :
      ReadsBack (.number x) (.real y)

/-- The key of a field with what its value is read back as. -/
def FieldReadsBack (f : String × Value) (g : String × Json) : Prop :=
  g.1 = f.1 ∧ f.2.ReadsBack g.2

/-- What an event is read back as: an object with distinct keys, which are the key `event` with the
    name of the event and the keys of its fields with their values. -/
def ReadsBack (e : Event) (value : Json) : Prop :=
  ∃ object fields, value = .object object ∧ (object.map Prod.fst).Nodup ∧
    object.Perm (("event", .string e.name) :: fields) ∧
    List.Forall₂ FieldReadsBack e.fields fields

/-- A counter fits 64 bits. -/
def Value.Fits : Value → Prop
  | .count n => n < 2 ^ 64
  | _ => True

/-- All counters of the event fit 64 bits. -/
def Fits (e : Event) : Prop := ∀ f ∈ e.fields, f.2.Fits

instance (value : Value) : Decidable value.Fits :=
  match value with
  | .count n => inferInstanceAs (Decidable (n < 2 ^ 64))
  | .text _ => .isTrue trivial
  | .number _ => .isTrue trivial

instance (e : Event) : Decidable e.Fits :=
  List.decidableBAll (fun f : String × Value => f.2.Fits) e.fields

variable {e : Event} {value : Value}

/-- The text of the value of a field. -/
theorem Value.chars_toJson (value : Value) :
    value.toJson.chars =
      match value with
      | .text s => Json.quote s
      | .count n => Json.integerText n
      | .number x => Json.realText x := by
  cases value with
  | text s => rw [Value.toJson, Json.chars]
  | count n => rw [Value.toJson, Json.chars]
  | number x =>
    rw [Value.toJson, Json.ofFloat]
    dsimp only
    cases hfinite : x.isFinite with
    | false =>
      rw [if_neg (by decide), Json.chars, Json.realText, hfinite]
      rfl
    | true => rw [if_pos rfl, Json.chars]

/-- The written value of a field is read as it should be. -/
theorem Value.exists_readsBack (h : value.Fits) :
    ∃ j, value.ReadsBack j ∧ Json.ScalarText value.toJson.chars j := by
  rw [Value.chars_toJson]
  cases value with
  | text s => exact ⟨_, .text s, Json.scalarText_quote s⟩
  | count n => exact ⟨_, .count n, Json.scalarText_integerText h⟩
  | number x =>
    cases hfinite : x.isFinite with
    | false =>
      refine ⟨_, .notFinite hfinite, ?_⟩
      dsimp only
      rw [Json.realText, hfinite]
      exact Json.scalarText_null
    | true =>
      obtain ⟨y, hy⟩ := Json.scalarText_realText hfinite
      refine ⟨_, .finite hfinite ?_, hy⟩
      rw [Json.bytesOfText_ofList]
      exact Json.ofBytes_scalar hy

theorem Value.printable (value : Value) : Json.Printable value.toJson.chars := by
  rw [Value.chars_toJson]
  cases value with
  | text s => exact Json.printable_quote s
  | count n => exact (Json.digits_digitsOf n).printable
  | number x => exact Json.printable_realText x

/-- The fields of an event are read one by one. -/
theorem exists_fieldText {fields : List (String × Value)} (h : ∀ f ∈ fields, f.2.Fits) :
    ∃ read, List.Forall₂ FieldReadsBack fields read ∧
      List.Forall₂ Json.FieldText (fields.map fun (key, value) => (key, value.toJson)) read := by
  induction fields with
  | nil => exact ⟨[], .nil, .nil⟩
  | cons f fields ih =>
    obtain ⟨j, hback, htext⟩ := Value.exists_readsBack (h f List.mem_cons_self)
    obtain ⟨read, hbacks, htexts⟩ := ih fun f hf => h f (List.mem_cons_of_mem _ hf)
    exact ⟨(f.1, j) :: read, .cons ⟨rfl, hback⟩ hbacks, .cons ⟨rfl, htext⟩ htexts⟩

theorem map_fst_of_forall₂ {fields : List (String × Value)} {read : List (String × Json)}
    (h : List.Forall₂ FieldReadsBack fields read) : read.map Prod.fst = fields.map Prod.fst := by
  induction h with
  | nil => rfl
  | cons hf _ ih => rw [List.map_cons, List.map_cons, ih, hf.1]

theorem nodup_keys (e : Event) : ("event" :: e.fields.map Prod.fst).Nodup := by
  cases e <;> simp [fields]

/-- The characters of the line of an event, without its break. -/
theorem jsonBytes_eq (e : Event) : e.jsonBytes = Json.encode e.toJson.chars :=
  Json.bytesOfText_ofList _

theorem printable_toJson (e : Event) : Json.Printable e.toJson.chars := by
  refine Json.printable_object fun f hf => ?_
  rcases List.mem_cons.1 hf with rfl | hf
  · rw [Json.chars]
    exact Json.printable_quote e.name
  · obtain ⟨field, -, rfl⟩ := List.mem_map.1 hf
    exact Value.printable field.2

/-- The text of an event is read as an object with its fields. -/
theorem exists_ofBytes (h : e.Fits) : ∃ j, Json.ofBytes e.jsonBytes = .ok j ∧ e.ReadsBack j := by
  obtain ⟨read, hback, htext⟩ := exists_fieldText h
  have hname : Json.FieldText ("event", .string e.name) ("event", .string e.name) := by
    refine ⟨rfl, ?_⟩
    rw [Json.chars]
    exact Json.scalarText_quote e.name
  have hkeys : ((("event", Json.string e.name) :: read).map Prod.fst).Nodup := by
    rw [List.map_cons, map_fst_of_forall₂ hback]
    exact nodup_keys e
  obtain ⟨object, hread, hperm⟩ := Json.ofBytes_object (.cons hname htext) hkeys
  refine ⟨.object object, ?_, object, read, rfl, ?_, hperm, hback⟩
  · rw [jsonBytes_eq]
    exact hread
  · exact ((hperm.map Prod.fst).nodup_iff).2 hkeys

end Event

-- ============================================================================
-- Lines
-- ============================================================================

namespace Recording

/-- Bytes that are no control characters make one line, up to a line feed. -/
theorem lines_line {line : List UInt8} (h : ∀ b ∈ line, 0x20 ≤ b) (rest : List UInt8) :
    lines (line ++ 0x0A :: rest) = line :: lines rest := by
  induction line with
  | nil =>
    rw [List.nil_append, lines]
  | cons b line ih =>
    have hb := h b List.mem_cons_self
    rw [List.cons_append, lines, ih fun x hx => h x (List.mem_cons_of_mem b hx)]
    · rintro rfl
      exact absurd hb (by decide)
    · rintro _ rfl
      exact absurd hb (by decide)

/-- A line is read back as its event. -/
theorem readLine_event {e : Event} (h : e.Fits) :
    ∃ j, readLine e.jsonBytes = .ok (some j) ∧ e.ReadsBack j := by
  obtain ⟨j, hread, hback⟩ := e.exists_ofBytes h
  have hblank : e.toJson.chars.all Text.isBlank = false := by
    refine List.all_eq_false.2 ⟨'\x7b', ?_, by decide⟩
    rw [Event.toJson, Json.chars]
    exact List.mem_cons_self
  refine ⟨j, ?_, hback⟩
  have htext : String.fromUTF8? ⟨e.jsonBytes.toArray⟩ = some (String.ofList e.toJson.chars) := by
    rw [e.jsonBytes_eq]
    exact Json.fromUTF8?_encode _
  rw [readLine, htext]
  dsimp only
  rw [String.toList_ofList, hblank, if_neg (by decide), hread]

/-- The lines of some events are read back as the events, one value for each, in order. -/
theorem readEvents_lines {events : List Event} (h : ∀ e ∈ events, e.Fits) :
    ∃ values, readEvents (Event.lines events) = .ok values ∧
      List.Forall₂ Event.ReadsBack events values := by
  induction events with
  | nil => exact ⟨[], rfl, .nil⟩
  | cons e events ih =>
    obtain ⟨j, hline, hback⟩ := readLine_event (h e List.mem_cons_self)
    obtain ⟨values, hread, hbacks⟩ := ih fun e he => h e (List.mem_cons_of_mem _ he)
    refine ⟨j :: values, ?_, .cons hback hbacks⟩
    have hlines : lines (Event.lines (e :: events)) =
        e.jsonBytes :: lines (Event.lines events) := by
      rw [Event.lines, List.flatMap_cons, Event.line, List.append_assoc]
      refine lines_line (fun b hb => ?_) _
      rw [e.jsonBytes_eq] at hb
      exact e.printable_toJson.le_of_mem_encode hb
    rw [readEvents, hlines, readLines, hline]
    dsimp only
    rw [← readEvents, hread]
    rfl

end Recording

/-- Reading undoes recording: what a recorder without limit has written for some events, with
    counters of 64 bits, is read back as one value for each event, in order, with its name, its
    text and its counters, null for numbers that are not finite, and the numbers that are read from
    the texts of the others. -/
theorem readEvents_takeAll (silentWhenFull flushFails : Bool) (events : List Event)
    (h : ∀ e ∈ events, e.Fits) :
    ∃ values, Recording.readEvents (Sink.takeAll events
        (Recorder.on ⟨none, silentWhenFull, flushFails, #[]⟩)).store.bytes.toList = .ok values ∧
      List.Forall₂ Event.ReadsBack events values := by
  obtain ⟨values, hread, hback⟩ := Recording.readEvents_lines h
  have hwhole : Recorder.Whole ⟨none, silentWhenFull, flushFails, #[]⟩ events _ :=
    Recorder.whole_takeAll rfl rfl events
  refine ⟨values, ?_, hback⟩
  rw [hwhole.bytes]
  exact hread

/-- Names with a quote, a backslash, a line break and letters beyond ASCII, a score that is not
    finite, and the greatest counter. -/
def Event.awkward : List Event :=
  [.nodeEntered "a\"\\\n" .bottom 0.5, .backpropagationStep "é" (2 ^ 64 - 1) 0]

theorem readEvents_takeAll_awkward :
    (∀ e ∈ Event.awkward, e.Fits) ∧
    ∃ values, Recording.readEvents (Sink.takeAll Event.awkward
        (Recorder.on ⟨none, false, false, #[]⟩)).store.bytes.toList = .ok values ∧
      List.Forall₂ Event.ReadsBack Event.awkward values :=
  have h : ∀ e ∈ Event.awkward, e.Fits := by decide
  ⟨h, readEvents_takeAll false false Event.awkward h⟩

end GameSearch
