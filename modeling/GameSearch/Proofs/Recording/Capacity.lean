/-
  GameSearch.Proofs.Recording.Capacity

  What a recorder leaves in a store of limited capacity: the first bytes of the lines of
  its events, as many as fit.  A line may reach the store in any number of pieces, and the
  limit may fall anywhere in it; so writing is described by the bytes alone, and lines only
  come in when the events written in full are counted.

    * `Store.filled`, `Store.Fits` — the store after some bytes, whether all of them fit
    * `Store.writeAll_eq`          — what a write does, and `writePieces_eq` one in pieces
    * `Recorder.Behind`            — how a recorder stands after some events
    * `Recorder.behind_takeAll`    — recorders stand so after any events
    * `Recorder.stops_takeAll`     — the first failure ends a recording
    * `recorder_keeps_first_bytes` — the recording of a sequence of events
-/
import Mathlib.Data.List.Induction
import Mathlib.Order.Bounds.Basic
import GameSearch.Proofs.Sink.Hearing
import GameSearch.Recording.Recorder

namespace GameSearch

-- ============================================================================
-- Writing to a store
-- ============================================================================

namespace Store

/-- There is room for all of the bytes. -/
def Fits (s : Store) (bytes : List UInt8) : Prop := ∀ room ∈ s.room, bytes.length ≤ room

instance (s : Store) (bytes : List UInt8) : Decidable (s.Fits bytes) :=
  inferInstanceAs (Decidable (∀ room ∈ s.room, bytes.length ≤ room))

/-- Those of some bytes for which there is room. -/
def accepted (s : Store) (bytes : List UInt8) : List UInt8 :=
  match s.room with
  | none => bytes
  | some room => bytes.take room

/-- The store after it took what there was room for. -/
def filled (s : Store) (bytes : List UInt8) : Store :=
  { s with bytes := s.bytes ++ s.accepted bytes }

/-- The failure of a store that is full. -/
def refusal (s : Store) : StorageFault := if s.silentWhenFull then .nothingWritten else .full

/-- Writes bytes that come in pieces, up to the first failure. -/
def writePieces (s : Store) : List (List UInt8) → Except StorageFault Unit × Store
  | [] => (.ok (), s)
  | piece :: rest =>
    match s.writeAll piece with
    | (.error fault, s) => (.error fault, s)
    | (.ok _, s) => writePieces s rest

variable {s : Store} {xs ys bytes : List UInt8} {room : Nat}

theorem fits_of_none (h : s.room = none) : s.Fits bytes := by
  intro room hroom
  rw [h] at hroom
  cases hroom

theorem fits_iff (h : s.room = some room) : s.Fits bytes ↔ bytes.length ≤ room := by
  rw [Fits, h]
  exact ⟨fun hfits => hfits room rfl, fun hle r hr => (Option.some.inj hr) ▸ hle⟩

theorem accepted_of_none (h : s.room = none) : s.accepted bytes = bytes := by
  rw [accepted, h]

theorem accepted_of_some (h : s.room = some room) : s.accepted bytes = bytes.take room := by
  rw [accepted, h]

@[simp]
theorem fits_nil : s.Fits [] := fun room _ => Nat.zero_le room

@[simp]
theorem filled_nil : s.filled [] = s := by
  have haccepted : s.accepted [] = [] := by
    unfold accepted
    split
    · rfl
    · exact List.take_nil
  rw [filled, haccepted, Array.appendList_nil]

theorem toList_filled : (s.filled bytes).bytes.toList = s.bytes.toList ++ s.accepted bytes :=
  Array.toList_appendList

@[simp]
theorem refusal_filled : (s.filled bytes).refusal = s.refusal := rfl

@[simp]
theorem flush_filled : (s.filled bytes).flush = s.flush := rfl

/-- Bytes take up room, until none is left. -/
theorem room_filled : (s.filled bytes).room = s.room.map (· - bytes.length) := by
  cases hcapacity : s.capacity with
  | none =>
    have hfilled : (s.filled bytes).capacity = none := hcapacity
    rw [Store.room, Store.room, hfilled, hcapacity]
    rfl
  | some capacity =>
    have hroom : s.room = some (capacity - s.bytes.size) := by
      rw [Store.room, hcapacity]
      rfl
    have hsize : (s.filled bytes).bytes.size =
        s.bytes.size + min (capacity - s.bytes.size) bytes.length := by
      rw [← Array.length_toList, toList_filled, accepted_of_some hroom, List.length_append,
        List.length_take, Array.length_toList]
    have hfilled : (s.filled bytes).capacity = some capacity := hcapacity
    rw [hroom, Store.room, hfilled, hsize, Option.map_some, Option.map_some]
    congr 1
    omega

/-- Bytes that come later fill the room that is left. -/
theorem filled_append : s.filled (xs ++ ys) = (s.filled xs).filled ys := by
  have hroom : (s.filled xs).room = s.room.map (· - xs.length) := room_filled
  have hbytes : s.accepted (xs ++ ys) = s.accepted xs ++ (s.filled xs).accepted ys := by
    cases h : s.room with
    | none =>
      rw [h] at hroom
      rw [accepted_of_none h, accepted_of_none h, accepted_of_none hroom]
    | some room =>
      rw [h] at hroom
      rw [accepted_of_some h, accepted_of_some h, accepted_of_some hroom, List.take_append]
  have hall : (s.filled (xs ++ ys)).bytes = ((s.filled xs).filled ys).bytes := by
    apply Array.toList_inj.1
    rw [toList_filled, toList_filled, toList_filled, hbytes, List.append_assoc]
  exact congrArg (fun b => { s with bytes := b }) hall

/-- Everything fits if the first part does, and the rest does after it. -/
theorem fits_append : s.Fits (xs ++ ys) ↔ s.Fits xs ∧ (s.filled xs).Fits ys := by
  have hroom : (s.filled xs).room = s.room.map (· - xs.length) := room_filled
  cases h : s.room with
  | none =>
    rw [h] at hroom
    exact ⟨fun _ => ⟨fits_of_none h, fits_of_none hroom⟩, fun _ => fits_of_none h⟩
  | some room =>
    rw [h, Option.map_some] at hroom
    rw [fits_iff h, fits_iff h, fits_iff hroom, List.length_append]
    omega

theorem Fits.of_append (h : s.Fits (xs ++ ys)) : s.Fits xs := (fits_append.1 h).1

/-- A store with no room left takes nothing more. -/
theorem filled_of_not_fits (h : ¬ s.Fits xs) : (s.filled xs).filled ys = s.filled xs := by
  cases hroom : s.room with
  | none => exact absurd (fits_of_none hroom) h
  | some room =>
    rw [fits_iff hroom] at h
    rw [← filled_append, filled, filled, accepted_of_some hroom, accepted_of_some hroom,
      List.take_append_of_le_length (by omega)]

/-- One write, if there is room left, takes the bytes that fit and tells how many. -/
theorem write_of_room (h : s.room ≠ some 0) :
    s.write bytes = (.ok (s.accepted bytes).length, s.filled bytes) := by
  unfold write filled accepted
  cases hroom : s.room with
  | none => rfl
  | some room =>
    cases room with
    | zero => exact absurd hroom h
    | succ room =>
      rw [List.length_take]
      rfl

theorem writeAll_nil (s : Store) : s.writeAll [] = (.ok (), s) := by
  rw [writeAll]
  rfl

theorem writeAll_of_ne_nil (h : bytes ≠ []) :
    s.writeAll bytes =
      match s.write bytes with
      | (.error fault, s) => (.error fault, s)
      | (.ok 0, s) => (.error .nothingWritten, s)
      | (.ok (n + 1), s) => s.writeAll (bytes.drop (n + 1)) := by
  rw [writeAll]
  exact if_neg (by simpa using h)

/-- A full store answers with its failure, one way or the other. -/
theorem writeAll_of_full (hroom : s.room = some 0) (h : bytes ≠ []) :
    s.writeAll bytes = (.error s.refusal, s) := by
  rw [writeAll_of_ne_nil h, write, hroom, refusal]
  cases hsilent : s.silentWhenFull <;> rfl

/-- While there is room, all bytes that fit are taken at once. -/
theorem writeAll_of_room (hroom : s.room ≠ some 0) (h : bytes ≠ []) :
    s.writeAll bytes = (s.filled bytes).writeAll (bytes.drop (s.accepted bytes).length) := by
  have hpos : 0 < (s.accepted bytes).length := by
    have hlength := List.length_pos_iff.2 h
    unfold accepted
    cases hr : s.room with
    | none => exact hlength
    | some room =>
      rw [hr] at hroom
      rw [List.length_take]
      have : room ≠ 0 := fun hzero => hroom (congrArg some hzero)
      omega
  rw [writeAll_of_ne_nil h, write_of_room hroom]
  obtain ⟨n, hn⟩ := Nat.exists_eq_add_of_le' hpos
  rw [hn]

/-- A write takes the bytes that fit, and fails unless these are all. -/
theorem writeAll_eq (s : Store) (bytes : List UInt8) :
    s.writeAll bytes =
      (if s.Fits bytes then .ok () else .error s.refusal, s.filled bytes) := by
  by_cases hempty : bytes = []
  · rw [hempty, writeAll_nil, if_pos fits_nil, filled_nil]
  by_cases hfits : s.Fits bytes
  · have hall : s.accepted bytes = bytes := by
      cases hroom : s.room with
      | none => exact accepted_of_none hroom
      | some room =>
        rw [accepted_of_some hroom, List.take_of_length_le ((fits_iff hroom).1 hfits)]
    have hroom : s.room ≠ some 0 := fun hzero =>
      hempty (List.length_eq_zero_iff.1 (Nat.le_zero.1 ((fits_iff hzero).1 hfits)))
    rw [writeAll_of_room hroom hempty, hall, List.drop_length, writeAll_nil, if_pos hfits]
  · obtain ⟨room, hroom⟩ : ∃ room, s.room = some room := by
      cases hroom : s.room with
      | none => exact absurd (fits_of_none hroom) hfits
      | some room => exact ⟨room, rfl⟩
    have hlong : room < bytes.length := Nat.not_le.1 fun hle => hfits ((fits_iff hroom).2 hle)
    rw [if_neg hfits]
    by_cases hzero : room = 0
    · rw [hzero] at hroom
      rw [writeAll_of_full hroom hempty, filled, accepted_of_some hroom, List.take_zero,
        Array.appendList_nil]
    · -- the first write takes what fits, and the second one meets a full store
      have hfull : (s.filled bytes).room = some 0 := by
        rw [room_filled, hroom, Option.map_some, Nat.sub_eq_zero_of_le (Nat.le_of_lt hlong)]
      have hrest : bytes.drop (s.accepted bytes).length ≠ [] := by
        rw [accepted_of_some hroom, Ne, List.drop_eq_nil_iff, List.length_take]
        omega
      rw [writeAll_of_room (by rw [hroom]; simpa using hzero) hempty,
        writeAll_of_full hfull hrest, refusal_filled]

/-- It makes no difference in how many pieces bytes are written. -/
theorem writeAll_append (s : Store) (xs ys : List UInt8) :
    s.writeAll (xs ++ ys) =
      match s.writeAll xs with
      | (.error fault, s) => (.error fault, s)
      | (.ok _, s) => s.writeAll ys := by
  rw [writeAll_eq, writeAll_eq]
  by_cases hxs : s.Fits xs
  · rw [if_pos hxs]
    dsimp only
    rw [writeAll_eq, filled_append, refusal_filled]
    simp only [fits_append, hxs, true_and]
  · rw [if_neg hxs, if_neg fun h => hxs h.of_append, filled_append, filled_of_not_fits hxs]

theorem writePieces_eq (s : Store) (pieces : List (List UInt8)) :
    s.writePieces pieces = s.writeAll pieces.flatten := by
  induction pieces generalizing s with
  | nil => exact (s.writeAll_nil).symm
  | cons piece rest ih =>
    rw [writePieces, List.flatten_cons, writeAll_append]
    cases s.writeAll piece with
    | mk result s' =>
      cases result with
      | error fault => rfl
      | ok _ => exact ih s'

end Store

-- ============================================================================
-- Recording
-- ============================================================================

/-- The lines of some events, one after the other. -/
def Event.lines (events : List Event) : List UInt8 := events.flatMap Event.line

namespace Recorder

/-- A recorder that has recorded nothing yet. -/
def on (s : Store) : Recorder := ⟨s, 0, none⟩

variable {s : Store} {events after : List Event} {r : Recorder} {e : Event}

/-- The text of an event and the line break are written as one line. -/
theorem writeLine_eq (s : Store) (e : Event) : writeLine s e = s.writeAll e.line := by
  rw [Event.line, Store.writeAll_append]
  rfl

theorem lines_concat (events : List Event) (e : Event) :
    Event.lines (events ++ [e]) = Event.lines events ++ e.line := by
  rw [Event.lines, Event.lines, List.flatMap_append, List.flatMap_singleton]

/-- After a failure events change nothing. -/
theorem takeAll_of_fault (h : r.fault.isSome = true) (events : List Event) :
    Sink.takeAll events r = r := by
  induction events with
  | nil => rfl
  | cons e events ih =>
    have hrecord : (Sink.emit e r).1 = r := by
      show (record e r).1 = r
      rw [record, if_pos h]
    show Sink.takeAll events (Sink.emit e r).1 = r
    rw [hrecord]
    exact ih

theorem takeAll_concat (events : List Event) (e : Event) (r : Recorder) :
    Sink.takeAll (events ++ [e]) r = (record e (Sink.takeAll events r)).1 := by
  rw [Sink.takeAll, List.foldl_append]
  rfl

/-- The first events of a sequence with one more: as many of the others, or all. -/
theorem take_concat_cases (e : Event) {m : Nat} (h : m ≤ (events ++ [e]).length) :
    (m ≤ events.length ∧ (events ++ [e]).take m = events.take m) ∨
      (m = events.length + 1 ∧ (events ++ [e]).take m = events ++ [e]) := by
  by_cases hm : m ≤ events.length
  · exact .inl ⟨hm, List.take_append_of_le_length hm⟩
  · rw [List.length_append, List.length_singleton] at h
    refine .inr ⟨by omega, List.take_of_length_le ?_⟩
    rw [List.length_append, List.length_singleton]
    omega

/-- How a recorder stands after some events: the store took the first bytes of their lines, those
    events count whose lines fit, and there was a failure unless everything fits. -/
structure Behind (s : Store) (events : List Event) (r : Recorder) : Prop where
  store : r.store = s.filled (Event.lines events)
  written_le : r.written ≤ events.length
  written : ∀ m ≤ events.length, s.Fits (Event.lines (events.take m)) ↔ m ≤ r.written
  fault : r.fault = if s.Fits (Event.lines events) then none else some s.refusal

theorem behind_nil (s : Store) : Behind s [] (on s) where
  store := Store.filled_nil.symm
  written_le := Nat.le_refl 0
  written m _ := by
    rw [List.take_nil]
    exact ⟨fun _ => by assumption, fun _ => Store.fits_nil⟩
  fault := (if_pos Store.fits_nil).symm

/-- If everything fits, so do the lines of the first events. -/
theorem fits_take (h : s.Fits (Event.lines events)) (m : Nat) :
    s.Fits (Event.lines (events.take m)) := by
  rw [← List.take_append_drop m events, Event.lines, List.flatMap_append] at h
  exact h.of_append

/-- Then every event counts. -/
theorem Behind.written_eq (h : Behind s events r) (hfits : s.Fits (Event.lines events)) :
    r.written = events.length :=
  Nat.le_antisymm h.written_le ((h.written _ (Nat.le_refl _)).1 (fits_take hfits _))

/-- After a failure no event counts any more. -/
theorem Behind.record_of_not_fits (h : Behind s events r) (hfits : ¬ s.Fits (Event.lines events))
    (e : Event) : Behind s (events ++ [e]) (r.record e).1 := by
  have hfault := h.fault
  rw [if_neg hfits] at hfault
  have hsame : (r.record e).1 = r := by
    rw [Recorder.record, hfault]
    rfl
  have hall : ¬ s.Fits (Event.lines (events ++ [e])) := by
    rw [lines_concat]
    exact fun hboth => hfits hboth.of_append
  rw [hsame]
  constructor
  case store => rw [h.store, lines_concat, Store.filled_append, Store.filled_of_not_fits hfits]
  case written_le =>
    rw [List.length_append]
    exact Nat.le_add_right_of_le h.written_le
  case written =>
    intro m hm
    rcases take_concat_cases e hm with ⟨hle, htake⟩ | ⟨rfl, htake⟩
    · rw [htake]
      exact h.written m hle
    · have hle := h.written_le
      rw [htake]
      exact ⟨fun hboth => absurd hboth hall, fun hmw => by omega⟩
  case fault => rw [hfault, if_neg hall]

/-- While everything fits, the next line is written where the others end. -/
theorem Behind.record_of_fits (h : Behind s events r) (hfits : s.Fits (Event.lines events))
    (e : Event) : Behind s (events ++ [e]) (r.record e).1 := by
  have hfault := h.fault
  rw [if_pos hfits] at hfault
  have hwritten := h.written_eq hfits
  have hline : s.Fits (Event.lines (events ++ [e])) ↔ r.store.Fits e.line := by
    rw [lines_concat, Store.fits_append, h.store]
    exact and_iff_right hfits
  have hstore : r.store.filled e.line = s.filled (Event.lines (events ++ [e])) := by
    rw [lines_concat, Store.filled_append, h.store]
  have hrecord : (r.record e).1 =
      if r.store.Fits e.line then ⟨r.store.filled e.line, r.written + 1, none⟩
      else ⟨r.store.filled e.line, r.written, some s.refusal⟩ := by
    have hrefusal : r.store.refusal = s.refusal := by rw [h.store, Store.refusal_filled]
    rw [Recorder.record, hfault, writeLine_eq, Store.writeAll_eq, hrefusal]
    by_cases hroom : r.store.Fits e.line
    · rw [if_pos hroom, if_pos hroom]
      simp
    · rw [if_neg hroom, if_neg hroom]
      simp
  rw [hrecord]
  by_cases hroom : r.store.Fits e.line
  · have hall := hline.2 hroom
    rw [if_pos hroom]
    constructor
    case store => exact hstore
    case written_le => simp [hwritten]
    case written =>
      intro m hm
      rw [List.length_append, List.length_singleton, ← hwritten] at hm
      exact ⟨fun _ => hm, fun _ => fits_take hall m⟩
    case fault => exact (if_pos hall).symm
  · have hall : ¬ s.Fits (Event.lines (events ++ [e])) := fun h => hroom (hline.1 h)
    rw [if_neg hroom]
    constructor
    case store => exact hstore
    case written_le => simp [hwritten]
    case written =>
      intro m hm
      rcases take_concat_cases e hm with ⟨hle, htake⟩ | ⟨rfl, htake⟩
      · rw [htake]
        exact ⟨fun _ => hwritten ▸ hle, fun _ => fits_take hfits m⟩
      · rw [htake]
        exact ⟨fun h => absurd h hall, fun hmw => absurd (hwritten ▸ hmw) (Nat.not_succ_le_self _)⟩
    case fault => exact (if_neg hall).symm

/-- Every recorder that started with nothing recorded stands so after some events. -/
theorem behind_takeAll (s : Store) (events : List Event) :
    Behind s events (Sink.takeAll events (on s)) := by
  induction events using List.reverseRecOn with
  | nil => exact behind_nil s
  | append_singleton events e ih =>
    rw [takeAll_concat]
    by_cases hfits : s.Fits (Event.lines events)
    · exact ih.record_of_fits hfits e
    · exact ih.record_of_not_fits hfits e

/-- The end of a recording is told by its failure, or else by the store. -/
theorem Behind.finish (h : Behind s events r) :
    r.finish.1 = if s.Fits (Event.lines events) then s.flush else .error s.refusal := by
  have hflush : r.store.flush = s.flush := by rw [h.store, Store.flush_filled]
  rw [Recorder.finish, h.fault]
  by_cases hfits : s.Fits (Event.lines events)
  · rw [if_pos hfits, if_pos hfits, hflush]
    cases s.flush <;> rfl
  · rw [if_neg hfits, if_neg hfits]

/-- A full store and one that cannot be flushed fail in different ways. -/
theorem flush_ne_refusal (s : Store) : s.flush ≠ .error s.refusal := by
  unfold Store.flush Store.refusal
  cases s.flushFails <;> cases s.silentWhenFull <;> simp

/-- The first event whose line cannot be written ends a recording: from then on it stays as it is,
    with the failure of that line. -/
def Stops (s : Store) (events : List Event) (r : Recorder) : Prop :=
  ∀ before e after fault store, events = before ++ e :: after →
    (Sink.takeAll before (on s)).fault = none →
    writeLine (Sink.takeAll before (on s)).store e = (.error fault, store) →
    r = ⟨store, before.length, some fault⟩ ∧ r.finish.1 = .error fault

theorem stops_takeAll (s : Store) (events : List Event) :
    Stops s events (Sink.takeAll events (on s)) := by
  rintro before e after fault store rfl hnone hwrite
  have hbefore := behind_takeAll s before
  have hsplit : Sink.takeAll (before ++ e :: after) (on s) =
      Sink.takeAll after (record e (Sink.takeAll before (on s))).1 := List.foldl_append
  rw [hsplit]
  generalize Sink.takeAll before (on s) = r at hnone hwrite hbefore
  have hfits : s.Fits (Event.lines before) := by
    by_contra hnot
    have hfault := hbefore.fault
    rw [hnone, if_neg hnot] at hfault
    cases hfault
  have hwritten := hbefore.written_eq hfits
  have hrecord : (r.record e).1 = ⟨store, before.length, some fault⟩ := by
    rw [record, hnone, hwrite, ← hwritten]
    rfl
  have hend : Sink.takeAll after (r.record e).1 = ⟨store, before.length, some fault⟩ := by
    rw [takeAll_of_fault (by rw [hrecord]; rfl), hrecord]
  rw [hend]
  exact ⟨rfl, rfl⟩

/-- What is to be said of a recorder after some events, if its store takes so many bytes in all. -/
structure Clipped (s : Store) (limit : Nat) (events : List Event) (r : Recorder) : Prop where
  bytes : r.store.bytes.toList = (Event.lines events).take limit
  /-- As many events count as there are whole lines at the beginning that fit. -/
  written : IsGreatest
    {m | m ≤ events.length ∧ (Event.lines (events.take m)).length ≤ limit} r.written
  failed : r.finish.1 = .error s.refusal ↔ limit < (Event.lines events).length
  flushed : (Event.lines events).length ≤ limit → r.finish.1 = s.flush
  stops : Stops s events r

theorem clipped_takeAll {limit : Nat} (hroom : s.room = some limit) (hempty : s.bytes = #[])
    (events : List Event) : Clipped s limit events (Sink.takeAll events (on s)) := by
  have h := behind_takeAll s events
  have hfits : ∀ m, s.Fits (Event.lines (events.take m)) ↔
      (Event.lines (events.take m)).length ≤ limit := fun m => Store.fits_iff hroom
  constructor
  case bytes =>
    rw [h.store, Store.toList_filled, hempty, Store.accepted_of_some hroom]
    rfl
  case written =>
    refine ⟨⟨h.written_le, (hfits _).1 ((h.written _ h.written_le).2 (Nat.le_refl _))⟩, ?_⟩
    rintro m ⟨hm, hle⟩
    exact (h.written m hm).1 ((hfits m).2 hle)
  case failed =>
    rw [h.finish, ← Nat.not_le, ← Store.fits_iff hroom]
    by_cases hall : s.Fits (Event.lines events)
    · rw [if_pos hall]
      exact ⟨fun heq => absurd heq (flush_ne_refusal s), fun hnot => absurd hall hnot⟩
    · rw [if_neg hall]
      exact ⟨fun _ => hall, fun _ => rfl⟩
  case flushed =>
    intro hle
    rw [h.finish, if_pos ((Store.fits_iff hroom).2 hle)]
  case stops => exact stops_takeAll s events

/-- What is to be said of a recorder after some events, if its store has no limit. -/
structure Whole (s : Store) (events : List Event) (r : Recorder) : Prop where
  bytes : r.store.bytes.toList = Event.lines events
  written : r.written = events.length
  flushed : r.finish.1 = s.flush

theorem whole_takeAll (hroom : s.room = none) (hempty : s.bytes = #[]) (events : List Event) :
    Whole s events (Sink.takeAll events (on s)) := by
  have h := behind_takeAll s events
  have hfits : ∀ bytes, s.Fits bytes := fun bytes => Store.fits_of_none hroom
  constructor
  case bytes =>
    rw [h.store, Store.toList_filled, hempty, Store.accepted_of_none hroom]
    rfl
  case written => exact h.written_eq (hfits _)
  case flushed => rw [h.finish, if_pos (hfits _)]

end Recorder

/-- A recording holds the first bytes of the lines of its events, as many as the store takes.  It
    counts the lines that are there in full, stays as it is from the first failure on, and reports
    that failure in the end, or what comes of flushing the store if there was none.  In how many
    pieces a line is written makes no difference to any of this. -/
theorem recorder_keeps_first_bytes (silentWhenFull flushFails : Bool) (events : List Event) :
    (∀ limit, Recorder.Clipped ⟨some limit, silentWhenFull, flushFails, #[]⟩ limit events
      (Sink.takeAll events (Recorder.on ⟨some limit, silentWhenFull, flushFails, #[]⟩))) ∧
    Recorder.Whole ⟨none, silentWhenFull, flushFails, #[]⟩ events
      (Sink.takeAll events (Recorder.on ⟨none, silentWhenFull, flushFails, #[]⟩)) ∧
    ∀ (s : Store) (e : Event), Recorder.writeLine s e = s.writeAll e.line ∧
      ∀ pieces, s.writePieces pieces = s.writeAll pieces.flatten := by
  refine ⟨fun limit => ?_, ?_, fun s e => ⟨Recorder.writeLine_eq s e, s.writePieces_eq⟩⟩
  · exact Recorder.clipped_takeAll rfl rfl events
  · exact Recorder.whole_takeAll rfl rfl events

end GameSearch
