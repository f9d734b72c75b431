/-
  GameSearch.Proofs.Recording.Lines

  A recording is read line by line.  A line feed parts the lines before it from those behind it,
  whatever stands on either side, and each line is read without regard to the others.  So the
  values of a recording are those of its parts, one after the other, and what is reported is the
  fault of the first line that has one.

    * `lines_cons`                 — what a byte in front does to the lines
    * `lines_append_newline`       — the lines on both sides of a line feed
    * `exists_of_mem_lines_encode` — the lines of a text are made of its characters
    * `readLines_append`           — some lines are read, and then the others
    * `Unreadable`                 — what is wrong with a line
    * `readLines_eq_error_iff`, `readLines_eq_ok_iff` — the fault of several lines is that of the
      first with a fault, and their values are those of each
    * `readEvents_linewise`        — what all this means for recordings
-/
import Mathlib.Data.List.Basic
import GameSearch.Proofs.Json.Strings
import GameSearch.Recording.Playback

namespace GameSearch.Recording

-- ============================================================================
-- Where lines end
-- ============================================================================

section Lines

variable {b : UInt8} {x y s bytes : List UInt8}

/-- Puts bytes in front of the first of some lines. -/
def extendFirst (bytes : List UInt8) : List (List UInt8) → List (List UInt8)
  | [] => [bytes]
  | line :: more => (bytes ++ line) :: more

theorem extendFirst_append {before : List (List UInt8)} (h : before ≠ [])
    (after : List (List UInt8)) :
    extendFirst bytes (before ++ after) = extendFirst bytes before ++ after := by
  obtain ⟨line, more, rfl⟩ := List.exists_cons_of_ne_nil h
  rfl

/-- A line feed ends a line.  A carriage return before it leaves no trace, and any other byte goes
    to the front of the line that it stands before. -/
theorem lines_cons (b : UInt8) (s : List UInt8) :
    lines (b :: s) =
      if b = 0x0A then [] :: lines s
      else if b = 0x0D ∧ s.head? = some 0x0A then lines s
      else extendFirst [b] (lines s) := by
  split_ifs with hfeed hreturn
  · rw [hfeed, lines]
  · obtain ⟨rfl, hhead⟩ := hreturn
    obtain ⟨rest, rfl⟩ := List.head?_eq_some_iff.1 hhead
    rw [lines, lines]
  · rw [lines]
    · cases lines s <;> rfl
    · exact hfeed
    · rintro rest rfl rfl
      exact hreturn ⟨rfl, rfl⟩

theorem lines_ne_nil (h : s ≠ []) : lines s ≠ [] := by
  induction s with
  | nil => exact absurd rfl h
  | cons b s ih =>
    rw [lines_cons]
    split_ifs with hfeed hreturn
    · exact List.cons_ne_nil _ _
    · refine ih ?_
      rintro rfl
      cases hreturn.2
    · cases lines s <;> exact List.cons_ne_nil _ _

/-- Bytes that end no line go to the front of the line that they stand before. -/
theorem lines_append (hne : bytes ≠ []) (hbytes : ∀ b ∈ bytes, b ≠ 0x0A ∧ b ≠ 0x0D) :
    lines (bytes ++ s) = extendFirst bytes (lines s) := by
  induction bytes with
  | nil => exact absurd rfl hne
  | cons b bytes ih =>
    obtain ⟨hfeed, hreturn⟩ := hbytes b List.mem_cons_self
    rw [List.cons_append, lines_cons, if_neg hfeed, if_neg fun h => hreturn h.1]
    cases bytes with
    | nil => rfl
    | cons c bytes =>
      rw [ih (List.cons_ne_nil c bytes) fun d hd => hbytes d (List.mem_cons_of_mem b hd)]
      cases lines s <;> rfl

/-- A line feed parts the lines before it from those behind it. -/
theorem lines_append_newline (x y : List UInt8) :
    lines (x ++ 0x0A :: y) = lines (x ++ [0x0A]) ++ lines y := by
  induction x with
  | nil => exact lines_cons 0x0A y
  | cons b x ih =>
    have hhead : (x ++ 0x0A :: y).head? = (x ++ [0x0A]).head? := by cases x <;> rfl
    have hne : lines (x ++ [0x0A]) ≠ [] :=
      lines_ne_nil (List.append_ne_nil_of_right_ne_nil x (List.cons_ne_nil _ _))
    rw [List.cons_append, List.cons_append, lines_cons, lines_cons, hhead, ih]
    split_ifs
    · rfl
    · rfl
    · exact extendFirst_append hne _

/-- A line feed at the end completes the last line, or adds an empty one if there is none to
    complete. -/
theorem lines_append_singleton (hx : x.getLast? ≠ some 0x0D) :
    lines (x ++ [0x0A]) = lines x ∨ lines (x ++ [0x0A]) = lines x ++ [[]] := by
  induction x with
  | nil => exact .inr rfl
  | cons b x ih =>
    by_cases hnil : x = []
    · subst hnil
      by_cases hfeed : b = 0x0A
      · rw [hfeed]
        exact .inr rfl
      · left
        have hreturn : b ≠ 0x0D := fun h => hx (congrArg some h)
        rw [List.cons_append, lines_cons, lines_cons, if_neg hfeed, if_neg hfeed,
          if_neg fun h => hreturn h.1, if_neg fun h => hreturn h.1]
        rfl
    · have hhead : (x ++ [0x0A]).head? = x.head? := List.head?_append_of_ne_nil x hnil
      rw [List.getLast?_cons_of_ne_nil hnil] at hx
      rw [List.cons_append, lines_cons, lines_cons, hhead]
      rcases ih hx with h | h
      · exact .inl (by rw [h])
      · right
        rw [h]
        split_ifs
        · rfl
        · rfl
        · exact extendFirst_append (lines_ne_nil hnil) _

end Lines

-- ============================================================================
-- Lines of a text
-- ============================================================================

/-- A byte below 0x80 occurs only in the character that it stands for. -/
theorem ne_of_mem_utf8EncodeChar {b : UInt8} {c d : Char} (hd : d.toNat < 0x80) (hcd : c ≠ d)
    (hb : b ∈ String.utf8EncodeChar c) : b ≠ UInt8.ofNat d.toNat := by
  rintro rfl
  have hcode : (UInt8.ofNat d.toNat).toNat = d.toNat :=
    UInt8.toNat_ofNat_of_lt' (Nat.lt_trans hd (by decide))
  by_cases hc : c.toNat < 0x80
  · rw [Json.utf8EncodeChar_of_lt hc, List.mem_singleton] at hb
    have hcode' : (UInt8.ofNat c.toNat).toNat = c.toNat :=
      UInt8.toNat_ofNat_of_lt' (Nat.lt_trans hc (by decide))
    exact hcd (Char.toNat_inj.1 (by rw [← hcode, ← hcode', hb]))
  · have hlarge := Json.le_of_mem_utf8EncodeChar (Nat.not_lt.1 hc) hb
    rw [UInt8.le_iff_toNat_le, hcode] at hlarge
    exact absurd hlarge (Nat.not_le.2 hd)

/-- Each line of a text is a text, and has no characters that the whole does not have. -/
theorem exists_of_mem_lines_encode {cs : List Char} {line : List UInt8}
    (h : line ∈ lines (Json.encode cs)) : ∃ ds, line = Json.encode ds ∧ ds ⊆ cs := by
  induction cs generalizing line with
  | nil => cases h
  | cons c cs ih =>
    have hrest : ∀ {line}, line ∈ lines (Json.encode cs) →
        ∃ ds, line = Json.encode ds ∧ ds ⊆ c :: cs := fun h =>
      (ih h).imp fun ds hds => ⟨hds.1, fun d hd => List.mem_cons_of_mem c (hds.2 hd)⟩
    have hempty : ∃ ds, [] = Json.encode ds ∧ ds ⊆ c :: cs := ⟨[], rfl, List.nil_subset _⟩
    have hsingle : Json.encode [c] = String.utf8EncodeChar c := List.append_nil _
    rw [Json.encode_cons] at h
    by_cases hfeed : c = '\n'
    · subst hfeed
      rw [show String.utf8EncodeChar '\n' = [0x0A] from rfl, List.singleton_append, lines_cons,
        if_pos rfl] at h
      rcases List.mem_cons.1 h with rfl | h
      · exact hempty
      · exact hrest h
    · -- what goes to the front of the next line is the whole character
      have hfront : line ∈ lines (Json.encode cs) ∨
          line ∈ extendFirst (String.utf8EncodeChar c) (lines (Json.encode cs)) := by
        by_cases hreturn : c = '\r'
        · subst hreturn
          rw [show String.utf8EncodeChar '\r' = [0x0D] from rfl, List.singleton_append, lines_cons,
            if_neg (by decide)] at h
          split_ifs at h
          · exact .inl h
          · exact .inr h
        · right
          rwa [lines_append] at h
          · exact List.ne_nil_of_length_pos (String.length_utf8EncodeChar c ▸ c.utf8Size_pos)
          · exact fun b hb => ⟨ne_of_mem_utf8EncodeChar (d := '\n') (by decide) hfeed hb,
              ne_of_mem_utf8EncodeChar (d := '\r') (by decide) hreturn hb⟩
      rcases hfront with h | h
      · exact hrest h
      · cases hlines : lines (Json.encode cs) with
        | nil =>
          rw [hlines] at h
          rw [List.mem_singleton.1 h]
          exact ⟨[c], hsingle.symm, List.cons_subset_cons c (List.nil_subset cs)⟩
        | cons first more =>
          rw [hlines] at h hrest
          rcases List.mem_cons.1 h with rfl | h
          · obtain ⟨ds, rfl, hds⟩ := ih (hlines ▸ List.mem_cons_self)
            exact ⟨c :: ds, (Json.encode_cons c ds).symm, List.cons_subset_cons c hds⟩
          · exact hrest (List.mem_cons_of_mem first h)

-- ============================================================================
-- Reading lines
-- ============================================================================

/-- Some lines are read, and then the others. -/
theorem readLines_append (before after : List (List UInt8)) :
    readLines (before ++ after) = do
      let values ← readLines before
      let more ← readLines after
      return values ++ more := by
  induction before with
  | nil =>
    show readLines after = _
    cases readLines after <;> rfl
  | cons line before ih =>
    rw [List.cons_append, readLines, readLines, ih]
    cases readLine line with
    | error fault => rfl
    | ok value =>
      cases readLines before with
      | error fault => rfl
      | ok values =>
        cases readLines after with
        | error fault => rfl
        | ok more => exact congrArg Except.ok (List.append_assoc value.toList values more).symm

/-- Lines of white space are passed over. -/
theorem readLines_of_blank {blanks : List (List UInt8)}
    (h : ∀ line ∈ blanks, readLine line = .ok none) : readLines blanks = .ok [] := by
  induction blanks with
  | nil => rfl
  | cons line blanks ih =>
    rw [readLines, h line List.mem_cons_self]
    dsimp only
    rw [ih fun x hx => h x (List.mem_cons_of_mem line hx)]
    rfl

theorem readLine_encode_blank {cs : List Char} (h : ∀ c ∈ cs, Text.isBlank c = true) :
    readLine (Json.encode cs) = .ok none := by
  rw [readLine, Json.fromUTF8?_encode]
  dsimp only
  rw [String.toList_ofList, if_pos (List.all_eq_true.2 h)]

/-- Whatever white space is made of, nothing is read from its lines. -/
theorem readLines_lines_blank {cs : List Char} (h : ∀ c ∈ cs, Text.isBlank c = true) :
    readLines (lines (Json.encode cs)) = .ok [] := by
  refine readLines_of_blank fun line hline => ?_
  obtain ⟨ds, rfl, hds⟩ := exists_of_mem_lines_encode hline
  exact readLine_encode_blank fun d hd => h d (hds hd)

/-- What is wrong with a line: it is no text, or it is text that is neither white space nor JSON.
    The place of a fault in JSON counts from the beginning of the line. -/
inductive Unreadable (line : List UInt8) : Fault → Prop where
  | notText (h : String.fromUTF8? ⟨line.toArray⟩ = none) : Unreadable line (.storage .notText)
  | notJson {text : String} {error : Json.Error}
      (htext : String.fromUTF8? ⟨line.toArray⟩ = some text)
      (hblank : ∃ c ∈ text.toList, Text.isBlank c = false)
      (hjson : Json.ofBytes line = .error error) : Unreadable line (.json error)

theorem readLine_eq_error_iff {line : List UInt8} {fault : Fault} :
    readLine line = .error fault ↔ Unreadable line fault := by
  constructor
  · intro h
    unfold readLine at h
    split at h
    · rename_i hnone
      cases h
      exact .notText hnone
    · rename_i text htext
      split at h
      · cases h
      · rename_i hblank
        split at h
        · rename_i error hjson
          cases h
          obtain ⟨c, hc, hnot⟩ := List.all_eq_false.1 (Bool.eq_false_iff.2 hblank)
          exact .notJson htext ⟨c, hc, Bool.eq_false_iff.2 hnot⟩ hjson
        · cases h
  · rintro (hnone | @⟨text, error, htext, ⟨c, hc, hblank⟩, hjson⟩)
    · rw [readLine, hnone]
    · have hall : text.toList.all Text.isBlank = false :=
        List.all_eq_false.2 ⟨c, hc, Bool.eq_false_iff.1 hblank⟩
      rw [readLine, htext]
      dsimp only
      rw [hall, if_neg Bool.false_ne_true, hjson]

/-- A line with which nothing is wrong is read. -/
theorem exists_readLine {line : List UInt8} (h : ∀ fault, ¬ Unreadable line fault) :
    ∃ value, readLine line = .ok value := by
  cases hline : readLine line with
  | error fault => exact absurd (readLine_eq_error_iff.1 hline) (h fault)
  | ok value => exact ⟨value, rfl⟩

/-- The fault of several lines is that of the first line with a fault. -/
theorem readLines_eq_error_iff {all : List (List UInt8)} {fault : Fault} :
    readLines all = .error fault ↔ ∃ before line after, all = before ++ line :: after ∧
      (∀ x ∈ before, ∀ other, ¬ Unreadable x other) ∧ Unreadable line fault := by
  constructor
  · intro h
    induction all with
    | nil => cases h
    | cons first rest ih =>
      rw [readLines] at h
      cases hfirst : readLine first with
      | error other =>
        rw [hfirst] at h
        cases h
        exact ⟨[], first, rest, rfl, nofun, readLine_eq_error_iff.1 hfirst⟩
      | ok value =>
        have hright : ∀ other, ¬ Unreadable first other := fun other hother => by
          rw [readLine_eq_error_iff.2 hother] at hfirst
          cases hfirst
        have hrest : readLines rest = .error fault := by
          rw [hfirst] at h
          cases hread : readLines rest <;> rw [hread] at h <;> cases h
          rfl
        obtain ⟨before, line, after, rfl, hbefore, hline⟩ := ih hrest
        exact ⟨first :: before, line, after, rfl, List.forall_mem_cons.2 ⟨hright, hbefore⟩, hline⟩
  · rintro ⟨before, line, after, rfl, hbefore, hline⟩
    induction before with
    | nil => rw [List.nil_append, readLines, readLine_eq_error_iff.2 hline]
    | cons x before ih =>
      obtain ⟨hx, hbefore⟩ := List.forall_mem_cons.1 hbefore
      obtain ⟨value, hvalue⟩ := exists_readLine hx
      rw [List.cons_append, readLines, hvalue]
      dsimp only
      rw [ih hbefore]
      rfl

/-- What is read of several lines is what is read of each, in order, without the blank ones. -/
theorem readLines_eq_ok_iff {all : List (List UInt8)} {values : List Json} :
    readLines all = .ok values ↔ ∃ read : List (Option Json),
      List.Forall₂ (fun line value => readLine line = .ok value) all read ∧
        values = read.flatMap Option.toList := by
  induction all generalizing values with
  | nil =>
    constructor
    · intro h
      cases h
      exact ⟨[], .nil, rfl⟩
    · rintro ⟨read, hread, rfl⟩
      cases hread
      rfl
  | cons line rest ih =>
    constructor
    · intro h
      rw [readLines] at h
      cases hline : readLine line with
      | error fault =>
        rw [hline] at h
        cases h
      | ok value =>
        rw [hline] at h
        cases hrest : readLines rest with
        | error fault =>
          rw [hrest] at h
          cases h
        | ok more =>
          rw [hrest] at h
          cases h
          obtain ⟨read, hread, rfl⟩ := ih.1 hrest
          exact ⟨value :: read, .cons hline hread, rfl⟩
    · rintro ⟨read, hread, rfl⟩
      cases hread with
      | @cons _ value _ read hline hrest =>
        rw [readLines, hline]
        dsimp only
        rw [ih.2 ⟨read, hrest, rfl⟩]
        rfl

-- ============================================================================
-- Recordings
-- ============================================================================

theorem readEvents_append_newline (x y : List UInt8) :
    readEvents (x ++ 0x0A :: y) = do
      let first ← readEvents (x ++ [0x0A])
      let second ← readEvents y
      return first ++ second := by
  rw [readEvents, lines_append_newline, readLines_append]
  rfl

/-- The last line feed makes no difference. -/
theorem readEvents_append_singleton {x : List UInt8} (hx : x.getLast? ≠ some 0x0D) :
    readEvents (x ++ [0x0A]) = readEvents x := by
  rw [readEvents, readEvents]
  rcases lines_append_singleton hx with h | h
  · rw [h]
  · have hempty : readLines [[]] = .ok [] := readLines_of_blank fun line hline => by
      rw [List.mem_singleton.1 hline]
      rfl
    rw [h, readLines_append, hempty]
    cases readLines (lines x) with
    | error fault => rfl
    | ok values => exact congrArg Except.ok (List.append_nil values)

/-- White space, in however many lines, reads as nothing. -/
theorem readEvents_blank {blank : String} (h : ∀ c ∈ blank.toList, Text.isBlank c = true) :
    readEvents (Json.bytesOfText blank) = .ok [] := by
  rw [← String.ofList_toList (s := blank), Json.bytesOfText_ofList]
  exact readLines_lines_blank h

theorem readEvents_blank_append {blank : String} (h : ∀ c ∈ blank.toList, Text.isBlank c = true)
    (y : List UInt8) : readEvents (Json.bytesOfText blank ++ 0x0A :: y) = readEvents y := by
  have hended : readEvents (Json.bytesOfText blank ++ [0x0A]) = .ok [] := by
    have hline : ∀ c ∈ blank.toList ++ ['\n'], Text.isBlank c = true := by
      intro c hc
      rcases List.mem_append.1 hc with hc | hc
      · exact h c hc
      · rw [List.mem_singleton.1 hc]
        decide
    have hblank := readLines_lines_blank hline
    rw [Json.encode_append, ← Json.bytesOfText_ofList, String.ofList_toList] at hblank
    exact hblank
  rw [readEvents_append_newline, hended]
  cases readEvents y <;> rfl

end GameSearch.Recording

namespace GameSearch

open Recording

/-- Recordings are read line by line.  Two parts with a line feed between them, the first of which
    does not end with a carriage return, read as one after the other, up to the first fault.  Lines
    of white space may be put before any line and at the end, and the last line feed may be missing.
    The fault is always that of the first line that is no text or no JSON; if there is none, the
    values are those of the lines.  Lines end at line feeds, with which the carriage return right
    before goes; all other bytes are theirs. -/
theorem readEvents_linewise :
    (∀ x y : List UInt8, x.getLast? ≠ some 0x0D →
      readEvents (x ++ 0x0A :: y) = do
        let first ← readEvents x
        let second ← readEvents y
        return first ++ second) ∧
    (∀ blank : String, (∀ c ∈ blank.toList, Text.isBlank c = true) → ∀ x y : List UInt8,
      readEvents (x ++ 0x0A :: (Json.bytesOfText blank ++ 0x0A :: y)) =
        readEvents (x ++ 0x0A :: y) ∧
      readEvents (Json.bytesOfText blank ++ 0x0A :: y) = readEvents y ∧
      readEvents (x ++ 0x0A :: Json.bytesOfText blank) = readEvents (x ++ [0x0A])) ∧
    (∀ x : List UInt8, x.getLast? ≠ some 0x0D → readEvents (x ++ [0x0A]) = readEvents x) ∧
    (∀ (x : List UInt8) (fault : Fault), readEvents x = .error fault ↔
      ∃ before line after, lines x = before ++ line :: after ∧
        (∀ l ∈ before, ∀ other, ¬ Unreadable l other) ∧ Unreadable line fault) ∧
    (∀ (x : List UInt8) (values : List Json), readEvents x = .ok values ↔
      ∃ read : List (Option Json),
        List.Forall₂ (fun line value => readLine line = .ok value) (lines x) read ∧
          values = read.flatMap Option.toList) ∧
    lines [] = [] ∧
    (∀ (b : UInt8) (s : List UInt8), lines (b :: s) =
      if b = 0x0A then [] :: lines s
      else if b = 0x0D ∧ s.head? = some 0x0A then lines s
      else extendFirst [b] (lines s)) ∧
    ∀ x y : List UInt8, lines (x ++ 0x0A :: y) = lines (x ++ [0x0A]) ++ lines y := by
  refine ⟨fun x y hx => ?_, fun blank hblank x y => ⟨?_, ?_, ?_⟩, fun x hx => ?_, fun x fault => ?_,
    fun x values => ?_, rfl, lines_cons, lines_append_newline⟩
  · rw [readEvents_append_newline, readEvents_append_singleton hx]
  · rw [readEvents_append_newline, readEvents_blank_append hblank, ← readEvents_append_newline]
  · exact readEvents_blank_append hblank y
  · rw [readEvents_append_newline, readEvents_blank hblank]
    cases readEvents (x ++ [0x0A]) with
    | error fault => rfl
    | ok values => exact congrArg Except.ok (List.append_nil values)
  · exact readEvents_append_singleton hx
  · exact readLines_eq_error_iff
  · exact readLines_eq_ok_iff

/-- A number and a byte that is no text, with a wide space and a carriage return on lines between
    them: the number is read before the fault is met, and nothing but the number without that
    byte.  An object that is not closed is found on a line of its own. -/
theorem readEvents_linewise_awkward :
    ([0x31] : List UInt8).getLast? ≠ some 0x0D ∧
    (∀ c ∈ "\u3000\n\r".toList, Text.isBlank c = true) ∧
    (readEvents ([0x31] ++ 0x0A :: [0xFF]) = do
      let first ← readEvents [0x31]
      let second ← readEvents [0xFF]
      return first ++ second) ∧
    readEvents ([0x31] ++ 0x0A :: (Json.bytesOfText "\u3000\n\r" ++ 0x0A :: [0xFF])) =
      readEvents ([0x31] ++ 0x0A :: [0xFF]) ∧
    readEvents ([0x31] ++ [0x0A]) = readEvents [0x31] ∧
    readEvents [0x31] = .ok [.integer 1] ∧
    readEvents ([0x31] ++ 0x0A :: [0xFF]) = .error (.storage .notText) ∧
    readEvents ([0x31] ++ 0x0A :: [0x20, 0x7B]) = .error (.json ⟨.eofInObject, 1, 2⟩) ∧
    lines [0x31, 0x0D, 0x0A, 0x0D, 0x32, 0x0D] = [[0x31], [0x0D, 0x32, 0x0D]] :=
  have hlast : ([0x31] : List UInt8).getLast? ≠ some 0x0D := by decide
  have hblank : ∀ c ∈ "\u3000\n\r".toList, Text.isBlank c = true :=
    List.all_eq_true.1 (by decide)
  ⟨hlast, hblank, readEvents_linewise.1 [0x31] [0xFF] hlast,
    (readEvents_linewise.2.1 _ hblank [0x31] [0xFF]).1, readEvents_linewise.2.2.1 [0x31] hlast,
    rfl, rfl, rfl, rfl⟩

end GameSearch
