import FsCore.RecordText

namespace FsCore

section Lines

open Regex

def kDateRegex : Regex Char :=
  sequence [icase "date", plus space, plus wordChar, plus space, plus dot]

/-- With the alternatives of its first group. -/
def kBaseRegex (group : Regex Char) : Regex Char :=
  sequence [icase "base", plus space, group,
    alt (sequence [plus space, icase "timestamps", plus space,
      alt (icase "absolute") (icase "relative")]) empty]

def kCommentRegex : Regex Char := sequence [exactly "//", star dot]

def kEventsRegex : Regex Char :=
  sequence [alt (icase "no") empty, star space, icase "internal", plus space,
    icase "events", plus space, icase "logged"]

/-- The base that the first group of a base line names. -/
def checkBase (line : Text) : Option Base :=
  if line ∈ (kBaseRegex (icase "hex")).language then some .hex
  else if line ∈ (kBaseRegex (icase "dec")).language then some .dec
  else none

end Lines

/-- The base after the header, and the lines after the one that ends the loop.
With relative timestamps no date is converted. -/
def extractHeader (base : Base) : List Text → Base × List Text
  | [] => (base, [])
  | raw :: lines =>
    let line := trimCopy raw
    if line ∈ kDateRegex.language then extractHeader base lines
    else
      match checkBase line with
      | some declared => extractHeader declared lines
      | none => if line ∈ kCommentRegex.language then extractHeader base lines else (base, lines)

/-- A date, a base or a comment. -/
def IsHeaderField (raw : Text) : Prop :=
  trimCopy raw ∈ kDateRegex.language ∨ (checkBase (trimCopy raw)).isSome ∨
    trimCopy raw ∈ kCommentRegex.language

instance (raw : Text) : Decidable (IsHeaderField raw) := inferInstanceAs (Decidable (_ ∨ _ ∨ _))

def IsEventsLine (raw : Text) : Prop := trimCopy raw ∈ kEventsRegex.language

/-- Fields in any number and order, and then the events line or not. -/
def IsHeader (header : List Text) : Prop :=
  ∃ fields events, header = fields ++ events ∧ (∀ raw ∈ fields, IsHeaderField raw) ∧
    events.length ≤ 1 ∧ ∀ raw ∈ events, IsEventsLine raw

/-- What the header reader finds in a header. -/
def declaredBase (header : List Text) : Base := (extractHeader .hex header).1

section Skipped

open Regex

theorem extractHeader_field {raw : Text} (h : IsHeaderField raw) (base : Base) :
    ∃ found, ∀ lines, extractHeader base (raw :: lines) = extractHeader found lines := by
  by_cases date : trimCopy raw ∈ kDateRegex.language
  · exact ⟨base, fun lines => if_pos date⟩
  · cases declared : checkBase (trimCopy raw) with
    | some found => exact ⟨found, fun lines => by simp only [extractHeader, if_neg date, declared]⟩
    | none =>
      rcases h with h | h | comment
      · exact absurd h date
      · rw [declared] at h
        cases h
      · exact ⟨base, fun lines => by simp only [extractHeader, if_neg date, declared, if_pos comment]⟩

theorem extractHeader_other {raw : Text} (h : ¬ IsHeaderField raw) (base : Base) (lines : List Text) :
    extractHeader base (raw :: lines) = (base, lines) := by
  obtain ⟨date, h⟩ := not_or.mp h
  obtain ⟨declared, comment⟩ := not_or.mp h
  rw [Option.not_isSome_iff_eq_none] at declared
  simp only [extractHeader, if_neg date, declared, if_neg comment]

/-- The line that ends the header is taken off the stream with it, be it a record or not. -/
theorem extractHeader_append {base : Base} {fields lines : List Text} {raw : Text}
    (h : ∀ raw ∈ fields, IsHeaderField raw) (other : ¬ IsHeaderField raw) :
    extractHeader base (fields ++ raw :: lines) = ((extractHeader base fields).1, lines) := by
  induction fields generalizing base with
  | nil => exact extractHeader_other other base lines
  | cons field fields ih =>
    obtain ⟨first, rest⟩ := List.forall_mem_cons.mp h
    obtain ⟨found, step⟩ := extractHeader_field first base
    rw [List.cons_append, step, step, ih rest]

theorem mem_logRecord_head {w : Text} (h : w ∈ kLogRecordRegex.language) :
    ∃ c rest, w = c :: rest ∧ c.isDigit = true := by
  obtain ⟨whole, rest, hw, -, rfl⟩ := mem_sequence_cons.mp h
  obtain ⟨ne, digit⟩ := mem_plus_one_iff.mp hw
  cases whole with
  | nil => exact absurd rfl ne
  | cons c whole => exact ⟨c, whole ++ rest, rfl, digit c (by simp)⟩

theorem not_mem_logRecord {w : Text} (h : ∀ c ∈ w.head?, c.isDigit = false) :
    w ∉ kLogRecordRegex.language := by
  intro mem
  obtain ⟨c, rest, rfl, digit⟩ := mem_logRecord_head mem
  rw [h c rfl] at digit
  cases digit

theorem icase_not_logRecord {s : String} {a : Char} {as w : Text} {parts : List (Regex Char)}
    (hs : s.toList = a :: as) (letter : a.toLower.isDigit = false)
    (h : w ∈ (sequence (icase s :: parts)).language) : w ∉ kLogRecordRegex.language := by
  obtain ⟨u, v, hu, -, rfl⟩ := mem_sequence_cons.mp h
  obtain ⟨c, rest, rfl, plain⟩ := icase_head hs letter hu
  exact not_mem_logRecord fun d hd => by cases hd; exact plain

theorem checkBase_base {line : Text} (h : (checkBase line).isSome) :
    ∃ group, line ∈ (kBaseRegex group).language := by
  unfold checkBase at h
  split at h
  next mem => exact ⟨_, mem⟩
  next =>
    split at h
    next mem => exact ⟨_, mem⟩
    next => cases h

theorem headerField_not_logRecord {raw : Text} (h : IsHeaderField raw) :
    trimCopy raw ∉ kLogRecordRegex.language := by
  rcases h with date | base | comment
  · exact icase_not_logRecord rfl (by decide) date
  · obtain ⟨group, mem⟩ := checkBase_base base
    exact icase_not_logRecord rfl (by decide) mem
  · obtain ⟨u, v, hu, -, eq⟩ := mem_sequence_cons.mp comment
    rw [mem_exactly_iff] at hu
    rw [eq, hu]
    exact not_mem_logRecord fun d hd => by cases hd; rfl

theorem eventsLine_not_logRecord {raw : Text} (h : IsEventsLine raw) :
    trimCopy raw ∉ kLogRecordRegex.language := by
  obtain ⟨no, rest, hno, hrest, eq⟩ := mem_sequence_cons.mp h
  rw [eq]
  rcases mem_alt_iff.mp hno with no' | none
  · obtain ⟨c, tail, rfl, plain⟩ := icase_head rfl (by decide) no'
    exact not_mem_logRecord fun d hd => by cases hd; exact plain
  · obtain ⟨gap, after, hgap, hafter, rfl⟩ := mem_sequence_cons.mp hrest
    rw [(Language.mem_one no).mp none, List.nil_append]
    cases gap with
    | nil => exact icase_not_logRecord rfl (by decide) hafter
    | cons c gap =>
      have blank : isSpace c = true := mem_star_one_iff.mp hgap c (by simp)
      refine not_mem_logRecord fun d hd => Bool.eq_false_iff.mpr fun digit => ?_
      cases hd
      rw [isSpace_eq_false ((digitValue_of_isDigit digit).trans (by decide))] at blank
      cases blank

end Skipped

namespace AscReader

variable {reader : AscReader}

/-- No line of a header gives a record or hides one. -/
theorem lineRecords_header {header lines : List Text} (h : IsHeader header) :
    reader.lineRecords (header ++ lines) = reader.lineRecords lines := by
  obtain ⟨fields, events, rfl, hfields, -, hevents⟩ := h
  have other : ∀ raw ∈ fields ++ events, trimCopy raw ∉ kLogRecordRegex.language := by
    intro raw mem
    rcases List.mem_append.mp mem with mem | mem
    · exact headerField_not_logRecord (hfields raw mem)
    · exact eventsLine_not_logRecord (hevents raw mem)
  generalize fields ++ events = header at other
  induction header with
  | nil => rfl
  | cons raw header ih =>
    obtain ⟨first, rest⟩ := List.forall_mem_cons.mp other
    rw [List.cons_append, lineRecords_other first, ih rest]

theorem lineRecords_record_iff {raw : Text} {r : LogRecord} {lines : List Text}
    {records : List LogRecord} (h : reader.parseLine Binary64.zero raw = .record r) :
    reader.lineRecords (raw :: lines) = .ok records ↔
      ∃ rest, reader.lineRecords lines = .ok rest ∧ records = r :: rest := by
  rw [lineRecords, h]
  dsimp only
  cases reader.lineRecords lines with
  | ok rest =>
    constructor
    · intro h
      cases h
      exact ⟨rest, rfl, rfl⟩
    · intro h
      obtain ⟨_, h, rfl⟩ := h
      cases h
      rfl
  | error i => exact iff_of_false (fun h => by cases h) fun h => by obtain ⟨_, h, _⟩ := h; cases h

/-- A line gives one record or none. -/
theorem lineRecords_cons_ok {raw : Text} {lines : List Text} {records : List LogRecord}
    (h : reader.lineRecords (raw :: lines) = .ok records) : reader.lineRecords lines = .ok records ∨
      ∃ r rest, reader.parseLine Binary64.zero raw = .record r ∧ reader.lineRecords lines = .ok rest ∧
        records = r :: rest := by
  cases hl : reader.parseLine Binary64.zero raw with
  | startTime t =>
    rw [lineRecords, hl] at h
    exact Or.inl h
  | skipped =>
    rw [lineRecords, hl] at h
    exact Or.inl h
  | record r =>
    obtain ⟨rest, hrest, rfl⟩ := (lineRecords_record_iff hl).mp h
    exact Or.inr ⟨r, rest, rfl, hrest, rfl⟩
  | outOfBounds i =>
    rw [lineRecords, hl] at h
    cases h

theorem lineRecords_length {lines : List Text} {records : List LogRecord}
    (h : reader.lineRecords lines = .ok records) : records.length ≤ lines.length := by
  induction lines generalizing records with
  | nil =>
    cases h
    exact le_rfl
  | cons raw lines ih =>
    rw [List.length_cons]
    rcases lineRecords_cons_ok h with later | ⟨r, rest, -, hrest, rfl⟩
    · exact (ih later).trans (Nat.le_succ _)
    · exact Nat.succ_le_succ (ih hrest)

/-- As many records as lines: each line gives its own. -/
theorem lineRecords_eq_iff {lines : List Text} {records : List LogRecord}
    (h : lines.length = records.length) : reader.lineRecords lines = .ok records ↔
      List.Forall₂ (fun raw r => reader.parseLine Binary64.zero raw = .record r) lines records := by
  induction lines generalizing records with
  | nil =>
    cases records with
    | nil => exact iff_of_true rfl .nil
    | cons r records => cases h
  | cons raw lines ih =>
    cases records with
    | nil => cases h
    | cons r records =>
      have size : lines.length = records.length := Nat.succ.inj h
      rw [List.forall₂_cons]
      constructor
      · intro read
        rcases lineRecords_cons_ok read with lost | ⟨r', rest, own, hrest, eq⟩
        · have short := lineRecords_length lost
          rw [List.length_cons] at short
          omega
        · cases eq
          exact ⟨own, (ih size).mp hrest⟩
      · intro read
        exact (lineRecords_record_iff read.1).mpr ⟨records, (ih size).mpr read.2, rfl⟩

end AscReader

end FsCore
