import FsCore.ReadForms
import FsCore.Worker

namespace FsCore

/-- `strncpy` of the channel, and the other fields one by one. -/
def copyRecord (rec : LogRecord) : LogRecord :=
  { LogRecord.zero with
    timestamp := rec.timestamp
    canId := rec.canId
    direction := rec.direction
    dataLen := rec.dataLen
    data := rec.data
    isExtendedId := rec.isExtendedId
    isErrorFrame := rec.isErrorFrame
    isRemoteFrame := rec.isRemoteFrame
    bitrateSwitch := rec.bitrateSwitch
    errorStateIndicator := rec.errorStateIndicator
    isFd := rec.isFd
    channel := Vector.ofFn fun i => rec.channelText.getD i.val nul }

def parseLines (src : Text) : Except Nat (List LogRecord) :=
  List.map copyRecord <$> (⟨.hex, true, fun _ => none⟩ : AscReader).readAll src

/-- The bytes that `parse_line` takes off the end. -/
def isTrailing (c : Char) : Bool := c.toNat ≤ ' '.toNat

/-- `parse_line`: the first record of the line without its trailing bytes. -/
def parseLine (line : Text) : Except Nat (Option LogRecord) :=
  Option.map Prod.fst <$>
    (⟨.hex, true, fun _ => none⟩ : AscReader).next Binary64.zero (getLines (line.rdropWhile isTrailing))

section Copies

theorem copyRecord_of_channel {r : LogRecord} {s : Text} (h : r.channel = channelOf s) :
    copyRecord r = r := by
  have padded := channelOf_toList s
  have text : r.channelText = (s.takeWhile (· ≠ nul)).take 15 := by
    rw [LogRecord.channelText, h, takeWhile_channelOf]
  rw [← h, ← text] at padded
  generalize 16 - r.channelText.length = n at padded
  have same : (Vector.ofFn fun i : Fin 16 => r.channelText.getD i.val nul) = r.channel := by
    refine Vector.ext fun i hi => ?_
    have inside : i < (r.channelText ++ List.replicate n nul).length := by
      rw [← padded]
      simpa using hi
    have whole : r.channel[i] = (r.channelText ++ List.replicate n nul)[i] := by
      simp only [← padded, Vector.getElem_toList]
    rw [Vector.getElem_ofFn, whole, List.getD_eq_getElem?_getD]
    dsimp only
    rcases Nat.lt_or_ge i r.channelText.length with early | past
    · rw [List.getElem?_eq_getElem early, Option.getD_some, List.getElem_append_left early]
    · rw [List.getElem?_eq_none past, Option.getD_none, List.getElem_append_right past,
        List.getElem_replicate]
  rw [copyRecord, same]

theorem record_channel {reader : AscReader} {startTime : Binary64} {raw : Text} {r : LogRecord}
    (h : reader.parseLine startTime raw = .record r) : ∃ s, r.channel = channelOf s := by
  obtain ⟨_, t, _, read⟩ := parseLine_record_iff.mp h
  obtain ⟨_, _, read⟩ := parse_bind_ok.mp read
  have kept := read_channel read
  exact ⟨t.channel, kept⟩

theorem lineRecords_copy {reader : AscReader} (lines : List Text) :
    List.map copyRecord <$> reader.lineRecords lines = reader.lineRecords lines := by
  induction lines with
  | nil => rfl
  | cons raw lines ih =>
    rw [AscReader.lineRecords]
    cases hl : reader.parseLine Binary64.zero raw with
    | startTime t => exact ih
    | skipped => exact ih
    | record r =>
      obtain ⟨s, channel⟩ := record_channel hl
      have own := copyRecord_of_channel channel
      revert ih
      dsimp only
      cases reader.lineRecords lines with
      | ok records =>
        intro ih
        have ih : records.map copyRecord = records := Except.ok.inj ih
        change Except.ok ((r :: records).map copyRecord) = Except.ok (r :: records)
        rw [List.map_cons, own, ih]
      | error i => exact fun _ => rfl
    | outOfBounds i => rfl

/-- The copy of each record is the record. -/
theorem parseLines_eq (src : Text) : parseLines src = workerReader.readAll src := by
  rw [parseLines, workerReader, AscReader.readAll_relative rfl]
  exact lineRecords_copy _

end Copies

section Texts

theorem parseLines_lines (src : Text) : parseLines src = workerReader.lineRecords (getLines src) := by
  rw [parseLines_eq, AscReader.readAll_relative rfl]

/-- A line on its own gives what it gives in a text. -/
theorem parseLines_line {raw : Text} (one : '\n' ∉ raw) :
    parseLines raw = workerReader.lineRecords [raw] := by
  rw [parseLines_lines]
  cases raw with
  | nil => exact (AscReader.lineRecords_nil_line []).symm
  | cons c rest => rw [getLines_line (List.cons_ne_nil c rest) one]

theorem next_line (reader : AscReader) (raw : Text) :
    Option.toList <$> (Option.map Prod.fst <$> reader.next Binary64.zero [raw]) =
      reader.lineRecords [raw] := by
  rw [AscReader.next, AscReader.lineRecords]
  cases reader.parseLine Binary64.zero raw <;> rfl

theorem parseLine_eq {line : Text} (one : '\n' ∉ line) :
    Option.toList <$> parseLine line = parseLines (line.rdropWhile isTrailing) := by
  have one' : '\n' ∉ line.rdropWhile isTrailing :=
    fun mem => one ((List.rdropWhile_prefix isTrailing line).subset mem)
  rw [parseLine, parseLines_line one']
  cases h : line.rdropWhile isTrailing with
  | nil => exact (AscReader.lineRecords_nil_line []).symm
  | cons c rest =>
    rw [h] at one'
    rw [getLines_line (List.cons_ne_nil c rest) one']
    exact next_line workerReader _

/-- Lines are independent: the records of a text are those of its lines, one after another. -/
theorem parseLines_append : (∀ s t, parseLines (s ++ '\n' :: t) = (do
      let first ← parseLines s
      let rest ← parseLines t
      pure (first ++ rest))) ∧
    ∀ src, parseLines src = List.flatten <$> (getLines src).mapM parseLines := by
  constructor
  · intro s t
    have blank : workerReader.lineRecords (getLines (s ++ ['\n'])) =
      workerReader.lineRecords (getLines s) := by
      rcases getLines_newline s with same | more
      · rw [same]
      · have none : workerReader.lineRecords [[]] = pure [] := AscReader.lineRecords_nil_line []
        rw [more, AscReader.lineRecords_append, none]
        simp
    rw [parseLines_lines, parseLines_lines, parseLines_lines, getLines_append,
      AscReader.lineRecords_append, blank]
  · intro src
    rw [parseLines_lines]
    have one : ∀ raw ∈ getLines src, '\n' ∉ raw := fun raw h => not_mem_getLines h
    generalize getLines src = lines at one
    induction lines with
    | nil => rfl
    | cons raw lines ih =>
      obtain ⟨first, rest⟩ := List.forall_mem_cons.mp one
      rw [← List.singleton_append, AscReader.lineRecords_append, ← parseLines_line first, ih rest]
      simp

theorem lineRecords_trimCopy {reader : AscReader} {raw raw' : Text} (h : trimCopy raw = trimCopy raw') :
    reader.lineRecords [raw] = reader.lineRecords [raw'] := by
  simp only [AscReader.lineRecords, AscReader.parseLine, h]

/-- `parse_line` is `parse_lines` on the line without its trailing bytes, and on the line itself
when these are white space for the reader too. -/
theorem parseLines_parseLine {line : Text} (one : '\n' ∉ line) :
    parseLines (line.rdropWhile isTrailing) = Option.toList <$> parseLine line ∧
      ((line.rtakeWhile isTrailing).all isSpace = true →
        parseLines line = Option.toList <$> parseLine line) := by
  refine ⟨(parseLine_eq one).symm, fun blanks => ?_⟩
  have one' : '\n' ∉ line.rdropWhile isTrailing :=
    fun mem => one ((List.rdropWhile_prefix isTrailing line).subset mem)
  have trimmed : trimCopy line = trimCopy (line.rdropWhile isTrailing) := by
    calc trimCopy line
        = trimCopy (line.rdropWhile isTrailing ++ line.rtakeWhile isTrailing) := by
          rw [List.rdropWhile_append_rtakeWhile]
      _ = trimCopy (line.rdropWhile isTrailing) := trimCopy_append (List.all_eq_true.mp blanks)
  rw [parseLine_eq one, parseLines_line one, parseLines_line one', lineRecords_trimCopy trimmed]

end Texts

def recordSample : Text := "0.5 1 10 Rx d 1 7".toList

theorem parseLines_parseLine_sample :
    parseLines ((recordSample ++ " \r".toList).rdropWhile isTrailing) =
        Option.toList <$> parseLine (recordSample ++ " \r".toList) ∧
      parseLines (recordSample ++ " \r".toList) =
        Option.toList <$> parseLine (recordSample ++ " \r".toList) :=
  ⟨(parseLines_parseLine (by decide)).1, (parseLines_parseLine (by decide)).2 (by decide)⟩

/-- A control byte behind the last token is trimmed by one function only. -/
theorem control_byte_trimmed_once : ¬ ∀ line, '\n' ∉ line →
    parseLines line = Option.toList <$> parseLine line := by
  intro all
  have same := all (recordSample ++ [Char.ofNat 1]) (by decide)
  have none : (parseLines (recordSample ++ [Char.ofNat 1])).toOption.map List.length =
    some 0 := by decide +kernel
  have one :
      (Option.toList <$> parseLine (recordSample ++ [Char.ofNat 1])).toOption.map List.length =
        some 1 := by
    decide +kernel
  rw [← same, none] at one
  cases one

end FsCore
