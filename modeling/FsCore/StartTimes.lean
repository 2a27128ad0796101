import FsCore.AcceptedLines
import FsCore.AscHeader

namespace FsCore

def LogRecord.at (r : LogRecord) (time : Binary64) : LogRecord := { r with timestamp := time }

/-- The record at so long after a start time. -/
def LogRecord.since (startTime : Binary64) (r : LogRecord) : LogRecord :=
  r.at (r.timestamp.add startTime)

namespace AscReader

/-- The reader that a caller gets who asks for relative timestamps. -/
def relative (reader : AscReader) : AscReader := { reader with relativeTimestamp := true }

def IsTrigger (raw : Text) : Prop := trimCopy raw ∈ kAscTriggerRegex.language

instance (raw : Text) : Decidable (IsTrigger raw) := inferInstanceAs (Decidable (_ ∈ Regex.language _))

/-- The time of the last trigger block before a line, given what is before it. -/
def startTimeAfter (reader : AscReader) (before : List Text) : Binary64 :=
  match before.reverse.find? IsTrigger with
  | none => Binary64.zero
  | some raw => reader.triggerTime (trimCopy raw)

/-- One start time for each line that is a record. -/
def startTimes (reader : AscReader) (before : List Text) : List Text → List Binary64
  | [] => []
  | raw :: lines =>
    let later := reader.startTimes (before ++ [raw]) lines
    if (reader.relative.parseLine Binary64.zero raw).toRecord.isSome then
      reader.startTimeAfter before :: later
    else later

end AscReader

section Frames

variable {base : Base} {msg r : LogRecord}

theorem read_at {t : FrameText} (h : t.read base msg = .ok r) (time : Binary64) :
    t.read base (msg.at time) = .ok (r.at time) ∧ r.timestamp = msg.timestamp := by
  cases t with
  | errorFrame =>
    cases h
    exact ⟨rfl, rfl⟩
  | remote direction canId dlc =>
    obtain ⟨id, len, hid, hlen, rfl⟩ := read_remote_iff.mp h
    exact ⟨read_remote_iff.mpr ⟨id, len, hid, hlen, rfl⟩, rfl⟩
  | data direction canId dlcStr bytes =>
    obtain ⟨id, n, v, hid, hn, hv, rfl⟩ := read_data_iff.mp h
    exact ⟨read_data_iff.mpr ⟨id, n, v, hid, hn, hv, rfl⟩, rfl⟩
  | fd direction canId fields =>
    obtain ⟨id, dlc, n, v, hid, hdlc, hn, hv, rfl⟩ := read_fd_iff.mp h
    exact ⟨read_fd_iff.mpr ⟨id, dlc, n, v, hid, hdlc, hn, hv, rfl⟩, rfl⟩

end Frames

namespace AscReader

variable {reader : AscReader} {startTime : Binary64} {raw : Text} {r : LogRecord}

/-- A record that is read with no start time, read with one. -/
theorem parseLine_since (h : reader.relative.parseLine Binary64.zero raw = .record r) :
    reader.parseLine startTime raw = .record (r.since startTime) := by
  obtain ⟨line, t, ht, hr⟩ := parseLine_record_iff.mp h
  obtain ⟨ts, hts, hr⟩ := parse_bind_ok.mp hr
  have same := stod_add_zero (convert_ok_iff.mp hts)
  obtain ⟨read, stamp⟩ := read_at hr (ts.add startTime)
  have stamp : r.timestamp = ts := stamp.trans same
  refine parseLine_record_iff.mpr ⟨line, t, ht, parse_bind_ok.mpr ⟨ts, hts, ?_⟩⟩
  rw [LogRecord.since, stamp]
  exact read

theorem record_isNaN (h : reader.parseLine Binary64.zero raw = .record r) :
    r.timestamp.isNaN = false := by
  obtain ⟨t, ts, -, hts, hr⟩ := record_frame h
  have stamp : r.timestamp = ts.add Binary64.zero := (read_at hr Binary64.zero).2
  rw [stamp, stod_add_zero hts]
  exact stod_isNaN hts

theorem parseLine_startTime_iff {t : Binary64} : reader.parseLine startTime raw = .startTime t ↔
    IsTrigger raw ∧ t = reader.triggerTime (trimCopy raw) := by
  unfold parseLine IsTrigger
  dsimp only
  split
  next trigger => simp [trigger, eq_comm]
  next other =>
    refine iff_of_false (fun h => ?_) (fun h => other h.1)
    split at h
    next => cases h
    next =>
      split at h
      next => split at h <;> cases h
      next => cases h

/-- The start time changes no decision about a line. -/
theorem parseLine_relative : reader.parseLine startTime raw =
    match reader.relative.parseLine Binary64.zero raw with
    | .startTime _ => .startTime (reader.triggerTime (trimCopy raw))
    | .skipped => .skipped
    | .record r => .record (r.since startTime)
    | .outOfBounds i => .outOfBounds i := by
  cases h : reader.relative.parseLine Binary64.zero raw with
  | startTime t => exact parseLine_startTime_iff.mpr ⟨(parseLine_startTime_iff.mp h).1, rfl⟩
  | record r => exact parseLine_since h
  | outOfBounds i =>
    have overlong : i = 64 ∧ Overlong reader.relative.base raw := parseLine_iff.mp h
    exact parseLine_iff.mpr overlong
  | skipped =>
    cases hl : reader.parseLine startTime raw with
    | skipped => rfl
    | startTime t =>
      have start : reader.relative.parseLine Binary64.zero raw =
          .startTime (reader.relative.triggerTime (trimCopy raw)) :=
        parseLine_startTime_iff.mpr ⟨(parseLine_startTime_iff.mp hl).1, rfl⟩
      rw [h] at start
      cases start
    | record r =>
      have accepted : Accepted reader.base raw := parseLine_isRecord_iff.mp ⟨r, hl⟩
      obtain ⟨r', read⟩ := (@parseLine_isRecord_iff Binary64.zero reader.relative raw).mpr accepted
      rw [h] at read
      cases read
    | outOfBounds i =>
      have overlong : i = 64 ∧ Overlong reader.base raw := parseLine_iff.mp hl
      have stop : reader.relative.parseLine Binary64.zero raw = .outOfBounds i :=
        parseLine_iff.mpr overlong
      rw [h] at stop
      cases stop

/-- The lines after `before`, read with the start time that those leave. -/
theorem nextLoop_since {before lines : List Text} {fuel : Nat} (enough : lines.length < fuel) :
    reader.nextLoop fuel (reader.startTimeAfter before) lines =
      (reader.relative.lineRecords lines).map
        (List.zipWith LogRecord.since (reader.startTimes before lines)) ∧
    ∀ records, reader.relative.lineRecords lines = .ok records →
      (reader.startTimes before lines).length = records.length := by
  induction lines generalizing before fuel with
  | nil =>
    cases fuel with
    | zero => cases enough
    | succ fuel => exact ⟨rfl, fun records h => by cases h; rfl⟩
  | cons raw lines ih =>
    rw [List.length_cons] at enough
    cases fuel with
    | zero => cases enough
    | succ fuel =>
      have outcome := @parseLine_relative reader (reader.startTimeAfter before) raw
      have same (other : ¬ IsTrigger raw) : reader.startTimeAfter (before ++ [raw]) =
        reader.startTimeAfter before := by
        simp [startTimeAfter, other]
      have untriggered {t : Binary64}
        (h : ∀ t, reader.relative.parseLine Binary64.zero raw ≠ .startTime t) :
          ¬ IsTrigger raw := fun trigger => h _ (parseLine_startTime_iff.mpr ⟨trigger, rfl⟩)
      rw [nextLoop_cons, outcome, lineRecords, startTimes]
      cases h : reader.relative.parseLine Binary64.zero raw with
      | startTime t =>
        have trigger : IsTrigger raw := (parseLine_startTime_iff.mp h).1
        have last : reader.startTimeAfter (before ++ [raw]) = reader.triggerTime (trimCopy raw) := by
          simp [startTimeAfter, trigger]
        rw [← last]
        exact ih (by omega)
      | skipped =>
        rw [← same (@untriggered .zero (by simp [h]))]
        exact ih (by omega)
      | outOfBounds i => exact ⟨rfl, fun records h => by cases h⟩
      | record r =>
        have none := same (@untriggered .zero (by simp [h]))
        obtain ⟨rest, size⟩ := @ih (before ++ [raw]) fuel (by omega)
        rw [none] at rest
        simp only [LineOutcome.toRecord, Option.isSome_some, if_true, rest]
        cases hl : reader.relative.lineRecords lines with
        | error i => exact ⟨rfl, fun records h => by cases h⟩
        | ok records =>
          refine ⟨rfl, fun all h => ?_⟩
          cases h
          exact congrArg Nat.succ (size records hl)

/-- The records of a log are those that it has with relative timestamps, each moved by the
time of the last trigger block before its line. -/
theorem readAll_since (reader : AscReader) (text : Text) :
    reader.readAll text = (reader.relative.readAll text).map
        (List.zipWith LogRecord.since (reader.startTimes [] (getLines text))) ∧
      ∀ records, reader.relative.readAll text = .ok records →
        (reader.startTimes [] (getLines text)).length = records.length := by
  rw [@readAll_relative reader.relative rfl]
  exact @nextLoop_since reader [] (getLines text) _ (Nat.lt_succ_self _)

theorem lineRecords_isNaN {lines : List Text} {records : List LogRecord}
    (h : reader.lineRecords lines = .ok records) : ∀ r ∈ records, r.timestamp.isNaN = false := by
  induction lines generalizing records with
  | nil =>
    cases h
    exact fun r hr => (List.not_mem_nil hr).elim
  | cons raw lines ih =>
    rcases lineRecords_cons_ok h with later | ⟨r, rest, own, hrest, rfl⟩
    · exact ih later
    · exact List.forall_mem_cons.mpr ⟨record_isNaN own, ih hrest⟩

end AscReader

end FsCore
