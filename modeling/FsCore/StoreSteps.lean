import FsCore.Image

namespace FsCore

/-- What append_index writes, in one piece. -/
def IndexTables.appendRow (row : Nat) (entry : ParsedEntry) (t : IndexTables) : IndexTables :=
  ((t.insertRow row entry.appendedRow).insertCanId entry.appendedRow.canId).insertChannel
    entry.appendedRow.channel

/-- The row that a record becomes: it is linked to the last row of its id. -/
def Image.entryFor (g : Image) (record : LogRecord) : ParsedEntry :=
  let prev := (g.lastRow record.canId).getD kInvalidRow
  parsedEntry record prev (g.row prev.toNat).toLogRecord

/-- The row goes to the next index and the header counts it. -/
def Image.store (g : Image) (entry : ParsedEntry) : Image :=
  { g with
    header := { g.header with writeCount := g.nextIndex + 1 }
    row := Function.update g.row g.nextIndex entry
    nextIndex := g.nextIndex + 1 }

def Image.append (g : Image) (record : LogRecord) : Image :=
  { g.store (g.entryFor record) with
    lastRow := Function.update g.lastRow record.canId (some (UInt32.ofNat g.nextIndex))
    index := g.index.write (IndexTables.appendRow g.nextIndex (g.entryFor record)) }

@[simp] theorem append_nextIndex (g : Image) (record : LogRecord) :
    (g.append record).nextIndex = g.nextIndex + 1 := rfl

@[simp] theorem append_writeCount (g : Image) (record : LogRecord) :
    (g.append record).header.writeCount = g.nextIndex + 1 := rfl

theorem append_row_last (g : Image) (record : LogRecord) :
    (g.append record).row g.nextIndex = g.entryFor record := Function.update_self _ _ _

theorem append_row_of_ne {g : Image} {r : Nat} (h : r ≠ g.nextIndex) (record : LogRecord) :
    (g.append record).row r = g.row r := Function.update_of_ne h _ _

theorem append_lastRow_self (g : Image) (record : LogRecord) :
    (g.append record).lastRow record.canId = some (UInt32.ofNat g.nextIndex) :=
  Function.update_self _ _ _

theorem append_lastRow_of_ne {g : Image} {record : LogRecord} {id : UInt32} (h : id ≠ record.canId) :
    (g.append record).lastRow id = g.lastRow id := Function.update_of_ne h _ _

def Image.put (g : Image) (row : Nat) (entry : ParsedEntry) : Image :=
  { g with
    row := Function.update g.row row entry
    nextIndex := if row = g.nextIndex then g.nextIndex + 1 else g.nextIndex
    index := g.index.write (IndexTables.updateRow row entry.indexRow) }

/-- A row with a new record, compared again with the row before it. -/
def Image.recompute (g : Image) (row : Nat) (record : LogRecord) : ParsedEntry :=
  recomputed (g.row row) record (g.row (g.row row).prevSameCan.toNat).toLogRecord

def Image.begin (g : Image) : Image :=
  { g with index := { g.index with transaction := some g.index.committed } }

def Image.commit (g : Image) : Image := { g with index := ⟨g.index.tables, none⟩ }

/-- The edited row and, where it is linked to one, the row after it. -/
def Image.edit (g : Image) (row : Nat) (record : LogRecord) : Image :=
  let current := g.recompute row record
  let h := g.put row current
  let next := current.nextSameCan.toNat
  if current.nextSameCan = kInvalidRow then h
  else h.put next (repaired (h.row next) current.toLogRecord)

/-- A whole batch is one transaction. -/
def Image.appendAll (g : Image) (entries : List LogRecord) : Image :=
  (entries.foldl Image.append g.begin).commit

theorem IndexDb.write_write (db : IndexDb) (f h : IndexTables → IndexTables) :
    (db.write f).write h = db.write (fun t => h (f t)) := by
  cases htx : db.transaction <;> simp [IndexDb.write, htx]

/-- An update of a row takes a timestamp: it is a number, or there is no such row. -/
def IndexTables.Takes (t : IndexTables) (row : Nat) (timestamp : Binary64) : Prop :=
  timestamp.isNaN = false ∨ t.holds row = false

theorem stepNotNull_ok {timestamp : Binary64} {touches : IndexTables → Bool}
    {f : IndexTables → IndexTables} {s t : Session}
    (h : stepNotNull timestamp touches f s = (.ok (), t)) :
    (timestamp.isNaN = false ∨ touches s.index.tables = false) ∧
      ∃ rest, t = { s with faults := rest, index := s.index.write f } := by
  obtain ⟨_, mid, hcall, h⟩ := Effect.bind_eq_ok_iff.mp h
  obtain ⟨rest, rfl⟩ := call_ok hcall
  rw [Effect.read_bind] at h
  split at h
  next => cases h
  next number =>
    cases h
    rw [Bool.and_eq_true, not_and_or, Bool.not_eq_true, Bool.not_eq_true] at number
    exact ⟨number, rest, rfl⟩

theorem appendIndex_ok {row : Nat} {entry : ParsedEntry} {s t : Session}
    (h : appendIndex row entry s = (.ok (), t)) :
    entry.timestamp.isNaN = false ∧ ∃ rest,
      t = { s with faults := rest, index := s.index.write (IndexTables.appendRow row entry) } := by
  obtain ⟨_, a, hrow, h⟩ := Effect.bind_eq_ok_iff.mp h
  obtain ⟨number, _, rfl⟩ := stepNotNull_ok hrow
  have number := number.resolve_right (by simp)
  obtain ⟨_, b, hcall, h⟩ := Effect.bind_eq_ok_iff.mp h
  obtain ⟨_, rfl⟩ := call_ok hcall
  obtain ⟨_, c, hid, h⟩ := Effect.bind_eq_ok_iff.mp h
  cases hid
  obtain ⟨_, d, hcall, h⟩ := Effect.bind_eq_ok_iff.mp h
  obtain ⟨rest, rfl⟩ := call_ok hcall
  cases h
  exact ⟨number, rest, by simp only [IndexDb.write_write]; rfl⟩

theorem updateIndex_ok {row : Nat} {entry : ParsedEntry} {s t : Session}
    (h : updateIndex row entry s = (.ok (), t)) :
    s.index.tables.Takes row entry.timestamp ∧ ∃ rest, t = { s with
      faults := rest, index := s.index.write (IndexTables.updateRow row entry.indexRow) } := by
  obtain ⟨_, mid, hcall, h⟩ := Effect.bind_eq_ok_iff.mp h
  obtain ⟨_, rfl⟩ := call_ok hcall
  obtain ⟨number, rest, rfl⟩ := stepNotNull_ok h
  exact ⟨number, rest, rfl⟩

theorem writeNextRow_ok {entry : ParsedEntry} {row : Nat} {s t : Session}
    (h : writeNextRow entry s = (.ok row, t)) :
    row = s.writeNext ∧ s.writeNext + 1 < 2 ^ 31 ∧
      t.image = { s.image with
        row := Function.update s.image.row s.writeNext entry, nextIndex := s.writeNext + 1 } ∧
      (∀ i, s.HasSegment i → t.HasSegment i) ∧ t.HasSegment (s.writeNext / kDataSegmentCapacity) := by
  simp only [writeNextRow, Effect.read_bind] at h
  obtain ⟨_, mid, ho, h⟩ := Effect.bind_eq_ok_iff.mp h
  have quiet := openOrCreateSegmentForWrite_ok ho
  rw [Effect.modify_bind] at h
  split at h
  next small =>
    cases h
    have hput := putRow_image mid s.writeNext entry
    rw [quiet.image] at hput
    exact ⟨rfl, small, congrArg (fun g : Image => { g with nextIndex := s.writeNext + 1 }) hput,
      fun i hi => putRow_keeps mid s.writeNext entry i (quiet.keeps i hi),
      putRow_hasSegment mid s.writeNext entry⟩
  next => cases h

theorem appendEntry_ok {entry : ParsedEntry} {row : Nat} {s t : Session}
    (h : appendEntry entry s = (.ok row, t)) :
    s.writeNext + 1 < 2 ^ 31 ∧ t.image = s.image.store entry ∧
      (∀ i, s.HasSegment i → t.HasSegment i) ∧ t.HasSegment (s.writeNext / kDataSegmentCapacity) := by
  obtain ⟨cur, mid, hw, h⟩ := Effect.bind_eq_ok_iff.mp h
  obtain ⟨rfl, small, himage, keeps, own⟩ := writeNextRow_ok hw
  cases h
  refine ⟨small, ?_, keeps, own⟩
  calc
    _ = { mid.image with header := { mid.image.header with writeCount := s.writeNext + 1 } } := rfl
    _ = s.image.store entry := by rw [himage]; rfl

theorem trackerAppend_ok {row canId prev : UInt32} {s t : Session}
    (h : trackerAppend row canId s = (.ok prev, t)) :
    prev = (s.lastRowByCanId canId).getD kInvalidRow ∧
      t = { s with lastRowByCanId := Function.update s.lastRowByCanId canId (some row) } := by
  simp only [trackerAppend, Effect.read_bind, Effect.modify_bind] at h
  cases hlast : s.lastRowByCanId canId with
  | none => rw [hlast] at h; cases h; exact ⟨rfl, rfl⟩
  | some last => rw [hlast] at h; cases h; exact ⟨rfl, rfl⟩

/-- The row is built from the store as it is before it, whichever segment the
previous row is in. -/
theorem buildEntry_ok {record : LogRecord} {prev : UInt32} {parsed : ParsedEntry} {s t : Session}
    (h : buildEntry record prev s = (.ok parsed, t)) :
    parsed = parsedEntry record prev (s.rowAt prev.toNat).toLogRecord ∧ Quiet s t := by
  unfold buildEntry at h
  split at h
  next first =>
    cases h
    exact ⟨by simp [parsedEntry, first], Quiet.refl _⟩
  next =>
    obtain ⟨e, mid, hr, h⟩ := Effect.bind_eq_ok_iff.mp h
    obtain ⟨quiet, rfl⟩ := readAt_ok hr
    cases h
    exact ⟨rfl, quiet⟩

/-- What one round of write_entries does when nothing throws. -/
theorem writeEntry_ok {record : LogRecord} {s t : Session}
    (h : writeEntry record s = (.ok (), t)) :
    s.writeNext + 1 < 2 ^ 31 ∧ record.timestamp.isNaN = false ∧ t.image = s.image.append record ∧
      (∀ i, s.HasSegment i → t.HasSegment i) ∧ t.HasSegment (s.writeNext / kDataSegmentCapacity) := by
  simp only [writeEntry, Effect.read_bind] at h
  obtain ⟨prev, a, htracker, h⟩ := Effect.bind_eq_ok_iff.mp h
  obtain ⟨rfl, rfl⟩ := trackerAppend_ok htracker
  obtain ⟨parsed, b, hbuild, h⟩ := Effect.bind_eq_ok_iff.mp h
  obtain ⟨hparsed, quiet⟩ := buildEntry_ok hbuild
  have hentry : parsed = s.image.entryFor record := hparsed
  subst hentry
  obtain ⟨row, c, happend, h⟩ := Effect.bind_eq_ok_iff.mp h
  obtain ⟨small, himage, keeps, own⟩ := appendEntry_ok happend
  obtain ⟨number, rest, rfl⟩ := appendIndex_ok h
  have hnext : b.writeNext = s.writeNext := congrArg Image.nextIndex quiet.image
  rw [hnext] at small own
  refine ⟨small, number, ?_, fun i hi => keeps i (quiet.keeps i hi), own⟩
  calc
    _ = { c.image with
          index := c.image.index.write
            (IndexTables.appendRow s.writeNext (s.image.entryFor record)) } := rfl
    _ = s.image.append record := by rw [himage, quiet.image]; rfl

theorem beginTransaction_ok {s t : Session} (h : beginTransaction s = (.ok (), t)) :
    s.index.transaction = none ∧ t.image = s.image.begin ∧ ∀ i, s.HasSegment i → t.HasSegment i := by
  obtain ⟨_, mid, hcall, h⟩ := Effect.bind_eq_ok_iff.mp h
  obtain ⟨rest, rfl⟩ := call_ok hcall
  simp only [Effect.read_bind] at h
  cases htx : s.index.transaction with
  | none => rw [htx] at h; cases h; exact ⟨rfl, rfl, fun _ hi => hi⟩
  | some tables => rw [htx] at h; cases h

theorem commitTransaction_ok {s t : Session} (h : commitTransaction s = (.ok (), t)) :
    t.image = s.image.commit ∧ ∀ i, s.HasSegment i → t.HasSegment i := by
  obtain ⟨_, mid, hcall, h⟩ := Effect.bind_eq_ok_iff.mp h
  obtain ⟨rest, rfl⟩ := call_ok hcall
  simp only [Effect.read_bind] at h
  cases htx : s.index.transaction with
  | none => rw [htx] at h; cases h
  | some tables =>
    rw [htx] at h
    cases h
    refine ⟨?_, fun _ hi => hi⟩
    have : s.image.index.tables = tables := by simp [IndexDb.tables, Session.image, htx]
    rw [Image.commit, this]
    rfl

theorem writeAt_ok {row : Nat} {entry : ParsedEntry} {s t : Session}
    (h : writeAt row entry s = (.ok (), t)) :
    row ≤ s.writeNext ∧ t.image = { s.image with
        row := Function.update s.image.row row entry
        nextIndex := if row = s.writeNext then s.writeNext + 1 else s.writeNext } ∧
      ∀ i, s.HasSegment i → t.HasSegment i := by
  simp only [writeAt, Effect.read_bind] at h
  split at h
  next => cases h
  next noGap =>
    obtain ⟨_, mid, ho, h⟩ := Effect.bind_eq_ok_iff.mp h
    have quiet := openOrCreateSegmentForWrite_ok ho
    have hnext : (mid.putRow row entry).writeNext = s.writeNext :=
      congrArg Image.nextIndex quiet.image
    rw [Effect.modify_bind, Effect.modify_apply] at h
    cases h
    refine ⟨by omega, ?_, ?_⟩
    · rw [advance_image, putRow_image, quiet.image, hnext]
    · rintro i hi
      obtain ⟨rows, hrows⟩ := putRow_keeps mid row entry i (quiet.keeps i hi)
      exact ⟨rows, by rw [advance_files]; exact hrows⟩

theorem updateRow_ok {row : Nat} {entry : ParsedEntry} {s t : Session}
    (h : updateRow row entry s = (.ok (), t)) :
    row < s.header.writeCount ∧ row ≤ s.writeNext ∧ t.image = { s.image with
        row := Function.update s.image.row row entry
        nextIndex := if row = s.writeNext then s.writeNext + 1 else s.writeNext } ∧
      ∀ i, s.HasSegment i → t.HasSegment i := by
  simp only [updateRow, Effect.read_bind] at h
  split at h
  next => cases h
  next counted => exact ⟨by omega, writeAt_ok h⟩

theorem persistRow_ok {row : Nat} {entry : ParsedEntry} {s t : Session}
    (h : persistRow row entry s = (.ok (), t)) :
    row < s.header.writeCount ∧ row ≤ s.writeNext ∧ s.index.tables.Takes row entry.timestamp ∧
      t.image = s.image.put row entry ∧ ∀ i, s.HasSegment i → t.HasSegment i := by
  obtain ⟨_, mid, hw, h⟩ := Effect.bind_eq_ok_iff.mp h
  obtain ⟨counted, noGap, himage, keeps⟩ := updateRow_ok hw
  obtain ⟨takes, rest, rfl⟩ := updateIndex_ok h
  have index : mid.index = s.index := congrArg Image.index himage
  refine ⟨counted, noGap, index ▸ takes, ?_, keeps⟩
  calc
    _ = { mid.image with
          index := mid.image.index.write (IndexTables.updateRow row entry.indexRow) } := rfl
    _ = s.image.put row entry := by rw [himage]; rfl

theorem recomputeEntry_ok {old current : ParsedEntry} {record : LogRecord} {s t : Session}
    (h : recomputeEntry old record s = (.ok current, t)) :
    current = recomputed old record (s.image.row old.prevSameCan.toNat).toLogRecord ∧ Quiet s t := by
  unfold recomputeEntry at h
  split at h
  next first =>
    cases h
    exact ⟨by simp [recomputed, first], Quiet.refl _⟩
  next =>
    obtain ⟨e, mid, hr, h⟩ := Effect.bind_eq_ok_iff.mp h
    obtain ⟨quiet, rfl, _⟩ := readEntryAt_ok hr
    cases h
    exact ⟨rfl, quiet⟩

theorem updateEntry_ok {row : Nat} {record : LogRecord} {s t : Session}
    (h : updateEntry row record s = (.ok (), t)) :
    row < s.header.writeCount ∧ row ≤ s.writeNext ∧ s.index.tables.Takes row record.timestamp ∧
      t.image = s.image.edit row record ∧ ∀ i, s.HasSegment i → t.HasSegment i := by
  obtain ⟨old, a, hold, h⟩ := Effect.bind_eq_ok_iff.mp h
  obtain ⟨qa, hrow, counted⟩ := readEntryAt_ok hold
  obtain ⟨current, b, hcur, h⟩ := Effect.bind_eq_ok_iff.mp h
  obtain ⟨hcurrent, qb⟩ := recomputeEntry_ok hcur
  have quiet := qa.trans qb
  have hentry : current = s.image.recompute row record := by
    rw [hcurrent, hrow, qa.image]
    rfl
  obtain ⟨_, c, hp, h⟩ := Effect.bind_eq_ok_iff.mp h
  obtain ⟨_, noGap, takes, himage, keeps⟩ := persistRow_ok hp
  have hnext : b.writeNext = s.writeNext := congrArg Image.nextIndex quiet.image
  have hindex : b.index = s.index := congrArg Image.index quiet.image
  rw [hnext] at noGap
  rw [hindex] at takes
  rw [quiet.image] at himage
  have keeps' : ∀ i, s.HasSegment i → c.HasSegment i := fun i hi => keeps i (quiet.keeps i hi)
  subst hentry
  refine ⟨counted, noGap, takes, ?_⟩
  simp only [Image.edit]
  split at h
  next last =>
    cases h
    rw [if_pos last]
    exact ⟨himage, keeps'⟩
  next linked =>
    obtain ⟨next, d, hn, h⟩ := Effect.bind_eq_ok_iff.mp h
    obtain ⟨qd, hnextRow, _⟩ := readEntryAt_ok hn
    obtain ⟨_, _, _, hput, keepsNext⟩ := persistRow_ok h
    rw [if_neg linked, hput, qd.image, himage, hnextRow]
    refine ⟨?_, fun i hi => keepsNext i (qd.keeps i (keeps' i hi))⟩
    rw [← himage]
    rfl

end FsCore
