import FsCore.LogIndex
import FsCore.Mmap

namespace FsCore

/-- `MetadataTracker::append`: the last row of the id before this one. -/
def trackerAppend (row : UInt32) (canId : UInt32) : StoreM UInt32 := do
  let s ← Effect.read
  Effect.modify fun s =>
    { s with lastRowByCanId := Function.update s.lastRowByCanId canId (some row) }
  match s.lastRowByCanId canId with
  | none => pure kInvalidRow
  | some previousRow => pure previousRow

/-- Opening a connection and preparing its statements leaves the tables as they are. -/
def openIndex : StoreM Unit :=
  Effect.forEach call ["sqlite3_open", "PRAGMA journal_mode=WAL;", "PRAGMA synchronous=NORMAL;",
    "PRAGMA temp_store=MEMORY;", "CREATE TABLE IF NOT EXISTS", "prepare log_index",
    "prepare log_can_ids", "prepare log_channels"]

/-- The reader's views and the index. -/
def openReaders : StoreM Unit := do
  openHeaderRo
  let s ← Effect.read
  match s.files.segments 0 with
  | .missing => pure ()
  | _ => openSegment 0
  openIndex

/-- The constructor: the writer's views, the reader's views, the index. -/
def construct : StoreM Unit := do
  openHeaderRw
  openOrCreateSegmentForWrite 0
  openReaders

/-- The object before its constructor runs, over the files that it finds. -/
def Session.start (files : MmapFiles) (tables : IndexTables) (faults : List Bool) : Session where
  files := files
  index := ⟨tables, none⟩
  writeNext := 0
  writeMapped := []
  readMapped := []
  lastRowByCanId := fun _ => none
  browser := ⟨[], 0, true⟩
  faults := faults

/-- A token under which nothing was stored yet. -/
def Session.fresh : Session :=
  Session.start ⟨.missing, fun _ => .missing⟩ IndexTables.empty []

/-- The destructor unmaps the files and closes the connection, which rolls back;
what remains are the files and the committed tables. -/
def Session.reopen (s : Session) : Session := Session.start s.files s.index.committed s.faults

/-- The row that write_entries builds for a record. -/
def parsedEntry (record : LogRecord) (prevSameCan : UInt32) (prev : LogRecord) : ParsedEntry where
  toLogRecord := record
  lineNumber := 0
  lastTimestamp := if prevSameCan = kInvalidRow then record.timestamp else prev.timestamp
  changed := if prevSameCan = kInvalidRow then 0 else (payloadChanged prev record).toUInt8
  prevSameCan := prevSameCan
  nextSameCan := kInvalidRow

/-- The first message of an id has no previous row to read. -/
def buildEntry (record : LogRecord) (prevSameCan : UInt32) : StoreM ParsedEntry :=
  if prevSameCan = kInvalidRow then
    pure (parsedEntry record prevSameCan LogRecord.zero)
  else do
    let prev ← readAt prevSameCan.toNat
    pure (parsedEntry record prevSameCan prev.toLogRecord)

/-- One round of the loop in write_entries. -/
def writeEntry (record : LogRecord) : StoreM Unit := do
  let s ← Effect.read
  let rowIndex := s.writeNext
  let prevSameCan ← trackerAppend (UInt32.ofNat rowIndex) record.canId
  let parsed ← buildEntry record prevSameCan
  let _ ← appendEntry parsed
  appendIndex rowIndex parsed

def writeEntries (entries : List LogRecord) : StoreM Unit := do
  beginTransaction
  Effect.forEach writeEntry entries
  commitTransaction

/-- Row and record with `changed` and `last_timestamp` taken from the previous row. -/
def recomputed (current : ParsedEntry) (record : LogRecord) (prev : LogRecord) : ParsedEntry :=
  { current with
    toLogRecord := record
    lastTimestamp :=
      if current.prevSameCan = kInvalidRow then record.timestamp else prev.timestamp
    changed :=
      if current.prevSameCan = kInvalidRow then 0 else (payloadChanged prev record).toUInt8 }

/-- The next row of the id, compared again with the row before it. -/
def repaired (next : ParsedEntry) (current : LogRecord) : ParsedEntry :=
  { next with
    lastTimestamp := current.timestamp
    changed := (payloadChanged current next.toLogRecord).toUInt8 }

/-- Recomputes the metadata from the previous node. -/
def recomputeEntry (old : ParsedEntry) (record : LogRecord) : StoreM ParsedEntry :=
  if old.prevSameCan = kInvalidRow then
    pure (recomputed old record LogRecord.zero)
  else do
    let prev ← readEntryAt old.prevSameCan.toNat
    pure (recomputed old record prev.toLogRecord)

/-- Writes a row and its columns of the index. -/
def persistRow (row : Nat) (entry : ParsedEntry) : StoreM Unit := do
  updateRow row entry
  updateIndex row entry

def updateEntry (row : Nat) (record : LogRecord) : StoreM Unit := do
  let old ← readEntryAt row
  let current ← recomputeEntry old record
  persistRow row current
  if current.nextSameCan = kInvalidRow then
    pure ()
  else
    let next ← readEntryAt current.nextSameCan.toNat
    persistRow current.nextSameCan.toNat (repaired next current.toLogRecord)

def fetchCount : StoreM Nat := rowCount

def browseAll : StoreM ViewBrowser := do
  let n ← rowCount
  let view : ViewBrowser := ⟨[], n, true⟩
  Effect.modify fun s => { s with browser := view }
  pure view

/-- The SQL path of browse. -/
def browseRows (q : LogQuery) : StoreM ViewBrowser := do
  let rows ← queryRowIndices q
  let view : ViewBrowser := ⟨rows, rows.length, false⟩
  Effect.modify fun s => { s with browser := view }
  pure view

def browse (q : LogQuery) : StoreM ViewBrowser := if q.empty then browseAll else browseRows q

/-- `ViewBrowser::at` of the object's browser. -/
def viewAt (logicalIndex : Nat) : StoreM ParsedEntry := do
  let s ← Effect.read
  if s.browser.rowCount ≤ logicalIndex then
    Effect.raise (.outOfRange "ViewBrowser index out of range")
  else if s.browser.fullView then
    readAt logicalIndex
  else
    readAt (s.browser.rows.getD logicalIndex 0)

/-- A public call that changes the store. -/
inductive StoreCall where
  | writeEntries (entries : List LogRecord)
  | updateEntry (row : Nat) (record : LogRecord)

def exec : StoreCall → StoreM Unit
  | .writeEntries entries => writeEntries entries
  | .updateEntry row record => updateEntry row record

def execAll : List StoreCall → StoreM Unit := Effect.forEach exec

/-- One session: the constructor and then the calls. -/
def storeSession (calls : List StoreCall) : StoreM Unit := do
  construct
  execAll calls

end FsCore
