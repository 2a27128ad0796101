import FsCore.Session
import FsCore.Sql
import Mathlib.Data.List.DropRight

namespace FsCore

/-- Trims bytes up to the blank and lowers the case; nothing left means "unknown". -/
def normalizeChannelKey (channel : Text) : Text :=
  if channel = [] then "unknown".toList
  else
    let key := (channel.rdropWhile (fun c => decide (c.toNat ≤ 32))).dropWhile
      (fun c => decide (c.toNat ≤ 32))
    if key = [] then "unknown".toList else key.map Char.toLower

/-- The columns of `log_index` for a row. -/
def ParsedEntry.indexRow (e : ParsedEntry) : IndexRow where
  timestamp := e.timestamp
  canId := e.canId.toNat
  direction := e.direction.toNat
  channel := normalizeChannelKey e.channelText
  changed := e.changed.toNat

/-- append_index binds `changed ? 1 : 0`. -/
def ParsedEntry.appendedRow (e : ParsedEntry) : IndexRow :=
  { e.indexRow with changed := if e.changed = 0 then 0 else 1 }

def IndexTables.empty : IndexTables := ⟨.empty, .empty, .empty⟩

def IndexDb.write (f : IndexTables → IndexTables) (db : IndexDb) : IndexDb :=
  match db.transaction with
  | some tables => { db with transaction := some (f tables) }
  | none => { db with committed := f db.committed }

def writeTables (f : IndexTables → IndexTables) : StoreM Unit :=
  Effect.modify fun s => { s with index := s.index.write f }

def beginTransaction : StoreM Unit := do
  call "BEGIN TRANSACTION;"
  let s ← Effect.read
  match s.index.transaction with
  | some _ => Effect.raise (.sqlite "cannot start a transaction within a transaction")
  | none => Effect.modify fun s =>
      { s with index := { s.index with transaction := some s.index.committed } }

def commitTransaction : StoreM Unit := do
  call "COMMIT;"
  let s ← Effect.read
  match s.index.transaction with
  | none => Effect.raise (.sqlite "cannot commit - no transaction is active")
  | some tables => Effect.modify fun s => { s with index := ⟨tables, none⟩ }

/-- `timestamp REAL NOT NULL` refuses the NULL that a NaN is bound as, where the statement has a
row to write it to. -/
def stepNotNull (timestamp : Binary64) (touches : IndexTables → Bool) (f : IndexTables → IndexTables) :
    StoreM Unit := do
  call "sqlite3_step"
  let s ← Effect.read
  if timestamp.isNaN && touches s.index.tables then
    Effect.raise (.sqlite "NOT NULL constraint failed: log_index.timestamp")
  else
    writeTables f

/-- INSERT OR REPLACE INTO log_index -/
def IndexTables.insertRow (row : Nat) (r : IndexRow) (t : IndexTables) : IndexTables :=
  { t with logIndex := t.logIndex.upsert row (fun _ => r) }

/-- INSERT OR IGNORE INTO log_can_ids -/
def IndexTables.insertCanId (id : Nat) (t : IndexTables) : IndexTables :=
  { t with logCanIds := t.logCanIds.upsert id (fun _ => ()) }

/-- INSERT OR IGNORE INTO log_channels -/
def IndexTables.insertChannel (channel : Text) (t : IndexTables) : IndexTables :=
  { t with logChannels := t.logChannels.upsert channel (fun _ => ()) }

def appendIndex (row : Nat) (entry : ParsedEntry) : StoreM Unit := do
  let columns := entry.appendedRow
  stepNotNull entry.timestamp (fun _ => true) (IndexTables.insertRow row columns)
  call "sqlite3_step"
  writeTables (IndexTables.insertCanId columns.canId)
  call "sqlite3_step"
  writeTables (IndexTables.insertChannel columns.channel)

/-- UPDATE log_index SET … WHERE row_index = ? -/
def IndexTables.updateRow (row : Nat) (r : IndexRow) (t : IndexTables) : IndexTables :=
  { t with logIndex := t.logIndex.update row (fun _ => r) }

def IndexTables.holds (row : Nat) (t : IndexTables) : Bool := (t.logIndex.find? row).isSome

def updateIndex (row : Nat) (entry : ParsedEntry) : StoreM Unit := do
  call "sqlite3_prepare_v2"
  stepNotNull entry.timestamp (IndexTables.holds row) (IndexTables.updateRow row entry.indexRow)

def rowCount : StoreM Nat := do
  call "sqlite3_prepare_v2"
  call "sqlite3_step"
  let s ← Effect.read
  pure (s.index.tables.logIndex.count % 2 ^ 32)

/-- Values of one field are alternatives, fields combine by AND, an empty list is any. -/
structure LogQuery where
  canIds : List UInt32
  channels : List Text
  directions : List UInt8
  changedOnly : Bool
  hasTimeRange : Bool
  firstTs : Binary64
  lastTs : Binary64

def LogQuery.empty (q : LogQuery) : Bool :=
  q.canIds.isEmpty && q.channels.isEmpty && q.directions.isEmpty &&
    !q.changedOnly && !q.hasTimeRange

/-- ` AND column IN (?,…)`, left out when there is no value to bind. -/
def appendIn (column : IndexRow → SqlValue) (count : Nat) : List (Conjunct IndexRow) :=
  if count = 0 then [] else [.among column count]

/-- The WHERE clause in the order in which its text is put together. -/
def LogQuery.conjuncts (q : LogQuery) : List (Conjunct IndexRow) :=
  appendIn (fun r => .integer r.canId) q.canIds.length ++
  (appendIn (fun r => .integer r.direction) q.directions.length ++
  (appendIn (fun r => .text r.channel) q.channels.length ++
  ((if q.changedOnly then [.equals (fun r => .integer r.changed) (.integer 1)] else []) ++
  (if q.hasTimeRange then [.between (fun r => .real r.timestamp)] else []))))

/-- The parameters in the order of the bind calls; text is bound up to its first NUL. -/
def LogQuery.bindings (q : LogQuery) : List SqlValue :=
  q.canIds.map (fun id => .integer id.toNat) ++
  (q.directions.map (fun d => .integer d.toNat) ++
  (q.channels.map (fun c => .text (c.takeWhile (· ≠ nul))) ++
  (if q.hasTimeRange then [.ofDouble q.firstTs, .ofDouble q.lastTs] else [])))

/-- SELECT row_index FROM log_index WHERE 1=1 … ORDER BY row_index -/
def queryRowIndices (q : LogQuery) : StoreM (List Nat) := do
  call "sqlite3_prepare_v2"
  call "sqlite3_step"
  let s ← Effect.read
  pure ((s.index.tables.logIndex.select
    (fun _ r => whereHolds r q.conjuncts q.bindings)).map Prod.fst)

end FsCore
