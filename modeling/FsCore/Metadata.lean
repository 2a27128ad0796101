import FsCore.Browse

namespace FsCore

inductive MetadataType where
  | boundedTimestamp
  | canIds
  | channels
  | total
deriving DecidableEq

structure BoundedTimestamp where
  first : Binary64
  last : Binary64
deriving DecidableEq

inductive MetadataValue where
  | boundedTimestamp (span : BoundedTimestamp)
  | canIds (ids : List UInt32)
  | channels (channels : List Text)
  | total (count : Nat)
deriving DecidableEq

/-- SELECT timestamp FROM log_index ORDER BY row_index ASC LIMIT 1; NULL is read as 0. -/
def IndexTables.firstTimestamp (t : IndexTables) : Binary64 :=
  (t.logIndex.rows.head?.map (fun r => r.2.timestamp)).getD Binary64.zero

/-- The same from the other end, in the order of DESC. -/
def IndexTables.lastTimestamp (t : IndexTables) : Binary64 :=
  (t.logIndex.rows.getLast?.map (fun r => r.2.timestamp)).getD Binary64.zero

/-- `LogIndexDatabase::get_metadata`; a text column is copied up to its first NUL. -/
def getMetadata (type : MetadataType) : StoreM MetadataValue := do
  call "sqlite3_prepare_v2"
  call "sqlite3_step"
  let s ← Effect.read
  let t := s.index.tables
  match type with
  | .boundedTimestamp => pure (.boundedTimestamp ⟨t.firstTimestamp, t.lastTimestamp⟩)
  | .canIds => pure (.canIds (t.logCanIds.keys.map UInt32.ofNat))
  | .channels => pure (.channels (t.logChannels.keys.map (fun c => c.takeWhile (· ≠ nul))))
  | .total => pure (.total (t.logIndex.count % 2 ^ 32))

/-- MIN(timestamp): a later value replaces the best one only if it is less. -/
def minTimestamp (best x : Binary64) : Binary64 := if best.le x then best else x

/-- MAX(timestamp) -/
def maxTimestamp (best x : Binary64) : Binary64 := if x.le best then best else x

/-- `LogIndexDatabase::get_first_last_timestamp`, with its two out parameters. -/
def getFirstLastTimestamp : StoreM (Bool × Binary64 × Binary64) := do
  call "sqlite3_prepare_v2"
  call "sqlite3_step"
  let s ← Effect.read
  match s.index.tables.logIndex.rows.map (fun r => r.2.timestamp) with
  | [] => pure (false, Binary64.zero, Binary64.zero)
  | x :: rest => pure (true, rest.foldl minTimestamp x, rest.foldl maxTimestamp x)

section Answers

variable {s : Session}

theorem getMetadata_canIds (noFault : s.faults = []) :
    getMetadata .canIds s = (.ok (.canIds (s.index.tables.logCanIds.keys.map UInt32.ofNat)), s) := by
  rw [getMetadata, Effect.bind_of_ok (call_calm _ noFault), Effect.bind_of_ok (call_calm _ noFault)]
  rfl

theorem getMetadata_channels (noFault : s.faults = []) : getMetadata .channels s =
    (.ok (.channels (s.index.tables.logChannels.keys.map (fun c => c.takeWhile (· ≠ nul)))), s) := by
  rw [getMetadata, Effect.bind_of_ok (call_calm _ noFault), Effect.bind_of_ok (call_calm _ noFault)]
  rfl

end Answers

end FsCore
