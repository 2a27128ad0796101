import FsCore.CText
import FsCore.CanDecoder
import FsCore.DecodedDb
import FsCore.Storage

namespace FsCore

structure DecodeError where
  rc : Int
  errorMessage : Text
deriving DecidableEq

/-- `std::to_string(can_id) + ":" + signal_name` -/
def cacheKey (canId : UInt32) (signalName : Text) : Text :=
  Nat.toDigits 10 canId.toNat ++ ':' :: signalName

abbrev SignalCache := Table Text DecodedSignalChunk

/-- Appends a sample to the entry of its signal, which the map creates when it is missing. -/
def cacheSample (canId row : UInt32) (cache : SignalCache) (sig : DecodedSignal) : SignalCache :=
  cache.upsert (cacheKey canId sig.signalName) fun old =>
    let dst := old.getD ⟨0, [], [], [], []⟩
    { canId := canId
      signalName := sig.signalName
      rowIndex := dst.rowIndex ++ [row]
      rawValue := dst.rawValue ++ [sig.rawValue]
      physValue := dst.physValue ++ [sig.physValue] }

/-- The loop over a page whose first row is `row`. -/
def cachePage (decoder : CanDatabaseModel) : Nat → List ParsedEntry → SignalCache → Option SignalCache
  | _, [], cache => some cache
  | row, entry :: rest, cache => do
    let decoded ← decodeEntry decoder entry.toLogRecord 0
    cachePage decoder (row + 1) rest (decoded.foldl (cacheSample entry.canId (UInt32.ofNat row)) cache)

/-- The order in which an unordered map delivers its values. -/
structure ChunkOrder where
  arrange : List DecodedSignalChunk → List DecodedSignalChunk
  perm : ∀ chunks, (arrange chunks).Perm chunks

def processPage (order : ChunkOrder) (decoder : CanDatabaseModel) (page : List ParsedEntry)
    (pageStartRow : Nat) : DecodeM DecodeError :=
  match cachePage decoder pageStartRow page Table.empty with
  | none => Effect.raise .undefined
  | some cache => do
    let rc ← writeSignals (order.arrange (cache.rows.map Prod.snd))
    if rc ≠ 0 then pure ⟨rc, "write_signals failed".toList⟩ else pure ⟨0, []⟩

/-- An `int32_t` as an argument of type `uint64_t`. -/
def asUInt64 (x : Int) : Nat := (x % 2 ^ 64).toNat

/-- `MetaDataStorageInterface::read_page` -/
def readStorePage (offset count : Int) : StoreM (List ParsedEntry) :=
  readPage (asUInt64 offset) (asUInt64 count)

def kReadChunkSize : Nat := 100000

def kDecodeRcReadPageEmpty : Int := -302

/-- The loop over the pages from a start row on. A round takes a chunk and gives what
the function returns early, or a code of zero. -/
def pageLoop (round : Nat → DecodeM DecodeError) (entryCount : Nat) : Nat → Nat → DecodeM DecodeError
  | 0, _ => pure ⟨0, []⟩
  | fuel + 1, start =>
    if start < entryCount then do
      let error ← round start
      if error.rc ≠ 0 then pure error
      else pageLoop round entryCount fuel (start + kReadChunkSize)
    else pure ⟨0, []⟩

def decodeRound (order : ChunkOrder) (decoder : CanDatabaseModel) (entryCount start : Nat) :
    DecodeM DecodeError := do
  let endExclusive := min (start + kReadChunkSize) entryCount
  let page ← onSession (readStorePage (intOfSize start) (intOfSize (endExclusive - 1)))
  if page.isEmpty then
    pure ⟨kDecodeRcReadPageEmpty, "parsed mmap read_page returned empty page".toList⟩
  else processPage order decoder page start

def decodeLoop (order : ChunkOrder) (decoder : CanDatabaseModel) (entryCount : Nat) :
    DecodeM DecodeError :=
  pageLoop (decodeRound order decoder entryCount) entryCount (entryCount / kReadChunkSize + 1) 0

def decodeAll (order : ChunkOrder) (decoder : CanDatabaseModel) (entryCount : Nat) :
    DecodeM DecodeError := do
  openDecoded
  let beginRc ← beginDecoded
  if beginRc ≠ 0 then pure ⟨beginRc, "failed to begin decoded signal database transaction".toList⟩
  else do
    let loop ← decodeLoop order decoder entryCount
    if loop.rc ≠ 0 then pure loop
    else do
      let commitRc ← commitDecoded
      if commitRc ≠ 0 then pure ⟨commitRc,
        "failed to commit decoded signal database transaction".toList⟩
      else pure ⟨0, []⟩

/-- The scope of the database object ends. -/
def closing {α : Type} (m : DecodeM α) : DecodeM α := fun d =>
  ((m d).1, { (m d).2 with db := (m d).2.db.close })

/-- `can_decoder_run` over an open store; load_db never fails. -/
def canDecoderRun (order : ChunkOrder) (model : CanDatabaseModel) : DecodeM DecodeError := do
  let decoder := loadDb model
  let entryCount ← onSession fetchCount
  if entryCount = 0 then pure ⟨-2, "No parsed mmap data found".toList⟩
  else closing (decodeAll order decoder entryCount)

end FsCore
