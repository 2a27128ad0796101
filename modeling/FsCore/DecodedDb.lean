import FsCore.CText
import FsCore.LittleEndian
import FsCore.Mmap
import Mathlib.Data.List.Lex
import Mathlib.Data.Prod.Lex

namespace FsCore

/-- The samples of one signal. -/
structure DecodedSignalChunk where
  canId : UInt32
  signalName : Text
  rowIndex : List UInt32
  rawValue : List (BitVec 64)
  physValue : List Binary64
deriving DecidableEq

/-- A row of `decoded_signal_data` without its key. -/
structure SignalBlobs where
  rowIndex : List UInt8
  rawValue : List UInt8
  physValue : List UInt8
deriving DecidableEq

namespace SignalBlobs

def empty : SignalBlobs := ⟨[], [], []⟩

/-- `||` of each column -/
def append (a b : SignalBlobs) : SignalBlobs :=
  ⟨a.rowIndex ++ b.rowIndex, a.rawValue ++ b.rawValue, a.physValue ++ b.physValue⟩

theorem append_assoc (a b c : SignalBlobs) : (a.append b).append c = a.append (b.append c) := by
  simp [append]

@[simp] theorem append_empty (a : SignalBlobs) : a.append empty = a := by
  simp [append, empty]

@[simp] theorem empty_append (a : SignalBlobs) : empty.append a = a := by
  simp [append, empty]

end SignalBlobs

def DecodedSignalChunk.blobs (c : DecodedSignalChunk) : SignalBlobs where
  rowIndex := toBlob 4 (c.rowIndex.map UInt32.toNat)
  rawValue := toBlob 8 (c.rawValue.map BitVec.toNat)
  physValue := toBlob 8 (c.physValue.map fun x => x.bits.toNat)

/-- What get_signal_samples makes of the blobs that it reads, none of which SQLite lets grow to 2^31
bytes. -/
def SignalBlobs.samples (b : SignalBlobs) (canId : UInt32) (signalName : Text) :
    DecodedSignalChunk where
  canId := canId
  signalName := signalName
  rowIndex := (blobToValues 4 b.rowIndex).map UInt32.ofNat
  rawValue := (blobToValues 8 b.rawValue).map (BitVec.ofNat 64)
  physValue := (blobToValues 8 b.physValue).map fun v => ⟨BitVec.ofNat 64 v⟩

/-- `PRIMARY KEY (can_id, signal_name)` -/
abbrev SignalKey := Nat ×ₗ Text

/-- Text is bound up to its first NUL. -/
def keyOf (canId : UInt32) (signalName : Text) : SignalKey :=
  toLex (canId.toNat, signalName.takeWhile (· ≠ nul))

abbrev DecodedTable := Table SignalKey SignalBlobs

/-- The bytes that are bound of a blob: its size is cast to an int. -/
def bindBlob (blob : List UInt8) : List UInt8 := blob.take (intOfSize blob.length).toNat

/-- The chunk as the statement gets it; an empty vector is bound as an empty blob too. -/
def DecodedSignalChunk.bound (c : DecodedSignalChunk) : SignalBlobs :=
  ⟨bindBlob c.blobs.rowIndex, bindBlob c.blobs.rawValue, bindBlob c.blobs.physValue⟩

/-- The lengths that are bound are not negative, which `sqlite3_bind_blob` leaves undefined. -/
structure DecodedSignalChunk.Bindable (c : DecodedSignalChunk) : Prop where
  rowIndex : 0 ≤ intOfSize c.blobs.rowIndex.length
  rawValue : 0 ≤ intOfSize c.blobs.rawValue.length
  physValue : 0 ≤ intOfSize c.blobs.physValue.length

instance (c : DecodedSignalChunk) : Decidable c.Bindable :=
  decidable_of_iff (0 ≤ intOfSize c.blobs.rowIndex.length ∧ 0 ≤ intOfSize c.blobs.rawValue.length ∧
    0 ≤ intOfSize c.blobs.physValue.length) ⟨fun ⟨r, v, p⟩ => ⟨r, v, p⟩, fun ⟨r, v, p⟩ => ⟨r, v, p⟩⟩

/-- INSERT INTO decoded_signal_data … ON CONFLICT(can_id, signal_name) DO UPDATE -/
def DecodedSignalChunk.upsert (c : DecodedSignalChunk) (t : DecodedTable) : DecodedTable :=
  Table.upsert t (keyOf c.canId c.signalName) fun old => (old.getD .empty).append c.bound

/-- The decoded database as its connection sees it. -/
structure DecodedDb where
  committed : DecodedTable
  transaction : Option DecodedTable
  prepared : Bool

def DecodedDb.tables (db : DecodedDb) : DecodedTable := db.transaction.getD db.committed

def DecodedDb.write (f : DecodedTable → DecodedTable) (db : DecodedDb) : DecodedDb :=
  match db.transaction with
  | some tables => { db with transaction := some (f tables) }
  | none => { db with committed := f db.committed }

/-- The connection is closed, which rolls back. -/
def DecodedDb.close (db : DecodedDb) : DecodedDb := ⟨db.committed, none, false⟩

/-- A store that is read and the database that is filled from it. -/
structure Decoding where
  session : Session
  db : DecodedDb

abbrev DecodeM := Effect Decoding StoreError

def onSession {α : Type} (m : StoreM α) : DecodeM α :=
  Effect.zoom Decoding.session (fun s d => { d with session := s }) m

def onDb (f : DecodedDb → DecodedDb) : DecodeM Unit := Effect.modify fun d => { d with db := f d.db }

/-- Opens the connection and creates the table if it is not there. -/
def openDecoded : DecodeM Unit :=
  onSession (Effect.forEach call ["sqlite3_open", "PRAGMA journal_mode=WAL;",
    "PRAGMA synchronous=NORMAL;", "PRAGMA temp_store=MEMORY;", "CREATE TABLE IF NOT EXISTS"])

def beginDecoded : DecodeM Int := do
  onSession (call "BEGIN TRANSACTION;")
  let d ← Effect.read
  match d.db.transaction with
  | some _ => Effect.raise (.sqlite "cannot start a transaction within a transaction")
  | none => do
    onDb fun db => { db with transaction := some db.committed }
    pure 0

def commitDecoded : DecodeM Int := do
  onSession (call "COMMIT;")
  let d ← Effect.read
  match d.db.transaction with
  | none => Effect.raise (.sqlite "cannot commit - no transaction is active")
  | some tables => do
    onDb fun db => { db with committed := tables, transaction := none }
    pure 0

/-- The statement is prepared once for a connection. -/
def prepareUpsert : DecodeM Unit := do
  let d ← Effect.read
  if d.db.prepared then
    pure ()
  else do
    onSession (call "sqlite3_prepare_v2")
    onDb fun db => { db with prepared := true }

def writeChunk (chunk : DecodedSignalChunk) : DecodeM Unit :=
  if chunk.Bindable then do
    onSession (call "sqlite3_step")
    onDb (DecodedDb.write chunk.upsert)
  else Effect.raise .undefined

def writeSignals (chunks : List DecodedSignalChunk) : DecodeM Int := do
  prepareUpsert
  Effect.forEach writeChunk chunks
  pure 0

def getSignalSamples (canId : UInt32) (signalName : Text) : DecodeM DecodedSignalChunk := do
  onSession (call "sqlite3_prepare_v2")
  onSession (call "sqlite3_step")
  let d ← Effect.read
  pure (((d.db.tables.find? (keyOf canId signalName)).getD .empty).samples canId signalName)

/-- The rows of an id, which the index of the primary key gives in the order of their names;
the last step finds no more. -/
def getSignalNames (canId : UInt32) : DecodeM (List Text) := do
  onSession (call "sqlite3_prepare_v2")
  let d ← Effect.read
  let names := (d.db.tables.keys.filter fun k => (ofLex k).1 = canId.toNat).map fun k => (ofLex k).2
  onSession (Effect.forEach (fun _ => call "sqlite3_step") names)
  onSession (call "sqlite3_step")
  pure names

/-- What the table holds under a key. -/
def blobsAt (t : DecodedTable) (k : SignalKey) : SignalBlobs := (t.find? k).getD .empty

theorem samples_blobs (c : DecodedSignalChunk) : c.blobs.samples c.canId c.signalName = c := by
  obtain ⟨canId, signalName, rowIndex, rawValue, physValue⟩ := c
  have rows : ∀ v ∈ rowIndex.map UInt32.toNat, v < 256 ^ 4 := by
    simpa using fun x _ => x.toNat_lt
  have raws : ∀ v ∈ rawValue.map BitVec.toNat, v < 256 ^ 8 := by
    simpa using fun (x : BitVec 64) _ => x.isLt
  have phys : ∀ v ∈ physValue.map (fun x => x.bits.toNat), v < 256 ^ 8 := by
    simpa using fun (x : Binary64) _ => x.bits.isLt
  simp [DecodedSignalChunk.blobs, SignalBlobs.samples, blobToValues_toBlob (by decide) rows,
    blobToValues_toBlob (by decide) raws, blobToValues_toBlob (by decide) phys, Function.comp_def]

/-- Vectors whose blobs have fewer than 2^31 bytes. -/
structure DecodedSignalChunk.Fits (c : DecodedSignalChunk) : Prop where
  rowIndex : c.rowIndex.length * 4 < 2 ^ 31
  rawValue : c.rawValue.length * 8 < 2 ^ 31
  physValue : c.physValue.length * 8 < 2 ^ 31

theorem blobs_lengths (c : DecodedSignalChunk) : c.blobs.rowIndex.length = c.rowIndex.length * 4 ∧
    c.blobs.rawValue.length = c.rawValue.length * 8 ∧
      c.blobs.physValue.length = c.physValue.length * 8 := by
  simp [DecodedSignalChunk.blobs, toBlob_length]

theorem bindBlob_of_lt {blob : List UInt8} (h : blob.length < 2 ^ 31) : bindBlob blob = blob := by
  rw [bindBlob, intOfSize_of_lt h, Int.toNat_natCast, List.take_length]

theorem DecodedSignalChunk.Fits.bindable {c : DecodedSignalChunk} (h : c.Fits) : c.Bindable := by
  obtain ⟨rows, raws, phys⟩ := blobs_lengths c
  constructor
  · rw [rows, intOfSize_of_lt h.rowIndex]
    exact Int.natCast_nonneg _
  · rw [raws, intOfSize_of_lt h.rawValue]
    exact Int.natCast_nonneg _
  · rw [phys, intOfSize_of_lt h.physValue]
    exact Int.natCast_nonneg _

/-- Such a chunk is stored as it is. -/
theorem DecodedSignalChunk.Fits.bound_eq {c : DecodedSignalChunk} (h : c.Fits) : c.bound = c.blobs := by
  obtain ⟨rows, raws, phys⟩ := blobs_lengths c
  rw [DecodedSignalChunk.bound, bindBlob_of_lt (rows ▸ h.rowIndex), bindBlob_of_lt (raws ▸ h.rawValue),
    bindBlob_of_lt (phys ▸ h.physValue)]

theorem blobsAt_upsert (c : DecodedSignalChunk) (t : DecodedTable) (k : SignalKey) :
    blobsAt (c.upsert t) k =
      (blobsAt t k).append (if keyOf c.canId c.signalName = k then c.bound else .empty) := by
  unfold blobsAt DecodedSignalChunk.upsert
  rw [Table.find?_upsert]
  by_cases h : k = keyOf c.canId c.signalName
  · simp [h]
  · simp [h, Ne.symm h]

/-- A key gets what is bound of the chunks that are written for it, in order. -/
theorem blobsAt_foldl (chunks : List DecodedSignalChunk) (t : DecodedTable) (k : SignalKey) :
    blobsAt (chunks.foldl (fun t c => c.upsert t) t) k =
      ((chunks.filter fun c => keyOf c.canId c.signalName = k).map DecodedSignalChunk.bound).foldl
        SignalBlobs.append (blobsAt t k) := by
  induction chunks generalizing t with
  | nil => rfl
  | cons c rest ih =>
    rw [List.foldl_cons, ih, blobsAt_upsert]
    by_cases h : keyOf c.canId c.signalName = k
    · simp [h]
    · simp [h]

end FsCore
