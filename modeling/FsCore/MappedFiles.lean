import FsCore.ByteLayout
import FsCore.DataStore
import FsCore.Simulation

namespace FsCore

/-- The files of a data store as bytes, and what the views of a writer and a reader know of them. -/
structure MappedStore where
  header : Option (List UInt8)
  segments : Nat → Option (List UInt8)
  writeNext : Nat
  writeMapped : List Nat
  readMapped : List Nat
  faults : List Bool

abbrev MappedM := Effect MappedStore StoreError

namespace MappedStore

def fresh : MappedStore := ⟨none, fun _ => none, 0, [], [], []⟩

def setHeader (bytes : List UInt8) (m : MappedStore) : MappedStore := { m with header := some bytes }

def setSegment (i : Nat) (bytes : List UInt8) (m : MappedStore) : MappedStore :=
  { m with segments := Function.update m.segments i (some bytes) }

/-- `HeaderView::header` -/
def constract (m : MappedStore) : MmapHeaderConstract := headerCodec.load 0 (m.header.getD [])

/-- A change of the object that `HeaderView::header_mut` refers to. -/
def setConstract (h : MmapHeaderConstract) (m : MappedStore) : MappedStore :=
  m.setHeader (headerCodec.store 0 h (m.header.getD []))

end MappedStore

/-- The count of rows where it is compared with a `uint64_t`. -/
def MmapHeaderConstract.totalRows (h : MmapHeaderConstract) : Nat := (h.writeCount.toInt % 2 ^ 64).toNat

namespace Mapped

def call (name : String) : MappedM Unit := fun m =>
  match m.faults with
  | [] => (.ok (), m)
  | false :: rest => (.ok (), { m with faults := rest })
  | true :: rest => (.error (.io name), { m with faults := rest })

def mmapCreateRw (size : Nat) (set : List UInt8 → MappedStore → MappedStore) : MappedM Unit := do
  call "open(create_rw)"
  Effect.modify (set [])
  call "ftruncate(create_rw)"
  Effect.modify (set (List.replicate size 0))
  call "mmap(create_rw)"

def mmapOpen : Option (List UInt8) → MappedM Unit
  | none => Effect.raise (.io "open")
  | some bytes => do
    call "open"
    if bytes.length = 0 then Effect.raise (.mmap "fstat") else call "mmap"

def mmapOpenOrCreate (size : Nat) (set : List UInt8 → MappedStore → MappedStore) :
    Option (List UInt8) → MappedM Unit
  | none => mmapCreateRw size set
  | file => mmapOpen file

/-- The check that the constructor of `HeaderView` makes in both modes. -/
def checkHeader : MappedM Unit := do
  let m ← Effect.read
  if (m.header.getD []).length < headerCodec.width then
    Effect.raise (.mmap "Header mmap too small")
  else
    pure ()

def initCapacity : MappedM Unit := do
  let m ← Effect.read
  if m.constract.capacity = 0 then
    Effect.modify
      (MappedStore.setConstract { m.constract with capacity := UInt32.ofNat kDataSegmentCapacity })
  else pure ()

def openHeaderRw : MappedM Unit := do
  let m ← Effect.read
  mmapOpenOrCreate headerCodec.width MappedStore.setHeader m.header
  checkHeader
  initCapacity

def openHeaderRo : MappedM Unit := do
  let m ← Effect.read
  mmapOpen m.header
  checkHeader

def setWriteCount (value : Nat) : MappedM Unit :=
  Effect.modify fun m => m.setConstract { m.constract with writeCount := Int32.ofNat value }

/-- `HeaderView::set_source_file_path`: the array is cleared before the characters are copied. -/
def setSourceFilePath (value : Text) : MappedM Unit :=
  let n := min value.length kMmapSourceFilePathCapacity
  Effect.modify fun m => m.setConstract { m.constract with
    sourceFilePath := Vector.ofFn fun i => (value.take n).getD i nul
    sourceFilePathLen := UInt16.ofNat n }

/-- `HeaderView::source_file_path`; a longer length would reach out of the array. -/
def sourceFilePath : MappedM Text := do
  let m ← Effect.read
  let n := m.constract.sourceFilePathLen.toNat
  if kMmapSourceFilePathCapacity < n then
    Effect.raise .undefined
  else
    pure (m.constract.sourceFilePath.toList.take n)

def kSegmentBytes : Nat := kDataSegmentCapacity * parsedEntryCodec.width

def openSegment (segIdx : Nat) : MappedM Unit := do
  let m ← Effect.read
  if segIdx ∈ m.readMapped then pure ()
  else
    mmapOpen (m.segments segIdx)
    Effect.modify fun m => { m with readMapped := segIdx :: m.readMapped }

def openOrCreateSegmentForWrite (segIdx : Nat) : MappedM Unit := do
  let m ← Effect.read
  if segIdx ∈ m.writeMapped then pure ()
  else
    mmapOpenOrCreate kSegmentBytes (MappedStore.setSegment segIdx) (m.segments segIdx)
    Effect.modify fun m => { m with writeMapped := segIdx :: m.writeMapped }

/-- `records(segment_idx)[local_idx]` of a mapped file; outside of the mapping nothing is defined. -/
def loadRow (segIdx localIdx : Nat) : MappedM ParsedEntry := do
  let m ← Effect.read
  let bytes := (m.segments segIdx).getD []
  if (localIdx + 1) * parsedEntryCodec.width ≤ bytes.length then
    pure (parsedEntryCodec.load localIdx bytes)
  else Effect.raise .undefined

/-- `rows[local_idx] = record` -/
def storeRow (segIdx localIdx : Nat) (entry : ParsedEntry) : MappedM Unit := do
  let m ← Effect.read
  let bytes := (m.segments segIdx).getD []
  if (localIdx + 1) * parsedEntryCodec.width ≤ bytes.length then
    Effect.modify (MappedStore.setSegment segIdx (parsedEntryCodec.store localIdx entry bytes))
  else Effect.raise .undefined

/-- `SegmentView::record` -/
def record (segIdx localIdx : Nat) : MappedM ParsedEntry :=
  if kDataSegmentCapacity ≤ localIdx then Effect.raise (.mmap "local_idx out of range")
  else do
    openSegment segIdx
    loadRow segIdx localIdx

def readAt (row : Nat) : MappedM ParsedEntry :=
  record (row / kDataSegmentCapacity) (row % kDataSegmentCapacity)

def writeNextRow (entry : ParsedEntry) : MappedM Nat := do
  let m ← Effect.read
  let cur := m.writeNext
  openOrCreateSegmentForWrite (cur / kDataSegmentCapacity)
  storeRow (cur / kDataSegmentCapacity) (cur % kDataSegmentCapacity) entry
  if cur + 1 < 2 ^ 31 then
    Effect.modify fun m => { m with writeNext := cur + 1 }
    pure cur
  else
    Effect.raise .undefined

def advance (row : Nat) (m : MappedStore) : MappedStore :=
  if row = m.writeNext then { m with writeNext := m.writeNext + 1 } else m

def writeAt (row : Nat) (entry : ParsedEntry) : MappedM Unit := do
  let m ← Effect.read
  if m.writeNext < row then
    Effect.raise (.mmap "write_at row_index creates a gap")
  else
    openOrCreateSegmentForWrite (row / kDataSegmentCapacity)
    storeRow (row / kDataSegmentCapacity) (row % kDataSegmentCapacity) entry
    Effect.modify (advance row)

def readEntryAt (row : Nat) : MappedM ParsedEntry := do
  let m ← Effect.read
  if m.constract.totalRows ≤ row then
    Effect.raise (.mmap s!"row index out of range: {row}")
  else
    readAt row

def readRows : List Nat → MappedM (List ParsedEntry)
  | [] => pure []
  | row :: rest => do
    let entry ← readEntryAt row
    let entries ← readRows rest
    pure (entry :: entries)

def readRowsFrom (row : Nat) : Nat → MappedM (List ParsedEntry)
  | 0 => pure []
  | n + 1 => do
    let entry ← readAt row
    let rest ← readRowsFrom (row + 1) n
    pure (entry :: rest)

def readPage (offset count : Nat) : MappedM (List ParsedEntry) := do
  let m ← Effect.read
  if count = 0 then
    pure []
  else
    let totalRows := m.constract.totalRows
    let sum := (offset + count) % 2 ^ 64
    if totalRows < offset then
      Effect.raise (.mmap
        s!"page [{offset}, {sum}) is out of range (total rows = {totalRows})")
    else
      let endExclusive := if totalRows < sum then totalRows else sum
      readRowsFrom offset (endExclusive - offset)

def appendEntry (entry : ParsedEntry) : MappedM Nat := do
  let row ← writeNextRow entry
  setWriteCount (row + 1)
  pure row

def updateRow (row : Nat) (entry : ParsedEntry) : MappedM Unit := do
  let m ← Effect.read
  if m.constract.totalRows ≤ row then
    Effect.raise (.mmap "row index out of range")
  else
    writeAt row entry

def openWriter : MappedM Unit := do
  openHeaderRw
  openOrCreateSegmentForWrite 0

def openReader : MappedM Unit := do
  openHeaderRo
  let m ← Effect.read
  match m.segments 0 with
  | none => pure ()
  | some _ => openSegment 0

end Mapped

end FsCore
