import FsCore.Session

namespace FsCore

def kDataSegmentCapacity : Nat := 100000

def mmapCreateRw {α : Type} (zero : α) (set : File α → Session → Session) : StoreM Unit := do
  call "open(create_rw)"
  Effect.modify (set .empty)
  call "ftruncate(create_rw)"
  Effect.modify (set (.bytes zero))
  call "mmap(create_rw)"

/-- Opens and maps an existing file, read-only or read-write. -/
def mmapOpen {α : Type} : File α → StoreM Unit
  | .missing => Effect.raise (.io "open")
  | .empty => do
    call "open"
    Effect.raise (.mmap "fstat")
  | .bytes _ => do
    call "open"
    call "mmap"

/-- The test for existence chooses between mapping the file and creating it. -/
def mmapOpenOrCreate {α : Type} (zero : α) (set : File α → Session → Session) : File α → StoreM Unit
  | .missing => mmapCreateRw zero set
  | f => mmapOpen f

def Session.initCapacity (s : Session) : Session :=
  if s.header.capacity = 0 then
    s.setHeader (.bytes { s.header with capacity := kDataSegmentCapacity })
  else s

/-- `HeaderView` in mode ReadWrite. -/
def openHeaderRw : StoreM Unit := do
  let s ← Effect.read
  mmapOpenOrCreate MmapHeader.zero Session.setHeader s.files.header
  Effect.modify Session.initCapacity

def openHeaderRo : StoreM Unit := do
  let s ← Effect.read
  mmapOpen s.files.header

def setWriteCount (value : Nat) : StoreM Unit :=
  Effect.modify fun s => s.setHeader (.bytes { s.header with writeCount := value })

def kMmapSourceFilePathCapacity : Nat := 512

def setSourceFilePath (value : Text) : StoreM Unit :=
  Effect.modify fun s => s.setHeader
    (.bytes { s.header with sourceFilePath := value.take kMmapSourceFilePathCapacity })

def openSegment (segIdx : Nat) : StoreM Unit := do
  let s ← Effect.read
  if segIdx ∈ s.readMapped then
    pure ()
  else
    mmapOpen (s.files.segments segIdx)
    Effect.modify fun s => { s with readMapped := segIdx :: s.readMapped }

def openOrCreateSegmentForWrite (segIdx : Nat) : StoreM Unit := do
  let s ← Effect.read
  if segIdx ∈ s.writeMapped then
    pure ()
  else
    mmapOpenOrCreate Segment.zero (Session.setSegment segIdx) (s.files.segments segIdx)
    Effect.modify fun s => { s with writeMapped := segIdx :: s.writeMapped }

/-- The object at a row, across the segment files. -/
def Session.rowAt (s : Session) (row : Nat) : ParsedEntry :=
  (s.files.segments (row / kDataSegmentCapacity)).content Segment.zero (row % kDataSegmentCapacity)

def Session.putRow (row : Nat) (entry : ParsedEntry) (s : Session) : Session :=
  let segIdx := row / kDataSegmentCapacity
  let rows := (s.files.segments segIdx).content Segment.zero
  s.setSegment segIdx (.bytes (Function.update rows (row % kDataSegmentCapacity) entry))

/-- `SegmentView::read_at`, of the read-only view. -/
def readAt (row : Nat) : StoreM ParsedEntry := do
  openSegment (row / kDataSegmentCapacity)
  let s ← Effect.read
  pure (s.rowAt row)

/-- `SegmentView::write_next`; the counter is an `int32_t`. -/
def writeNextRow (entry : ParsedEntry) : StoreM Nat := do
  let s ← Effect.read
  let cur := s.writeNext
  openOrCreateSegmentForWrite (cur / kDataSegmentCapacity)
  Effect.modify (Session.putRow cur entry)
  if cur + 1 < 2 ^ 31 then
    Effect.modify fun s => { s with writeNext := cur + 1 }
    pure cur
  else
    Effect.raise .undefined

/-- A row written at the next index moves that index. The row was checked against
the header, so the increment cannot overflow. -/
def Session.advance (row : Nat) (s : Session) : Session :=
  if row = s.writeNext then { s with writeNext := s.writeNext + 1 } else s

/-- `SegmentView::write_at` -/
def writeAt (row : Nat) (entry : ParsedEntry) : StoreM Unit := do
  let s ← Effect.read
  if s.writeNext < row then
    Effect.raise (.mmap "write_at row_index creates a gap")
  else
    openOrCreateSegmentForWrite (row / kDataSegmentCapacity)
    Effect.modify (Session.putRow row entry)
    Effect.modify (Session.advance row)

/-- `DataMmapInterface<ReadOnly>::read_entry_at` with the bound check. -/
def readEntryAt (row : Nat) : StoreM ParsedEntry := do
  let s ← Effect.read
  if s.header.writeCount ≤ row then
    Effect.raise (.mmap s!"row index out of range: {row}")
  else
    readAt row

def readRowsFrom (row : Nat) : Nat → StoreM (List ParsedEntry)
  | 0 => pure []
  | n + 1 => do
    let entry ← readAt row
    let rest ← readRowsFrom (row + 1) n
    pure (entry :: rest)

/-- `DataMmapInterface<ReadOnly>::read_page`, in 64-bit unsigned arithmetic. -/
def readPage (offset count : Nat) : StoreM (List ParsedEntry) := do
  let s ← Effect.read
  if count = 0 then
    pure []
  else
    let totalRows := s.header.writeCount
    let sum := (offset + count) % 2 ^ 64
    if totalRows < offset then
      Effect.raise (.mmap
        s!"page [{offset}, {sum}) is out of range (total rows = {totalRows})")
    else
      let endExclusive := if totalRows < sum then totalRows else sum
      readRowsFrom offset (endExclusive - offset)

def appendEntry (entry : ParsedEntry) : StoreM Nat := do
  let row ← writeNextRow entry
  setWriteCount (row + 1)
  pure row

/-- `DataMmapInterface<ReadWrite>::update_entry`. -/
def updateRow (row : Nat) (entry : ParsedEntry) : StoreM Unit := do
  let s ← Effect.read
  if s.header.writeCount ≤ row then
    Effect.raise (.mmap "row index out of range")
  else
    writeAt row entry

end FsCore
