import FsCore.AscReader
import FsCore.SessionRuns

namespace FsCore

/-- What is stored under a token while no object has it open. -/
structure TokenStore where
  files : MmapFiles
  tables : IndexTables

def TokenStore.empty : TokenStore := ⟨⟨.missing, fun _ => .missing⟩, IndexTables.empty⟩

def TokenStore.start (store : TokenStore) (faults : List Bool) : Session :=
  Session.start store.files store.tables faults

/-- The destructor rolls back what was not committed. -/
def Session.left (s : Session) : TokenStore := ⟨s.files, s.index.committed⟩

/-- The reader of the worker; with relative timestamps it converts no dates. -/
def workerReader : AscReader := ⟨.hex, true, fun _ => none⟩

def workerStore (filePath : Text) (parsedEntries : List LogRecord) : StoreM Unit := do
  construct
  setSourceFilePath filePath
  writeEntries parsedEntries

/-- The return code, none where the code has no defined behaviour, and what is left
under the token. `file` is the content of the file if it can be opened; a null
pointer is refused like an empty text. -/
def runWorkerSegmented (filePath tokenId : Text) (file : Option Text) (faults : List Bool)
    (store : TokenStore) : Option Int × TokenStore :=
  if filePath = [] ∨ tokenId = [] then (some (-1), store)
  else
    match file with
    | none => (some (-2), store)
    | some text =>
      match workerReader.readAll text with
      | .error _ => (none, store)
      | .ok parsedEntries =>
        match workerStore filePath parsedEntries (store.start faults) with
        | (.ok _, s) => (some 0, s.left)
        | (.error .undefined, s) => (none, s.left)
        | (.error _, s) => (some (-1), s.left)

def TokenStore.writeCount (store : TokenStore) : Nat :=
  (store.files.header.content MmapHeader.zero).writeCount

/-- Counter, header, index and rows all say that the records are stored and nothing else. -/
def TokenStore.HoldsExactly (store : TokenStore) (records : List LogRecord) : Prop :=
  (fetchCount (store.start [])).1 = .ok records.length ∧ store.writeCount = records.length ∧
    store.tables.logIndex.keys = List.range records.length ∧
    ∀ i (h : i < records.length), ((store.start []).rowAt i).toLogRecord = records[i]

theorem fetchCount_start (store : TokenStore) :
    (fetchCount (store.start [])).1 = .ok (store.tables.logIndex.count % 2 ^ 32) := rfl

theorem foldl_append_keys (entries : List LogRecord) {g : Image} {k : Nat} :
    k ∈ (entries.foldl Image.append g).index.tables.logIndex.keys ↔
      k ∈ g.index.tables.logIndex.keys ∨ g.nextIndex ≤ k ∧ k < g.nextIndex + entries.length := by
  induction entries generalizing g with
  | nil =>
    rw [List.foldl_nil, List.length_nil, or_iff_left]
    omega
  | cons record rest ih =>
    have next := append_nextIndex g record
    have own : k ∈ (g.append record).index.tables.logIndex.keys ↔
        k = g.nextIndex ∨ k ∈ g.index.tables.logIndex.keys := by
      have tables : (g.append record).index.tables =
          g.index.tables.appendRow g.nextIndex (g.entryFor record) := tables_write _ _
      rw [tables]
      exact Table.mem_keys_upsert
    rw [List.foldl_cons, ih, own, next, List.length_cons]
    constructor
    · rintro ((rfl | old) | ⟨low, high⟩)
      · exact .inr ⟨le_rfl, by omega⟩
      · exact .inl old
      · exact .inr ⟨by omega, by omega⟩
    · rintro (old | ⟨low, high⟩)
      · exact .inl (.inr old)
      · by_cases first : k = g.nextIndex
        · exact .inl (.inl first)
        · exact .inr ⟨by omega, by omega⟩

/-- What the worker leaves when nothing throws: its batch, counted from row 0, over
whatever it found. -/
structure Rewritten (store left : TokenStore) (records : List LogRecord) : Prop where
  small : records.length < 2 ^ 31
  writeCount : left.writeCount = if records = [] then store.writeCount else records.length
  keys : ∀ k, k ∈ left.tables.logIndex.keys ↔ k ∈ store.tables.logIndex.keys ∨ k < records.length
  row : ∀ i (h : i < records.length), ((left.start []).rowAt i).toLogRecord = records[i]

/-- The session that the worker writes into: it numbers rows from 0 over the old store. -/
theorem workerOpen_ok {filePath : Text} {faults : List Bool} {store : TokenStore} {a b : Session}
    (ha : construct (store.start faults) = (.ok (), a))
    (hb : setSourceFilePath filePath a = (.ok (), b)) :
    b.writeNext = 0 ∧ b.header.writeCount = store.writeCount ∧ b.index.committed = store.tables := by
  obtain ⟨opened, _⟩ := construct_ok ha
  have named : b.image = { a.image with
      header := { a.header with sourceFilePath := filePath.take kMmapSourceFilePathCapacity } } := by
    cases hb
    rfl
  refine ⟨(congrArg Image.nextIndex named).trans (congrArg Image.nextIndex opened), ?_, ?_⟩
  · have header : a.header = (store.start faults).header.opened := congrArg Image.header opened
    have same : b.header.writeCount = a.header.writeCount :=
      congrArg (fun g : Image => g.header.writeCount) named
    rw [same, header, opened_writeCount]
    rfl
  · have index : b.index = (store.start faults).index :=
      (congrArg Image.index named).trans (congrArg Image.index opened)
    rw [index]
    rfl

theorem workerStore_ok {filePath : Text} {records : List LogRecord} {faults : List Bool}
    {store : TokenStore} {s : Session}
    (h : workerStore filePath records (store.start faults) = (.ok (), s)) :
    Rewritten store s.left records := by
  obtain ⟨_, a, ha, h⟩ := Effect.bind_eq_ok_iff.mp h
  obtain ⟨_, b, hb, h⟩ := Effect.bind_eq_ok_iff.mp h
  obtain ⟨next, count, tables⟩ := workerOpen_ok ha hb
  obtain ⟨_, small, _, himage, _⟩ := writeEntries_ok (by omega) h
  have gnext : b.image.begin.nextIndex = 0 := next
  have gtables : b.image.begin.index.tables = store.tables := tables
  refine ⟨by omega, ?_, fun k => ?_, fun i hi => ?_⟩
  · have header : s.left.writeCount = (records.foldl Image.append b.image.begin).header.writeCount :=
      congrArg (fun g : Image => g.header.writeCount) himage
    rw [header]
    split
    next none =>
      rw [none]
      exact count
    next ne => rw [← foldl_append_whole (.inl ne), foldl_append_nextIndex, gnext, Nat.zero_add]
  · have index : s.left.tables = (records.foldl Image.append b.image.begin).index.tables :=
      congrArg (fun g : Image => g.index.committed) himage
    rw [index, foldl_append_keys, gtables, gnext]
    simp
  · have row : s.rowAt = (records.foldl Image.append b.image.begin).row := congrArg Image.row himage
    have stored := foldl_append_records records (g := b.image.begin) hi
    rw [gnext, Nat.zero_add] at stored
    change (s.rowAt i).toLogRecord = _
    rw [row, stored]

theorem Rewritten.holdsExactly_iff {store left : TokenStore} {records : List LogRecord}
    (h : Rewritten store left records) : left.HoldsExactly records ↔
      (∀ k ∈ store.tables.logIndex.keys, k < records.length) ∧
        (records = [] → store.writeCount = 0) := by
  have count : left.writeCount = records.length ↔ (records = [] → store.writeCount = 0) := by
    rw [h.writeCount]
    split
    next none => simp [none]
    next ne => simp [ne]
  have keys : left.tables.logIndex.keys = List.range records.length ↔
      ∀ k ∈ store.tables.logIndex.keys, k < records.length := by
    rw [Table.keys_eq_range_iff]
    refine forall_congr' fun k => ?_
    rw [h.keys]
    exact or_iff_right_iff_imp
  constructor
  · intro h
    obtain ⟨_, hcount, hkeys, _⟩ := h
    exact ⟨keys.mp hkeys, count.mp hcount⟩
  · intro h
    obtain ⟨hkeys, hcount⟩ := h
    have range := keys.mpr hkeys
    refine ⟨?_, count.mpr hcount, range, h.row⟩
    have size : left.tables.logIndex.count = records.length := by
      rw [← List.length_range (n := records.length), ← range, Table.keys, List.length_map]
      rfl
    have small := h.small
    rw [fetchCount_start, size, Nat.mod_eq_of_lt (by omega)]

/-- A run of the worker that reports success stores exactly the records of the file
when no earlier run left a row index beyond them. -/
theorem worker_holdsExactly_iff {filePath tokenId : Text} {file : Option Text} {faults : List Bool}
    {store left : TokenStore}
    (h : runWorkerSegmented filePath tokenId file faults store = (some 0, left)) :
    ∃ text records, file = some text ∧ workerReader.readAll text = .ok records ∧
      (left.HoldsExactly records ↔
        (∀ k ∈ store.tables.logIndex.keys, k < records.length) ∧
          (records = [] → store.writeCount = 0)) := by
  unfold runWorkerSegmented at h
  split at h
  next => cases h
  next =>
    cases file with
    | none => cases h
    | some text =>
      dsimp only at h
      cases hr : workerReader.readAll text with
      | error i =>
        rw [hr] at h
        cases h
      | ok records =>
        rw [hr] at h
        dsimp only at h
        rcases hs : workerStore filePath records (store.start faults) with ⟨e | _, s⟩ <;> rw [hs] at h
        · cases e <;> cases h
        · cases h
          exact ⟨text, records, rfl, hr, (workerStore_ok hs).holdsExactly_iff⟩

def oneLine : Text := "0.1 1 123 Rx d 1 01".toList

def twoLines : Text := oneLine ++ '\n' :: oneLine

def workerRun (text : Text) (store : TokenStore) : Option Int × TokenStore :=
  runWorkerSegmented "log.asc".toList "t".toList (some text) [] store

theorem worker_holdsExactly_sample : ∃ text records, some oneLine = some text ∧
    workerReader.readAll text = .ok records ∧ ((workerRun oneLine .empty).2.HoldsExactly records ↔
      (∀ k ∈ TokenStore.empty.tables.logIndex.keys, k < records.length) ∧
        (records = [] → TokenStore.empty.writeCount = 0)) :=
  worker_holdsExactly_iff (pair_of_fst (by decide +kernel))

/-- A shorter log after a longer one: a row of the longer one stays in the index. -/
theorem worker_keeps_old_rows : ¬ ∀ filePath tokenId file faults store left,
    runWorkerSegmented filePath tokenId file faults store = (some 0, left) →
      ∃ text records, file = some text ∧ workerReader.readAll text = .ok records ∧
        left.HoldsExactly records := by
  intro h
  obtain ⟨text, records, same, read, count, -⟩ := h "log.asc".toList "t".toList (some oneLine) []
    (workerRun twoLines .empty).2 (workerRun oneLine (workerRun twoLines .empty).2).2
    (pair_of_fst (by decide +kernel))
  cases same
  have one : (workerReader.readAll oneLine).map List.length = .ok 1 := by decide +kernel
  have two : (fetchCount ((workerRun oneLine (workerRun twoLines .empty).2).2.start [])).1 = .ok 2 := by
    decide +kernel
  rw [read] at one
  rw [two, Except.ok.inj one] at count
  cases count

end FsCore
