import FsCore.LastBelow
import FsCore.Browse

namespace FsCore

/-- The bytes of a frame that count. -/
def LogRecord.payload (r : LogRecord) : List UInt8 := r.data.toList.take (min r.dataLen.toNat 64)

/-- Row of a log of records; beyond its end there is nothing to see. -/
def recordAt (log : List LogRecord) (i : Nat) : LogRecord := log.getD i LogRecord.zero

/-- The nearest earlier row of the same id. -/
def previousRow (log : List LogRecord) (i : Nat) : Option Nat :=
  lastBelow? (fun j => (recordAt log j).canId == (recordAt log i).canId) i

def referenceRow (log : List LogRecord) (i : Nat) : ParsedEntry where
  toLogRecord := recordAt log i
  lineNumber := 0
  lastTimestamp :=
    match previousRow log i with
    | none => (recordAt log i).timestamp
    | some j => (recordAt log j).timestamp
  changed :=
    match previousRow log i with
    | none => 0
    | some j => if (recordAt log j).payload = (recordAt log i).payload then 0 else 1
  prevSameCan :=
    match previousRow log i with
    | none => kInvalidRow
    | some j => UInt32.ofNat j
  nextSameCan := kInvalidRow

def referenceTables (log : List LogRecord) : IndexTables where
  logIndex := Table.ofRange log.length (fun i => (referenceRow log i).indexRow)
  logCanIds := Table.ofKeys (log.map (fun r => r.canId.toNat))
  logChannels := Table.ofKeys (log.map (fun r => normalizeChannelKey r.channelText))

/-- The store that a log of records determines. -/
def Image.reference (log : List LogRecord) : Image where
  header := ⟨log.length, kDataSegmentCapacity, []⟩
  row := fun i => if i < log.length then referenceRow log i else ParsedEntry.zero
  nextIndex := log.length
  lastRow := fun id =>
    (lastBelow? (fun j => (recordAt log j).canId == id) log.length).map UInt32.ofNat
  index := ⟨referenceTables log, none⟩
  browser := ⟨[], 0, true⟩

theorem toNat_min_64 (n : UInt8) : (min n 64).toNat = min n.toNat 64 := by
  change (if n ≤ 64 then n else 64).toNat = min n.toNat 64
  have bound : n ≤ 64 ↔ n.toNat ≤ 64 := UInt8.le_iff_toNat_le
  split
  next h => rw [min_eq_left (bound.mp h)]
  next h =>
    rw [min_eq_right (by have := bound.not.mp h; omega)]
    rfl

/-- payload_changed compares the counted bytes. -/
theorem payloadChanged_iff {prev cur : LogRecord} :
    payloadChanged prev cur = true ↔ prev.payload ≠ cur.payload := by
  have hlen (r : LogRecord) : r.payload.length = min r.dataLen.toNat 64 := by
    simp [LogRecord.payload]
  simp only [payloadChanged]
  split
  next differ =>
    simp only [true_iff]
    intro eq
    have := congrArg List.length eq
    rw [hlen, hlen, ← toNat_min_64, ← toNat_min_64] at this
    exact differ (UInt8.toNat_inj.mp this)
  next same =>
    have same := congrArg UInt8.toNat (not_not.mp same)
    rw [toNat_min_64, toNat_min_64] at same
    by_cases empty : 0 < min cur.dataLen 64
    · simp [empty, LogRecord.payload, toNat_min_64, same]
    · have zero : min cur.dataLen.toNat 64 = 0 := by
        rw [← toNat_min_64]
        have := UInt8.lt_iff_toNat_lt.not.mp empty
        simpa using this
      simp [empty, LogRecord.payload, same, zero]

theorem recordAt_append {log : List LogRecord} (record : LogRecord) {i : Nat} (h : i < log.length) :
    recordAt (log ++ [record]) i = recordAt log i := by
  simp [recordAt, List.getD_eq_getElem?_getD, List.getElem?_append_left h]

@[simp] theorem recordAt_last (log : List LogRecord) (record : LogRecord) :
    recordAt (log ++ [record]) log.length = record := by
  simp [recordAt]

theorem previousRow_append {log : List LogRecord} (record : LogRecord) {i : Nat} (h : i < log.length) :
    previousRow (log ++ [record]) i = previousRow log i := by
  apply lastBelow?_congr
  intro j hj
  rw [recordAt_append record h, recordAt_append record (by omega)]

theorem previousRow_last (log : List LogRecord) (record : LogRecord) :
    previousRow (log ++ [record]) log.length =
      lastBelow? (fun j => (recordAt log j).canId == record.canId) log.length := by
  apply lastBelow?_congr
  intro j hj
  rw [recordAt_last, recordAt_append record hj]

/-- `previousRow` is what its name says. -/
theorem previousRow_eq_some_iff {log : List LogRecord} {i j : Nat} : previousRow log i = some j ↔
    j < i ∧ (recordAt log j).canId = (recordAt log i).canId ∧
      ∀ k, j < k → k < i → (recordAt log k).canId ≠ (recordAt log i).canId := by
  simp [previousRow, lastBelow?_eq_some_iff]

theorem previousRow_eq_none_iff {log : List LogRecord} {i : Nat} : previousRow log i = none ↔
    ∀ k, k < i → (recordAt log k).canId ≠ (recordAt log i).canId := by
  simp [previousRow, lastBelow?_eq_none_iff]

theorem previousRow_lt {log : List LogRecord} {i j : Nat} (h : previousRow log i = some j) : j < i :=
  lastBelow?_lt h

theorem referenceRow_append {log : List LogRecord} (record : LogRecord) {i : Nat} (h : i < log.length) :
    referenceRow (log ++ [record]) i = referenceRow log i := by
  simp only [referenceRow, recordAt_append record h, previousRow_append record h]
  cases hp : previousRow log i with
  | none => rfl
  | some j =>
    have : j < log.length := (previousRow_lt hp).trans h
    simp only [recordAt_append record this]

/-- A store in the middle of a transaction. -/
def Image.withIndex (g : Image) (ix : IndexDb) : Image := { g with index := ix }

/-- The row built from the tracker and from one earlier row is the reference row. -/
theorem entryFor_reference {log : List LogRecord} (small : log.length < 2 ^ 31) (ix : IndexDb)
    (record : LogRecord) : ((Image.reference log).withIndex ix).entryFor record =
      referenceRow (log ++ [record]) log.length := by
  have hlast := previousRow_last log record
  simp only [Image.entryFor, Image.withIndex, Image.reference]
  rw [← hlast]
  cases hp : previousRow (log ++ [record]) log.length with
  | none => simp [parsedEntry, referenceRow, hp]
  | some j =>
    have hj : j < log.length := previousRow_lt hp
    have hrow : (referenceRow log j).toLogRecord = recordAt log j := rfl
    simp only [Option.map_some, Option.getD_some, parsedEntry, referenceRow, hp, recordAt_last,
      toNat_ofNat_row (hj.trans small), if_pos hj, if_neg (ofNat_row_ne_invalid (hj.trans small)),
      recordAt_append record hj]
    by_cases same : (recordAt log j).payload = record.payload
    · have : payloadChanged (recordAt log j) record = false := by
        have := (payloadChanged_iff : payloadChanged (recordAt log j) record = true ↔ _).not
        simpa [same] using this
      simp only [same, this, if_true]
      rfl
    · simp only [same, payloadChanged_iff.mpr same, if_false]
      rfl

theorem referenceRow_changed (log : List LogRecord) (i : Nat) :
    (referenceRow log i).changed = 0 ∨ (referenceRow log i).changed = 1 := by
  cases hp : previousRow log i with
  | none => simp [referenceRow, hp]
  | some j =>
    by_cases same : (recordAt log j).payload = (recordAt log i).payload <;>
      simp [referenceRow, hp, same]

theorem appendRow_referenceTables (log : List LogRecord) (record : LogRecord) :
    (referenceTables log).appendRow log.length (referenceRow (log ++ [record]) log.length) =
      referenceTables (log ++ [record]) := by
  have hrow : (referenceRow (log ++ [record]) log.length).toLogRecord = record :=
    recordAt_last log record
  simp only [IndexTables.appendRow, IndexTables.insertRow, IndexTables.insertCanId,
    IndexTables.insertChannel, appendedRow_eq (referenceRow_changed _ _), referenceTables,
      Table.upsert_ofRange,
    List.map_append, List.map_singleton, Table.ofKeys_append_singleton, List.length_append,
    List.length_singleton, IndexTables.mk.injEq, ParsedEntry.indexRow, hrow, and_true]
  apply Table.ofRange_congr
  intro i hi
  by_cases last : i = log.length
  · simp [last, hrow]
  · rw [Function.update_of_ne last, referenceRow_append record (by omega)]

theorem append_reference {log : List LogRecord} (small : log.length < 2 ^ 31) (ix : IndexDb)
    (record : LogRecord) : ((Image.reference log).withIndex ix).append record =
      (Image.reference (log ++ [record])).withIndex
        (ix.write (IndexTables.appendRow log.length (referenceRow (log ++ [record]) log.length))) := by
  simp only [Image.append, entryFor_reference small]
  simp only [Image.store, Image.withIndex, Image.reference, Image.mk.injEq, List.length_append,
    List.length_singleton, true_and, and_true]
  refine ⟨?_, ?_⟩
  · funext i
    by_cases last : i = log.length
    · simp [last]
    · rw [Function.update_of_ne last]
      by_cases hi : i < log.length
      · rw [if_pos hi, if_pos (by omega), referenceRow_append record hi]
      · rw [if_neg hi, if_neg (by omega)]
  · funext id
    rw [lastBelow?, recordAt_last]
    by_cases same : id = record.canId
    · simp [same]
    · rw [Function.update_of_ne same, if_neg (by simpa using Ne.symm same)]
      congr 1
      apply lastBelow?_congr
      intro j hj
      rw [recordAt_append record hj]

theorem foldl_append_reference {log entries : List LogRecord}
    (small : log.length + entries.length < 2 ^ 31) (committed : IndexTables) :
    entries.foldl Image.append
      ((Image.reference log).withIndex ⟨committed, some (referenceTables log)⟩) =
      (Image.reference (log ++ entries)).withIndex
        ⟨committed, some (referenceTables (log ++ entries))⟩ := by
  induction entries generalizing log with
  | nil => simp
  | cons record rest ih =>
    rw [List.length_cons] at small
    rw [List.foldl_cons, append_reference (by omega)]
    simp only [IndexDb.write, appendRow_referenceTables]
    rw [ih (by rw [List.length_append, List.length_singleton]; omega), List.append_assoc]
    rfl

/-- A batch extends the log, wherever it is cut. -/
theorem appendAll_reference {log entries : List LogRecord}
    (small : log.length + entries.length < 2 ^ 31) :
    (Image.reference log).appendAll entries = Image.reference (log ++ entries) := by
  have hbegin : (Image.reference log).begin =
      (Image.reference log).withIndex ⟨referenceTables log, some (referenceTables log)⟩ := rfl
  rw [Image.appendAll, hbegin, foldl_append_reference small]
  rfl

theorem opened_reference :
    Image.opened MmapHeader.zero (fun _ => ParsedEntry.zero) IndexTables.empty =
      Image.reference [] := by
  simp [Image.opened, Image.reference, MmapHeader.opened, MmapHeader.zero, lastBelow?]
  rfl

theorem foldl_after_reference {batches : List (List LogRecord)} {log : List LogRecord}
    (small : log.length + batches.flatten.length < 2 ^ 31) :
    (batches.map StoreCall.writeEntries).foldl Image.after (Image.reference log) =
      Image.reference (log ++ batches.flatten) := by
  induction batches generalizing log with
  | nil => simp
  | cons entries rest ih =>
    rw [List.flatten_cons, List.length_append] at small
    rw [List.map_cons, List.foldl_cons, Image.after, appendAll_reference (by omega),
      ih (by rw [List.length_append]; omega), List.flatten_cons, List.append_assoc]

theorem acceptsAll_reference_iff {batches : List (List LogRecord)} {log : List LogRecord}
    (start : log.length < 2 ^ 31) :
    (Image.reference log).AcceptsAll (batches.map StoreCall.writeEntries) ↔
      log.length + batches.flatten.length < 2 ^ 31 ∧
        ∀ record ∈ batches.flatten, record.timestamp.isNaN = false := by
  induction batches generalizing log with
  | nil => simpa [Image.AcceptsAll] using start
  | cons entries rest ih =>
    simp only [List.map_cons, Image.AcceptsAll, List.flatten_cons, List.length_append,
      List.mem_append]
    constructor
    · intro h
      obtain ⟨⟨small, numbers⟩, later⟩ := h
      have small : log.length + entries.length < 2 ^ 31 := small
      rw [Image.after, appendAll_reference small, ih (by rw [List.length_append]; exact small),
        List.length_append] at later
      refine ⟨by omega, fun r hr => hr.elim (numbers r) (later.2 r)⟩
    · intro h
      obtain ⟨small, numbers⟩ := h
      have first : log.length + entries.length < 2 ^ 31 := by omega
      refine ⟨⟨first, fun r hr => numbers r (Or.inl hr)⟩, ?_⟩
      rw [Image.after, appendAll_reference first, ih (by rw [List.length_append]; exact first),
        List.length_append]
      exact ⟨by omega, fun r hr => numbers r (Or.inr hr)⟩

/-- A session that has written some batches and is inside the next one. -/
def writingSession (before : List (List LogRecord)) (entries : List LogRecord) : StoreM Unit := do
  storeSession (before.map StoreCall.writeEntries)
  beginTransaction
  Effect.forEach writeEntry entries

theorem fresh_accepts_iff {s : Session} (hs : construct Session.fresh = (.ok (), s))
    {batches : List (List LogRecord)} : s.image.AcceptsAll (batches.map StoreCall.writeEntries) ↔
      batches.flatten.length < 2 ^ 31 ∧ ∀ record ∈ batches.flatten, record.timestamp.isNaN = false := by
  have himage := (construct_ok hs).1.trans opened_reference
  rw [himage, acceptsAll_reference_iff (by simp), List.length_nil, Nat.zero_add]

/-- Batches are written unless there are too many records or SQLite refuses a timestamp. -/
theorem writeBatches_ok_iff (batches : List (List LogRecord)) :
    (storeSession (batches.map StoreCall.writeEntries) Session.fresh).1 = .ok () ↔
      batches.flatten.length < 2 ^ 31 ∧ ∀ record ∈ batches.flatten, record.timestamp.isNaN = false := by
  obtain ⟨s, hs, sound, _⟩ := construct_fresh
  rw [← fresh_accepts_iff hs, storeSession, Effect.bind_of_ok hs]
  constructor
  · intro h
    exact (execAll_ok sound (Prod.ext h rfl)).1
  · intro h
    obtain ⟨t, ht, _⟩ := execAll_sound sound h
    rw [ht]

/-- What batches leave, together, in a store. -/
theorem writeBatches_image {batches : List (List LogRecord)} {t : Session}
    (h : storeSession (batches.map StoreCall.writeEntries) Session.fresh = (.ok (), t)) :
    t.Sound ∧ t.image = Image.reference batches.flatten := by
  obtain ⟨s, hs, sound, himage⟩ := construct_fresh
  rw [storeSession, Effect.bind_of_ok hs] at h
  obtain ⟨accepts, final, hrun⟩ := execAll_ok sound h
  have small := ((fresh_accepts_iff hs).mp accepts).1
  rw [himage, opened_reference, foldl_after_reference (by simpa using small), List.nil_append] at hrun
  exact ⟨final, hrun⟩

theorem mem_referenceCanIds {log : List LogRecord} {id : Nat} :
    id ∈ (referenceTables log).logCanIds.keys ↔ ∃ r ∈ log, r.canId.toNat = id := by
  rw [referenceTables, Table.mem_keys_ofKeys]
  simp

theorem mem_referenceChannels {log : List LogRecord} {channel : Text} :
    channel ∈ (referenceTables log).logChannels.keys ↔
      ∃ r ∈ log, normalizeChannelKey r.channelText = channel := by
  rw [referenceTables, Table.mem_keys_ofKeys]
  simp

/-- Inside a batch the tracker leads to rows that the header counts. -/
theorem writingSession_tracked {before : List (List LogRecord)}
    {entries : List LogRecord} {mid : Session}
    (h : writingSession before entries Session.fresh = (.ok (), mid)) {id : UInt32} {p : UInt32}
    (hp : mid.lastRowByCanId id = some p) : p.toNat < mid.header.writeCount := by
  obtain ⟨_, a, ha, h⟩ := Effect.bind_eq_ok_iff.mp h
  obtain ⟨_, b, hb, hloop⟩ := Effect.bind_eq_ok_iff.mp h
  have linked := (writeLoop_ok_steady
    (beginTransaction_steady (writeBatches_image ha).1 hb) hloop).linked
  exact lt_of_lt_of_le (linked.tracked id p hp) linked.counted

/-- The store depends only on the records, not on how they are cut into batches,
and a previous row is only read when the header counts it. -/
theorem storeSession_batches (batches : List (List LogRecord)) :
    let log := batches.flatten
    let run := storeSession (batches.map StoreCall.writeEntries) Session.fresh
    (run.1 = .ok () ↔ log.length < 2 ^ 31 ∧ ∀ record ∈ log, record.timestamp.isNaN = false) ∧
    (run.1 = .ok () → run.2.image = Image.reference log ∧ (rowCount run.2).1 = .ok log.length ∧
      (∀ id, id ∈ run.2.index.tables.logCanIds.keys ↔ ∃ r ∈ log, r.canId.toNat = id) ∧
      ∀ channel, channel ∈ run.2.index.tables.logChannels.keys ↔
        ∃ r ∈ log, normalizeChannelKey r.channelText = channel) ∧
    ∀ before entries mid, writingSession before entries Session.fresh = (.ok (), mid) →
      ∀ id p, mid.lastRowByCanId id = some p → p.toNat < mid.header.writeCount := by
  intro log run
  refine ⟨writeBatches_ok_iff batches, fun h => ?_, fun _ _ _ h _ _ hp => writingSession_tracked h hp⟩
  obtain ⟨final, himage⟩ := writeBatches_image (Prod.ext h rfl : run = (.ok (), run.2))
  have small := ((writeBatches_ok_iff batches).mp h).1
  have tables : run.2.index.tables = referenceTables log :=
    congrArg (fun g : Image => g.index.tables) himage
  refine ⟨himage, ?_, ?_, ?_⟩
  · rw [rowCount_returns final.calm, tables]
    simp only [referenceTables, Table.count_ofRange]
    rw [Nat.mod_eq_of_lt (lt_trans small (by decide))]
  · intro id
    rw [tables]
    exact mem_referenceCanIds
  · intro channel
    rw [tables]
    exact mem_referenceChannels

end FsCore
