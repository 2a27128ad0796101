import FsCore.DecodeSteps
import FsCore.SessionRuns

namespace FsCore

def DecodedDb.empty : DecodedDb := ⟨.empty, none, false⟩

/-- The rows of a can_id among the first `n`. -/
def rowsOfId (n : Nat) (row : Nat → ParsedEntry) (id : UInt32) : List Nat :=
  (List.range n).filter fun r => (row r).canId = id

/-- A decoder run that succeeds and leaves, for every signal of the model, one sample
for each row of its id. -/
structure DecodeComplete (decoder : CanDatabaseModel) (n : Nat) (row : Nat → ParsedEntry)
    (run : Except StoreError DecodeError × Decoding) : Prop where
  success : ∃ error, run.1 = .ok error ∧ error.rc = 0
  samples : ∀ id si sig, decoder.signalOf id.toNat si = some sig → ∃ chunk,
    (getSignalSamples id (signalName si) run.2).1 = .ok chunk ∧
    chunk.rowIndex.map UInt32.toNat = rowsOfId n row id ∧
    chunk.rawValue.map some = (rowsOfId n row id).map fun r =>
      extractSignal (row r).data (row r).dataLen.toNat sig

/-- A store that a session has filled can be read. -/
theorem Reached.reads {allowed : Session → StoreCall → Prop} {s : Session} (hs : Reached allowed s) :
    s.Reads s.header.writeCount s.rowAt := by
  have sound := hs.sound
  have index : s.index.tables.logIndex =
      Table.ofRange s.header.writeCount (fun i => (s.rowAt i).indexRow) := hs.mirrored.index
  exact ⟨sound.calm, sound.stored, rfl, rfl, by rw [index, Table.count_ofRange], sound.linked.bounded⟩

/-- So can the store that another object opens over the files that it leaves. -/
theorem Reached.reopened_reads {allowed : Session → StoreCall → Prop} {s : Session}
    (hs : Reached allowed s) :
    ∃ t, construct s.reopen = (.ok (), t) ∧ t.Reads s.header.writeCount s.rowAt := by
  have sound := hs.sound
  obtain ⟨t, ht, soundT, himage⟩ := construct_reopen sound
  have count : t.header.writeCount = s.header.writeCount :=
    (congrArg (fun g : Image => g.header.writeCount) himage).trans (opened_writeCount s.header)
  have index : t.index.tables.logIndex = s.index.tables.logIndex := by
    have opened : t.index = ⟨s.index.committed, none⟩ := congrArg Image.index himage
    rw [opened, IndexDb.tables, IndexDb.tables, sound.idle]
  exact ⟨t, ht, soundT.calm, soundT.stored, count, congrArg Image.row himage,
    by rw [index]; exact hs.reads.indexed, sound.linked.bounded⟩

def Decoding.begun (d : Decoding) : Decoding :=
  { d with db := { d.db with transaction := some d.db.committed } }

section Run

variable {n : Nat} {row : Nat → ParsedEntry} {d : Decoding}

theorem fetchCount_returns (h : d.session.Reads n row) : onSession fetchCount d = (.ok n, d) := by
  have bounded := h.bounded
  have counted : fetchCount d.session = (.ok n, d.session) := by
    rw [fetchCount, rowCount, Effect.bind_of_ok (call_calm _ h.calm.noFault),
      Effect.bind_of_ok (call_calm _ h.calm.noFault), Effect.read_bind, h.indexed,
      Nat.mod_eq_of_lt (by omega)]
    rfl
  exact onSession_ok counted

theorem openDecoded_returns (calm : d.session.Calm) : openDecoded d = (.ok (), d) := by
  refine onSession_ok (t := d.session) ?_
  simp only [Effect.forEach, Effect.bind_of_ok (call_calm _ calm.noFault), Effect.pure_apply]

theorem beginDecoded_returns (calm : d.session.Calm) (idle : d.db.transaction = none) :
    beginDecoded d = (.ok 0, d.begun) := by
  rw [beginDecoded, Effect.bind_of_ok (onSession_call _ calm.noFault), Effect.read_bind, idle]
  rfl

theorem commitDecoded_returns {t : DecodedTable} (calm : d.session.Calm)
    (hopen : d.db.transaction = some t) :
    commitDecoded d = (.ok 0, { d with db := { d.db with committed := t, transaction := none } }) := by
  rw [commitDecoded, Effect.bind_of_ok (onSession_call _ calm.noFault), Effect.read_bind, hopen]
  rfl

theorem getSignalSamples_returns (calm : d.session.Calm) (id : UInt32) (name : Text) :
    (getSignalSamples id name d).1 = .ok ((blobsAt d.db.tables (keyOf id name)).samples id name) := by
  rw [getSignalSamples, Effect.bind_of_ok (onSession_call _ calm.noFault),
    Effect.bind_of_ok (onSession_call _ calm.noFault)]
  rfl

variable {decoder model : CanDatabaseModel}

theorem decodeAll_eq (order : ChunkOrder) (reads : d.session.Reads n row)
    (idle : d.db.transaction = none) :
    decodeAll order decoder n d = (do
      let loop ← decodeLoop order decoder n
      if loop.rc ≠ 0 then pure loop
      else do
        let commitRc ← commitDecoded
        if commitRc ≠ 0 then pure ⟨commitRc,
          "failed to commit decoded signal database transaction".toList⟩
        else pure ⟨0, []⟩ : DecodeM DecodeError)
      d.begun := by
  rw [decodeAll, Effect.bind_of_ok (openDecoded_returns reads.calm),
    Effect.bind_of_ok (beginDecoded_returns reads.calm idle), if_neg (by simp)]

theorem decodeAll_returns (order : ChunkOrder) (two : 2 ≤ n)
    (hx : ∀ r ∈ rowsRead n, decoder.Decodes (row r).toLogRecord)
    (few : ∀ k < pageCount n, Few decoder ((pageRows n k).map row)) (reads : d.session.Reads n row)
    (idle : d.db.transaction = none) :
    ∃ e, decodeAll order decoder n d = (.ok ⟨0, []⟩, e) ∧ e.session.Reads n row ∧
      Filled decoder row (rowsRead n) d.db.committed e.db.committed := by
  rw [rowsRead, List.range_eq_range'] at hx ⊢
  obtain ⟨e, u, loop, final, -, hu, appended⟩ := pageLoop_returns
    (d := d.begun) order two (Nat.zero_add _)
    (show pageCount n ≤ n / kReadChunkSize + 1 by simp only [pageCount, kReadChunkSize]; omega)
    hx (fun k hk => few k (by simpa using hk)) reads rfl
  rw [Nat.zero_mul] at loop
  refine ⟨{ e with db := { e.db with committed := u, transaction := none } }, ?_, final, appended⟩
  rw [decodeAll_eq order reads idle, decodeLoop, Effect.bind_of_ok loop, if_neg (by simp),
    Effect.bind_of_ok (commitDecoded_returns final.calm hu)]
  rfl

theorem decodeAll_undefined (order : ChunkOrder) (two : 2 ≤ n)
    (bad : ∃ k < pageCount n, ¬ decoder.Processes row (pageRows n k)) (reads : d.session.Reads n row)
    (idle : d.db.transaction = none) : (decodeAll order decoder n d).1 = .error .undefined := by
  obtain ⟨k, hk, fails⟩ := bad
  obtain ⟨e, loop⟩ := pageLoop_undefined
    (d := d.begun) order two (Nat.zero_add _)
    (show pageCount n ≤ n / kReadChunkSize + 1 by simp only [pageCount, kReadChunkSize]; omega)
    ⟨k, by simpa using hk, fails⟩ reads rfl
  rw [Nat.zero_mul] at loop
  rw [decodeAll_eq order reads idle, decodeLoop, Effect.bind_of_error loop]

/-- The page of a store with one row is empty: its last index, zero, is the count. -/
theorem decodeRound_one (order : ChunkOrder) (decoder : CanDatabaseModel)
    (reads : d.session.Reads 1 row) : ∃ e, decodeRound order decoder 1 0 d =
      (.ok ⟨kDecodeRcReadPageEmpty, "parsed mmap read_page returned empty page".toList⟩, e) := by
  obtain ⟨s, page, -⟩ := readStorePage_reads (k := 0) reads (by decide)
  rw [Nat.zero_mul] at page
  refine ⟨{ d with session := s }, ?_⟩
  rw [decodeRound, Effect.bind_of_ok (onSession_ok page)]
  rfl

theorem decodeAll_one (order : ChunkOrder) (reads : d.session.Reads 1 row)
    (idle : d.db.transaction = none) :
    (decodeAll order decoder 1 d).1 =
      .ok ⟨kDecodeRcReadPageEmpty, "parsed mmap read_page returned empty page".toList⟩ := by
  obtain ⟨e, round⟩ := decodeRound_one (d := d.begun) order decoder reads
  have loop : decodeLoop order decoder 1 d.begun =
      (.ok ⟨kDecodeRcReadPageEmpty, "parsed mmap read_page returned empty page".toList⟩, e) := by
    rw [decodeLoop, pageLoop, if_pos Nat.one_pos, Effect.bind_of_ok round]
    rfl
  rw [decodeAll_eq order reads idle, Effect.bind_of_ok loop]
  rfl

theorem canDecoderRun_eq (order : ChunkOrder) (model : CanDatabaseModel) (reads : d.session.Reads n row)
    (some' : n ≠ 0) : canDecoderRun order model d = closing (decodeAll order (loadDb model) n) d := by
  rw [canDecoderRun, Effect.bind_of_ok (fetchCount_returns reads), if_neg some']

theorem closing_eq {α : Type} {m : DecodeM α} {r : Except StoreError α} {e : Decoding}
    (h : m d = (r, e)) : closing m d = (r, { e with db := e.db.close }) := by
  rw [closing, h]

/-- A run that decodes all that it reads, over whatever the database holds. -/
theorem canDecoderRun_filled (order : ChunkOrder) (two : 2 ≤ n)
    (hx : ∀ r ∈ rowsRead n, (loadDb model).Decodes (row r).toLogRecord)
    (few : ∀ k < pageCount n, Few (loadDb model) ((pageRows n k).map row))
    (reads : d.session.Reads n row) (idle : d.db.transaction = none) :
    ∃ e, canDecoderRun order model d = (.ok ⟨0, []⟩, e) ∧ e.session.Reads n row ∧
      e.db.transaction = none ∧
      Filled (loadDb model) row (rowsRead n) d.db.tables e.db.tables := by
  obtain ⟨e, all, final, filled⟩ := decodeAll_returns order two hx few reads idle
  have before : d.db.tables = d.db.committed := by rw [DecodedDb.tables, idle, Option.getD_none]
  rw [canDecoderRun_eq order model reads (by omega), closing_eq all, before]
  exact ⟨_, rfl, final, rfl, filled⟩

/-- The samples that a run over an empty database leaves. -/
theorem canDecoderRun_returns (order : ChunkOrder) (two : 2 ≤ n)
    (hx : ∀ r ∈ rowsRead n, (loadDb model).Decodes (row r).toLogRecord)
    (few : ∀ k < pageCount n, Few (loadDb model) ((pageRows n k).map row))
    (reads : d.session.Reads n row) (fresh : d.db = .empty) :
    (canDecoderRun order model d).1 = .ok ⟨0, []⟩ ∧
      ∀ id si, si < (loadDb model).signalCountOf id.toNat →
      (getSignalSamples id (signalName si) (canDecoderRun order model d).2).1 = .ok
        (signalChunk (loadDb model) row id si ((rowsRead n).filter fun r => (row r).canId = id)) := by
  obtain ⟨e, run, final, -, filled⟩ := canDecoderRun_filled order two hx few reads (by rw [fresh]; rfl)
  rw [run]
  refine ⟨rfl, fun id si hsi => ?_⟩
  have blobs := filled.appended id si hsi
  have none : blobsAt d.db.tables (keyOf id (signalName si)) = .empty := by
    rw [fresh]
    rfl
  rw [none, SignalBlobs.empty_append] at blobs
  rw [getSignalSamples_returns final.calm, blobs]
  exact congrArg Except.ok (samples_blobs (signalChunk (loadDb model) row id si _))

theorem canDecoderRun_undefined (order : ChunkOrder) (two : 2 ≤ n)
    (bad : ∃ k < pageCount n, ¬ (loadDb model).Processes row (pageRows n k))
    (reads : d.session.Reads n row) (idle : d.db.transaction = none) :
    (canDecoderRun order model d).1 = .error .undefined := by
  rw [canDecoderRun_eq order model reads (by omega)]
  exact decodeAll_undefined order two bad reads idle

/-- A store with fewer rows is reported as one that cannot be decoded. -/
theorem canDecoderRun_short (order : ChunkOrder) (model : CanDatabaseModel) (short : ¬ 2 ≤ n)
    (reads : d.session.Reads n row) (idle : d.db.transaction = none) :
    ∃ error, (canDecoderRun order model d).1 = .ok error ∧ error.rc ≠ 0 := by
  rcases (show n = 0 ∨ n = 1 by omega) with rfl | rfl
  · rw [canDecoderRun, Effect.bind_of_ok (fetchCount_returns reads)]
    exact ⟨_, rfl, by decide⟩
  · rw [canDecoderRun_eq order model reads (by decide)]
    exact ⟨_, decodeAll_one order reads idle, by decide⟩

/-- A run that succeeds has had two rows, has decoded all that it has read, and has stored whole
blobs of it. -/
theorem decodes_of_success {order : ChunkOrder} {error : DecodeError} (reads : d.session.Reads n row)
    (idle : d.db.transaction = none) (run : (canDecoderRun order model d).1 = .ok error)
    (rc : error.rc = 0) :
    2 ≤ n ∧ (∀ r ∈ rowsRead n, (loadDb model).Decodes (row r).toLogRecord) ∧
      ∀ k < pageCount n, Few (loadDb model) ((pageRows n k).map row) := by
  have two : 2 ≤ n := by
    by_contra short
    obtain ⟨other, fails, ne⟩ := canDecoderRun_short order model short reads idle
    cases Except.ok.inj (run.symm.trans fails)
    exact ne rc
  have fine : ∀ k < pageCount n, (loadDb model).Processes row (pageRows n k) := by
    by_contra! fails
    have undefined := canDecoderRun_undefined order two fails reads idle
    cases run.symm.trans undefined
  refine ⟨two, fun r hr => ?_, fun k hk =>
    few_of_processes (m := pageCount n - k - 1) fine k (by omega)⟩
  obtain ⟨k, hk, hr⟩ := List.mem_flatMap.mp hr
  exact (fine k (List.mem_range.mp hk)).decodes r hr

/-- Where the rows that are left out or read again have no signals, the rows that have are among
the first three chunks. -/
theorem few_of_regular (inRange : (loadDb model).InRange)
    (regular : ∀ r, r < n → Misread n r → ∀ si, (loadDb model).signalOf (row r).canId.toNat si =
      none) (k : Nat) : Few (loadDb model) ((pageRows n k).map row) := by
  intro id some'
  rw [length_filter_rows]
  have early : ((pageRows n k).filter fun r => (row r).canId = id) ⊆
    List.range (3 * kReadChunkSize) := by
    intro r hr
    obtain ⟨mem, own⟩ := List.mem_filter.mp hr
    have low : r < n := (mem_pageRows.mp mem).2.1
    have sound : ¬ Misread n r := by
      intro misread
      have signal := inRange.signalOf_isSome_iff.mpr some'
      rw [← of_decide_eq_true own, regular r low misread 0] at signal
      cases signal
    rw [List.mem_range]
    simp only [Misread, kReadChunkSize] at *
    omega
  have length := (List.subperm_of_subset (List.Pairwise.filter _ List.nodup_range') early).length_le
  rw [List.length_range] at length
  exact length.trans_lt (by decide)

theorem rowIndex_signalChunk (reads : d.session.Reads n row) (id : UInt32) (si : Nat) :
    (signalChunk decoder row id si ((rowsRead n).filter fun r => (row r).canId = id)).rowIndex.map
      UInt32.toNat =
      (rowsRead n).filter fun r => (row r).canId = id := by
  rw [signalChunk, List.map_map]
  refine (List.map_congr_left fun r hr => ?_).trans (List.map_id _)
  have low := mem_rowsRead_lt (List.mem_filter.mp hr).1
  exact toNat_ofNat_row (low.trans reads.bounded)

theorem decodeComplete_of_regular (order : ChunkOrder) (inRange : (loadDb model).InRange) (two : 2 ≤ n)
    (reads : d.session.Reads n row) (fresh : d.db = .empty)
    (regular : ∀ r, r < n → Misread n r → ∀ si, (loadDb model).signalOf (row r).canId.toNat si = none)
    (extracts : ∀ r, r < n → (loadDb model).Extracts (row r).toLogRecord) :
    DecodeComplete (loadDb model) n row (canDecoderRun order model d) := by
  obtain ⟨success, samples⟩ := canDecoderRun_returns order two
    (fun r hr => inRange.decodes_iff.mpr (extracts r (mem_rowsRead_lt hr)))
    (fun k _ => few_of_regular inRange regular k) reads fresh
  refine ⟨⟨_, success, rfl⟩, fun id si sig hsig => ?_⟩
  have signal := inRange.signalOf_isSome_iff.mp (Option.isSome_of_eq_some hsig)
  have rows : (rowsRead n).filter (fun r => (row r).canId = id) = rowsOfId n row id := by
    refine filter_rowsRead fun r hr misread => decide_eq_false ?_
    rintro rfl
    rw [regular r hr misread si] at hsig
    cases hsig
  refine ⟨_, samples id si signal, (rowIndex_signalChunk reads id si).trans rows, ?_⟩
  rw [rows]
  refine rawValue_signalChunk hsig fun r hr => ?_
  obtain ⟨low, same⟩ := List.mem_filter.mp hr
  exact ⟨of_decide_eq_true same, extracts r (List.mem_range.mp low)⟩

theorem regular_of_decodeComplete (order : ChunkOrder) (inRange : (loadDb model).InRange) (two : 2 ≤ n)
    (reads : d.session.Reads n row) (fresh : d.db = .empty)
    (hx : ∀ r ∈ rowsRead n, (loadDb model).Extracts (row r).toLogRecord)
    (few : ∀ k < pageCount n, Few (loadDb model) ((pageRows n k).map row))
    (complete : DecodeComplete (loadDb model) n row (canDecoderRun order model d))
    {r : Nat} (hr : r < n) (misread : Misread n r) (si : Nat) :
    (loadDb model).signalOf (row r).canId.toNat si = none := by
  rw [Option.eq_none_iff_forall_ne_some]
  intro sig hsig
  obtain ⟨-, samples⟩ := canDecoderRun_returns order two
    (fun r hr => inRange.decodes_iff.mpr (hx r hr)) few reads fresh
  have signal := inRange.signalOf_isSome_iff.mp (Option.isSome_of_eq_some hsig)
  obtain ⟨chunk, found, rows, -⟩ := complete.samples _ si sig hsig
  cases Except.ok.inj ((samples _ si signal).symm.trans found)
  rw [rowIndex_signalChunk reads] at rows
  exact filter_rowsRead_ne hr misread (decide_eq_true rfl) rows

/-- The decoder keeps every sample exactly when at least two rows are stored, the rows
that its loop leaves out or reads again have no signals, and extraction is defined. -/
theorem decodeComplete_iff (order : ChunkOrder) (inRange : (loadDb model).InRange)
    (reads : d.session.Reads n row) (fresh : d.db = .empty) :
    DecodeComplete (loadDb model) n row (canDecoderRun order model d) ↔
      2 ≤ n ∧ (∀ r, r < n → Misread n r → ∀ si, (loadDb model).signalOf (row r).canId.toNat si = none) ∧
        ∀ r, r < n → (loadDb model).Extracts (row r).toLogRecord := by
  refine ⟨fun complete => ?_, fun ⟨two, regular, extracts⟩ =>
    decodeComplete_of_regular order inRange two reads fresh regular extracts⟩
  obtain ⟨error, ok, rc⟩ := complete.success
  obtain ⟨two, decodes, few⟩ := decodes_of_success reads (by rw [fresh]; rfl) ok rc
  have hx : ∀ r ∈ rowsRead n, (loadDb model).Extracts (row r).toLogRecord :=
    fun r hr => (decodes r hr).extracts
  have regular : ∀ r, r < n → Misread n r →
    ∀ si, (loadDb model).signalOf (row r).canId.toNat si = none :=
    fun r hr misread =>
      regular_of_decodeComplete order inRange two reads fresh hx few complete hr misread
  refine ⟨two, regular, fun r hr => ?_⟩
  by_cases misread : Misread n r
  · intro si sig hsig
    rw [show (row r).toLogRecord.canId = (row r).canId from rfl, regular r hr misread si] at hsig
    cases hsig
  · exact hx r (mem_rowsRead hr misread)

end Run

/-- One message of id 5 with one signal, the first byte. -/
def sampleModel : CanDatabaseModel := ⟨[⟨5, 1, 0⟩], [⟨0, 8, 0, 0, .ofInt 1, .zero⟩], .empty⟩

def keepOrder : ChunkOrder := ⟨id, fun _ => .refl _⟩

theorem sampleModel_inRange : (loadDb sampleModel).InRange := by
  constructor
  · intro id index found
    have row : (id, index) ∈ [(5, 0)] := Table.mem_rows_iff.mpr found
    cases List.mem_singleton.mp row
    decide
  · intro id msg found si hsi
    obtain ⟨index, -, found⟩ := Option.bind_eq_some_iff.mp found
    cases List.mem_singleton.mp (List.mem_of_getElem? found)
    have first : si = 0 := by
      have : si < 1 := hsi
      omega
    subst first
    decide

theorem decodeComplete_iff_sample :
    let s := (storeSession [.writeEntries [sampleRecord, { sampleRecord with canId := 6 }]]
      Session.fresh).2
    DecodeComplete (loadDb sampleModel) s.header.writeCount s.rowAt
        (canDecoderRun keepOrder sampleModel ⟨s, .empty⟩) ↔
      2 ≤ s.header.writeCount ∧ (∀ r, r < s.header.writeCount → Misread s.header.writeCount r → ∀ si,
          (loadDb sampleModel).signalOf (s.rowAt r).canId.toNat si = none) ∧
        ∀ r, r < s.header.writeCount → (loadDb sampleModel).Extracts (s.rowAt r).toLogRecord := by
  intro s
  have run :
    storeSession [.writeEntries [sampleRecord, { sampleRecord with canId := 6 }]] Session.fresh =
    (.ok (), s) := rfl
  exact decodeComplete_iff (d := ⟨s, .empty⟩) keepOrder sampleModel_inRange
    (Reached.of_session run).reads rfl

/-- Of two rows the second one is left out, and the run succeeds. -/
theorem last_row_undecoded : ¬ ∀ order model n row (d : Decoding), 1 ≤ n → (loadDb model).InRange →
    d.session.Reads n row → d.db = .empty →
      DecodeComplete (loadDb model) n row (canDecoderRun order model d) := by
  intro all
  let s := (storeSession [.writeEntries [sampleRecord, sampleRecord]] Session.fresh).2
  have run : storeSession [.writeEntries [sampleRecord, sampleRecord]] Session.fresh =
    (.ok (), s) := rfl
  have complete := all keepOrder sampleModel s.header.writeCount s.rowAt ⟨s, .empty⟩ (by decide +kernel)
    sampleModel_inRange (Reached.of_session run).reads rfl
  obtain ⟨chunk, found, rows, -⟩ :=
    complete.samples 5 0 ⟨0, 8, 0, 0, .ofInt 1, .zero⟩ (by decide +kernel)
  have one :
    (getSignalSamples 5 (signalName 0) (canDecoderRun keepOrder sampleModel ⟨s, .empty⟩).2).1.map
      (fun c => c.rowIndex.length) = .ok 1 := by decide +kernel
  have two : (rowsOfId s.header.writeCount s.rowAt 5).length = 2 := by decide +kernel
  rw [found] at one
  have size : chunk.rowIndex.length = 1 := Except.ok.inj one
  rw [← rows, List.length_map, size] at two
  cases two

end FsCore
