import FsCore.PageReads
import FsCore.PageSamples
import FsCore.StoreProgress

namespace FsCore

/-- A session whose rows can be read, none of whose calls fails any more. -/
structure Session.Reads (s : Session) (n : Nat) (row : Nat → ParsedEntry) : Prop where
  calm : s.Calm
  stored : s.Stored
  count : s.header.writeCount = n
  rows : s.rowAt = row
  indexed : s.index.tables.logIndex.count = n
  bounded : n < 2 ^ 31

section Steps

variable {n : Nat} {row : Nat → ParsedEntry} {s : Session}

theorem Session.Reads.quiet {t : Session} (h : s.Reads n row) (quiet : Quiet s t) (calm : t.Calm) :
    t.Reads n row := by
  have header : t.header = s.header := congrArg Image.header quiet.image
  have rows : t.rowAt = s.rowAt := congrArg Image.row quiet.image
  have index : t.index = s.index := congrArg Image.index quiet.image
  refine ⟨calm, fun r hr => quiet.keeps _ (h.stored r ?_), header ▸ h.count, rows.trans h.rows,
    index ▸ h.indexed, h.bounded⟩
  rw [← header]
  exact hr

theorem readAt_reads (h : s.Reads n row) {r : Nat} (hr : r < n) :
    ∃ t, readAt r s = (.ok (row r), t) ∧ t.Reads n row := by
  obtain ⟨e, t, ht, calm⟩ := readAt_returns h.calm (h.stored r (by rw [h.count]; exact hr))
  obtain ⟨quiet, rfl⟩ := readAt_ok ht
  exact ⟨t, by rw [ht, h.rows], h.quiet quiet calm⟩

theorem readRowsFrom_reads (h : s.Reads n row) {r count : Nat} (hr : r + count ≤ n) :
    ∃ t, readRowsFrom r count s = (.ok ((List.range' r count).map row), t) ∧ t.Reads n row := by
  induction count generalizing r s with
  | zero => exact ⟨s, rfl, h⟩
  | succ count ih =>
    obtain ⟨mid, hmid, reads⟩ := readAt_reads h (show r < n by omega)
    obtain ⟨t, ht, final⟩ := ih reads (show r + 1 + count ≤ n by omega)
    exact ⟨t, (Effect.bind_of_ok hmid).trans (Effect.bind_of_ok ht), final⟩

theorem asUInt64_intOfSize {x : Nat} (h : x < 2 ^ 31) : asUInt64 (intOfSize x) = x := by
  rw [intOfSize_of_lt h, asUInt64, Int.emod_eq_of_lt (by omega) (by omega), Int.toNat_natCast]

/-- What the call in the loop makes of the arguments that it gets. -/
theorem readStorePage_reads (h : s.Reads n row) {k : Nat} (hk : k < pageCount n) :
    ∃ t, readStorePage (intOfSize (k * kReadChunkSize))
        (intOfSize (min (k * kReadChunkSize + kReadChunkSize) n - 1)) s =
      (.ok ((pageRows n k).map row), t) ∧ t.Reads n row := by
  have start := lt_pageCount_iff.mp hk
  have bounded := h.bounded
  rw [readStorePage, asUInt64_intOfSize (by omega), asUInt64_intOfSize (by omega), readPage,
    Effect.read_bind]
  split
  next zero =>
    refine ⟨s, ?_, h⟩
    rw [pageRows, zero, Nat.sub_eq_zero_of_le (by omega)]
    rfl
  next =>
    dsimp only
    rw [h.count, if_neg (by omega), Nat.mod_eq_of_lt (by omega)]
    have stop : (if n < k * kReadChunkSize + (min (k * kReadChunkSize + kReadChunkSize) n - 1) then n
        else k * kReadChunkSize + (min (k * kReadChunkSize + kReadChunkSize) n - 1)) =
        min n (k * kReadChunkSize + (min (k * kReadChunkSize + kReadChunkSize) n - 1)) := by
      split <;> omega
    rw [stop]
    exact readRowsFrom_reads h (by omega)

theorem onSession_ok {α : Type} {m : StoreM α} {d : Decoding} {a : α} {t : Session}
    (h : m d.session = (.ok a, t)) : onSession m d = (.ok a, { d with session := t }) := by
  rw [onSession, Effect.zoom, h]

theorem onSession_call (name : String) {d : Decoding} (h : d.session.faults = []) :
    onSession (call name) d = (.ok (), d) := onSession_ok (call_calm name h)

theorem writeChunk_calm {chunk : DecodedSignalChunk} (binds : chunk.Bindable) {d : Decoding}
    (noFault : d.session.faults = []) :
    writeChunk chunk d = (.ok (), { d with db := d.db.write chunk.upsert }) := by
  rw [writeChunk, if_pos binds, Effect.bind_of_ok (onSession_call _ noFault)]
  rfl

theorem writeChunk_returns {chunk : DecodedSignalChunk} (binds : chunk.Bindable) {d : Decoding}
    {t : DecodedTable} (calm : d.session.Calm) (hopen : d.db.transaction = some t) :
    writeChunk chunk d =
      (.ok (), { d with db := { d.db with transaction := some (chunk.upsert t) } }) := by
  rw [writeChunk_calm binds calm.noFault, DecodedDb.write, hopen]

/-- A batch of chunks goes to the open transaction. -/
theorem writeChunks_returns {chunks : List DecodedSignalChunk}
    (binds : ∀ chunk ∈ chunks, chunk.Bindable) {d : Decoding} {t : DecodedTable}
    (calm : d.session.Calm) (hopen : d.db.transaction = some t) :
    Effect.forEach writeChunk chunks d = (.ok (), { d with
      db := { d.db with transaction := some (chunks.foldl (fun t c => c.upsert t) t) } }) := by
  induction chunks generalizing d t with
  | nil =>
    obtain ⟨session, committed, transaction, prepared⟩ := d
    cases hopen
    rfl
  | cons c rest ih =>
    rw [Effect.forEach, Effect.bind_of_ok (writeChunk_returns (binds c (by simp)) calm hopen)]
    exact ih (fun chunk hc => binds chunk (by simp [hc])) calm rfl

/-- It stops at the first chunk with a blob whose length is negative as an int. -/
theorem writeChunks_undefined {chunks : List DecodedSignalChunk}
    (bad : ∃ chunk ∈ chunks, ¬ chunk.Bindable) {d : Decoding} (noFault : d.session.faults = []) :
    ∃ e, Effect.forEach writeChunk chunks d = (.error .undefined, e) := by
  induction chunks generalizing d with
  | nil =>
    obtain ⟨chunk, hc, -⟩ := bad
    cases hc
  | cons c rest ih =>
    rw [Effect.forEach]
    by_cases binds : c.Bindable
    · rw [Effect.bind_of_ok (writeChunk_calm binds noFault)]
      obtain ⟨chunk, hc, fails⟩ := bad
      rcases List.mem_cons.mp hc with rfl | hc
      · exact absurd binds fails
      · exact ih ⟨chunk, hc, fails⟩ noFault
    · have stops : writeChunk c d = (.error .undefined, d) := by
        rw [writeChunk, if_neg binds]
        rfl
      exact ⟨d, Effect.bind_of_error stops⟩

theorem prepareUpsert_returns {d : Decoding} (noFault : d.session.faults = []) :
    prepareUpsert d = (.ok (), { d with db := { d.db with prepared := true } }) := by
  obtain ⟨session, committed, transaction, prepared⟩ := d
  cases prepared with
  | true => rfl
  | false =>
    rw [prepareUpsert, Effect.read_bind, if_neg (by simp), Effect.bind_of_ok (onSession_call _ noFault)]
    rfl

theorem writeSignals_returns {chunks : List DecodedSignalChunk}
    (binds : ∀ chunk ∈ chunks, chunk.Bindable) {d : Decoding} {t : DecodedTable}
    (calm : d.session.Calm) (hopen : d.db.transaction = some t) :
    writeSignals chunks d = (.ok 0,
      { d with db := ⟨d.db.committed, some (chunks.foldl (fun t c => c.upsert t) t), true⟩ }) := by
  let prepared : Decoding := { d with db := { d.db with prepared := true } }
  have written := writeChunks_returns (d := prepared) binds calm hopen
  exact (Effect.bind_of_ok (prepareUpsert_returns calm.noFault)).trans (Effect.bind_of_ok written)

theorem writeSignals_undefined {chunks : List DecodedSignalChunk}
    (bad : ∃ chunk ∈ chunks, ¬ chunk.Bindable) {d : Decoding} (noFault : d.session.faults = []) :
    ∃ e, writeSignals chunks d = (.error .undefined, e) := by
  obtain ⟨e, stops⟩ :=
    @writeChunks_undefined chunks bad { d with db := { d.db with prepared := true } } noFault
  exact ⟨e, (Effect.bind_of_ok (prepareUpsert_returns noFault)).trans (Effect.bind_of_error stops)⟩

variable {decoder : CanDatabaseModel}

/-- What decoding some rows adds to every signal of the model. -/
def Appended (decoder : CanDatabaseModel) (row : Nat → ParsedEntry) (rows : List Nat)
    (t u : DecodedTable) : Prop :=
  ∀ id si, si < decoder.signalCountOf id.toNat → blobsAt u (keyOf id (signalName si)) =
    (blobsAt t (keyOf id (signalName si))).append
      (signalChunk decoder row id si (rows.filter fun r => (row r).canId = id)).blobs

theorem Appended.nil (t : DecodedTable) : Appended decoder row [] t t := by
  intro id si _
  simp [signalChunk, DecodedSignalChunk.blobs, toBlob, SignalBlobs.append]

theorem Appended.append {xs ys : List Nat} {t u v : DecodedTable} (first : Appended decoder row xs t u)
    (second : Appended decoder row ys u v) : Appended decoder row (xs ++ ys) t v := by
  intro id si hsi
  rw [second id si hsi, first id si hsi, List.filter_append, signalChunk_append,
    SignalBlobs.append_assoc]

/-- What decoding some rows does to the table: every signal of the model gets its samples,
no other key changes. -/
structure Filled (decoder : CanDatabaseModel) (row : Nat → ParsedEntry) (rows : List Nat)
    (t u : DecodedTable) : Prop where
  appended : Appended decoder row rows t u
  other : ∀ k, (∀ id si, si < decoder.signalCountOf id.toNat → keyOf id (signalName si) ≠ k) →
    blobsAt u k = blobsAt t k

theorem Filled.nil (t : DecodedTable) : Filled decoder row [] t t := ⟨.nil t, fun _ _ => rfl⟩

theorem Filled.append {xs ys : List Nat} {t u v : DecodedTable} (first : Filled decoder row xs t u)
    (second : Filled decoder row ys u v) :
    Filled decoder row (xs ++ ys) t v :=
  ⟨first.appended.append second.appended, fun k hk => (second.other k hk).trans (first.other k hk)⟩

/-- The rows of a page have signals that can be extracted, and their samples can be bound. -/
structure CanDatabaseModel.Processes (decoder : CanDatabaseModel) (row : Nat → ParsedEntry)
    (rows : List Nat) : Prop where
  decodes : ∀ r ∈ rows, decoder.Decodes (row r).toLogRecord
  binds : ∀ id si, si < decoder.signalCountOf id.toNat →
    (signalChunk decoder row id si (rows.filter fun r => (row r).canId = id)).Bindable

/-- Fewer than 2^28 rows of every id with signals: eight bytes for each are fewer than 2^31. -/
def Few (decoder : CanDatabaseModel) (entries : List ParsedEntry) : Prop :=
  ∀ id : UInt32, 0 < decoder.signalCountOf id.toNat →
    (entries.filter fun e => e.canId = id).length < 2 ^ 28

theorem length_filter_rows (row : Nat → ParsedEntry) (rows : List Nat) (id : UInt32) :
    ((rows.map row).filter fun e => e.canId = id).length =
      (rows.filter fun r => (row r).canId = id).length := by
  rw [List.filter_map, List.length_map]
  rfl

theorem Few.fits {rows : List Nat} (few : Few decoder (rows.map row)) {id : UInt32} {si : Nat}
    (low : si < decoder.signalCountOf id.toNat) :
    (signalChunk decoder row id si (rows.filter fun r => (row r).canId = id)).Fits := by
  have short := few id (Nat.zero_lt_of_lt low)
  rw [length_filter_rows] at short
  exact fits_signalChunk short id si

theorem Few.processes {rows : List Nat} (few : Few decoder (rows.map row))
    (decodes : ∀ r ∈ rows, decoder.Decodes (row r).toLogRecord) : decoder.Processes row rows :=
  ⟨decodes, fun _ _ low => (few.fits low).bindable⟩

theorem Few.sublist {xs ys : List ParsedEntry} (few : Few decoder ys) (sub : xs.Sublist ys) :
    Few decoder xs :=
  fun id some' => (sub.filter _).length_le.trans_lt (few id some')

/-- The chunks of a page, written in whatever order. -/
theorem flush_filled (order : ChunkOrder) {rows : List Nat} {cache : SignalCache}
    (h : CacheHolds decoder row (sampleEvents decoder row rows) cache)
    (few : Few decoder (rows.map row)) (t : DecodedTable) : Filled decoder row rows t
      ((order.arrange (cache.rows.map Prod.snd)).foldl (fun t c => c.upsert t) t) := by
  refine ⟨fun id si low => ?_, fun k other => flush_other order h other t⟩
  rw [flush_blobs order h, sampleEvents_filter low, (few.fits low).bound_eq]

theorem processPage_returns (order : ChunkOrder) {start count : Nat}
    (fine : decoder.Processes row (List.range' start count)) {d : Decoding}
    {t : DecodedTable} (calm : d.session.Calm) (hopen : d.db.transaction = some t) :
    ∃ u, processPage order decoder ((List.range' start count).map row) start d =
        (.ok ⟨0, []⟩, { d with db := ⟨d.db.committed, some u, true⟩ }) ∧
      (Few decoder ((List.range' start count).map row) →
        Filled decoder row (List.range' start count) t u) := by
  have holds := @cacheHolds_foldl decoder row (sampleEvents decoder row (List.range' start count))
  rw [processPage, cachePage_some fine.decodes]
  dsimp only
  rw [Effect.bind_of_ok
    (writeSignals_returns ((bindable_flush_iff order holds).mpr fine.binds) calm hopen)]
  exact ⟨_, rfl, fun few => flush_filled order holds few t⟩

theorem processPage_undefined (order : ChunkOrder) {start count : Nat}
    (bad : ¬ decoder.Processes row (List.range' start count)) {d : Decoding}
    (noFault : d.session.faults = []) :
    ∃ e, processPage order decoder ((List.range' start count).map row) start d =
      (.error .undefined, e) := by
  by_cases decodes : ∀ r ∈ List.range' start count, decoder.Decodes (row r).toLogRecord
  · have holds := @cacheHolds_foldl decoder row (sampleEvents decoder row (List.range' start count))
    have some' : ¬ ∀ chunk ∈ order.arrange (((sampleEvents decoder row (List.range' start count)).foldl
        (cacheEvent decoder row) Table.empty).rows.map Prod.snd), chunk.Bindable :=
      fun all => bad ⟨decodes, (bindable_flush_iff order holds).mp all⟩
    push Not at some'
    obtain ⟨e, stops⟩ := writeSignals_undefined some' noFault
    rw [processPage, cachePage_some decodes]
    exact ⟨e, Effect.bind_of_error stops⟩
  · push Not at decodes
    rw [processPage, cachePage_none decodes]
    exact ⟨d, rfl⟩

/-- From two rows on no page is empty. -/
theorem pageRows_isEmpty {k : Nat} (two : 2 ≤ n) (hk : k < pageCount n) :
    ((pageRows n k).map row).isEmpty = false := by
  have first : k * kReadChunkSize ∈ pageRows n k := by
    rw [lt_pageCount_iff] at hk
    rw [mem_pageRows]
    simp only [kReadChunkSize] at *
    omega
  cases hp : pageRows n k with
  | nil =>
    rw [hp] at first
    cases first
  | cons r rest => rfl

theorem pageLoop_past {round : Nat → DecodeM DecodeError} {start fuel : Nat} (past : ¬ start < n)
    (d : Decoding) : pageLoop round n fuel start d = (.ok ⟨0, []⟩, d) := by
  cases fuel with
  | zero => rfl
  | succ fuel =>
    rw [pageLoop, if_neg past]
    rfl

theorem pageLoop_step {round : Nat → DecodeM DecodeError} {k fuel : Nat} (hk : k < pageCount n)
    {d e : Decoding} (h : round (k * kReadChunkSize) d = (.ok ⟨0, []⟩, e)) :
    pageLoop round n (fuel + 1) (k * kReadChunkSize) d =
      pageLoop round n fuel ((k + 1) * kReadChunkSize) e := by
  rw [pageLoop, if_pos (lt_pageCount_iff.mp hk), Effect.bind_of_ok h, Nat.succ_mul]
  rfl

/-- One round of the loop, on a page that can be processed. -/
theorem decodeRound_returns (order : ChunkOrder) (two : 2 ≤ n) {k : Nat}
    (hk : k < pageCount n) (fine : decoder.Processes row (pageRows n k))
    {d : Decoding} {t : DecodedTable} (reads : d.session.Reads n row)
    (hopen : d.db.transaction = some t) :
    ∃ e u, decodeRound order decoder n (k * kReadChunkSize) d = (.ok ⟨0, []⟩, e) ∧
      e.session.Reads n row ∧ e.db.committed = d.db.committed ∧ e.db.transaction = some u ∧
      (Few decoder ((pageRows n k).map row) → Filled decoder row (pageRows n k) t u) := by
  obtain ⟨s, page, reads'⟩ := readStorePage_reads reads hk
  obtain ⟨u, process, filled⟩ := processPage_returns (d := { d with session := s }) order fine
    reads'.calm hopen
  refine ⟨{ session := s, db := ⟨d.db.committed, some u, true⟩ }, u, ?_, reads', rfl, rfl, filled⟩
  rw [decodeRound]
  rw [Effect.bind_of_ok (onSession_ok page), pageRows_isEmpty two hk, if_neg Bool.false_ne_true]
  exact process

theorem decodeRound_undefined (order : ChunkOrder) (two : 2 ≤ n) {k : Nat}
    (hk : k < pageCount n) (bad : ¬ decoder.Processes row (pageRows n k))
    {d : Decoding} (reads : d.session.Reads n row) :
    ∃ e, decodeRound order decoder n (k * kReadChunkSize) d = (.error .undefined, e) := by
  obtain ⟨s, page, reads'⟩ := readStorePage_reads reads hk
  obtain ⟨e, process⟩ :=
    @processPage_undefined row decoder order _ _ bad { d with session := s } reads'.calm.noFault
  refine ⟨e, ?_⟩
  rw [decodeRound]
  rw [Effect.bind_of_ok (onSession_ok page), pageRows_isEmpty two hk, if_neg Bool.false_ne_true]
  exact process

/-- The loop over the last `m` pages, when all rows that it reads can be decoded. -/
theorem pageLoop_returns (order : ChunkOrder) (two : 2 ≤ n) {m k fuel : Nat}
    (hm : k + m = pageCount n) (hf : m ≤ fuel)
    (hx : ∀ r ∈ (List.range' k m).flatMap (pageRows n), decoder.Decodes (row r).toLogRecord)
    (few : ∀ j ∈ List.range' k m, Few decoder ((pageRows n j).map row))
    {d : Decoding} {t : DecodedTable} (reads : d.session.Reads n row)
    (hopen : d.db.transaction = some t) :
    ∃ e u, pageLoop (decodeRound order decoder n) n fuel (k * kReadChunkSize) d = (.ok ⟨0, []⟩, e) ∧
      e.session.Reads n row ∧ e.db.committed = d.db.committed ∧ e.db.transaction = some u ∧
      Filled decoder row ((List.range' k m).flatMap (pageRows n)) t u := by
  induction m generalizing k fuel d t with
  | zero =>
    have past : ¬ k * kReadChunkSize < n := by
      rw [← lt_pageCount_iff]
      omega
    exact ⟨d, t, pageLoop_past past d, reads, rfl, hopen, .nil t⟩
  | succ m ih =>
    obtain ⟨fuel, rfl⟩ := Nat.exists_eq_add_one.mpr (show 0 < fuel by omega)
    rw [List.range'_succ, List.flatMap_cons] at hx ⊢
    rw [List.range'_succ] at few
    have hk : k < pageCount n := by omega
    have first := few k (by simp)
    have fine := first.processes fun r hr => hx r (List.mem_append.mpr (.inl hr))
    obtain ⟨mid, v, round, reads', committed, hv, filled⟩ :=
      decodeRound_returns order two hk fine reads hopen
    obtain ⟨e, u, loop, final, same, hu, rest⟩ := ih (show k + 1 + m = pageCount n by omega)
      (show m ≤ fuel by omega) (fun r hr => hx r (List.mem_append.mpr (.inr hr)))
      (fun j hj => few j (by simp [hj])) reads' hv
    exact ⟨e, u, (pageLoop_step hk round).trans loop, final, same.trans committed, hu,
      (filled first).append rest⟩

/-- The loop gets to the first page that cannot be processed. -/
theorem pageLoop_undefined (order : ChunkOrder) (two : 2 ≤ n) {m k fuel : Nat}
    (hm : k + m = pageCount n) (hf : m ≤ fuel)
    (bad : ∃ j ∈ List.range' k m, ¬ decoder.Processes row (pageRows n j))
    {d : Decoding} {t : DecodedTable} (reads : d.session.Reads n row)
    (hopen : d.db.transaction = some t) :
    ∃ e, pageLoop (decodeRound order decoder n) n fuel (k * kReadChunkSize) d =
      (.error .undefined, e) := by
  induction m generalizing k fuel d t with
  | zero =>
    obtain ⟨j, hj, -⟩ := bad
    cases hj
  | succ m ih =>
    obtain ⟨fuel, rfl⟩ := Nat.exists_eq_add_one.mpr (show 0 < fuel by omega)
    have hk : k < pageCount n := by omega
    by_cases page : decoder.Processes row (pageRows n k)
    · obtain ⟨mid, v, round, reads', -, hv, -⟩ := decodeRound_returns order two hk page reads hopen
      have later : ∃ j ∈ List.range' (k + 1) m, ¬ decoder.Processes row (pageRows n j) := by
        obtain ⟨j, hj, fails⟩ := bad
        rw [List.range'_succ] at hj
        rcases List.mem_cons.mp hj with rfl | hj
        · exact absurd page fails
        · exact ⟨j, hj, fails⟩
      obtain ⟨e, loop⟩ := ih (show k + 1 + m = pageCount n by omega)
        (show m ≤ fuel by omega) later reads' hv
      exact ⟨e, (pageLoop_step hk round).trans loop⟩
    · obtain ⟨e, round⟩ := decodeRound_undefined order two hk page reads
      refine ⟨e, ?_⟩
      rw [pageLoop, if_pos (lt_pageCount_iff.mp hk)]
      exact Effect.bind_of_error round

/-- A page has at most a chunk of rows of an id more than the next one. -/
theorem count_pageRows_le (p : Nat → Bool) (n k : Nat) :
    ((pageRows n k).filter p).length ≤ kReadChunkSize + ((pageRows n (k + 1)).filter p).length := by
  have ends : pageRows n k = List.range' (k * kReadChunkSize) (min n (k * kReadChunkSize +
    (min (k * kReadChunkSize + kReadChunkSize) n - 1)) - k * kReadChunkSize) := rfl
  generalize hl : min n (k * kReadChunkSize + (min (k * kReadChunkSize + kReadChunkSize) n - 1)) -
    k * kReadChunkSize = l at ends
  rw [ends]
  rcases Nat.le_total l kReadChunkSize with short | long
  · have all := List.length_filter_le p (List.range' (k * kReadChunkSize) l)
    rw [List.length_range'] at all
    omega
  · obtain ⟨rest, rfl⟩ := Nat.exists_eq_add_of_le long
    rw [← List.range'_append_1, List.filter_append, List.length_append]
    refine Nat.add_le_add ((List.length_filter_le _ _).trans (List.length_range').le) ?_
    have place : k * kReadChunkSize + kReadChunkSize = (k + 1) * kReadChunkSize :=
      (Nat.succ_mul _ _).symm
    rw [place, pageRows]
    refine (List.Sublist.filter p ?_).length_le
    refine (List.range'_sublist_right).mpr ?_
    simp only [kReadChunkSize] at *
    omega

/-- When every page can be bound, none has 2^28 rows of an id with signals: the last page is short,
and a page before it would be the first one with a length that is negative as an int. -/
theorem few_of_processes (fine : ∀ k < pageCount n, decoder.Processes row (pageRows n k)) {m : Nat} :
    ∀ k, k + (m + 1) = pageCount n → Few decoder ((pageRows n k).map row) := by
  induction m with
  | zero =>
    intro k last id _
    rw [length_filter_rows]
    have past : ¬ (k + 1) * kReadChunkSize < n := by
      rw [← lt_pageCount_iff]
      omega
    have all := List.length_filter_le (fun r => decide ((row r).canId = id)) (pageRows n k)
    rw [pageRows, List.length_range'] at all
    simp only [kReadChunkSize, pageRows] at *
    omega
  | succ m ih =>
    intro k place id some'
    have next := ih (k + 1) (by omega) id some'
    rw [length_filter_rows] at next ⊢
    have step := count_pageRows_le (fun r => decide ((row r).canId = id)) n k
    have binds := (bindable_signalChunk_iff.mp ((fine k (by omega)).binds id 0 some')).2
    generalize ((pageRows n k).filter fun r => decide ((row r).canId = id)).length = count at *
    by_contra many
    have negative := @intOfSize_neg (count * 8) (by omega)
      (by simp only [kReadChunkSize] at step; omega)
    omega

end Steps

end FsCore
