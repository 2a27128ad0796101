import FsCore.DecodeSamples

namespace FsCore

/-- Pages one after the other, each with the number of rows before it, as the loop of
`can_decoder_run` calls `process_page`. The map of every page has an order of its own. -/
def processPages (order : Nat → ChunkOrder) (decoder : CanDatabaseModel) :
    Nat → List (List ParsedEntry) → DecodeM DecodeError
  | _, [] => pure ⟨0, []⟩
  | start, page :: rest => do
    let error ← processPage (order start) decoder page start
    if error.rc ≠ 0 then pure error
    else processPages order decoder (start + page.length) rest

/-- The lists that `get_signal_samples` reads. -/
def samplesIn (db : DecodedDb) (id : UInt32) (name : Text) : DecodedSignalChunk :=
  (blobsAt db.tables (keyOf id name)).samples id name

section Cuts

variable {decoder : CanDatabaseModel} {row : Nat → ParsedEntry} {t u v : DecodedTable} {d e : Decoding}

/-- The rows and the table before determine what every key holds. -/
theorem Filled.unique {rows : List Nat} (hu : Filled decoder row rows t u)
    (hv : Filled decoder row rows t v) (k : SignalKey) : blobsAt u k = blobsAt v k := by
  by_cases signal : ∃ id si, si < decoder.signalCountOf id.toNat ∧ keyOf id (signalName si) = k
  · obtain ⟨id, si, low, rfl⟩ := signal
    rw [hu.appended id si low, hv.appended id si low]
  · have other : ∀ id si, si < decoder.signalCountOf id.toNat → keyOf id (signalName si) ≠ k :=
      fun id si low same => signal ⟨id, si, low, same⟩
    rw [hu.other k other, hv.other k other]

theorem DecodedDb.tables_write (f : DecodedTable → DecodedTable) (db : DecodedDb) :
    (db.write f).tables = f db.tables := by
  unfold DecodedDb.write DecodedDb.tables
  cases db.transaction <;> rfl

theorem onSession_db {α : Type} {m : StoreM α} {a : α} (h : onSession m d = (.ok a, e)) :
    e.db = d.db := by
  obtain rfl : (onSession m d).2 = e := congrArg Prod.snd h
  rfl

theorem writeChunk_ok {chunk : DecodedSignalChunk} (h : writeChunk chunk d = (.ok (), e)) :
    e.db.tables = chunk.upsert d.db.tables := by
  unfold writeChunk at h
  split at h
  next =>
    obtain ⟨_, mid, step, h⟩ := Effect.bind_eq_ok_iff.mp h
    obtain rfl : { mid with db := mid.db.write chunk.upsert } = e := congrArg Prod.snd h
    rw [← onSession_db step]
    exact DecodedDb.tables_write _ _
  next => cases h

theorem prepareUpsert_ok (h : prepareUpsert d = (.ok (), e)) : e.db.tables = d.db.tables := by
  rw [prepareUpsert, Effect.read_bind] at h
  split at h
  next =>
    cases h
    rfl
  next =>
    obtain ⟨_, mid, step, h⟩ := Effect.bind_eq_ok_iff.mp h
    obtain rfl : { mid with db := { mid.db with prepared := true } } = e := congrArg Prod.snd h
    rw [← onSession_db step]
    rfl

theorem writeSignals_ok {chunks : List DecodedSignalChunk} {rc : Int}
    (h : writeSignals chunks d = (.ok rc, e)) :
    rc = 0 ∧ e.db.tables = chunks.foldl (fun t c => c.upsert t) d.db.tables := by
  obtain ⟨_, prepared, prepare, h⟩ := Effect.bind_eq_ok_iff.mp h
  obtain ⟨_, written, loop, h⟩ := Effect.bind_eq_ok_iff.mp h
  cases h
  refine ⟨rfl, ?_⟩
  rw [← prepareUpsert_ok prepare]
  refine Effect.forEach_ok
    (fun done e => e.db.tables = done.foldl (fun t c => c.upsert t) prepared.db.tables) ?_ rfl loop
  intro done chunk s t before step
  rw [writeChunk_ok step, before, List.foldl_append]
  rfl

/-- A page whose processing returns has been decoded, and what is bound of its samples is in the
table. -/
theorem processPage_ok {order : ChunkOrder} {start n : Nat} {error : DecodeError}
    (h : processPage order decoder ((List.range' start n).map row) start d = (.ok error, e)) :
    error = ⟨0, []⟩ ∧ (∀ r ∈ List.range' start n, decoder.Decodes (row r).toLogRecord) ∧
      (∀ id si, si < decoder.signalCountOf id.toNat → blobsAt e.db.tables (keyOf id (signalName si)) =
        (blobsAt d.db.tables (keyOf id (signalName si))).append
          (signalChunk decoder row id si
            ((List.range' start n).filter fun r => (row r).canId = id)).bound) ∧
      (Few decoder ((List.range' start n).map row) →
        Filled decoder row (List.range' start n) d.db.tables e.db.tables) := by
  unfold processPage at h
  cases hc : cachePage decoder start ((List.range' start n).map row) Table.empty with
  | none =>
    rw [hc] at h
    cases h
  | some cache =>
    have decodes := cachePage_of_some hc
    obtain rfl := Option.some.inj (hc.symm.trans (cachePage_some decodes _))
    rw [hc] at h
    obtain ⟨rc, written, write, h⟩ := Effect.bind_eq_ok_iff.mp h
    obtain ⟨rfl, tables⟩ := writeSignals_ok write
    cases h
    refine ⟨rfl, decodes, fun id si low => ?_, fun few => ?_⟩
    · rw [tables, flush_blobs order (cacheHolds_foldl _), sampleEvents_filter low]
    · rw [tables]
      exact flush_filled order (cacheHolds_foldl _) few _

theorem processPages_ok {order : Nat → ChunkOrder} {pages : List (List ParsedEntry)} {start : Nat}
    {error : DecodeError} (rows : pages.flatten = (List.range' start pages.flatten.length).map row)
    (few : Few decoder pages.flatten) (h : processPages order decoder start pages d = (.ok error, e)) :
    error = ⟨0, []⟩ ∧
      Filled decoder row (List.range' start pages.flatten.length) d.db.tables e.db.tables := by
  induction pages generalizing start d with
  | nil =>
    cases h
    exact ⟨rfl, .nil _⟩
  | cons page rest ih =>
    rw [List.flatten_cons] at few
    rw [List.flatten_cons, List.length_append, ← List.range'_append_1, List.map_append] at rows
    obtain ⟨first, later⟩ := List.append_inj rows (by simp)
    obtain ⟨_, mid, process, h⟩ := Effect.bind_eq_ok_iff.mp h
    rw [first] at process
    obtain ⟨rfl, -, -, filled⟩ := processPage_ok process
    have here := filled (first ▸ few.sublist (List.sublist_append_left _ _))
    obtain ⟨rfl, filled'⟩ := ih later (few.sublist (List.sublist_append_right _ _)) h
    rw [List.flatten_cons, List.length_append, ← List.range'_append_1]
    exact ⟨rfl, here.append filled'⟩

theorem writeSignals_progress {chunks : List DecodedSignalChunk}
    (binds : ∀ chunk ∈ chunks, chunk.Bindable) (noFault : d.session.faults = []) :
    ∃ db, writeSignals chunks d = (.ok 0, { d with db := db }) := by
  have step : ∀ chunk ∈ chunks, ∀ e : Decoding, e.session = d.session →
      ∃ f, writeChunk chunk e = (.ok (), f) ∧ f.session = d.session :=
    fun chunk hc e same => ⟨_, writeChunk_calm (binds chunk hc) (same ▸ noFault), same⟩
  let prepared : Decoding := { d with db := { d.db with prepared := true } }
  obtain ⟨⟨session, db⟩, loop, rfl⟩ :=
    Effect.forEach_returns step (show prepared.session = d.session from rfl)
  exact ⟨db, (Effect.bind_of_ok (prepareUpsert_returns noFault)).trans (Effect.bind_of_ok loop)⟩

theorem processPage_progress (order : ChunkOrder) {start n : Nat}
    (fine : decoder.Processes row (List.range' start n)) (noFault : d.session.faults = []) :
    ∃ db, processPage order decoder ((List.range' start n).map row) start d =
      (.ok ⟨0, []⟩, { d with db := db }) := by
  rw [processPage, cachePage_some fine.decodes]
  obtain ⟨db, write⟩ := writeSignals_progress
    ((bindable_flush_iff order (cacheHolds_foldl _)).mpr fine.binds) noFault
  exact ⟨db, Effect.bind_of_ok write⟩

/-- Every page can be processed. -/
def PagesProcess (decoder : CanDatabaseModel) (row : Nat → ParsedEntry) : Nat →
    List (List ParsedEntry) → Prop
  | _, [] => True
  | start, page :: rest =>
    decoder.Processes row (List.range' start page.length) ∧
      PagesProcess decoder row (start + page.length) rest

theorem PagesProcess.decodes {pages : List (List ParsedEntry)} {start : Nat}
    (fine : PagesProcess decoder row start pages) :
    ∀ r ∈ List.range' start pages.flatten.length, decoder.Decodes (row r).toLogRecord := by
  induction pages generalizing start with
  | nil => exact fun r hr => by cases hr
  | cons page rest ih =>
    rw [List.flatten_cons, List.length_append, ← List.range'_append_1]
    exact fun r hr => (List.mem_append.mp hr).elim (fine.1.decodes r) (ih fine.2 r)

theorem pagesProcess_of_few {pages : List (List ParsedEntry)} {start : Nat}
    (rows : pages.flatten = (List.range' start pages.flatten.length).map row)
    (hx : ∀ r ∈ List.range' start pages.flatten.length, decoder.Decodes (row r).toLogRecord)
    (few : Few decoder pages.flatten) : PagesProcess decoder row start pages := by
  induction pages generalizing start with
  | nil => trivial
  | cons page rest ih =>
    rw [List.flatten_cons] at few
    rw [List.flatten_cons, List.length_append, ← List.range'_append_1] at rows hx
    rw [List.map_append] at rows
    obtain ⟨first, later⟩ := List.append_inj rows (by simp)
    have here : Few decoder ((List.range' start page.length).map row) :=
      first ▸ few.sublist (List.sublist_append_left _ _)
    exact ⟨here.processes fun r hr => hx r (List.mem_append.mpr (.inl hr)),
      ih later (fun r hr => hx r (List.mem_append.mpr (.inr hr)))
        (few.sublist (List.sublist_append_right _ _))⟩

/-- When no call fails the pages are processed to the end. -/
theorem processPages_progress (order : Nat → ChunkOrder)
    {pages : List (List ParsedEntry)} {start : Nat}
    (rows : pages.flatten = (List.range' start pages.flatten.length).map row)
    (fine : PagesProcess decoder row start pages) (noFault : d.session.faults = []) :
    (processPages order decoder start pages d).1 = .ok ⟨0, []⟩ := by
  induction pages generalizing start d with
  | nil => rfl
  | cons page rest ih =>
    rw [List.flatten_cons, List.length_append, ← List.range'_append_1, List.map_append] at rows
    obtain ⟨first, later⟩ := List.append_inj rows (by simp)
    obtain ⟨db, process⟩ := processPage_progress (order start) fine.1 noFault
    rw [← first] at process
    rw [processPages, Effect.bind_of_ok process, if_neg (by simp)]
    exact ih later fine.2 noFault

/-- Otherwise they reach the first page that cannot be processed. -/
theorem processPages_undefined (order : Nat → ChunkOrder)
    {pages : List (List ParsedEntry)} {start : Nat}
    (rows : pages.flatten = (List.range' start pages.flatten.length).map row)
    (bad : ¬ PagesProcess decoder row start pages) (noFault : d.session.faults = []) :
    (processPages order decoder start pages d).1 = .error .undefined := by
  induction pages generalizing start d with
  | nil => exact absurd trivial bad
  | cons page rest ih =>
    rw [List.flatten_cons, List.length_append, ← List.range'_append_1, List.map_append] at rows
    obtain ⟨first, later⟩ := List.append_inj rows (by simp)
    by_cases here : decoder.Processes row (List.range' start page.length)
    · obtain ⟨db, process⟩ := processPage_progress (order start) here noFault
      rw [← first] at process
      rw [processPages, Effect.bind_of_ok process, if_neg (by simp)]
      exact ih later (fun fine => bad ⟨here, fine⟩) noFault
    · obtain ⟨e, process⟩ := processPage_undefined (order start) here noFault
      rw [← first] at process
      rw [processPages, Effect.bind_of_error process]

end Cuts

/-- The samples of one key: lists of one length, rows in order, and every raw value extracted
from its row as the signal of that name. -/
structure SampledFrom (decoder : CanDatabaseModel) (entries : List ParsedEntry)
    (id : UInt32) (name : Text) (chunk : DecodedSignalChunk) : Prop where
  rawLength : chunk.rawValue.length = chunk.rowIndex.length
  physLength : chunk.physValue.length = chunk.rowIndex.length
  increasing : chunk.rowIndex.Pairwise (· < ·)
  extraction : ∀ k (hk : k < chunk.rowIndex.length), ∃ si sig entry,
    keyOf id (signalName si) = keyOf id name ∧ decoder.signalOf id.toNat si = some sig ∧
    entries[chunk.rowIndex[k].toNat]? = some entry ∧ entry.canId = id ∧
    extractSignal entry.data entry.dataLen.toNat sig = chunk.rawValue[k]?

theorem samples_blobs_as (c : DecodedSignalChunk) (id : UInt32) (name : Text) :
    c.blobs.samples id name = { c with canId := id, signalName := name } :=
  congrArg (fun chunk : DecodedSignalChunk => { chunk with canId := id, signalName := name })
    (samples_blobs c)

section Result

variable {decoder : CanDatabaseModel}

/-- A list of rows, by number. -/
def rowAmong (entries : List ParsedEntry) (r : Nat) : ParsedEntry := entries.getD r ParsedEntry.zero

theorem rowAmong_range (entries : List ParsedEntry) :
    entries = (List.range' 0 entries.length).map (rowAmong entries) := by
  apply List.ext_getElem
  · simp
  · intro k hk _
    simp [rowAmong, hk]

theorem sampledFrom_signalChunk {entries : List ParsedEntry}
    (decodes : ∀ r ∈ List.range' 0 entries.length, decoder.Decodes (rowAmong entries r).toLogRecord)
    (bound : entries.length < 2 ^ 32) {id : UInt32} {si : Nat} {name : Text}
    (low : si < decoder.signalCountOf id.toNat) (key : keyOf id (signalName si) = keyOf id name) :
    SampledFrom decoder entries id name { signalChunk decoder (rowAmong entries) id si
        ((List.range' 0 entries.length).filter fun r => (rowAmong entries r).canId = id) with
      canId := id, signalName := name } := by
  generalize hrows : (List.range' 0 entries.length).filter
    (fun r => (rowAmong entries r).canId = id) = rows
  have own : ∀ r ∈ rows, r < entries.length ∧ (rowAmong entries r).canId = id ∧
      decoder.Decodes (rowAmong entries r).toLogRecord := by
    intro r hr
    rw [← hrows] at hr
    obtain ⟨mem, same⟩ := List.mem_filter.mp hr
    have place := List.mem_range'_1.mp mem
    exact ⟨by omega, of_decide_eq_true same, decodes r mem⟩
  refine ⟨by simp [signalChunk], by simp [signalChunk], ?_, fun k hk => ?_⟩
  · have ascending : rows.Pairwise (· < ·) := by
      rw [← hrows]
      exact List.Pairwise.filter _ List.pairwise_lt_range'
    refine List.pairwise_map.mpr (ascending.imp_of_mem fun {a b} ha hb less => ?_)
    rw [UInt32.lt_iff_toNat_lt, UInt32.toNat_ofNat_of_lt' (Nat.lt_trans (own a ha).1 bound),
      UInt32.toNat_ofNat_of_lt' (Nat.lt_trans (own b hb).1 bound)]
    exact less
  · have place : k < rows.length := by simpa [signalChunk] using hk
    obtain ⟨inside, same, decoded⟩ := own rows[k] (List.getElem_mem place)
    have same' : (rowAmong entries rows[k]).toLogRecord.canId = id := same
    obtain ⟨sig, hsig, -⟩ := decoded.signal (show si < _ by rw [same']; exact low)
    rw [same'] at hsig
    have raw := rawValue_signalChunk hsig fun r hr => ⟨(own r hr).2.1, (own r hr).2.2.extracts⟩
    have mapped : k < (rows.map UInt32.ofNat).length := by rwa [List.length_map]
    have number : (rows.map UInt32.ofNat)[k].toNat = rows[k] := by
      rw [List.getElem_map]
      exact UInt32.toNat_ofNat_of_lt' (Nat.lt_trans inside bound)
    refine ⟨si, sig, rowAmong entries rows[k], key, hsig, ?_, same, ?_⟩
    · show entries[(rows.map UInt32.ofNat)[k].toNat]? = _
      rw [number, rowAmong, List.getElem?_eq_getElem inside]
      simp [inside]
    · have there := congrArg (fun l => l[k]?) raw
      have some' := List.getElem?_eq_getElem place
      simp only [List.getElem?_map, some', Option.map_some] at there
      cases hk : (signalChunk decoder (rowAmong entries) id si rows).rawValue[k]? with
      | none => simp [hk] at there
      | some value =>
        rw [hk] at there
        exact (Option.some.inj there).symm

theorem Filled.sampledFrom {entries : List ParsedEntry} {t u : DecodedTable}
    (filled : Filled decoder (rowAmong entries) (List.range' 0 entries.length) t u)
    (decodes : ∀ r ∈ List.range' 0 entries.length, decoder.Decodes (rowAmong entries r).toLogRecord)
    (bound : entries.length < 2 ^ 32) {id : UInt32} {name : Text}
    (empty : blobsAt t (keyOf id name) = .empty) :
    SampledFrom decoder entries id name ((blobsAt u (keyOf id name)).samples id name) := by
  by_cases signal : ∃ id' si, si < decoder.signalCountOf id'.toNat ∧
    keyOf id' (signalName si) = keyOf id name
  · obtain ⟨id', si, low, key⟩ := signal
    obtain rfl : id' = id := UInt32.toNat_inj.mp (Prod.mk.inj (toLex_inj.mp key)).1
    have kept : blobsAt u (keyOf id' name) = (signalChunk decoder (rowAmong entries) id' si
        ((List.range' 0 entries.length).filter fun r => (rowAmong entries r).canId = id')).blobs := by
      rw [← key, filled.appended id' si low, key, empty, SignalBlobs.empty_append]
    rw [kept, samples_blobs_as]
    exact sampledFrom_signalChunk decodes bound low key
  · have other : ∀ id' si, si < decoder.signalCountOf id'.toNat →
      keyOf id' (signalName si) ≠ keyOf id name :=
      fun id' si low same => signal ⟨id', si, low, same⟩
    rw [filled.other _ other, empty]
    have nothing : (SignalBlobs.empty.samples id name).rowIndex = [] := rfl
    refine ⟨rfl, rfl, nothing ▸ List.Pairwise.nil, fun k hk => ?_⟩
    cases hk

/-- However its rows are cut into pages, processing them leaves the same samples as one call on
all rows. Whatever calls fail, two runs that return agree; and when none fails, both return, or
both come to a row whose signals cannot be extracted. -/
def PagingAgrees (decoder : CanDatabaseModel) (entries : List ParsedEntry) : Prop :=
  ∀ (pages : List (List ParsedEntry)) (order : Nat → ChunkOrder) (order' : ChunkOrder) (db : DecodedDb)
    (s s' : Session), pages.flatten = entries →
    (∀ a e a' e', processPages order decoder 0 pages ⟨s, db⟩ = (.ok a, e) →
      processPage order' decoder entries 0 ⟨s', db⟩ = (.ok a', e') →
      a = ⟨0, []⟩ ∧ a' = ⟨0, []⟩ ∧ ∀ id name, samplesIn e.db id name = samplesIn e'.db id name ∧
        (blobsAt db.tables (keyOf id name) = .empty →
          SampledFrom decoder entries id name (samplesIn e.db id name))) ∧
    (s.faults = [] → s'.faults = [] →
      ((∀ entry ∈ entries, decoder.Decodes entry.toLogRecord) →
        (processPages order decoder 0 pages ⟨s, db⟩).1 = .ok ⟨0, []⟩ ∧
        (processPage order' decoder entries 0 ⟨s', db⟩).1 = .ok ⟨0, []⟩) ∧
      ((∃ entry ∈ entries, ¬ decoder.Decodes entry.toLogRecord) →
        (processPages order decoder 0 pages ⟨s, db⟩).1 = .error .undefined ∧
        (processPage order' decoder entries 0 ⟨s', db⟩).1 = .error .undefined))

theorem decodes_rowAmong_iff {entries : List ParsedEntry} :
    (∀ r ∈ List.range' 0 entries.length, decoder.Decodes (rowAmong entries r).toLogRecord) ↔
      ∀ entry ∈ entries, decoder.Decodes entry.toLogRecord := by
  have rows := rowAmong_range entries
  constructor
  · intro all entry mem
    rw [rows] at mem
    obtain ⟨r, hr, rfl⟩ := List.mem_map.mp mem
    exact all r hr
  · intro all r hr
    have mem := List.mem_map_of_mem (f := rowAmong entries) hr
    rw [← rows] at mem
    exact all _ mem

theorem pagingAgrees_of_few {entries : List ParsedEntry} (bound : entries.length < 2 ^ 32)
    (few : (∀ entry ∈ entries, decoder.Decodes entry.toLogRecord) → Few decoder entries) :
    PagingAgrees decoder entries := by
  rintro pages order order' db s s' rfl
  have rows := rowAmong_range pages.flatten
  refine ⟨fun a e a' e' paged whole => ?_, fun noFault noFault' => ⟨fun decodes => ?_, fun fails => ?_⟩⟩
  · rw [rows] at whole
    obtain ⟨rfl, decodes, -, filled'⟩ := processPage_ok whole
    have few := few (decodes_rowAmong_iff.mp decodes)
    obtain ⟨rfl, filled⟩ := processPages_ok rows few paged
    have filled' := filled' (rows ▸ few)
    refine ⟨rfl, rfl, fun id name => ⟨?_, fun empty => filled.sampledFrom decodes bound empty⟩⟩
    rw [samplesIn, samplesIn, filled.unique filled']
  · have few := few decodes
    have hx := decodes_rowAmong_iff.mpr decodes
    refine ⟨processPages_progress order rows (pagesProcess_of_few rows hx few) noFault, ?_⟩
    obtain ⟨db', process⟩ := processPage_progress order' ((rows ▸ few : Few decoder _).processes hx)
      (d := ⟨s', db⟩) noFault'
    rw [← rows] at process
    rw [process]
  · have bad : ¬ ∀ r ∈ List.range' 0 pages.flatten.length,
        decoder.Decodes (rowAmong pages.flatten r).toLogRecord := by
      rw [decodes_rowAmong_iff]
      push Not
      exact fails
    refine ⟨processPages_undefined order rows (fun fine => bad fine.decodes) noFault, ?_⟩
    obtain ⟨e, process⟩ :=
      processPage_undefined order' (fun fine => bad fine.decodes) (d := ⟨s', db⟩) noFault'
    rw [← rows] at process
    rw [process]

theorem exists_suffix_count {α : Type} (p : α → Bool) {l : List α} {k : Nat}
    (h : k ≤ (l.filter p).length) : ∃ xs ys, l = xs ++ ys ∧ (ys.filter p).length = k := by
  induction l with
  | nil => exact ⟨[], [], rfl, (Nat.le_zero.mp h).symm⟩
  | cons a l ih =>
    by_cases later : k ≤ (l.filter p).length
    · obtain ⟨xs, ys, rfl, count⟩ := ih later
      exact ⟨a :: xs, ys, rfl, count⟩
    · refine ⟨[], a :: l, rfl, ?_⟩
      have more : ((a :: l).filter p).length ≤ (l.filter p).length + 1 := by
        rw [List.filter_cons]
        split
        next => rw [List.length_cons]
        next => omega
      omega

/-- Cuts into pages agree with the whole exactly when a signal has fewer than 2^28 samples in all,
or the rows cannot be decoded: a page with the last 2^28 samples has a blob of 2^31 bytes, and
that length is negative as an int. -/
theorem pagingAgrees_iff {entries : List ParsedEntry} (bound : entries.length < 2 ^ 32) :
    PagingAgrees decoder entries ↔
      ((∀ entry ∈ entries, decoder.Decodes entry.toLogRecord) → Few decoder entries) := by
  refine ⟨fun agrees decodes id some' => ?_, pagingAgrees_of_few bound⟩
  by_contra many
  obtain ⟨xs, ys, rfl, count⟩ := exists_suffix_count (fun e : ParsedEntry => decide (e.canId = id))
    (not_lt.mp many)
  have flat : [xs, ys].flatten = xs ++ ys := by simp
  have rows := rowAmong_range [xs, ys].flatten
  rw [flat] at rows
  obtain ⟨-, outcome⟩ :=
    agrees [xs, ys] (fun _ => keepOrder) keepOrder .empty Session.fresh Session.fresh flat
  have returns := ((outcome rfl rfl).1 decodes).1
  have stops : ¬ PagesProcess decoder (rowAmong (xs ++ ys)) 0 [xs, ys] := by
    intro fine
    have last : ys = (List.range' (0 + xs.length) ys.length).map (rowAmong (xs ++ ys)) := by
      rw [List.length_append, ← List.range'_append_1, List.map_append] at rows
      exact (List.append_inj rows (by simp)).2
    have binds := (bindable_signalChunk_iff.mp (fine.2.1.binds id 0 some')).2
    rw [← length_filter_rows, ← last, count] at binds
    exact absurd binds (not_le.mpr (intOfSize_neg (by decide) (by decide)))
  have undefined := processPages_undefined (fun _ => keepOrder) (by rw [flat]; exact rows) stops
    (d := ⟨Session.fresh, .empty⟩) rfl
  rw [returns] at undefined
  cases undefined

end Result

def sampleRow : ParsedEntry := { ParsedEntry.zero with toLogRecord := sampleRecord }

theorem pagingAgrees_sample : [sampleRow, sampleRow, sampleRow].length < 2 ^ 32 ∧
    PagingAgrees (loadDb sampleModel) [sampleRow, sampleRow, sampleRow] := by
  refine ⟨by decide, (pagingAgrees_iff (by decide)).mpr fun _ id _ => ?_⟩
  exact (List.length_filter_le _ _).trans_lt (by decide)

/-- The row numbers of a signal after a page. -/
theorem rowIndex_of_page {decoder : CanDatabaseModel} {row : Nat → ParsedEntry} {d e : Decoding}
    {order : ChunkOrder} {start n : Nat} {error : DecodeError}
    (h : processPage order decoder ((List.range' start n).map row) start d = (.ok error, e))
    {id : UInt32} {si : Nat} (low : si < decoder.signalCountOf id.toNat)
    (own : ∀ r, (row r).canId = id) : (blobsAt e.db.tables (keyOf id (signalName si))).rowIndex =
      (blobsAt d.db.tables (keyOf id (signalName si))).rowIndex ++
        bindBlob (toBlob 4 ((List.range' start n).map fun r => (UInt32.ofNat r).toNat)) := by
  have all : (List.range' start n).filter (fun r => (row r).canId = id) = List.range' start n :=
    List.filter_eq_self.mpr fun r _ => decide_eq_true (own r)
  rw [(processPage_ok h).2.2.1 id si low, all]
  simp [SignalBlobs.append, DecodedSignalChunk.bound, DecodedSignalChunk.blobs, signalChunk,
    Function.comp_def]

theorem rowIndex_samplesIn {db : DecodedDb} {id : UInt32} {name : Text} (values : List Nat)
    (small : ∀ v ∈ values, v < 2 ^ 32)
    (stored : (blobsAt db.tables (keyOf id name)).rowIndex = toBlob 4 values) :
    (samplesIn db id name).rowIndex = values.map UInt32.ofNat := by
  rw [samplesIn, SignalBlobs.samples, stored, blobToValues_toBlob (by decide) small]

/-- A blob of 2^30 + 1 row numbers is bound with a length of four bytes. -/
theorem bindBlob_first {v : Nat} {values : List Nat}
    (wraps : intOfSize ((v :: values).length * 4) = 4) :
    bindBlob (toBlob 4 (v :: values)) = toBlob 4 [v] := by
  rw [bindBlob, toBlob_length, wraps]
  simp only [toBlob, List.flatMap_cons, List.flatMap_nil, List.append_nil]
  exact List.take_left' (toBytes_length 4 v)

/-- A blob of 2^30 row numbers is bound as an empty one. -/
theorem bindBlob_nothing {values : List Nat} (wraps : intOfSize (values.length * 4) = 0) :
    bindBlob (toBlob 4 values) = [] := by
  rw [bindBlob, toBlob_length, wraps]
  rfl

/-- 2^30 + 1 rows of one signal: one call keeps the first sample, and two calls, the first one with
2^30 rows, keep the last one. No call fails. -/
theorem paging_loses_samples :
    ¬ PagingAgrees (loadDb sampleModel) (List.replicate (2 ^ 30 + 1) sampleRow) := by
  obtain ⟨n, hn⟩ : ∃ n : Nat, n = 2 ^ 30 := ⟨_, rfl⟩
  rw [← hn]
  intro agrees
  let row : Nat → ParsedEntry := fun _ => sampleRow
  have page (start m : Nat) : List.replicate m sampleRow = (List.range' start m).map row := by
    rw [List.map_const', List.length_range']
  have flat : [List.replicate n sampleRow, [sampleRow]].flatten = List.replicate (n + 1) sampleRow := by
    rw [List.replicate_succ']
    simp
  have low : 0 < (loadDb sampleModel).signalCountOf (5 : UInt32).toNat := by decide
  have empty : intOfSize (n * 4) = 0 := by
    rw [hn]
    decide
  have four : intOfSize ((n + 1) * 4) = 4 := by
    rw [hn]
    decide
  obtain ⟨agree, outcome⟩ :=
    agrees _ (fun _ => keepOrder) keepOrder .empty Session.fresh Session.fresh flat
  obtain ⟨paged, whole⟩ := (outcome rfl rfl).1 fun entry mem => by
    rw [List.eq_of_mem_replicate mem]
    rfl
  have same := ((agree _ _ _ _ (pair_of_fst paged) (pair_of_fst whole)).2.2 5 (signalName 0)).1
  -- one call: four bytes, the number of the first row
  have first :
    (samplesIn (processPage keepOrder (loadDb sampleModel) (List.replicate (n + 1) sampleRow) 0
      ⟨Session.fresh, .empty⟩).2.db 5 (signalName 0)).rowIndex = [0] := by
    rw [page 0 (n + 1)] at whole ⊢
    have stored := rowIndex_of_page (pair_of_fst whole) low fun _ => rfl
    have numbers : (List.range' 0 (n + 1)).map (fun r => (UInt32.ofNat r).toNat) =
        0 :: (List.range' 1 n).map fun r => (UInt32.ofNat r).toNat := rfl
    rw [numbers, bindBlob_first (by simpa using four)] at stored
    exact rowIndex_samplesIn [0] (by decide) stored
  -- two calls: no bytes of the first page, and the number of the last row
  have last : (samplesIn (processPages (fun _ => keepOrder) (loadDb sampleModel) 0
      [List.replicate n sampleRow, [sampleRow]] ⟨Session.fresh, .empty⟩).2.db 5
        (signalName 0)).rowIndex =
        [UInt32.ofNat n] := by
    obtain ⟨_, mid, process, later⟩ := Effect.bind_eq_ok_iff.mp (pair_of_fst paged)
    rw [page 0 n] at process
    obtain ⟨rfl, -⟩ := processPage_ok process
    obtain ⟨_, _, process', later⟩ := Effect.bind_eq_ok_iff.mp later
    have one : [sampleRow] = (List.range' n 1).map row := rfl
    rw [Nat.zero_add, List.length_replicate, one] at process'
    obtain ⟨rfl, -⟩ := processPage_ok process'
    obtain ⟨-, rfl⟩ := Prod.mk.inj later
    have stored := rowIndex_of_page process low fun _ => rfl
    have stored' := rowIndex_of_page process' low fun _ => rfl
    rw [bindBlob_nothing (by simpa using empty)] at stored
    have lastNumber : (List.range' n 1).map (fun r => (UInt32.ofNat r).toNat) =
      [(UInt32.ofNat n).toNat] := rfl
    have small : ∀ v ∈ [(UInt32.ofNat n).toNat], v < 2 ^ 32 :=
      fun v mem => List.mem_singleton.mp mem ▸ UInt32.toNat_lt _
    rw [stored, lastNumber, bindBlob_of_lt (by simp [toBlob_length])] at stored'
    refine (rowIndex_samplesIn _ small stored').trans ?_
    rw [List.map_singleton, UInt32.ofNat_toNat]
  have numbers := congrArg DecodedSignalChunk.rowIndex same
  rw [first, last, hn] at numbers
  revert numbers
  decide

end FsCore
