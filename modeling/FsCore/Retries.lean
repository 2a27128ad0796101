import FsCore.Worker
import FsCore.WriterReaders

namespace FsCore

/-- What one run of the worker on `records` may leave under the token: it ends in the
constructor, or it is killed, throws or finishes at some step after it. -/
inductive Attempt (records : List LogRecord) (store : TokenStore) : TokenStore → Prop
  | opening {faults : List Bool} {e : StoreError} {s : Session}
      (h : construct (store.start faults) = (.error e, s)) : Attempt records store s.left
  | opened {faults : List Bool} {s : Session}
      (h : construct (store.start faults) = (.ok (), s)) : Attempt records store s.left
  | writing {faults : List Bool} {s : Session} {filePath : Text}
      {R : Nat → Option IndexTables} {w : World} (h : construct (store.start faults) = (.ok (), s))
      (steps : World.Steps ⟨.idle [records], (setSourceFilePath filePath s).2, R⟩ w) :
      Attempt records store w.store.left

/-- Runs on the same records, one after the other, each of which ends where it may. -/
abbrev Attempts (records : List LogRecord) : TokenStore → TokenStore → Prop :=
  Relation.ReflTransGen (Attempt records)

section Opening

/-- The index and the number of rows that the header counts. -/
def Counts (ix : IndexDb) (n : Nat) (s : Session) : Prop := s.index = ix ∧ s.header.writeCount = n

variable {ix : IndexDb} {n : Nat}

theorem call_counts (name : String) : (call name).Keeps (Counts ix n) := by
  intro s hs
  unfold call
  split <;> exact hs

theorem mmapOpen_counts {α : Type} (f : File α) : (mmapOpen f).Keeps (Counts ix n) := by
  cases f with
  | missing => exact fun s hs => hs
  | empty => exact (call_counts _).bind fun _ s hs => hs
  | bytes content => exact (call_counts _).bind fun _ => call_counts _

theorem mmapCreateRw_counts {α : Type} {zero : α} {set : File α → Session → Session}
    (empty : ∀ s, Counts ix n s → Counts ix n (set .empty s))
    (whole : ∀ s, Counts ix n s → Counts ix n (set (.bytes zero) s)) :
    (mmapCreateRw zero set).Keeps (Counts ix n) :=
  (call_counts _).bind fun _ => Effect.Keeps.bind empty fun _ =>
    (call_counts _).bind fun _ => Effect.Keeps.bind whole fun _ => call_counts _

/-- A header that is created counts no rows, as one that is missing. -/
theorem openHeaderRw_counts : openHeaderRw.Keeps (Counts ix n) := by
  intro s hs
  have opening : (mmapOpenOrCreate MmapHeader.zero Session.setHeader s.files.header).Keeps
    (Counts ix n) := by
    cases hf : s.files.header with
    | missing =>
      have none : n = 0 := by
        rw [← hs.2, Session.header, hf]
        rfl
      rw [none]
      exact mmapCreateRw_counts (fun t ht => ⟨ht.1, rfl⟩) (fun t ht => ⟨ht.1, rfl⟩)
    | empty => exact mmapOpen_counts _
    | bytes header => exact mmapOpen_counts _
  have capacity : (Effect.modify Session.initCapacity : StoreM Unit).Keeps (Counts ix n) := by
    intro t ht
    have image := initCapacity_image t
    exact ⟨(congrArg Image.index image).trans ht.1,
      (congrArg (fun g : Image => g.header.writeCount) image).trans ((opened_writeCount _).trans ht.2)⟩
  simp only [openHeaderRw, Effect.read_bind]
  exact opening.bind (fun _ => capacity) s hs

theorem openOrCreateSegmentForWrite_counts (i : Nat) :
    (openOrCreateSegmentForWrite i).Keeps (Counts ix n) := by
  intro s hs
  simp only [openOrCreateSegmentForWrite, Effect.read_bind]
  split
  next => exact hs
  next =>
    have opening : (mmapOpenOrCreate Segment.zero (Session.setSegment i) (s.files.segments i)).Keeps
        (Counts ix n) := by
      cases s.files.segments i with
      | missing => exact mmapCreateRw_counts (fun t ht => ht) (fun t ht => ht)
      | empty => exact mmapOpen_counts _
      | bytes rows => exact mmapOpen_counts _
    exact opening.bind (fun _ t ht => ht) s hs

theorem openSegment_counts (i : Nat) : (openSegment i).Keeps (Counts ix n) := by
  intro s hs
  simp only [openSegment, Effect.read_bind]
  split
  next => exact hs
  next => exact (mmapOpen_counts _).bind (fun _ t ht => ht) s hs

theorem openReaders_counts : openReaders.Keeps (Counts ix n) := by
  have index : openIndex.Keeps (Counts ix n) := Effect.Keeps.forEach fun name _ => call_counts name
  refine Effect.Keeps.bind (fun s => mmapOpen_counts s.files.header s) fun _ => ?_
  intro s hs
  rw [Effect.read_bind]
  cases s.files.segments 0 with
  | missing => exact index s hs
  | empty | bytes => exact (openSegment_counts 0).bind (fun _ => index) s hs

/-- However the constructor ends, the committed index and the count are as they were. -/
theorem construct_counts : construct.Keeps (Counts ix n) :=
  openHeaderRw_counts.bind fun _ => (openOrCreateSegmentForWrite_counts 0).bind fun _ =>
    openReaders_counts

end Opening

section Writing

/-- An image in the middle of a batch, over the one that the batch began with. -/
def Image.during (g : Image) (done : List LogRecord) : Image := done.foldl Image.append g.begin

/-- Where the writer stands on its way through one batch. -/
def WriterPc.Follows (g : Image) (log : List LogRecord) (s : Session) : WriterPc → Prop
  | .idle [entries] => entries = log ∧ s.image = g
  | .idle [] => s.image = g.appendAll log
  | .inBatch rest [] => ∃ done, done ++ rest = log ∧ s.image = g.during done
  | .stored rowIndex row entry rest [] => ∃ done record, done ++ record :: rest = log ∧
      rowIndex = (g.during done).nextIndex ∧ row = (g.during done).nextIndex ∧
      entry = (g.during done).entryFor record ∧ s.image = { (g.during done).append record with
        header := (g.during done).header, index := (g.during done).index }
  | .counted rowIndex entry rest [] => ∃ done record, done ++ record :: rest = log ∧
      rowIndex = (g.during done).nextIndex ∧ entry = (g.during done).entryFor record ∧
      s.image = { (g.during done).append record with index := (g.during done).index }
  | .gone => True
  | _ => False

/-- What a run of the writer keeps: the committed index is the old one or the whole new
one, and the header counts no more rows than the old header or the batch. -/
structure World.Retries (g : Image) (log : List LogRecord) (w : World) : Prop where
  follows : w.pc.Follows g log w.store
  committed : w.store.index.committed = g.index.committed ∨
    w.store.index.committed = (g.during log).index.tables
  counted : w.store.header.writeCount ≤ max g.header.writeCount (g.nextIndex + log.length)

variable {g : Image} {log : List LogRecord} {s t : Session} {R : Nat → Option IndexTables}

theorem during_append (g : Image) (done : List LogRecord) (record : LogRecord) :
    g.during (done ++ [record]) = (g.during done).append record := by
  simp [Image.during, List.foldl_append]

theorem during_nextIndex (g : Image) (done : List LogRecord) :
    (g.during done).nextIndex = g.nextIndex + done.length := foldl_append_nextIndex done g.begin

theorem during_active (g : Image) (done : List LogRecord) :
    (g.during done).index.transaction ≠ none := by
  rw [Image.during, Ne, foldl_append_transaction]
  simp [Image.begin]

/-- A step that changes neither the committed index nor the header. -/
theorem World.Retries.of_kept {pc pc' : WriterPc} {n : Nat} (h : World.Retries g log ⟨pc, s, R⟩)
    (kept : Kept n s t) (follows : pc'.Follows g log t) : World.Retries g log ⟨pc', t, R⟩ := by
  refine ⟨follows, ?_, ?_⟩
  · have same : t.index.committed = s.index.committed := kept.committed
    exact same ▸ h.committed
  · have same : t.header = s.header := kept.header
    exact same ▸ h.counted

theorem World.Retries.commits (h : World.Retries g log ⟨.inBatch [] [], s, R⟩)
    (ht : commitTransaction s = (.ok (), t)) : World.Retries g log ⟨.idle [], t, R⟩ := by
  obtain ⟨done, whole, himage⟩ := h.follows
  have whole : done = log := by simpa using whole
  subst whole
  obtain ⟨hcommit, _⟩ := commitTransaction_ok ht
  rw [himage] at hcommit
  refine ⟨hcommit, .inr (congrArg (fun g : Image => g.index.committed) hcommit), ?_⟩
  have header : t.header = s.header :=
    (congrArg Image.header hcommit).trans (congrArg Image.header himage).symm
  exact header ▸ h.counted

theorem World.Retries.stores {record : LogRecord} {rest : List LogRecord} {rowIndex row : Nat}
    {parsed : ParsedEntry} (h : World.Retries g log ⟨.inBatch (record :: rest) [], s, R⟩)
    (ht : writeRow record s = (.ok (rowIndex, row, parsed), t)) :
    World.Retries g log ⟨.stored rowIndex row parsed rest [], t, R⟩ := by
  obtain ⟨done, whole, himage⟩ := h.follows
  have kept := writeRow_kept record s
  rw [ht] at kept
  obtain ⟨hrowIndex, hrow, hparsed, _, himage', _⟩ := writeRow_ok ht
  have next : s.writeNext = (g.during done).nextIndex := congrArg Image.nextIndex himage
  rw [next] at hrowIndex hrow
  rw [himage] at hparsed
  refine h.of_kept kept ⟨done, record, whole, hrowIndex, hrow, hparsed, ?_⟩
  have header : s.header = (g.during done).header := congrArg Image.header himage
  have index : s.index = (g.during done).index := congrArg Image.index himage
  rw [himage', himage, header, index]

theorem World.Retries.counts {rowIndex row : Nat} {entry : ParsedEntry} {rest : List LogRecord}
    (h : World.Retries g log ⟨.stored rowIndex row entry rest [], s, R⟩)
    (ht : setWriteCount (row + 1) s = (.ok (), t)) :
    World.Retries g log ⟨.counted rowIndex entry rest [], t, R⟩ := by
  obtain ⟨done, record, whole, rfl, rfl, hentry, himage⟩ := h.follows
  cases ht
  have header : s.header = (g.during done).header := congrArg Image.header himage
  refine ⟨⟨done, record, whole, rfl, hentry, ?_⟩, h.committed, ?_⟩
  · calc
      _ = { s.image with
            header := { s.header with writeCount := (g.during done).nextIndex + 1 } } := rfl
      _ = _ := by rw [himage, header]; rfl
  · have place : (g.during done).nextIndex + 1 ≤ g.nextIndex + log.length := by
      rw [during_nextIndex, ← whole, List.length_append, List.length_cons]
      omega
    exact le_trans place (le_max_right _ _)

theorem World.Retries.indexes {rowIndex : Nat} {entry : ParsedEntry} {rest : List LogRecord}
    (h : World.Retries g log ⟨.counted rowIndex entry rest [], s, R⟩)
    (ht : appendIndex rowIndex entry s = (.ok (), t)) :
    World.Retries g log ⟨.inBatch rest [], t, R⟩ := by
  obtain ⟨done, record, whole, rfl, rfl, himage⟩ := h.follows
  have index : s.index = (g.during done).index := congrArg Image.index himage
  have kept := (appendIndex_keptInside (g.during done).nextIndex ((g.during done).entryFor record) 0 s
    (by rw [index]; exact during_active g done)).1
  rw [ht] at kept
  obtain ⟨_, _, rfl⟩ := appendIndex_ok ht
  refine h.of_kept kept ⟨done ++ [record], by simpa using whole, ?_⟩
  calc
    _ = { s.image with index := s.index.write (IndexTables.appendRow (g.during done).nextIndex
          ((g.during done).entryFor record)) } := rfl
    _ = _ := by rw [himage, index, during_append]; rfl

theorem World.Retries.writes {pc pc' : WriterPc} {m : StoreM WriterPc}
    (h : World.Retries g log ⟨pc, s, R⟩) (hm : pc.action = some m) (ht : m s = (.ok pc', t)) :
    World.Retries g log ⟨pc', t, R⟩ := by
  match pc with
  | .gone => cases hm
  | .idle [] => cases hm
  | .idle (entries :: first :: later) => exact h.follows.elim
  | .idle [entries] =>
    cases hm
    obtain ⟨_, a, ha, ht⟩ := Effect.bind_eq_ok_iff.mp ht
    cases ht
    obtain ⟨rfl, himage⟩ := h.follows
    have kept := beginTransaction_kept 0 s
    rw [ha] at kept
    exact h.of_kept kept ⟨[], rfl, by rw [(beginTransaction_ok ha).2.1, himage]; rfl⟩
  | .inBatch [] [] =>
    cases hm
    obtain ⟨_, a, ha, ht⟩ := Effect.bind_eq_ok_iff.mp ht
    cases ht
    exact h.commits ha
  | .inBatch (record :: rest) [] =>
    cases hm
    obtain ⟨⟨rowIndex, row, parsed⟩, a, ha, ht⟩ := Effect.bind_eq_ok_iff.mp ht
    cases ht
    exact h.stores ha
  | .stored rowIndex row entry rest [] =>
    cases hm
    obtain ⟨_, a, ha, ht⟩ := Effect.bind_eq_ok_iff.mp ht
    cases ht
    exact h.counts ha
  | .counted rowIndex entry rest [] =>
    cases hm
    obtain ⟨_, a, ha, ht⟩ := Effect.bind_eq_ok_iff.mp ht
    cases ht
    exact h.indexes ha
  | .inBatch _ (_ :: _) => exact h.follows.elim
  | .stored _ _ _ _ (_ :: _) => exact h.follows.elim
  | .counted _ _ _ (_ :: _) => exact h.follows.elim

/-- A step that throws has published nothing. -/
theorem World.Retries.throws {pc : WriterPc} {m : StoreM WriterPc} {e : StoreError}
    (h : World.Retries g log ⟨pc, s, R⟩) (hm : pc.action = some m) (ht : m s = (.error e, t)) :
    ∃ n, Kept n s t := by
  match pc with
  | .gone => cases hm
  | .idle [] => cases hm
  | .idle (entries :: batches) =>
    cases hm
    have kept := beginTransaction_kept 0 s
    exact ⟨0, by rwa [then_pure_error ht] at kept⟩
  | .inBatch [] batches =>
    cases hm
    exact ⟨0, commitTransaction_error_kept 0 (then_pure_error ht)⟩
  | .inBatch (record :: rest) batches =>
    cases hm
    have kept := writeRow_kept record s
    exact ⟨_, by rwa [then_pure_error ht] at kept⟩
  | .stored rowIndex row entry rest batches =>
    cases hm
    cases then_pure_error ht
  | .counted rowIndex entry rest (_ :: _) => exact h.follows.elim
  | .counted rowIndex entry rest [] =>
    cases hm
    obtain ⟨done, record, _, _, _, himage⟩ := h.follows
    have index : s.index = (g.during done).index := congrArg Image.index himage
    have active : s.index.transaction ≠ none := by
      rw [index]
      exact during_active g done
    have kept := (appendIndex_keptInside rowIndex entry 0 s active).1
    exact ⟨0, by rwa [then_pure_error ht] at kept⟩

theorem World.Retries.step {w w' : World} (h : w.Retries g log) (hs : w.Step w') :
    w'.Retries g log := by
  cases hs with
  | writes hm ht => exact h.writes hm ht
  | throws hm ht =>
    obtain ⟨n, kept⟩ := h.throws hm ht
    exact h.of_kept (rollback_kept kept) trivial
  | kill => exact h.of_kept (rollback_kept (Kept.refl 0 _)) trivial
  | snapshot reader => exact ⟨h.follows, h.committed, h.counted⟩

theorem World.Retries.steps {w w' : World} (h : w.Retries g log) (hs : w.Steps w') :
    w'.Retries g log := by
  induction hs with
  | refl => exact h
  | tail _ last ih => exact ih.step last

end Writing

section Redoing

variable {g : Image} {log : List LogRecord}

/-- A row is built from the last row of its id alone. -/
theorem entryFor_congr {g h : Image} {record : LogRecord}
    (last : g.lastRow record.canId = h.lastRow record.canId)
    (rows : ∀ p, h.lastRow record.canId = some p → g.row p.toNat = h.row p.toNat) :
    g.entryFor record = h.entryFor record := by
  simp only [Image.entryFor, last]
  cases hp : h.lastRow record.canId with
  | none => simp [parsedEntry]
  | some p => rw [Option.getD_some, rows p hp]

theorem reference_lastRow_lt {done : List LogRecord} (small : done.length < 2 ^ 31) {id p : UInt32}
    (hp : (Image.reference done).lastRow id = some p) : p.toNat < done.length := by
  obtain ⟨j, hj, rfl⟩ := Option.map_eq_some_iff.mp hp
  have := lastBelow?_lt hj
  rw [toNat_ofNat_row (by omega)]
  exact this

/-- An object that remembers no row writes the rows of its own batch, whatever the
files held. -/
theorem during_rows (first : g.nextIndex = 0) (noRow : g.lastRow = fun _ => none)
    {done : List LogRecord} (small : done.length < 2 ^ 31) :
    (g.during done).lastRow = (Image.reference done).lastRow ∧
      ∀ i, i < done.length → (g.during done).row i = referenceRow done i := by
  induction done using List.reverseRecOn with
  | nil => exact ⟨noRow, fun i hi => absurd hi (Nat.not_lt_zero i)⟩
  | append_singleton done record ih =>
    rw [List.length_append, List.length_singleton] at small
    obtain ⟨last, rows⟩ := ih (by omega)
    have next : (g.during done).nextIndex = done.length := by rw [during_nextIndex, first, Nat.zero_add]
    have entry : (g.during done).entryFor record = referenceRow (done ++ [record]) done.length := by
      rw [← entryFor_reference (by omega) (Image.reference done).index record]
      refine entryFor_congr (congrFun last _) fun p hp => ?_
      have bound : p.toNat < done.length := reference_lastRow_lt (by omega) hp
      rw [rows _ bound]
      exact (if_pos bound).symm
    rw [during_append]
    refine ⟨?_, fun i hi => ?_⟩
    · have step := congrArg Image.lastRow
        (append_reference (show done.length < 2 ^ 31 by omega) (Image.reference done).index record)
      calc
        _ = Function.update (g.during done).lastRow record.canId
              (some (UInt32.ofNat (g.during done).nextIndex)) := rfl
        _ = (((Image.reference done).withIndex (Image.reference done).index).append
              record).lastRow := by
          rw [last, next]
          rfl
        _ = _ := step
    · rw [List.length_append, List.length_singleton] at hi
      by_cases newest : i = done.length
      · rw [newest, ← next, append_row_last, entry, next]
      · rw [append_row_of_ne (by omega), rows i (by omega), referenceRow_append record (by omega)]

theorem during_entry (first : g.nextIndex = 0) (noRow : g.lastRow = fun _ => none)
    {done : List LogRecord} (small : done.length + 1 < 2 ^ 31) (record : LogRecord) :
    (g.during done).entryFor record = referenceRow (done ++ [record]) done.length := by
  have row := (@during_rows g first noRow (done ++ [record]) (by simpa using small)).2 done.length
    (by simp)
  have next : (g.during done).nextIndex = done.length := by rw [during_nextIndex, first, Nat.zero_add]
  rwa [during_append, ← next, append_row_last, next] at row

theorem during_tables (first : g.nextIndex = 0) (noRow : g.lastRow = fun _ => none)
    {done : List LogRecord} (small : done.length + 1 < 2 ^ 31) (record : LogRecord) :
    (g.during (done ++ [record])).index.tables =
      (g.during done).index.tables.appendRow done.length
        (referenceRow (done ++ [record]) done.length) := by
  have next : (g.during done).nextIndex = done.length := by rw [during_nextIndex, first, Nat.zero_add]
  rw [during_append, ← during_entry first noRow small]
  have step : ((g.during done).append record).index.tables =
      (g.during done).index.tables.appendRow (g.during done).nextIndex
        ((g.during done).entryFor record) :=
    tables_write _ _
  rw [step, next]

/-- Appending a row of the log again changes nothing. -/
theorem appendRow_again {i : Nat} (h : i < log.length) :
    (referenceTables log).appendRow i (referenceRow log i) = referenceTables log := by
  have own : (referenceRow log i).toLogRecord = recordAt log i := rfl
  have member : recordAt log i ∈ log := by simp [recordAt, h]
  have logged (ks : List Nat) {k : Nat} (hk : k ∈ ks) : (Table.ofKeys ks).find? k = some () := by
    obtain ⟨_, found⟩ := Table.mem_keys_iff.mp (Table.mem_keys_ofKeys.mpr hk)
    exact found
  have named (ks : List Text) {k : Text} (hk : k ∈ ks) : (Table.ofKeys ks).find? k = some () := by
    obtain ⟨_, found⟩ := Table.mem_keys_iff.mp (Table.mem_keys_ofKeys.mpr hk)
    exact found
  simp only [IndexTables.appendRow, IndexTables.insertRow, IndexTables.insertCanId,
    IndexTables.insertChannel,
    appendedRow_eq (referenceRow_changed _ _), referenceTables, IndexTables.mk.injEq,
      ParsedEntry.indexRow, own]
  refine ⟨Table.upsert_of_same (v := (referenceRow log i).indexRow) ?_ rfl,
    Table.upsert_of_same (logged _ ?_) rfl, Table.upsert_of_same (named _ ?_) rfl⟩
  · rw [Table.find?_ofRange, if_pos h]
    rfl
  · exact List.mem_map.mpr ⟨_, member, rfl⟩
  · exact List.mem_map.mpr ⟨_, member, rfl⟩

/-- Over an empty index or over the one of the same log, a batch that is the log leaves
the index of the log. -/
theorem during_log_tables (first : g.nextIndex = 0) (noRow : g.lastRow = fun _ => none)
    (small : log.length < 2 ^ 31)
    (old : g.index.committed = referenceTables [] ∨ g.index.committed = referenceTables log) :
    (g.during log).index.tables = referenceTables log := by
  have start : (g.during []).index.tables = g.index.committed := rfl
  rcases old with old | old
  · suffices all : ∀ done, done.length < 2 ^ 31 → (g.during done).index.tables =
      referenceTables done from
      all log small
    intro done
    induction done using List.reverseRecOn with
    | nil => exact fun _ => start.trans old
    | append_singleton done record ih =>
      intro small
      rw [List.length_append, List.length_singleton] at small
      rw [during_tables first noRow small, ih (by omega), appendRow_referenceTables]
  · suffices all : ∀ done rest, done ++ rest = log → (g.during done).index.tables =
      referenceTables log from
      all log [] (List.append_nil log)
    intro done
    induction done using List.reverseRecOn with
    | nil => exact fun _ _ => start.trans old
    | append_singleton done record ih =>
      intro rest whole
      have bound : done.length < (done ++ [record]).length := by simp
      have inside : done.length < log.length := by rw [← whole]; simp
      have row : referenceRow (done ++ [record]) done.length = referenceRow log done.length := by
        rw [← whole]
        exact (referenceRow_append_later rest bound).symm
      rw [during_tables first noRow (by omega), ih (record :: rest) (by simpa using whole), row,
        appendRow_again inside]

end Redoing

section Failing

variable {batches : List (List LogRecord)} {s t : Session} {e : StoreError}
  {R : Nat → Option IndexTables}

theorem writeEntry_steps {record : LogRecord} {rest : List LogRecord}
    (h : writeEntry record s = (.ok (), t)) :
    World.Steps ⟨.inBatch (record :: rest) batches, s, R⟩ ⟨.inBatch rest batches, t, R⟩ := by
  rw [writeEntry_eq_steps] at h
  obtain ⟨⟨rowIndex, row, parsed⟩, a, ha, h⟩ := Effect.bind_eq_ok_iff.mp h
  obtain ⟨_, b, hb, h⟩ := Effect.bind_eq_ok_iff.mp h
  exact .head (.writes rfl (Effect.bind_of_ok ha))
    (.head (.writes rfl (Effect.bind_of_ok hb)) (.single (.writes rfl (Effect.bind_of_ok h))))

/-- A loop of write_entries that throws is a run of the writer that ends in a throw. -/
theorem writeLoop_throws {entries : List LogRecord}
    (h : Effect.forEach writeEntry entries s = (.error e, t)) :
    World.Steps ⟨.inBatch entries batches, s, R⟩ ⟨.gone, t.rollback, R⟩ := by
  induction entries generalizing s with
  | nil => cases h
  | cons record rest ih =>
    rcases Effect.bind_eq_error_iff.mp h with h | ⟨_, mid, hx, h⟩
    · rw [writeEntry_eq_steps] at h
      rcases Effect.bind_eq_error_iff.mp h with h | ⟨⟨rowIndex, row, parsed⟩, a, ha, h⟩
      · exact .single (.throws rfl (Effect.bind_of_error h))
      · have first : World.Step ⟨.inBatch (record :: rest) batches, s, R⟩
            ⟨.stored rowIndex row parsed rest batches, a, R⟩ := .writes rfl (Effect.bind_of_ok ha)
        rcases Effect.bind_eq_error_iff.mp h with h | ⟨_, b, hb, h⟩
        · cases h
        · have second : World.Step ⟨.stored rowIndex row parsed rest batches, a, R⟩
              ⟨.counted rowIndex parsed rest batches, b, R⟩ := .writes rfl (Effect.bind_of_ok hb)
          exact .head first (.head second (.single (.throws rfl (Effect.bind_of_error h))))
    · exact (writeEntry_steps hx).trans (ih h)

theorem writeEntries_throws {entries : List LogRecord} (h : writeEntries entries s = (.error e, t)) :
    World.Steps ⟨.idle (entries :: batches), s, R⟩ ⟨.gone, t.rollback, R⟩ := by
  rcases Effect.bind_eq_error_iff.mp h with h | ⟨_, a, ha, h⟩
  · exact .single (.throws rfl (Effect.bind_of_error h))
  · have first : World.Step ⟨.idle (entries :: batches), s, R⟩ ⟨.inBatch entries batches, a, R⟩ :=
      .writes rfl (Effect.bind_of_ok ha)
    rcases Effect.bind_eq_error_iff.mp h with h | ⟨_, b, hb, h⟩
    · exact .head first (writeLoop_throws h)
    · exact .head first ((writeLoop_steps hb).tail (.throws rfl (Effect.bind_of_error h)))

end Failing

section Workers

variable {records : List LogRecord} {store left : TokenStore} {filePath : Text} {faults : List Bool}

/-- However the worker's storing ends, it is an attempt. -/
theorem workerStore_attempt {r : Except StoreError Unit} {s : Session}
    (h : workerStore filePath records (store.start faults) = (r, s)) :
    Attempt records store s.left := by
  rw [workerStore] at h
  rcases hc : construct (store.start faults) with ⟨_ | _, a⟩
  · rw [Effect.bind_of_error hc] at h
    cases h
    exact .opening hc
  · rw [Effect.bind_of_ok hc] at h
    have named : setSourceFilePath filePath a = (.ok (), (setSourceFilePath filePath a).2) := rfl
    rw [Effect.bind_of_ok named] at h
    cases r with
    | ok u => exact Attempt.writing (R := fun _ => none) hc (@writeEntries_steps _ [] _ _ _ h)
    | error e => exact Attempt.writing (R := fun _ => none) hc (@writeEntries_throws [] _ _ _ _ _ h)

/-- Every run of the worker that opens its file is an attempt on the file's records. -/
theorem worker_attempt {tokenId text : Text} {rc : Option Int}
    (read : workerReader.readAll text = .ok records)
    (h : runWorkerSegmented filePath tokenId (some text) faults store = (rc, left)) :
    left = store ∨ Attempt records store left := by
  unfold runWorkerSegmented at h
  split at h
  next =>
    cases h
    exact .inl rfl
  next =>
    simp only [read] at h
    rcases hs : workerStore filePath records (store.start faults) with ⟨e | u, s⟩
    · have same : left = s.left := by
        rw [hs] at h
        cases e <;> exact (congrArg Prod.snd h).symm
      exact .inr (same ▸ workerStore_attempt hs)
    · have same : left = s.left := by
        rw [hs] at h
        exact (congrArg Prod.snd h).symm
      exact .inr (same ▸ workerStore_attempt hs)

/-- The object in which the batch begins, over whatever the token held. -/
theorem named_image {a : Session} (h : construct (store.start faults) = (.ok (), a)) :
    (setSourceFilePath filePath a).2.image.nextIndex = 0 ∧
      (setSourceFilePath filePath a).2.image.lastRow = (fun _ => none) ∧
      (setSourceFilePath filePath a).2.image.index = ⟨store.tables, none⟩ ∧
      (setSourceFilePath filePath a).2.image.header.writeCount = store.writeCount := by
  obtain ⟨himage, _⟩ := construct_ok h
  refine ⟨congrArg Image.nextIndex himage, congrArg Image.lastRow himage,
    congrArg Image.index himage, ?_⟩
  exact (congrArg (fun g : Image => g.header.writeCount) himage).trans (opened_writeCount _)

/-- What attempts on the same records leave to the next one. -/
structure TokenStore.Interrupted (records : List LogRecord) (store : TokenStore) : Prop where
  tables : store.tables = referenceTables [] ∨ store.tables = referenceTables records
  counted : store.writeCount ≤ records.length

theorem Attempt.interrupted (small : records.length < 2 ^ 31) (h : store.Interrupted records)
    (attempt : Attempt records store left) : left.Interrupted records := by
  have opened {faults : List Bool} {r : Except StoreError Unit} {s : Session}
      (hs : construct (store.start faults) = (r, s)) : s.left.Interrupted records := by
    have counts := @construct_counts ⟨store.tables, none⟩ store.writeCount
      (store.start faults) ⟨rfl, rfl⟩
    rw [hs] at counts
    obtain ⟨index, count⟩ := counts
    have tables : s.left.tables = store.tables := congrArg IndexDb.committed index
    have count : s.left.writeCount = store.writeCount := count
    exact ⟨tables ▸ h.tables, count ▸ h.counted⟩
  cases attempt with
  | opening hs => exact opened hs
  | opened hs => exact opened hs
  | @writing faults a filePath R w hs steps =>
    obtain ⟨first, noRow, index, count⟩ := @named_image store filePath faults a hs
    have start : World.Retries (setSourceFilePath filePath a).2.image records
        ⟨.idle [records], (setSourceFilePath filePath a).2, R⟩ :=
      ⟨⟨rfl, rfl⟩, .inl rfl, le_max_left _ _⟩
    obtain ⟨_, committed, counted⟩ := start.steps steps
    rw [first, count, Nat.zero_add, max_eq_right h.counted] at counted
    refine ⟨?_, counted⟩
    rcases committed with same | new
    · have : w.store.left.tables = store.tables := same.trans (congrArg IndexDb.committed index)
      exact this ▸ h.tables
    · exact .inr (new.trans (during_log_tables first noRow small (by rw [index]; exact h.tables)))

theorem Attempts.interrupted (small : records.length < 2 ^ 31) (h : Attempts records .empty store) :
    store.Interrupted records := by
  induction h with
  | refl => exact ⟨.inl rfl, Nat.zero_le _⟩
  | tail _ last ih => exact last.interrupted small ih

/-- A run that reports success has stored its records. -/
theorem successful_run {tokenId text : Text} (read : workerReader.readAll text = .ok records)
    (run : runWorkerSegmented filePath tokenId (some text) faults store = (some 0, left)) :
    ∃ s, workerStore filePath records (store.start faults) = (.ok (), s) ∧ s.left = left := by
  unfold runWorkerSegmented at run
  split at run
  next => cases run
  next =>
    simp only [read] at run
    rcases hs : workerStore filePath records (store.start faults) with ⟨e | u, s⟩
    · rw [hs] at run
      cases e <;> cases run
    · rw [hs] at run
      exact ⟨s, rfl, congrArg Prod.snd run⟩

/-- Over what interrupted runs left, the records are stored as on a fresh token. -/
theorem workerStore_after {s : Session} (earlier : Attempts records .empty store)
    (hs : workerStore filePath records (store.start faults) = (.ok (), s)) :
    s.left.HoldsExactly records ∧ s.left.tables = referenceTables records ∧
      ∀ i, i < records.length → s.rowAt i = referenceRow records i := by
  have rewritten := workerStore_ok hs
  have interrupted := Attempts.interrupted rewritten.small earlier
  obtain ⟨_, a, ha, hs⟩ := Effect.bind_eq_ok_iff.mp hs
  obtain ⟨_, b, hb, hs⟩ := Effect.bind_eq_ok_iff.mp hs
  obtain rfl : (setSourceFilePath filePath a).2 = b := congrArg Prod.snd hb
  obtain ⟨first, noRow, index, _⟩ := @named_image store filePath faults a ha
  have next : (setSourceFilePath filePath a).2.writeNext = 0 := first
  obtain ⟨_, _, _, himage, _⟩ := writeEntries_ok (by omega) hs
  have old : (setSourceFilePath filePath a).2.image.index.committed = referenceTables [] ∨
      (setSourceFilePath filePath a).2.image.index.committed = referenceTables records := by
    rw [index]
    exact interrupted.tables
  have tables : s.left.tables = referenceTables records :=
    (congrArg (fun g : Image => g.index.committed) himage).trans
      (during_log_tables first noRow rewritten.small old)
  refine ⟨rewritten.holdsExactly_iff.mpr ⟨fun k hk => ?_, fun none => ?_⟩, tables, fun i hi => ?_⟩
  · rcases interrupted.tables with empty | full
    · rw [empty] at hk
      cases hk
    · rw [full] at hk
      simpa [referenceTables] using hk
  · have := interrupted.counted
    rw [none] at this
    exact Nat.le_zero.mp this
  · exact (congrFun (congrArg Image.row himage) i).trans
      ((during_rows first noRow rewritten.small).2 i hi)

/-- However often and wherever the worker was killed or failed on a file, the run on it
that reports success leaves what an undisturbed run leaves: the rows, the counter and the
index of the file's records, once each. -/
theorem retried_worker_stores {tokenId text : Text} (earlier : Attempts records .empty store)
    (read : workerReader.readAll text = .ok records)
    (run : runWorkerSegmented filePath tokenId (some text) faults store = (some 0, left)) :
    left.HoldsExactly records ∧ left.tables = referenceTables records ∧
      ∀ i, i < records.length → (left.start []).rowAt i = referenceRow records i := by
  obtain ⟨s, hs, rfl⟩ := successful_run read run
  exact workerStore_after earlier hs

/-- A first run of the worker, in which the call after `calls` others fails. -/
def brokenRun (calls : Nat) (text : Text) (store : TokenStore) : Option Int × TokenStore :=
  runWorkerSegmented "log.asc".toList "t".toList (some text)
    (List.replicate calls false ++ [true]) store

theorem retried_worker_sample : ∃ records, workerReader.readAll twoLines = .ok records ∧
    let left := (workerRun twoLines (brokenRun 24 twoLines .empty).2).2
    left.HoldsExactly records ∧ left.tables = referenceTables records ∧
      ∀ i, i < records.length → (left.start []).rowAt i = referenceRow records i := by
  have reads : (workerReader.readAll twoLines).isOk = true := by decide +kernel
  cases read : workerReader.readAll twoLines with
  | error i =>
    rw [read] at reads
    cases reads
  | ok records =>
    have earlier : Attempts records .empty (brokenRun 24 twoLines .empty).2 := by
      rcases worker_attempt read (Prod.eta (brokenRun 24 twoLines .empty)).symm with same | attempt
      · rw [same]
      · exact .single attempt
    exact ⟨records, rfl, retried_worker_stores earlier read (pair_of_fst (by decide +kernel))⟩

end Workers

end FsCore
