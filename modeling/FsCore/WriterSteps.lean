import FsCore.Reference

namespace FsCore

/-- Where the writer of a token stands, and what it has still to write. -/
inductive WriterPc where
  | idle (batches : List (List LogRecord))
  | inBatch (rest : List LogRecord) (batches : List (List LogRecord))
  | stored (rowIndex row : Nat) (entry : ParsedEntry) (rest : List LogRecord)
      (batches : List (List LogRecord))
  | counted (rowIndex : Nat) (entry : ParsedEntry) (rest : List LogRecord)
      (batches : List (List LogRecord))
  | gone

/-- A round of write_entries up to the row in its segment. -/
def writeRow (record : LogRecord) : StoreM (Nat × Nat × ParsedEntry) := do
  let s ← Effect.read
  let rowIndex := s.writeNext
  let prevSameCan ← trackerAppend (UInt32.ofNat rowIndex) record.canId
  let parsed ← buildEntry record prevSameCan
  let row ← writeNextRow parsed
  pure (rowIndex, row, parsed)

/-- The writer's next step, one write to what it shares. -/
def WriterPc.action : WriterPc → Option (StoreM WriterPc)
  | .idle [] => none
  | .idle (entries :: batches) => some do
    beginTransaction
    pure (.inBatch entries batches)
  | .inBatch [] batches => some do
    commitTransaction
    pure (.idle batches)
  | .inBatch (record :: rest) batches => some do
    let (rowIndex, row, parsed) ← writeRow record
    pure (.stored rowIndex row parsed rest batches)
  | .stored rowIndex row parsed rest batches => some do
    setWriteCount (row + 1)
    pure (.counted rowIndex parsed rest batches)
  | .counted rowIndex parsed rest batches => some do
    appendIndex rowIndex parsed
    pure (.inBatch rest batches)
  | .gone => none

/-- The steps of a round put together are the round. -/
theorem writeEntry_eq_steps (record : LogRecord) : writeEntry record = (do
    let (rowIndex, row, parsed) ← writeRow record
    setWriteCount (row + 1)
    appendIndex rowIndex parsed) := by
  funext s
  simp only [writeEntry, writeRow, appendEntry, Effect.bind_assoc]
  rfl

/-- What a writer does not touch, up to row `n`. -/
structure Kept (n : Nat) (s t : Session) : Prop where
  header : t.header = s.header
  committed : t.index.committed = s.index.committed
  rows : ∀ i, i < n → s.HasSegment (i / kDataSegmentCapacity) →
    t.HasSegment (i / kDataSegmentCapacity) ∧ t.rowAt i = s.rowAt i

theorem Kept.refl (n : Nat) (s : Session) : Kept n s s := ⟨rfl, rfl, fun _ _ h => ⟨h, rfl⟩⟩

theorem Kept.trans {n : Nat} (s t u : Session) (hst : Kept n s t) (htu : Kept n t u) : Kept n s u := by
  refine ⟨htu.header.trans hst.header, htu.committed.trans hst.committed, fun i hi hs => ?_⟩
  obtain ⟨ht, eq⟩ := hst.rows i hi hs
  obtain ⟨hu, eq'⟩ := htu.rows i hi ht
  exact ⟨hu, eq'.trans eq⟩

theorem Quiet.kept {s t : Session} (n : Nat) (h : Quiet s t) : Kept n s t :=
  ⟨congrArg Image.header h.image, congrArg (fun g : Image => g.index.committed) h.image,
    fun i _ hs => ⟨h.keeps _ hs, congrFun (congrArg Image.row h.image) i⟩⟩

theorem call_kept (name : String) (n : Nat) (s : Session) : Kept n s (call name s).2 := by
  unfold call
  split <;> exact ⟨rfl, rfl, fun _ _ h => ⟨h, rfl⟩⟩

theorem mmapOpen_kept {α : Type} (f : File α) (n : Nat) (s : Session) : Kept n s (mmapOpen f s).2 := by
  cases f with
  | missing => exact Kept.refl n s
  | empty => exact Effect.bind_frame Kept.trans (call_kept _ n s) (fun _ t _ => Kept.refl n t)
  | bytes content =>
    exact Effect.bind_frame Kept.trans (call_kept _ n s) (fun _ t _ => call_kept _ n t)

theorem setSegment_kept {s : Session} {i : Nat} (f : File Segment) (n : Nat) (h : ¬ s.HasSegment i) :
    Kept n s (s.setSegment i f) := by
  refine ⟨rfl, rfl, fun r _ hr => ?_⟩
  have ne : r / kDataSegmentCapacity ≠ i := fun eq => h (eq ▸ hr)
  simp only [Session.HasSegment, Session.rowAt, setSegment_segments, if_neg ne, and_true]
  exact hr

theorem mmapCreateRw_kept {i : Nat} {s : Session} (n : Nat) (h : ¬ s.HasSegment i) :
    Kept n s (mmapCreateRw Segment.zero (Session.setSegment i) s).2 := by
  refine Effect.bind_frame Kept.trans (call_kept _ n s) (fun _ a ha => ?_)
  obtain ⟨_, rfl⟩ := call_ok ha
  refine Effect.bind_frame Kept.trans (setSegment_kept .empty n h) (fun _ b hb => ?_)
  cases hb
  refine Effect.bind_frame Kept.trans (call_kept _ n _) (fun _ c hc => ?_)
  obtain ⟨_, rfl⟩ := call_ok hc
  refine Effect.bind_frame Kept.trans (setSegment_kept (.bytes Segment.zero) n ?_)
    (fun _ d _ => call_kept _ n d)
  intro h
  obtain ⟨rows, hrows⟩ := h
  simp [Session.setSegment] at hrows

theorem openOrCreateSegmentForWrite_kept (i n : Nat) (s : Session) :
    Kept n s (openOrCreateSegmentForWrite i s).2 := by
  simp only [openOrCreateSegmentForWrite, Effect.read_bind]
  split
  next => exact Kept.refl n s
  next =>
    refine Effect.bind_frame Kept.trans ?_ (fun _ t _ => ⟨rfl, rfl, fun _ _ h => ⟨h, rfl⟩⟩)
    cases hf : s.files.segments i with
    | empty => exact mmapOpen_kept _ n s
    | bytes rows => exact mmapOpen_kept _ n s
    | missing =>
      apply mmapCreateRw_kept
      intro h
      obtain ⟨rows, hrows⟩ := h
      cases hf.symm.trans hrows

theorem putRow_kept (s : Session) (row : Nat) (entry : ParsedEntry) :
    Kept row s (s.putRow row entry) := by
  refine ⟨rfl, rfl, fun i hi hs => ⟨putRow_keeps s row entry _ hs, ?_⟩⟩
  rw [putRow_rowAt, Function.update_of_ne (by omega)]

theorem openSegment_kept (i n : Nat) (s : Session) : Kept n s (openSegment i s).2 := by
  simp only [openSegment, Effect.read_bind]
  split
  next => exact Kept.refl n s
  next =>
    exact Effect.bind_frame Kept.trans (mmapOpen_kept _ n s)
      (fun _ t _ => ⟨rfl, rfl, fun _ _ h => ⟨h, rfl⟩⟩)

theorem buildEntry_kept (record : LogRecord) (prev : UInt32) (n : Nat) (s : Session) :
    Kept n s (buildEntry record prev s).2 := by
  unfold buildEntry
  split
  next => exact Kept.refl n s
  next =>
    refine Effect.bind_frame Kept.trans ?_ (fun _ t _ => Kept.refl n t)
    exact Effect.bind_frame Kept.trans (openSegment_kept _ n s) (fun _ t _ => Kept.refl n t)

theorem writeNextRow_kept (entry : ParsedEntry) (s : Session) :
    Kept s.writeNext s (writeNextRow entry s).2 := by
  simp only [writeNextRow, Effect.read_bind]
  refine Effect.bind_frame Kept.trans (openOrCreateSegmentForWrite_kept _ _ s) (fun _ t _ => ?_)
  rw [Effect.modify_bind]
  have put := putRow_kept t s.writeNext entry
  split
  next => exact ⟨put.header, put.committed, put.rows⟩
  next => exact put

/-- However a round ends, the rows before it are as they were. -/
theorem writeRow_kept (record : LogRecord) (s : Session) :
    Kept s.writeNext s (writeRow record s).2 := by
  simp only [writeRow, Effect.read_bind]
  refine Effect.bind_frame Kept.trans ?_ (fun prev a ha => ?_)
  · simp only [trackerAppend, Effect.read_bind, Effect.modify_bind]
    cases s.lastRowByCanId record.canId <;> exact ⟨rfl, rfl, fun _ _ h => ⟨h, rfl⟩⟩
  · obtain ⟨_, rfl⟩ := trackerAppend_ok ha
    refine Effect.bind_frame Kept.trans (buildEntry_kept record prev _ _) (fun parsed b hb => ?_)
    have next : b.writeNext = s.writeNext := congrArg Image.nextIndex (buildEntry_ok hb).2.image
    rw [← next]
    exact Effect.bind_frame Kept.trans (writeNextRow_kept parsed b) (fun _ c _ => Kept.refl _ c)

theorem beginTransaction_kept (n : Nat) (s : Session) : Kept n s (beginTransaction s).2 := by
  refine Effect.bind_frame Kept.trans (call_kept _ n s) (fun _ t _ => ?_)
  rw [Effect.read_bind]
  cases t.index.transaction <;> exact ⟨rfl, rfl, fun _ _ h => ⟨h, rfl⟩⟩

/-- Inside a transaction an operation works on the copy only. -/
def KeptInside (n : Nat) (s t : Session) : Prop :=
  s.index.transaction ≠ none → Kept n s t ∧ t.index.transaction ≠ none

theorem KeptInside.trans {n : Nat} (s t u : Session) (hst : KeptInside n s t) (htu : KeptInside n t u) :
    KeptInside n s u := by
  intro active
  obtain ⟨first, active⟩ := hst active
  obtain ⟨second, active⟩ := htu active
  exact ⟨first.trans _ _ _ second, active⟩

theorem call_keptInside (name : String) (n : Nat) (s : Session) : KeptInside n s (call name s).2 := by
  intro active
  refine ⟨call_kept name n s, ?_⟩
  unfold call
  split <;> exact active

theorem writeTables_keptInside (f : IndexTables → IndexTables) (n : Nat) (s : Session) :
    KeptInside n s (writeTables f s).2 := by
  intro active
  obtain ⟨tables, htx⟩ := Option.ne_none_iff_exists'.mp active
  have hwrite : (writeTables f s).2 =
    { s with index := { s.index with transaction := some (f tables) } } := by
    simp [writeTables, IndexDb.write, htx]
  rw [hwrite]
  exact ⟨⟨rfl, rfl, fun _ _ h => ⟨h, rfl⟩⟩, by simp⟩

theorem appendIndex_keptInside (row : Nat) (entry : ParsedEntry) (n : Nat) (s : Session) :
    KeptInside n s (appendIndex row entry s).2 := by
  refine Effect.bind_frame KeptInside.trans ?_ (fun _ a _ => ?_)
  · refine Effect.bind_frame KeptInside.trans (call_keptInside _ n s) (fun _ a _ => ?_)
    rw [Effect.read_bind]
    split
    next => exact fun active => ⟨Kept.refl n a, active⟩
    next => exact writeTables_keptInside _ n a
  · refine Effect.bind_frame KeptInside.trans (call_keptInside _ n a) (fun _ b _ => ?_)
    refine Effect.bind_frame KeptInside.trans (writeTables_keptInside _ n b) (fun _ c _ => ?_)
    exact Effect.bind_frame KeptInside.trans (call_keptInside _ n c)
      (fun _ d _ => writeTables_keptInside _ n d)

theorem commitTransaction_error_kept {s t : Session} {e : StoreError} (n : Nat)
    (h : commitTransaction s = (.error e, t)) : Kept n s t := by
  rcases Effect.bind_eq_error_iff.mp h with h | ⟨_, a, ha, h⟩
  · have := call_kept "COMMIT;" n s
    rwa [h] at this
  · obtain ⟨_, rfl⟩ := call_ok ha
    rw [Effect.read_bind] at h
    cases htx : s.index.transaction with
    | none =>
      simp only [htx] at h
      cases h
      exact ⟨rfl, rfl, fun _ _ h => ⟨h, rfl⟩⟩
    | some tables =>
      simp only [htx] at h
      cases h

theorem writeRow_ok {record : LogRecord} {rowIndex row : Nat} {parsed : ParsedEntry} {s t : Session}
    (h : writeRow record s = (.ok (rowIndex, row, parsed), t)) :
    rowIndex = s.writeNext ∧ row = s.writeNext ∧ parsed = s.image.entryFor record ∧
      s.writeNext + 1 < 2 ^ 31 ∧
      t.image = { s.image.append record with header := s.header, index := s.index } ∧
      t.HasSegment (s.writeNext / kDataSegmentCapacity) := by
  simp only [writeRow, Effect.read_bind] at h
  obtain ⟨prev, a, htracker, h⟩ := Effect.bind_eq_ok_iff.mp h
  obtain ⟨rfl, rfl⟩ := trackerAppend_ok htracker
  obtain ⟨entry, b, hbuild, h⟩ := Effect.bind_eq_ok_iff.mp h
  obtain ⟨hentry, quiet⟩ := buildEntry_ok hbuild
  have hentry : entry = s.image.entryFor record := hentry
  obtain ⟨cur, c, hwrite, h⟩ := Effect.bind_eq_ok_iff.mp h
  obtain ⟨rfl, small, himage, _, own⟩ := writeNextRow_ok hwrite
  have next : b.writeNext = s.writeNext := congrArg Image.nextIndex quiet.image
  cases h
  rw [next] at small own himage ⊢
  refine ⟨rfl, rfl, hentry, small, ?_, own⟩
  rw [himage, quiet.image, hentry]
  rfl

end FsCore
