import FsCore.StoreSteps

namespace FsCore

/-- No call fails any more, and no file is in the middle of its creation. -/
structure Session.Calm (s : Session) : Prop where
  noFault : s.faults = []
  headerWhole : s.files.header ≠ .empty
  whole : ∀ i, s.files.segments i ≠ .empty

/-- Links lead back to rows that the header counts. -/
structure Image.Linked (g : Image) : Prop where
  counted : g.nextIndex ≤ g.header.writeCount
  bounded : g.header.writeCount < 2 ^ 31
  tracked : ∀ id p, g.lastRow id = some p → p.toNat < g.nextIndex
  backward : ∀ r, r < g.header.writeCount →
    (g.row r).prevSameCan = kInvalidRow ∨ (g.row r).prevSameCan.toNat < r
  ended : ∀ r, r < g.header.writeCount → (g.row r).nextSameCan = kInvalidRow

def Session.Stored (s : Session) : Prop :=
  ∀ r, r < s.header.writeCount → s.HasSegment (r / kDataSegmentCapacity)

/-- What every step of a call keeps when nothing fails. -/
structure Session.Steady (s : Session) : Prop where
  calm : s.Calm
  stored : s.Stored
  linked : s.image.Linked

/-- What holds of a session between two calls. -/
structure Session.Sound (s : Session) : Prop extends s.Steady where
  idle : s.index.transaction = none

theorem call_calm {s : Session} (name : String) (h : s.faults = []) :
    call name s = (.ok (), s) := by
  simp [call, h]

theorem mmapOpen_calm {α : Type} {f : File α} {s : Session} {content : α} (h : s.faults = [])
    (hf : f = .bytes content) : mmapOpen f s = (.ok (), s) := by
  subst hf
  exact (Effect.bind_of_ok (call_calm _ h)).trans (call_calm _ h)

theorem mmapCreateRw_calm {α : Type} (zero : α) (set : File α → Session → Session) {s : Session}
    (hset : ∀ f s, (set f s).faults = s.faults) (h : s.faults = []) :
    mmapCreateRw zero set s = (.ok (), set (.bytes zero) (set .empty s)) := by
  have empty : (set .empty s).faults = [] := (hset _ _).trans h
  have full : (set (.bytes zero) (set .empty s)).faults = [] := (hset _ _).trans empty
  rw [mmapCreateRw, Effect.bind_of_ok (call_calm _ h), Effect.modify_bind,
    Effect.bind_of_ok (call_calm _ empty), Effect.modify_bind]
  exact call_calm _ full

theorem openSegment_returns {i : Nat} {s : Session} (hc : s.Calm) (hs : s.HasSegment i) :
    ∃ t, openSegment i s = (.ok (), t) ∧ t.Calm := by
  simp only [openSegment, Effect.read_bind]
  split
  next => exact ⟨s, rfl, hc⟩
  next =>
    obtain ⟨rows, hrows⟩ := hs
    exact ⟨_, Effect.bind_of_ok (mmapOpen_calm hc.noFault hrows), hc.noFault, hc.headerWhole, hc.whole⟩

theorem setHeader_calm {s : Session} (hc : s.Calm) (h : MmapHeader) :
    (s.setHeader (.bytes h)).Calm := ⟨hc.noFault, by simp [Session.setHeader], hc.whole⟩

theorem setSegment_calm {s : Session} (hc : s.Calm) (i : Nat) (rows : Segment) :
    (s.setSegment i (.bytes rows)).Calm := by
  refine ⟨hc.noFault, hc.headerWhole, fun j => ?_⟩
  rw [setSegment_segments]
  split
  next => simp
  next => exact hc.whole j

theorem openOrCreateSegmentForWrite_returns {i : Nat} {s : Session} (hc : s.Calm) :
    ∃ t, openOrCreateSegmentForWrite i s = (.ok (), t) ∧ t.Calm := by
  simp only [openOrCreateSegmentForWrite, Effect.read_bind]
  split
  next => exact ⟨s, rfl, hc⟩
  next =>
    cases hf : s.files.segments i with
    | empty => exact absurd hf (hc.whole i)
    | bytes rows =>
      have opened := mmapOpen_calm hc.noFault (show File.bytes rows = .bytes rows from rfl)
      exact ⟨_, Effect.bind_of_ok opened, hc.noFault, hc.headerWhole, hc.whole⟩
    | missing =>
      have created := mmapCreateRw_calm Segment.zero (Session.setSegment i) (fun _ _ => rfl) hc.noFault
      refine ⟨_, Effect.bind_of_ok created, hc.noFault, hc.headerWhole, fun j => ?_⟩
      change ((s.setSegment i .empty).setSegment i (.bytes Segment.zero)).files.segments j ≠ .empty
      rw [setSegment_segments, setSegment_segments]
      split
      next => simp
      next => exact hc.whole j

theorem putRow_calm {s : Session} (hc : s.Calm) (row : Nat) (entry : ParsedEntry) :
    (s.putRow row entry).Calm := setSegment_calm hc _ _

theorem readAt_returns {row : Nat} {s : Session} (hc : s.Calm)
    (hs : s.HasSegment (row / kDataSegmentCapacity)) :
    ∃ e t, readAt row s = (.ok e, t) ∧ t.Calm := by
  obtain ⟨t, ht, hcalm⟩ := openSegment_returns hc hs
  exact ⟨_, t, Effect.bind_of_ok ht, hcalm⟩

theorem readEntryAt_returns {row : Nat} {s : Session} (hc : s.Calm) (hs : s.Stored)
    (counted : row < s.header.writeCount) : ∃ e t, readEntryAt row s = (.ok e, t) ∧ t.Calm := by
  simp only [readEntryAt, Effect.read_bind, if_neg (not_le.mpr counted)]
  exact readAt_returns hc (hs row counted)

theorem appendEntry_returns (entry : ParsedEntry) {s : Session} (hc : s.Calm)
    (small : s.writeNext + 1 < 2 ^ 31) :
    ∃ row t, appendEntry entry s = (.ok row, t) ∧ t.Calm := by
  obtain ⟨mid, ho, hcalm⟩ :=
    openOrCreateSegmentForWrite_returns (i := s.writeNext / kDataSegmentCapacity) hc
  have hw : writeNextRow entry s =
      (.ok s.writeNext, { mid.putRow s.writeNext entry with writeNext := s.writeNext + 1 }) := by
    simp only [writeNextRow, Effect.read_bind]
    rw [Effect.bind_of_ok ho, Effect.modify_bind, if_pos small]
    rfl
  have hput : ({ mid.putRow s.writeNext entry with writeNext := s.writeNext + 1 } : Session).Calm :=
    ⟨hcalm.noFault, hcalm.headerWhole, (putRow_calm hcalm s.writeNext entry).whole⟩
  exact ⟨_, _, Effect.bind_of_ok hw, setHeader_calm hput _⟩

theorem stepNotNull_returns {timestamp : Binary64} {touches : IndexTables → Bool}
    {f : IndexTables → IndexTables} {s : Session} (hc : s.Calm)
    (takes : timestamp.isNaN = false ∨ touches s.index.tables = false) :
    stepNotNull timestamp touches f s = (.ok (), { s with index := s.index.write f }) := by
  rw [stepNotNull, Effect.bind_of_ok (call_calm _ hc.noFault), Effect.read_bind, if_neg]
  · rfl
  · rwa [Bool.and_eq_true, not_and_or, Bool.not_eq_true, Bool.not_eq_true]

theorem appendIndex_returns (row : Nat) (entry : ParsedEntry) {s : Session} (hc : s.Calm)
    (number : entry.timestamp.isNaN = false) :
    ∃ t, appendIndex row entry s = (.ok (), t) ∧ t.Calm := by
  have noFault (db : IndexDb) : ({ s with index := db } : Session).faults = [] := hc.noFault
  simp only [appendIndex, writeTables]
  rw [Effect.bind_of_ok (stepNotNull_returns hc (Or.inl number)),
    Effect.bind_of_ok (call_calm _ (noFault _)),
    Effect.modify_bind, Effect.bind_of_ok (call_calm _ (noFault _))]
  exact ⟨_, rfl, hc.noFault, hc.headerWhole, hc.whole⟩

theorem trackerAppend_returns (row id : UInt32) (s : Session) : trackerAppend row id s =
    (.ok ((s.lastRowByCanId id).getD kInvalidRow),
      { s with lastRowByCanId := Function.update s.lastRowByCanId id (some row) }) := by
  simp only [trackerAppend, Effect.read_bind, Effect.modify_bind]
  cases s.lastRowByCanId id <;> rfl

theorem buildEntry_returns (record : LogRecord) {prev : UInt32} {s : Session} (hc : s.Calm)
    (previous : prev ≠ kInvalidRow → s.HasSegment (prev.toNat / kDataSegmentCapacity)) :
    ∃ t, buildEntry record prev s =
      (.ok (parsedEntry record prev (s.rowAt prev.toNat).toLogRecord), t) ∧ t.Calm := by
  unfold buildEntry
  split
  next first => exact ⟨s, by simp [parsedEntry, first], hc⟩
  next later =>
    obtain ⟨e, t, hr, ht⟩ := readAt_returns hc (previous later)
    rw [Effect.bind_of_ok hr, (readAt_ok hr).2]
    exact ⟨t, rfl, ht⟩

theorem writeEntry_returns {record : LogRecord} {s : Session} (hc : s.Calm)
    (small : s.writeNext + 1 < 2 ^ 31) (number : record.timestamp.isNaN = false)
    (previous : ∀ p, s.lastRowByCanId record.canId = some p →
      s.HasSegment (p.toNat / kDataSegmentCapacity)) :
    ∃ t, writeEntry record s = (.ok (), t) ∧ t.Calm := by
  let prev := (s.lastRowByCanId record.canId).getD kInvalidRow
  let a : Session := { s with
    lastRowByCanId := Function.update s.lastRowByCanId record.canId (some (UInt32.ofNat s.writeNext)) }
  have hca : a.Calm := ⟨hc.noFault, hc.headerWhole, hc.whole⟩
  have htracker : trackerAppend (UInt32.ofNat s.writeNext) record.canId s = (.ok prev, a) :=
    trackerAppend_returns _ _ s
  have hprev (later : prev ≠ kInvalidRow) : a.HasSegment (prev.toNat / kDataSegmentCapacity) := by
    cases hlast : s.lastRowByCanId record.canId with
    | none => simp [prev, hlast] at later
    | some p =>
      rw [show prev = p by simp [prev, hlast]]
      exact previous p hlast
  obtain ⟨b, hbuild, hcb⟩ := buildEntry_returns record hca hprev
  have hnext : b.writeNext = s.writeNext := congrArg Image.nextIndex (buildEntry_ok hbuild).2.image
  let parsed := parsedEntry record prev (a.rowAt prev.toNat).toLogRecord
  obtain ⟨_, c, happend, hcc⟩ := appendEntry_returns parsed hcb (by omega)
  obtain ⟨t, hindex, hct⟩ := appendIndex_returns s.writeNext parsed hcc number
  refine ⟨t, ?_, hct⟩
  simp only [writeEntry, Effect.read_bind]
  rw [Effect.bind_of_ok htracker, Effect.bind_of_ok hbuild, Effect.bind_of_ok happend]
  exact hindex

theorem advance_calm {s : Session} (hc : s.Calm) (row : Nat) : (s.advance row).Calm := by
  refine ⟨?_, by rw [advance_files]; exact hc.headerWhole, by rw [advance_files]; exact hc.whole⟩
  unfold Session.advance
  split
  next => exact hc.noFault
  next => exact hc.noFault

theorem updateRow_returns (row : Nat) (entry : ParsedEntry) {s : Session} (hc : s.Calm)
    (counted : row < s.header.writeCount) (noGap : row ≤ s.writeNext) :
    ∃ t, updateRow row entry s = (.ok (), t) ∧ t.Calm := by
  obtain ⟨mid, ho, hcalm⟩ := openOrCreateSegmentForWrite_returns (i := row / kDataSegmentCapacity) hc
  have hw : writeAt row entry s = (.ok (), (mid.putRow row entry).advance row) := by
    simp only [writeAt, Effect.read_bind, if_neg (not_lt.mpr noGap)]
    rw [Effect.bind_of_ok ho]
    rfl
  refine ⟨_, ?_, advance_calm (putRow_calm hcalm row entry) row⟩
  simp only [updateRow, Effect.read_bind, if_neg (not_le.mpr counted)]
  exact hw

theorem persistRow_returns (row : Nat) (entry : ParsedEntry) {s : Session} (hc : s.Calm)
    (counted : row < s.header.writeCount) (noGap : row ≤ s.writeNext)
    (takes : s.index.tables.Takes row entry.timestamp) :
    ∃ t, persistRow row entry s = (.ok (), t) ∧ t.Calm := by
  obtain ⟨mid, hu, hcalm⟩ := updateRow_returns row entry hc counted noGap
  have index : mid.index = s.index := congrArg Image.index (updateRow_ok hu).2.2.1
  have hi : updateIndex row entry mid = (.ok (), _) :=
    (Effect.bind_of_ok (call_calm _ hcalm.noFault)).trans (stepNotNull_returns hcalm (index ▸ takes))
  exact ⟨_, (Effect.bind_of_ok hu).trans hi, hcalm.noFault, hcalm.headerWhole, hcalm.whole⟩

theorem recomputeEntry_returns (row : Nat) (record : LogRecord) {s : Session} (hc : s.Calm)
    (hs : s.Stored) (hl : s.image.Linked) (counted : row < s.header.writeCount) :
    ∃ t, recomputeEntry (s.rowAt row) record s = (.ok (s.image.recompute row record), t) ∧ t.Calm := by
  unfold recomputeEntry
  split
  next first =>
    have first : (s.image.row row).prevSameCan = kInvalidRow := first
    have same : recomputed (s.image.row row) record LogRecord.zero = s.image.recompute row record := by
      simp [Image.recompute, recomputed, first]
    exact ⟨s, congrArg (fun e => (Except.ok e, s)) same, hc⟩
  next later =>
    have hback : (s.rowAt row).prevSameCan.toNat < row := (hl.backward row counted).resolve_left later
    obtain ⟨e, t, hp, hct⟩ := readEntryAt_returns hc hs
      (show (s.rowAt row).prevSameCan.toNat < s.header.writeCount by omega)
    refine ⟨t, ?_, hct⟩
    rw [Effect.bind_of_ok hp, (readEntryAt_ok hp).2.1]
    rfl

theorem updateEntry_returns {row : Nat} {record : LogRecord} {s : Session} (hc : s.Calm)
    (hs : s.Stored) (hl : s.image.Linked) (counted : row < s.header.writeCount)
    (noGap : row ≤ s.writeNext) (takes : s.index.tables.Takes row record.timestamp) :
    ∃ t, updateEntry row record s = (.ok (), t) ∧ t.Calm := by
  obtain ⟨old, a, hr, hca⟩ := readEntryAt_returns hc hs counted
  obtain ⟨qa, hold, _⟩ := readEntryAt_ok hr
  have ha : a.header = s.header := congrArg Image.header qa.image
  have hsame : old = a.rowAt row := hold.trans (congrFun (congrArg Image.row qa.image) row).symm
  obtain ⟨b, hcur, hcb⟩ := recomputeEntry_returns row record hca
    (fun r hr => qa.keeps _ (hs r (ha ▸ hr))) (qa.image ▸ hl) (ha ▸ counted)
  rw [← hsame, qa.image] at hcur
  have qb := qa.trans (recomputeEntry_ok hcur).2
  have hb : b.header = s.header := congrArg Image.header qb.image
  have hn : b.writeNext = s.writeNext := congrArg Image.nextIndex qb.image
  have hi : b.index = s.index := congrArg Image.index qb.image
  obtain ⟨t, hp, hct⟩ := persistRow_returns row (s.image.recompute row record) hcb
    (by rw [hb]; exact counted) (by rw [hn]; exact noGap) (by rw [hi]; exact takes)
  refine ⟨t, ?_, hct⟩
  rw [updateEntry, Effect.bind_of_ok hr, Effect.bind_of_ok hcur, Effect.bind_of_ok hp,
    if_pos (show (s.image.recompute row record).nextSameCan = kInvalidRow from hl.ended row counted)]
  rfl

/-- A refused update changes nothing. -/
theorem updateEntry_refused {row : Nat} {record : LogRecord} {s : Session}
    (h : s.header.writeCount ≤ row) :
    updateEntry row record s = (.error (.mmap s!"row index out of range: {row}"), s) := by
  have hr : readEntryAt row s = (.error (.mmap s!"row index out of range: {row}"), s) := by
    simp only [readEntryAt, Effect.read_bind, if_pos h]
    rfl
  exact Effect.bind_of_error hr

theorem beginTransaction_returns {s : Session} (hc : s.Calm) (idle : s.index.transaction = none) :
    ∃ t, beginTransaction s = (.ok (), t) ∧ t.Calm := by
  rw [beginTransaction, Effect.bind_of_ok (call_calm _ hc.noFault), Effect.read_bind, idle]
  exact ⟨_, rfl, hc.noFault, hc.headerWhole, hc.whole⟩

theorem commitTransaction_returns {s : Session} {tables : IndexTables} (hc : s.Calm)
    (active : s.index.transaction = some tables) :
    ∃ t, commitTransaction s = (.ok (), t) ∧ t.Calm := by
  rw [commitTransaction, Effect.bind_of_ok (call_calm _ hc.noFault), Effect.read_bind, active]
  exact ⟨_, rfl, hc.noFault, hc.headerWhole, hc.whole⟩

end FsCore
