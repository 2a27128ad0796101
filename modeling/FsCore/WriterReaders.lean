import FsCore.WriterSteps
import Mathlib.Logic.Relation

namespace FsCore

/-- One writer, the files and the database that it shares, and what each reader
last saw of the index. -/
structure World where
  pc : WriterPc
  store : Session
  snapshots : Nat → Option IndexTables

/-- A writer that is gone leaves an open transaction to be rolled back. -/
def Session.rollback (s : Session) : Session :=
  { s with index := { s.index with transaction := none } }

inductive World.Step : World → World → Prop
  | writes {pc pc' : WriterPc} {m : StoreM WriterPc} {s t : Session} {R : Nat → Option IndexTables}
      (hm : pc.action = some m) (h : m s = (.ok pc', t)) : Step ⟨pc, s, R⟩ ⟨pc', t, R⟩
  | throws {pc : WriterPc} {m : StoreM WriterPc} {s t : Session} {R : Nat → Option IndexTables}
      {e : StoreError} (hm : pc.action = some m) (h : m s = (.error e, t)) :
      Step ⟨pc, s, R⟩ ⟨.gone, t.rollback, R⟩
  | kill {pc : WriterPc} {s : Session} {R : Nat → Option IndexTables} :
      Step ⟨pc, s, R⟩ ⟨.gone, s.rollback, R⟩
  | snapshot {pc : WriterPc} {s : Session} {R : Nat → Option IndexTables} (reader : Nat) :
      Step ⟨pc, s, R⟩ ⟨pc, s, Function.update R reader (some s.index.committed)⟩

abbrev World.Steps : World → World → Prop := Relation.ReflTransGen World.Step

/-- A loop of write_entries is a run of the writer's steps. -/
theorem writeLoop_steps {entries : List LogRecord} {batches : List (List LogRecord)} {s t : Session}
    {R : Nat → Option IndexTables} (h : Effect.forEach writeEntry entries s = (.ok (), t)) :
    World.Steps ⟨.inBatch entries batches, s, R⟩ ⟨.inBatch [] batches, t, R⟩ := by
  induction entries generalizing s with
  | nil =>
    cases h
    exact .refl
  | cons record rest ih =>
    obtain ⟨_, mid, hx, h⟩ := Effect.bind_eq_ok_iff.mp h
    rw [writeEntry_eq_steps] at hx
    obtain ⟨⟨rowIndex, row, parsed⟩, a, ha, hx⟩ := Effect.bind_eq_ok_iff.mp hx
    obtain ⟨_, b, hb, hx⟩ := Effect.bind_eq_ok_iff.mp hx
    have first : World.Step ⟨.inBatch (record :: rest) batches, s, R⟩
        ⟨.stored rowIndex row parsed rest batches, a, R⟩ := .writes rfl (Effect.bind_of_ok ha)
    have second : World.Step ⟨.stored rowIndex row parsed rest batches, a, R⟩
        ⟨.counted rowIndex parsed rest batches, b, R⟩ := .writes rfl (Effect.bind_of_ok hb)
    have third : World.Step ⟨.counted rowIndex parsed rest batches, b, R⟩
        ⟨.inBatch rest batches, mid, R⟩ := .writes rfl (Effect.bind_of_ok hx)
    exact .head first (.head second (.head third (ih h)))

/-- A call of write_entries that returns is a run of the writer's steps. -/
theorem writeEntries_steps {entries : List LogRecord} {batches : List (List LogRecord)} {s t : Session}
    {R : Nat → Option IndexTables} (h : writeEntries entries s = (.ok (), t)) :
    World.Steps ⟨.idle (entries :: batches), s, R⟩ ⟨.idle batches, t, R⟩ := by
  obtain ⟨_, a, ha, h⟩ := Effect.bind_eq_ok_iff.mp h
  obtain ⟨_, b, hb, hc⟩ := Effect.bind_eq_ok_iff.mp h
  have first : World.Step ⟨.idle (entries :: batches), s, R⟩ ⟨.inBatch entries batches, a, R⟩ :=
    .writes rfl (Effect.bind_of_ok ha)
  have last : World.Step ⟨.inBatch [] batches, b, R⟩ ⟨.idle batches, t, R⟩ :=
    .writes rfl (Effect.bind_of_ok hc)
  exact .head first ((writeLoop_steps hb).tail last)

/-- Where the writer stands in its log. -/
def WriterPc.Stands (log : List LogRecord) (s : Session) : WriterPc → Prop
  | .idle batches => ∃ done, done ++ batches.flatten = log ∧ done.length < 2 ^ 31 ∧
      s.image = Image.reference done
  | .inBatch rest batches => ∃ done k, done ++ rest ++ batches.flatten = log ∧
      done.length < 2 ^ 31 ∧ k ≤ done.length ∧ s.image = (Image.reference done).withIndex
        ⟨referenceTables (log.take k), some (referenceTables done)⟩
  | .stored rowIndex row entry rest batches => ∃ done record k,
      done ++ [record] ++ rest ++ batches.flatten = log ∧ done.length + 1 < 2 ^ 31 ∧
      rowIndex = done.length ∧ row = done.length ∧
      entry = referenceRow (done ++ [record]) done.length ∧ k ≤ done.length ∧
      s.HasSegment (done.length / kDataSegmentCapacity) ∧
        s.image = { (Image.reference (done ++ [record])).withIndex
        ⟨referenceTables (log.take k), some (referenceTables done)⟩ with
          header := (Image.reference done).header }
  | .counted rowIndex entry rest batches => ∃ done record k,
      done ++ [record] ++ rest ++ batches.flatten = log ∧ done.length + 1 < 2 ^ 31 ∧
      rowIndex = done.length ∧ entry = referenceRow (done ++ [record]) done.length ∧
      k ≤ done.length ∧ s.image = (Image.reference (done ++ [record])).withIndex
        ⟨referenceTables (log.take k), some (referenceTables done)⟩
  | .gone => True

/-- What the readers can see is behind what the header counts, and all of that is in place. -/
structure World.Visible (log : List LogRecord) (w : World) : Prop where
  stands : w.pc.Stands log w.store
  rows : ∀ i, i < w.store.header.writeCount → i < log.length ∧
    w.store.HasSegment (i / kDataSegmentCapacity) ∧ w.store.rowAt i = referenceRow log i
  committed : ∃ k, k ≤ w.store.header.writeCount ∧
    w.store.index.committed = referenceTables (log.take k)
  readers : ∀ reader tables, w.snapshots reader = some tables →
    ∃ k, k ≤ w.store.header.writeCount ∧ tables = referenceTables (log.take k)

theorem referenceRow_append_later {log : List LogRecord} (later : List LogRecord) {i : Nat}
    (h : i < log.length) : referenceRow (log ++ later) i = referenceRow log i := by
  induction later generalizing log with
  | nil => rw [List.append_nil]
  | cons record rest ih =>
    have longer : i < (log ++ [record]).length := by
      rw [List.length_append]
      omega
    rw [← referenceRow_append record h, ← ih longer, List.append_assoc]
    rfl

/-- A step that leaves the counted rows alone leaves them visible. -/
theorem World.Visible.of_kept {log : List LogRecord} {pc pc' : WriterPc} {s t : Session}
    {R : Nat → Option IndexTables} (h : World.Visible log ⟨pc, s, R⟩)
    (kept : Kept s.header.writeCount s t) (stands : pc'.Stands log t) :
    World.Visible log ⟨pc', t, R⟩ := by
  have count : t.header.writeCount = s.header.writeCount := congrArg MmapHeader.writeCount kept.header
  refine ⟨stands, ?_, ?_, ?_⟩
  · intro i hi
    have hi : i < s.header.writeCount := count ▸ hi
    obtain ⟨bound, seg, eq⟩ := h.rows i hi
    obtain ⟨seg', eq'⟩ := kept.rows i hi seg
    exact ⟨bound, seg', eq'.trans eq⟩
  · obtain ⟨k, hk, eq⟩ := h.committed
    exact ⟨k, count ▸ hk, kept.committed.trans eq⟩
  · intro reader tables hr
    obtain ⟨k, hk, eq⟩ := h.readers reader tables hr
    exact ⟨k, count ▸ hk, eq⟩

theorem take_done {log done rest : List LogRecord} (h : done ++ rest = log) :
    log.take done.length = done := by
  rw [← h]
  exact List.take_left

section Writes

variable {log : List LogRecord} {batches : List (List LogRecord)} {s t : Session}
  {R : Nat → Option IndexTables}

theorem World.Visible.of_kept_le {pc pc' : WriterPc} (h : World.Visible log ⟨pc, s, R⟩)
    (kept : Kept s.header.writeCount s t) (stands : pc'.Stands log t) :
    World.Visible log ⟨pc', t, R⟩ ∧ s.header.writeCount ≤ t.header.writeCount :=
  ⟨World.Visible.of_kept h kept stands, le_of_eq (congrArg MmapHeader.writeCount kept.header).symm⟩

theorem World.Visible.begins {entries : List LogRecord}
    (h : World.Visible log ⟨.idle (entries :: batches), s, R⟩)
    (ht : beginTransaction s = (.ok (), t)) : World.Visible log ⟨.inBatch entries batches, t, R⟩ ∧
      s.header.writeCount ≤ t.header.writeCount := by
  obtain ⟨done, hlog, small, himage⟩ := h.stands
  have kept := beginTransaction_kept s.header.writeCount s
  rw [ht] at kept
  refine World.Visible.of_kept_le h kept ⟨done, done.length, by simpa using hlog, small, le_rfl, ?_⟩
  rw [(beginTransaction_ok ht).2.1, himage, take_done hlog]
  rfl

/-- The commit publishes the index of rows that the header counts already. -/
theorem World.Visible.commits (h : World.Visible log ⟨.inBatch [] batches, s, R⟩)
    (ht : commitTransaction s = (.ok (), t)) : World.Visible log ⟨.idle batches, t, R⟩ ∧
      s.header.writeCount ≤ t.header.writeCount := by
  obtain ⟨done, k, hlog, small, hk, himage⟩ := h.stands
  have hcount : s.header.writeCount = done.length :=
    congrArg (fun g : Image => g.header.writeCount) himage
  obtain ⟨hcommit, keeps⟩ := commitTransaction_ok ht
  have header : t.header = s.header := congrArg Image.header hcommit
  have rows : t.rowAt = s.rowAt := congrArg Image.row hcommit
  rw [himage] at hcommit
  have hlog : done ++ batches.flatten = log := by simpa using hlog
  have committed : t.index.committed = referenceTables (log.take done.length) := by
    rw [take_done hlog]
    exact congrArg (fun g : Image => g.index.committed) hcommit
  refine ⟨⟨⟨done, hlog, small, hcommit⟩, ?_, ⟨done.length, ?_, committed⟩, ?_⟩, ?_⟩
  · intro i hi
    obtain ⟨bound, seg, eq⟩ := h.rows i (by rw [← header]; exact hi)
    exact ⟨bound, keeps _ seg, by rw [rows]; exact eq⟩
  · rw [header, hcount]
  · rw [header]
    exact h.readers
  · rw [header]

theorem World.Visible.stores {record : LogRecord} {rest : List LogRecord} {rowIndex row : Nat}
    {parsed : ParsedEntry} (h : World.Visible log ⟨.inBatch (record :: rest) batches, s, R⟩)
    (ht : writeRow record s = (.ok (rowIndex, row, parsed), t)) :
    World.Visible log ⟨.stored rowIndex row parsed rest batches, t, R⟩ ∧
      s.header.writeCount ≤ t.header.writeCount := by
  obtain ⟨done, k, hlog, small, hk, himage⟩ := h.stands
  have hcount : s.header.writeCount = done.length :=
    congrArg (fun g : Image => g.header.writeCount) himage
  have hnext : s.writeNext = done.length := congrArg Image.nextIndex himage
  have kept := writeRow_kept record s
  rw [ht, hnext, ← hcount] at kept
  obtain ⟨hrowIndex, hrow, hparsed, room, himage', own⟩ := writeRow_ok ht
  rw [hnext] at hrowIndex hrow room own
  rw [himage, entryFor_reference small] at hparsed
  refine World.Visible.of_kept_le h kept
    ⟨done, record, k, by simpa using hlog, room, hrowIndex, hrow, hparsed, hk, own, ?_⟩
  have header : s.header = (Image.reference done).header := congrArg Image.header himage
  have index : s.index = ⟨referenceTables (log.take k), some (referenceTables done)⟩ :=
    congrArg Image.index himage
  rw [himage', himage, append_reference small, header, index]
  rfl

/-- The header counts a row that is in its place. -/
theorem World.Visible.counts {rowIndex row : Nat} {entry : ParsedEntry} {rest : List LogRecord}
    (h : World.Visible log ⟨.stored rowIndex row entry rest batches, s, R⟩)
    (ht : setWriteCount (row + 1) s = (.ok (), t)) :
    World.Visible log ⟨.counted rowIndex entry rest batches, t, R⟩ ∧
      s.header.writeCount ≤ t.header.writeCount := by
  obtain ⟨done, record, k, hlog, room, rfl, rfl, hentry, hk, own, himage⟩ := h.stands
  have hcount : s.header.writeCount = done.length :=
    congrArg (fun g : Image => g.header.writeCount) himage
  have more : s.header.writeCount ≤ done.length + 1 := by rw [hcount]; exact Nat.le_succ _
  cases ht
  have himage' : (s.setHeader (.bytes { s.header with writeCount := done.length + 1 })).image =
      (Image.reference (done ++ [record])).withIndex
        ⟨referenceTables (log.take k), some (referenceTables done)⟩ := by
    have header : s.header = (Image.reference done).header := congrArg Image.header himage
    calc
      _ = { s.image with header := { s.header with writeCount := done.length + 1 } } := rfl
      _ = _ := by
        rw [himage, header]
        simp [Image.reference, Image.withIndex]
  refine ⟨⟨⟨done, record, k, hlog, room, rfl, hentry, hk, himage'⟩, ?_, ?_, ?_⟩, more⟩
  · intro i hi
    have hi : i < done.length + 1 := hi
    by_cases last : i = done.length
    · have newRow : s.image.row done.length = referenceRow (done ++ [record]) done.length := by
        rw [himage]
        simp [Image.reference, Image.withIndex]
      have bound : done.length < (done ++ [record]).length := by
        rw [List.length_append, List.length_singleton]
        omega
      rw [last, ← hlog, List.append_assoc (done ++ [record])]
      refine ⟨?_, own, newRow.trans (referenceRow_append_later _ bound).symm⟩
      rw [List.length_append]
      omega
    · exact h.rows i (by rw [hcount]; omega)
  · obtain ⟨k, hk, eq⟩ := h.committed
    exact ⟨k, le_trans hk more, eq⟩
  · intro reader tables hr
    obtain ⟨k, hk, eq⟩ := h.readers reader tables hr
    exact ⟨k, le_trans hk more, eq⟩

theorem World.Visible.indexes {rowIndex : Nat} {entry : ParsedEntry} {rest : List LogRecord}
    (h : World.Visible log ⟨.counted rowIndex entry rest batches, s, R⟩)
    (ht : appendIndex rowIndex entry s = (.ok (), t)) :
    World.Visible log ⟨.inBatch rest batches, t, R⟩ ∧
      s.header.writeCount ≤ t.header.writeCount := by
  obtain ⟨done, record, k, hlog, room, rfl, rfl, hk, himage⟩ := h.stands
  have index : s.index = ⟨referenceTables (log.take k), some (referenceTables done)⟩ :=
    congrArg Image.index himage
  have kept := (appendIndex_keptInside done.length (referenceRow (done ++ [record]) done.length)
    s.header.writeCount s (by rw [index]; simp)).1
  rw [ht] at kept
  obtain ⟨_, _, rfl⟩ := appendIndex_ok ht
  refine World.Visible.of_kept_le h kept ⟨done ++ [record], k, by simpa using hlog, ?_, ?_, ?_⟩
  · rw [List.length_append, List.length_singleton]
    exact room
  · rw [List.length_append]
    omega
  · calc
      _ = s.image.withIndex (s.index.write (IndexTables.appendRow done.length
            (referenceRow (done ++ [record]) done.length))) := rfl
      _ = _ := by
        rw [himage, index]
        simp only [IndexDb.write, appendRow_referenceTables]
        rfl

/-- The writer's own steps keep what is visible and never take a row back. -/
theorem World.Visible.writes {pc pc' : WriterPc} {m : StoreM WriterPc}
    (h : World.Visible log ⟨pc, s, R⟩) (hm : pc.action = some m) (ht : m s = (.ok pc', t)) :
    World.Visible log ⟨pc', t, R⟩ ∧ s.header.writeCount ≤ t.header.writeCount := by
  match pc with
  | .gone => cases hm
  | .idle [] => cases hm
  | .idle (entries :: batches) =>
    cases hm
    obtain ⟨_, a, ha, ht⟩ := Effect.bind_eq_ok_iff.mp ht
    cases ht
    exact h.begins ha
  | .inBatch [] batches =>
    cases hm
    obtain ⟨_, a, ha, ht⟩ := Effect.bind_eq_ok_iff.mp ht
    cases ht
    exact h.commits ha
  | .inBatch (record :: rest) batches =>
    cases hm
    obtain ⟨⟨rowIndex, row, parsed⟩, a, ha, ht⟩ := Effect.bind_eq_ok_iff.mp ht
    cases ht
    exact h.stores ha
  | .stored rowIndex row entry rest batches =>
    cases hm
    obtain ⟨_, a, ha, ht⟩ := Effect.bind_eq_ok_iff.mp ht
    cases ht
    exact h.counts ha
  | .counted rowIndex entry rest batches =>
    cases hm
    obtain ⟨_, a, ha, ht⟩ := Effect.bind_eq_ok_iff.mp ht
    cases ht
    exact h.indexes ha

theorem then_pure_error {α β : Type} {m : StoreM α} {f : α → β} {e : StoreError}
    (h : (m >>= fun a => pure (f a)) s = (.error e, t)) : m s = (.error e, t) := by
  rcases Effect.bind_eq_error_iff.mp h with h | ⟨a, u, _, h⟩
  · exact h
  · cases h

/-- A step that throws may have begun a row, but none that is counted. -/
theorem World.Visible.throws {pc : WriterPc} {m : StoreM WriterPc} {e : StoreError}
    (h : World.Visible log ⟨pc, s, R⟩) (hm : pc.action = some m) (ht : m s = (.error e, t)) :
    Kept s.header.writeCount s t := by
  match pc with
  | .gone => cases hm
  | .idle [] => cases hm
  | .idle (entries :: batches) =>
    cases hm
    have kept := beginTransaction_kept s.header.writeCount s
    rwa [then_pure_error ht] at kept
  | .inBatch [] batches =>
    cases hm
    exact commitTransaction_error_kept _ (then_pure_error ht)
  | .inBatch (record :: rest) batches =>
    cases hm
    obtain ⟨done, k, _, _, _, himage⟩ := h.stands
    have hcount : s.header.writeCount = done.length :=
      congrArg (fun g : Image => g.header.writeCount) himage
    have hnext : s.writeNext = done.length := congrArg Image.nextIndex himage
    have kept := writeRow_kept record s
    rwa [then_pure_error ht, hnext, ← hcount] at kept
  | .stored rowIndex row entry rest batches =>
    cases hm
    cases then_pure_error ht
  | .counted rowIndex entry rest batches =>
    cases hm
    obtain ⟨done, record, k, _, _, _, _, _, himage⟩ := h.stands
    have index : s.index = ⟨referenceTables (log.take k), some (referenceTables done)⟩ :=
      congrArg Image.index himage
    have kept := (appendIndex_keptInside rowIndex entry s.header.writeCount s (by rw [index]; simp)).1
    rwa [then_pure_error ht] at kept

end Writes

theorem rollback_kept {n : Nat} {s t : Session} (h : Kept n s t) : Kept n s t.rollback :=
  ⟨h.header, h.committed, h.rows⟩

theorem World.Visible.step {log : List LogRecord} {w w' : World} (h : w.Visible log) (hs : w.Step w') :
    w'.Visible log ∧ w.store.header.writeCount ≤ w'.store.header.writeCount := by
  cases hs with
  | writes hm ht => exact h.writes hm ht
  | throws hm ht => exact h.of_kept_le (rollback_kept (h.throws hm ht)) trivial
  | kill => exact h.of_kept_le (rollback_kept (Kept.refl _ _)) trivial
  | @snapshot pc s R reader =>
    refine ⟨⟨h.stands, h.rows, h.committed, ?_⟩, le_rfl⟩
    intro other tables ho
    have ho : Function.update R reader (some s.index.committed) other = some tables := ho
    by_cases own : other = reader
    · rw [own, Function.update_self] at ho
      obtain ⟨k, hk, eq⟩ := h.committed
      exact ⟨k, hk, by rw [← Option.some.inj ho]; exact eq⟩
    · rw [Function.update_of_ne own] at ho
      exact h.readers other tables ho

theorem World.Visible.steps {log : List LogRecord} {w w' : World} (h : w.Visible log)
    (hs : w.Steps w') :
    w'.Visible log ∧ w.store.header.writeCount ≤ w'.store.header.writeCount := by
  induction hs with
  | refl => exact ⟨h, le_rfl⟩
  | tail _ last ih =>
    obtain ⟨visible, more⟩ := ih.1.step last
    exact ⟨visible, ih.2.trans more⟩

/-- A writer on a fresh token, under any failures, before its first batch. -/
theorem visible_start (batches : List (List LogRecord)) {faults : List Bool} {s : Session}
    (h : construct { Session.fresh with faults := faults } = (.ok (), s)) :
    World.Visible batches.flatten ⟨.idle batches, s, fun _ => none⟩ := by
  have himage : s.image = Image.reference [] := (construct_ok h).1.trans opened_reference
  have hcount : s.header.writeCount = 0 := congrArg (fun g : Image => g.header.writeCount) himage
  refine ⟨⟨[], rfl, by simp, himage⟩, ?_, ⟨0, Nat.zero_le _, ?_⟩, ?_⟩
  · intro i hi
    have hi : i < s.header.writeCount := hi
    omega
  · exact congrArg (fun g : Image => g.index.committed) himage
  · intro reader tables hr
    cases hr

/-- Whatever a reader has seen of the index, filtered or as a row count, stays behind
the header, and the rows it leads to are the ones that the writer gave. -/
theorem snapshot_rows_written {batches : List (List LogRecord)} {faults : List Bool} {s : Session}
    (start : construct { Session.fresh with faults := faults } = (.ok (), s)) {w w' : World}
    (before : World.Steps ⟨.idle batches, s, fun _ => none⟩ w) (after : w.Steps w')
    {reader : Nat} {tables : IndexTables} (seen : w.snapshots reader = some tables) {i : Nat}
    (listed : i ∈ tables.logIndex.keys ∨ i < tables.logIndex.count) :
    i < w.store.header.writeCount ∧ i < w'.store.header.writeCount ∧ i < batches.flatten.length ∧
      w'.store.HasSegment (i / kDataSegmentCapacity) ∧
      w'.store.rowAt i = referenceRow batches.flatten i := by
  obtain ⟨visible, _⟩ := (visible_start batches start).steps before
  obtain ⟨visible', more⟩ := visible.steps after
  obtain ⟨k, hk, rfl⟩ := visible.readers reader tables seen
  have below : i < k := by
    have : i < (batches.flatten.take k).length := by
      simpa [referenceTables] using listed
    exact lt_of_lt_of_le this (List.length_take_le _ _)
  obtain ⟨bound, seg, eq⟩ := visible'.rows i (by omega)
  exact ⟨by omega, by omega, bound, seg, eq⟩

theorem snapshot_rows_written_sample :
    let s := (construct Session.fresh).2
    let t := (writeEntries [sampleRecord] s).2
    0 < t.header.writeCount ∧ 0 < t.header.writeCount ∧ 0 < [[sampleRecord]].flatten.length ∧
      t.HasSegment (0 / kDataSegmentCapacity) ∧
        t.rowAt 0 = referenceRow [[sampleRecord]].flatten 0 := by
  intro s t
  have returns : (writeEntries [sampleRecord] (construct Session.fresh).2).1 =
    .ok () := by decide +kernel
  have written : World.Steps ⟨.idle [[sampleRecord]], s, fun _ => none⟩ ⟨.idle [], t, fun _ => none⟩ :=
    writeEntries_steps (Prod.ext returns rfl)
  have start : construct { Session.fresh with faults := [] } = (.ok (), s) := rfl
  let w : World := ⟨.idle [], t, Function.update (fun _ => none) 0 (some t.index.committed)⟩
  have seen : w.snapshots 0 = some t.index.committed := rfl
  have listed : 0 < t.index.committed.logIndex.count := by decide +kernel
  exact snapshot_rows_written start (written.tail (.snapshot 0)) .refl seen (Or.inr listed)

end FsCore
