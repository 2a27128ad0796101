import FsCore.UpdateFailure

namespace FsCore

/-- An update of a row writes the row and, where it is linked to one, the next row. -/
def Image.Writes (g : Image) (row r : Nat) : Prop :=
  r = row ∨ ((g.row row).nextSameCan ≠ kInvalidRow ∧ r = (g.row row).nextSameCan.toNat)

/-- What an update of a row does, and what it leaves as it was. -/
structure Image.Updates (g h : Image) (row : Nat) (record : LogRecord) : Prop where
  record : (h.row row).toLogRecord = record
  lineNumber : (h.row row).lineNumber = (g.row row).lineNumber
  links : (h.row row).prevSameCan = (g.row row).prevSameCan ∧ (h.row row).nextSameCan =
    (g.row row).nextSameCan
  next : ∀ r, g.Writes row r → r ≠ row →
    ∃ changed last, h.row r = { g.row r with changed := changed, lastTimestamp := last }
  rows : ∀ r, ¬ g.Writes row r → h.row r = g.row r
  index : ∀ r, ¬ g.Writes row r → h.index.tables.logIndex.find? r = g.index.tables.logIndex.find? r
  count : h.index.tables.logIndex.count = g.index.tables.logIndex.count
  header : h.header = g.header

section Edit

variable {g : Image} {row r : Nat} {e : ParsedEntry}

theorem put_row_self : (g.put row e).row row = e := Function.update_self _ _ _

theorem put_row_of_ne (h : r ≠ row) : (g.put row e).row r = g.row r := Function.update_of_ne h _ _

theorem put_tables : (g.put row e).index.tables = g.index.tables.updateRow row e.indexRow :=
  tables_write _ _

theorem put_index_of_ne (h : r ≠ row) :
    (g.put row e).index.tables.logIndex.find? r = g.index.tables.logIndex.find? r := by
  rw [put_tables, IndexTables.updateRow, Table.find?_update, if_neg h]

theorem put_index_count : (g.put row e).index.tables.logIndex.count =
    g.index.tables.logIndex.count := by
  rw [put_tables, IndexTables.updateRow, Table.count, Table.count, Table.update, List.length_map]

/-- A row that is linked to itself is repaired too, but keeps its record, its number and its links. -/
theorem repaired_own (g : Image) (row n : Nat) (e : ParsedEntry) (base : LogRecord) :
    let after := (g.put row e).put n (repaired ((g.put row e).row n) base)
    (after.row row).toLogRecord = e.toLogRecord ∧ (after.row row).lineNumber = e.lineNumber ∧
      (after.row row).prevSameCan = e.prevSameCan ∧ (after.row row).nextSameCan = e.nextSameCan := by
  intro after
  have first : (g.put row e).row row = e := put_row_self
  by_cases loop : row = n
  · have own : after.row row = repaired e base := by
      subst loop
      exact put_row_self.trans (by rw [first])
    rw [own]
    exact ⟨rfl, rfl, rfl, rfl⟩
  · have own : after.row row = e := (put_row_of_ne loop).trans first
    rw [own]
    exact ⟨rfl, rfl, rfl, rfl⟩

/-- The edit of any image, whatever its links say: both branches write through the same two steps. -/
theorem edit_updates (g : Image) (row : Nat) (record : LogRecord) :
    g.Updates (g.edit row record) row record := by
  let current := g.recompute row record
  let n := current.nextSameCan.toNat
  by_cases last : (g.row row).nextSameCan = kInvalidRow
  · have edited : g.edit row record = g.put row current := by
      rw [Image.edit, if_pos (show (g.recompute row record).nextSameCan = kInvalidRow from last)]
    have other {r : Nat} (h : ¬ g.Writes row r) : r ≠ row := fun eq => h (Or.inl eq)
    have own : (g.put row current).row row = current := put_row_self
    rw [edited]
    refine ⟨by rw [own]; rfl, by rw [own]; rfl, by rw [own]; exact ⟨rfl, rfl⟩, fun r writes ne => ?_,
      fun r h => put_row_of_ne (other h), fun r h => put_index_of_ne (other h), put_index_count, rfl⟩
    exact absurd last (writes.resolve_left ne).1
  · let h := g.put row current
    let after := repaired (h.row n) current.toLogRecord
    have edited : g.edit row record = h.put n after := by
      rw [Image.edit, if_neg (show ¬ (g.recompute row record).nextSameCan = kInvalidRow from last)]
    have other {r : Nat} (hr : ¬ g.Writes row r) : r ≠ row ∧ r ≠ n :=
      ⟨fun eq => hr (Or.inl eq), fun eq => hr (Or.inr ⟨last, eq⟩)⟩
    have own := repaired_own g row n current current.toLogRecord
    rw [edited]
    refine ⟨own.1, own.2.1, own.2.2, fun r writes ne => ?_, fun r hr => ?_, fun r hr => ?_, ?_, rfl⟩
    · obtain rfl : r = n := (writes.resolve_left ne).2
      rw [put_row_self]
      have before : h.row n = g.row n := put_row_of_ne ne
      exact ⟨after.changed, after.lastTimestamp, by rw [← before]; rfl⟩
    · rw [put_row_of_ne (other hr).2]
      exact put_row_of_ne (other hr).1
    · rw [put_index_of_ne (other hr).2]
      exact put_index_of_ne (other hr).1
    · rw [put_index_count]
      exact put_index_count

end Edit

/-- The states of a session over a token, on fresh files or on those that earlier objects left:
its calls, whether or not they return. Calls that read change only the mappings and the view. -/
inductive Served : Session → Prop
  | opened (faults : List Bool) : Served (construct { Session.fresh with faults := faults }).2
  | reopened {s : Session} (served : Served s) (faults : List Bool) :
      Served (construct { s.reopen with faults := faults }).2
  | called {s : Session} (served : Served s) (c : StoreCall) : Served (exec c s).2
  | looked {s : Session} (served : Served s) (mapped : List Nat) (browser : ViewBrowser)
      (faults : List Bool) :
      Served { s with readMapped := mapped, browser := browser, faults := faults }

theorem Served.intact {s : Session} (served : Served s) : s.Intact := by
  induction served with
  | opened faults => exact construct_fresh_intact faults
  | reopened served faults ih => exact construct_reopen_intact ih faults
  | called served c ih => exact exec_intact ih c
  | looked served mapped browser faults ih => exact ⟨⟨ih.next, ih.count, ih.rows⟩, ih.tracked⟩

/-- What a successful update of a row is to do: the row is the only one that is written, and
the next write index stays where it was. -/
structure Session.Framed (s t : Session) (row : Nat) (record : LogRecord) : Prop where
  updates : s.image.Updates t.image row record
  only : ∀ r, s.image.Writes row r ↔ r = row
  next : t.writeNext = s.writeNext

/-- A row without a next one is written alone; write_at moves the write index when the row is there. -/
theorem edit_nextIndex_of_last {g : Image} {row : Nat} {record : LogRecord}
    (last : (g.row row).nextSameCan = kInvalidRow) :
    (g.edit row record).nextIndex = if row = g.nextIndex then g.nextIndex + 1 else g.nextIndex := by
  rw [Image.edit, if_pos (show (g.recompute row record).nextSameCan = kInvalidRow from last)]
  rfl

/-- An update that succeeds writes its row and nothing else, and leaves the next write index exactly
when the row is not the one there; an update of a row that is not counted is refused. -/
theorem updateEntry_framed_iff {s : Session} (served : Served s) (row : Nat) (record : LogRecord) :
    (∀ t, updateEntry row record s = (.ok (), t) →
      s.image.Updates t.image row record ∧ (s.Framed t row record ↔ row ≠ s.writeNext)) ∧
    (s.header.writeCount ≤ row →
      updateEntry row record s = (.error (.mmap s!"row index out of range: {row}"), s)) := by
  refine ⟨fun t run => ?_, fun past => updateEntry_refused past⟩
  obtain ⟨counted, -, -, image, -⟩ := updateEntry_ok run
  have updates := edit_updates s.image row record
  rw [← image] at updates
  have ended : (s.rowAt row).nextSameCan = kInvalidRow := (served.intact.rows row (Or.inl counted)).2.2
  have only (r : Nat) : s.image.Writes row r ↔ r = row :=
    ⟨fun writes => writes.resolve_right (fun linked => linked.1 ended), Or.inl⟩
  have next : t.writeNext = if row = s.writeNext then s.writeNext + 1 else s.writeNext :=
    (congrArg Image.nextIndex image).trans (edit_nextIndex_of_last ended)
  refine ⟨updates, fun framed there => ?_, fun other => ⟨updates, only, ?_⟩⟩
  · have moved := framed.next
    rw [next, if_pos there] at moved
    omega
  · rw [next, if_neg other]

/-- Two rows, which another object finds when it opens the token. -/
def reopenedPair : Session :=
  let first := (construct { Session.fresh with faults := [] }).2
  let filled := (exec (.writeEntries [sampleRecord, sampleRecord]) first).2
  (construct { filled.reopen with faults := [] }).2

theorem reopenedPair_served : Served reopenedPair := .reopened (.called (.opened []) _) []

theorem updateEntry_framed_sample :
    let t := (updateEntry 0 { sampleRecord with canId := 7 } reopenedPair).2
    (updateEntry 0 { sampleRecord with canId := 7 } reopenedPair).1 = .ok () ∧
      reopenedPair.image.Updates t.image 0 { sampleRecord with canId := 7 } ∧
      (reopenedPair.Framed t 0 { sampleRecord with canId := 7 } ↔ 0 ≠ reopenedPair.writeNext) := by
  intro t
  have run : (updateEntry 0 { sampleRecord with canId := 7 } reopenedPair).1 =
    .ok () := by decide +kernel
  exact ⟨run, (updateEntry_framed_iff reopenedPair_served 0 { sampleRecord with canId := 7 }).1 t
    (pair_of_fst run)⟩

/-- The first update after a reopening is taken for an append of row 0. -/
theorem update_moves_write_index : ¬ ∀ s t row record, Served s →
    updateEntry row record s = (.ok (), t) →
    s.Framed t row record := by
  intro all
  have run : (updateEntry 0 sampleRecord reopenedPair).1 = .ok () := by decide +kernel
  have moved : (updateEntry 0 sampleRecord reopenedPair).2.writeNext = 1 := by decide +kernel
  have before : reopenedPair.writeNext = 0 := by decide +kernel
  have framed := all reopenedPair _ 0 sampleRecord reopenedPair_served (pair_of_fst run)
  have next := framed.next
  rw [moved, before] at next
  cases next

end FsCore
