import FsCore.DataPages
import FsCore.MappedSimulation

namespace FsCore

section Defined

variable {s : Session} {entry : ParsedEntry}

theorem call_avoids (name : String) (s : Session) : Effect.Avoids .undefined (call name) s := by
  unfold Effect.Avoids call
  split <;> simp

theorem mmapOpen_avoids {α : Type} (f : File α) (s : Session) :
    Effect.Avoids .undefined (mmapOpen f) s := by
  cases f with
  | missing => simp [Effect.Avoids, mmapOpen]
  | empty => exact (call_avoids _ s).bind fun _ t _ => by simp [Effect.Avoids]
  | bytes content => exact (call_avoids _ s).bind fun _ t _ => call_avoids _ t

theorem mmapOpenOrCreate_avoids {α : Type} (zero : α) (set : File α → Session → Session)
    (f : File α) (s : Session) :
    Effect.Avoids .undefined (mmapOpenOrCreate zero set f) s := by
  have modify (g : Session → Session) (t : Session) :
      Effect.Avoids .undefined (Effect.modify g : StoreM Unit) t := by
    simp [Effect.Avoids]
  cases f with
  | missing =>
    exact (call_avoids _ s).bind fun _ t _ => (modify _ t).bind fun _ t _ =>
      (call_avoids _ t).bind fun _ t _ =>
      (modify _ t).bind fun _ t _ => call_avoids _ t
  | empty => exact mmapOpen_avoids (.empty : File α) s
  | bytes content => exact mmapOpen_avoids (.bytes content) s

theorem openOrCreateSegmentForWrite_avoids (i : Nat) (s : Session) :
    Effect.Avoids .undefined (openOrCreateSegmentForWrite i) s := by
  simp only [Effect.Avoids, openOrCreateSegmentForWrite, Effect.read_bind]
  split
  next => simp
  next => exact (mmapOpenOrCreate_avoids _ _ _ s).bind fun _ t _ => by simp [Effect.Avoids]

theorem readAt_avoids (row : Nat) (s : Session) : Effect.Avoids .undefined (readAt row) s := by
  refine Effect.Avoids.bind ?_ fun _ t _ => by simp [Effect.Avoids]
  simp only [Effect.Avoids, openSegment, Effect.read_bind]
  split
  next => simp
  next => exact (mmapOpen_avoids _ s).bind fun _ t _ => by simp [Effect.Avoids]

theorem readEntryAt_avoids (row : Nat) (s : Session) :
    Effect.Avoids .undefined (readEntryAt row) s := by
  simp only [Effect.Avoids, readEntryAt, Effect.read_bind]
  split
  next => simp
  next => exact readAt_avoids row s

theorem readRows_avoids (rows : List Nat) (s : Session) :
    Effect.Avoids .undefined (readRows rows) s := by
  induction rows generalizing s with
  | nil => simp [Effect.Avoids, readRows]
  | cons row rest ih =>
    exact (readEntryAt_avoids row s).bind fun _ t _ => (ih t).bind fun _ u _ => by simp [Effect.Avoids]

theorem readRowsFrom_avoids (row n : Nat) (s : Session) :
    Effect.Avoids .undefined (readRowsFrom row n) s := by
  induction n generalizing row s with
  | zero => simp [Effect.Avoids, readRowsFrom]
  | succ n ih =>
    exact (readAt_avoids row s).bind fun _ t _ => (ih (row + 1) t).bind
      fun _ u _ => by simp [Effect.Avoids]

theorem readPage_avoids (offset count : Nat) (s : Session) :
    Effect.Avoids .undefined (readPage offset count) s := by
  simp only [Effect.Avoids, readPage, Effect.read_bind]
  split
  next => simp
  next =>
    split
    next => simp
    next => exact readRowsFrom_avoids _ _ s

/-- Below the greatest `int32_t`, nothing that a write does is undefined. -/
theorem appendEntry_avoids (small : s.writeNext + 1 < 2 ^ 31) :
    Effect.Avoids .undefined (appendEntry entry) s := by
  refine Effect.Avoids.bind ?_ fun _ t _ => by simp [Effect.Avoids, setWriteCount]
  rw [Effect.Avoids, writeNextRow, Effect.read_bind]
  refine (openOrCreateSegmentForWrite_avoids _ s).bind fun _ t _ => ?_
  rw [Effect.Avoids, Effect.modify_bind, if_pos small]
  simp

theorem writeAt_avoids (row : Nat) (s : Session) : Effect.Avoids .undefined (writeAt row entry) s := by
  simp only [Effect.Avoids, writeAt, Effect.read_bind]
  split
  next => simp
  next => exact (openOrCreateSegmentForWrite_avoids _ s).bind fun _ t _ => by simp [Effect.Avoids]

theorem updateRow_avoids (row : Nat) (s : Session) :
    Effect.Avoids .undefined (updateRow row entry) s := by
  simp only [Effect.Avoids, updateRow, Effect.read_bind]
  split
  next => simp
  next => exact writeAt_avoids row s

end Defined

/-- The calls to the writer of a data store, on its bytes. -/
inductive WriterCall where
  | append (entry : ParsedEntry)
  | update (row : Nat) (entry : ParsedEntry)
  | setSourceFilePath (path : Text)

/-- What a data store is for: the path of a source file and a list of rows. -/
structure Contents where
  path : Text
  log : List ParsedEntry

namespace WriterCall

def exec : WriterCall → MappedM (Option Nat)
  | append entry => do
    let row ← Mapped.appendEntry entry
    pure (some row)
  | update row entry => do
    Mapped.updateRow row entry
    pure none
  | setSourceFilePath path => do
    Mapped.setSourceFilePath path
    pure none

/-- The same call on sessions. -/
def execRows : WriterCall → StoreM (Option Nat)
  | append entry => do
    let row ← appendEntry entry
    pure (some row)
  | update row entry => do
    updateRow row entry
    pure none
  | setSourceFilePath path => do
    FsCore.setSourceFilePath path
    pure none

def onContents (c : Contents) : WriterCall → Contents
  | append entry => { c with log := c.log ++ [entry] }
  | update row entry => { c with log := c.log.set row entry }
  | setSourceFilePath path => { c with path := path.take kMmapSourceFilePathCapacity }

def answer (c : Contents) : WriterCall → Option Nat
  | append _ => some c.log.length
  | _ => none

/-- Characters are bytes, and there are fewer than 2^31 rows. -/
def Fits (c : Contents) : WriterCall → Prop
  | append entry => parsedEntryCodec.Fits entry ∧ c.log.length + 1 < 2 ^ 31
  | update _ entry => parsedEntryCodec.Fits entry
  | setSourceFilePath path => ∀ ch ∈ path, ch.toNat < 256

end WriterCall

/-- One writer on fresh files. Any system call may fail, and a call that throws leaves the contents
as they were. Elsewhere readers map files that are there, and unmap them. -/
inductive Written : Contents → MappedStore → Prop
  | opened {faults : List Bool} {m : MappedStore}
      (h : Mapped.openWriter { MappedStore.fresh with faults := faults } = (.ok (), m)) :
        Written ⟨[], []⟩ m
  | returned {c : Contents} {m n : MappedStore} {call : WriterCall} {answer : Option Nat}
      (written : Written c m) (fits : call.Fits c) (h : call.exec m = (.ok answer, n)) :
        Written (call.onContents c) n
  | threw {c : Contents} {m n : MappedStore} {call : WriterCall} {e : StoreError}
      (written : Written c m) (fits : call.Fits c) (h : call.exec m = (.error e, n)) : Written c n
  | elsewhere {c : Contents} {m : MappedStore} (mapped : List Nat) (faults : List Bool)
      (written : Written c m) (there : ∀ i ∈ mapped, ∃ bytes, m.segments i = some bytes ∧ bytes ≠ []) :
      Written c { m with readMapped := mapped, faults := faults }

/-- The files are those of some contents, to the last byte. -/
structure Session.Kept (s : Session) (c : Contents) : Prop extends s.Appends c.log where
  fits : s.Fits
  file : s.files.header = .bytes ⟨c.log.length, kDataSegmentCapacity, c.path⟩
  blank : ∀ r, c.log.length ≤ r → s.rowAt r = ParsedEntry.zero
  first : s.HasSegment 0

section Kept

variable {s t : Session} {c : Contents} {entry : ParsedEntry}

theorem Session.Kept.quiet (h : s.Kept c) (quiet : Quiet s t) (fits : t.Fits) : t.Kept c := by
  have rows : t.rowAt = s.rowAt := congrArg Image.row quiet.image
  exact ⟨quiet.appends h.toAppends, fits, quiet.headerFile.trans h.file, fun r hr =>
    rows ▸ h.blank r hr, quiet.keeps 0 h.first⟩

/-- An append, however it ends. -/
theorem appendEntry_kept (h : s.Kept c) (chars : parsedEntryCodec.Fits entry)
    (small : c.log.length + 1 < 2 ^ 31) :
    (∃ e, (appendEntry entry s).1 = .error e ∧ (appendEntry entry s).2.Kept c) ∨
      (appendEntry entry s).1 = .ok c.log.length ∧
        (appendEntry entry s).2.Kept { c with log := c.log ++ [entry] } := by
  have after := (appendEntry_agrees h.fits h.file chars).2.2
  have appends := @appendEntry_appends s c.log entry h.toAppends small
  have defined : Effect.Avoids .undefined (appendEntry entry) s :=
    appendEntry_avoids (by rw [h.next]; exact small)
  obtain ⟨a, quiet, ⟨e, run⟩ | ⟨-, run⟩ | run⟩ := appendEntry_cases entry s
  · rw [run] at after ⊢
    exact .inl ⟨e, rfl, h.quiet quiet after⟩
  · rw [run] at after appends ⊢
    obtain ⟨e, threw, -⟩ | ⟨answer, appends⟩ := appends
    · cases threw
    · have before : a.header = ⟨c.log.length, kDataSegmentCapacity, c.path⟩ :=
        header_of_file (quiet.headerFile.trans h.file)
      have rows : a.rowAt = s.rowAt := congrArg Image.row quiet.image
      have first : (a.putRow s.writeNext entry).HasSegment 0 :=
        putRow_keeps a s.writeNext entry 0 (quiet.keeps 0 h.first)
      refine .inr ⟨answer, appends, after, ?_, fun r behind => ?_, first⟩
      · change File.bytes { a.header with writeCount := s.writeNext + 1 } = _
        rw [before, h.next, List.length_append, List.length_singleton]
      · rw [List.length_append, List.length_singleton] at behind
        change (a.putRow s.writeNext entry).rowAt r = _
        rw [putRow_rowAt, Function.update_of_ne (by rw [h.next]; omega), rows]
        exact h.blank r (by omega)
  · exact absurd (congrArg Prod.fst run) defined

/-- An update, however it ends. -/
theorem updateRow_kept (h : s.Kept c) (chars : parsedEntryCodec.Fits entry) (row : Nat) :
    (∃ e, (updateRow row entry s).1 = .error e ∧ (updateRow row entry s).2.Kept c) ∨
      (updateRow row entry s).1 =
        .ok () ∧ (updateRow row entry s).2.Kept { c with log := c.log.set row entry } := by
  have after := (updateRow_agrees h.fits h.file chars row).2.2
  have appends := @updateRow_appends s c.log entry h.toAppends row
  by_cases counted : row < c.log.length
  · have bound : row < s.header.writeCount := by rw [h.count]; exact counted
    have noGap : row ≤ s.writeNext := by rw [h.next]; exact counted.le
    have here := (h.rows row _ (List.getElem?_eq_getElem counted)).1
    rcases updateRow_outcome bound noGap here entry with ⟨-, e, t, run, quiet⟩ | ⟨-, a, quiet, run⟩
    · rw [run] at after ⊢
      exact .inl ⟨e, rfl, h.quiet quiet after⟩
    · rw [run] at after appends ⊢
      obtain ⟨e, threw, -⟩ | ⟨answer, appends⟩ := appends
      · cases threw
      · have rows : a.rowAt = s.rowAt := congrArg Image.row quiet.image
        have first : (a.putRow row entry).HasSegment 0 :=
          putRow_keeps a row entry 0 (quiet.keeps 0 h.first)
        refine .inr ⟨answer, appends, after, ?_, fun r behind => ?_, ?_⟩
        · rw [advance_files, List.length_set]
          exact quiet.headerFile.trans h.file
        · rw [List.length_set] at behind
          have same : ((a.putRow row entry).advance row).rowAt r = (a.putRow row entry).rowAt r := by
            rw [Session.rowAt, advance_files]
            rfl
          rw [same, putRow_rowAt, Function.update_of_ne (by omega), rows]
          exact h.blank r behind
        · rw [Session.HasSegment, advance_files]
          exact first
  · have refused := @updateRow_refused s entry row (by rw [h.count]; omega)
    rw [refused]
    exact .inl ⟨_, rfl, h⟩

theorem setSourceFilePath_kept (h : s.Kept c) {path : Text} (chars : ∀ ch ∈ path, ch.toNat < 256) :
    (setSourceFilePath path s).2.Kept { c with path := path.take kMmapSourceFilePathCapacity } := by
  have after := (setSourceFilePath_agrees h.fits h.file chars).2.2
  have before : s.header = ⟨c.log.length, kDataSegmentCapacity, c.path⟩ := header_of_file h.file
  have file : (setSourceFilePath path s).2.files.header =
      .bytes ⟨c.log.length, kDataSegmentCapacity, path.take kMmapSourceFilePathCapacity⟩ := by
    change File.bytes { s.header with sourceFilePath := path.take kMmapSourceFilePathCapacity } = _
    rw [before]
  exact ⟨⟨⟨congrArg MmapHeader.writeCount (header_of_file file), h.bounded, h.rows⟩, h.next, _,
    file⟩, after, file, h.blank, h.first⟩

/-- A call of the writer, however it ends, on sessions. -/
theorem execRows_kept (h : s.Kept c) {call : WriterCall} (fits : call.Fits c) :
    (∃ e, (call.execRows s).1 = .error e ∧ (call.execRows s).2.Kept c) ∨
      (call.execRows s).1 = .ok (call.answer c) ∧ (call.execRows s).2.Kept (call.onContents c) := by
  cases call with
  | append entry =>
    rw [WriterCall.execRows, Effect.bind_pure_map]
    rcases appendEntry_kept h fits.1 fits.2 with ⟨e, threw, kept⟩ | ⟨returned, kept⟩
    · exact .inl ⟨e, by rw [threw]; rfl, kept⟩
    · exact .inr ⟨by rw [returned]; rfl, kept⟩
  | update row entry =>
    rw [WriterCall.execRows, Effect.bind_pure_map]
    rcases updateRow_kept h fits row with ⟨e, threw, kept⟩ | ⟨returned, kept⟩
    · exact .inl ⟨e, by rw [threw]; rfl, kept⟩
    · exact .inr ⟨by rw [returned]; rfl, kept⟩
  | setSourceFilePath path => exact .inr ⟨rfl, setSourceFilePath_kept h fits⟩

/-- The bytes follow the sessions. -/
theorem exec_agrees (h : s.Kept c) {call : WriterCall} (fits : call.Fits c) :
    Effect.Agrees Holds call.exec call.execRows s.mapped s := by
  cases call with
  | append entry =>
    refine (appendEntry_agrees h.fits h.file fits.1).bind ?_
    rintro _ _ t _ _ ⟨rfl, later⟩
    exact .pure _ ⟨rfl, later⟩
  | update row entry =>
    refine (updateRow_agrees h.fits h.file fits row).bind ?_
    rintro _ _ t _ _ ⟨rfl, later⟩
    exact .pure _ ⟨rfl, later⟩
  | setSourceFilePath path =>
    refine (setSourceFilePath_agrees h.fits h.file fits).bind ?_
    rintro _ _ t _ _ ⟨rfl, later⟩
    exact .pure _ ⟨rfl, later⟩

theorem openWriter_kept {faults : List Bool}
    (h : openWriter { Session.fresh with faults := faults } = (.ok (), t)) (fits : t.Fits) :
    t.Kept ⟨[], []⟩ := by
  obtain ⟨_, a, header, segment⟩ := Effect.bind_eq_ok_iff.mp h
  have quiet := openOrCreateSegmentForWrite_ok segment
  obtain ⟨image, -⟩ := openHeaderRw_ok header
  obtain ⟨content, file⟩ := openHeaderRw_headerFile header
  have opened : content = ⟨0, kDataSegmentCapacity, []⟩ :=
    (header_of_file file).symm.trans (congrArg Image.header image)
  have rows : t.rowAt = fun _ => ParsedEntry.zero := by
    have same : t.rowAt = a.rowAt := congrArg Image.row quiet.image
    rw [same]
    exact congrArg Image.row image
  have first : t.HasSegment 0 := fits.writes 0 (openOrCreateSegmentForWrite_known segment)
  refine ⟨openWriter_appends h, fits, ?_, fun r _ => congrFun rows r, first⟩
  rw [quiet.headerFile, file, opened]
  rfl

end Kept

/-- Behind the bytes of every history there is a session that keeps the same contents. -/
theorem Written.kept {c : Contents} {m : MappedStore} (written : Written c m) :
    ∃ s : Session, m = s.mapped ∧ s.Kept c := by
  induction written with
  | @opened faults m h =>
    have fits : ({ Session.fresh with faults := faults } : Session).Fits :=
      ⟨fun _ h => (by cases h), fun _ _ h => (by cases h), fun _ h => (by cases h),
        fun _ h => (by cases h)⟩
    have start : ({ Session.fresh with faults := faults } : Session).mapped =
      { MappedStore.fresh with faults := faults } := rfl
    obtain ⟨same, related, after⟩ := openWriter_agrees fits
    rw [start, h] at same related
    exact ⟨_, related, openWriter_kept (pair_of_fst same.symm) after⟩
  | @returned c m n call answer written fits h ih =>
    obtain ⟨s, rfl, kept⟩ := ih
    obtain ⟨same, related, -⟩ := exec_agrees kept fits
    rw [h] at same related
    rcases execRows_kept kept fits with ⟨e, threw, -⟩ | ⟨-, after⟩
    · rw [threw] at same
      cases same
    · exact ⟨_, related, after⟩
  | @threw c m n call e written fits h ih =>
    obtain ⟨s, rfl, kept⟩ := ih
    obtain ⟨same, related, -⟩ := exec_agrees kept fits
    rw [h] at same related
    rcases execRows_kept kept fits with ⟨_, -, after⟩ | ⟨returned, -⟩
    · exact ⟨_, related, after⟩
    · rw [returned] at same
      cases same
  | @elsewhere c m mapped faults written there ih =>
    obtain ⟨s, rfl, kept⟩ := ih
    refine ⟨{ s with readMapped := mapped, faults := faults }, rfl,
      ⟨⟨kept.count, kept.bounded, kept.rows⟩, kept.next,
      kept.headerFile⟩, ⟨kept.fits.header, kept.fits.rows, fun i hi => ?_, kept.fits.writes⟩,
        kept.file, kept.blank,
      kept.first⟩
    obtain ⟨bytes, here, some⟩ := there i hi
    change (s.files.segments i).mapped Segment.bytes = _ at here
    cases file : s.files.segments i with
    | missing =>
      rw [file] at here
      cases here
    | empty =>
      rw [file] at here
      exact absurd (Option.some.inj here).symm some
    | bytes rows => exact ⟨rows, file⟩

/-- The header file, byte for byte. -/
def Contents.headerBytes (c : Contents) : List UInt8 :=
  toBytes 4 c.log.length ++ toBytes 4 kDataSegmentCapacity ++ List.replicate 16 0 ++
    toBytes 2 c.path.length ++
    c.path.flatMap Codec.char.encode ++ List.replicate (kMmapSourceFilePathCapacity - c.path.length) 0

def Contents.segment (c : Contents) (i : Nat) : List ParsedEntry :=
  (c.log.drop (i * kDataSegmentCapacity)).take kDataSegmentCapacity

/-- A segment file, byte for byte. -/
def Contents.segmentBytes (c : Contents) (i : Nat) : List UInt8 :=
  (c.segment i).flatMap parsedEntryCodec.encode ++
    List.replicate ((kDataSegmentCapacity - (c.segment i).length) * parsedEntryCodec.width) 0

section Bytes

variable {s : Session} {c : Contents}

theorem segment_row (s : Session) {i j : Nat} {rows : Segment} (here : s.files.segments i = .bytes rows)
    (hj : j < kDataSegmentCapacity) : rows j = s.rowAt (i * kDataSegmentCapacity + j) := by
  have index : (i * kDataSegmentCapacity + j) / kDataSegmentCapacity = i ∧
      (i * kDataSegmentCapacity + j) % kDataSegmentCapacity = j := by
    simp only [kDataSegmentCapacity] at hj ⊢
    omega
  rw [Session.rowAt, index.1, index.2, here]
  rfl

theorem Session.Kept.segment_bytes (h : s.Kept c) {i : Nat} {rows : Segment}
    (here : s.files.segments i = .bytes rows) : rows.bytes = c.segmentBytes i := by
  let k := (c.segment i).length
  have length : k = min kDataSegmentCapacity (c.log.length - i * kDataSegmentCapacity) := by
    rw [← List.length_drop]
    exact List.length_take
  have used : parsedEntryCodec.cells rows 0 k = (c.segment i).flatMap parsedEntryCodec.encode :=
    parsedEntryCodec.cells_list (c.segment i) fun j e hj => by
      have inside : j < k := (List.getElem?_eq_some_iff.mp hj).1
      rw [Contents.segment, List.getElem?_take_of_lt (by omega), List.getElem?_drop] at hj
      rw [Nat.zero_add, segment_row s here (by omega)]
      exact (h.rows _ e hj).2
  have blank : parsedEntryCodec.cells rows k (kDataSegmentCapacity - k) =
      List.replicate ((kDataSegmentCapacity - k) * parsedEntryCodec.width) 0 := by
    rw [← parsedEntryCodec.cells_zero parsedEntryCodec_zero k]
    refine parsedEntryCodec.cells_congr fun j hj => ?_
    rw [segment_row s here (by omega)]
    exact h.blank _ (by omega)
  have whole := parsedEntryCodec.cells_append rows 0 k (kDataSegmentCapacity - k)
  rw [Nat.add_sub_cancel' (by omega), Nat.zero_add, used, blank] at whole
  exact whole

/-- A segment with rows in it is there. -/
theorem Session.Kept.segment_there (h : s.Kept c) {row : Nat} (counted : row < c.log.length) :
    ∃ rows, s.files.segments (row / kDataSegmentCapacity) = .bytes rows :=
  (h.rows row _ (List.getElem?_eq_getElem counted)).1

theorem Session.Kept.totalRows (h : s.Kept c) : s.mapped.constract.totalRows = c.log.length := by
  rw [totalRows_mapped h.fits h.file, h.count]

end Bytes

/-- The rows in the files, by their bytes alone. -/
def MappedStore.decodedRows (m : MappedStore) : List ParsedEntry :=
  (List.range m.constract.totalRows).map fun row =>
    parsedEntryCodec.load (row % kDataSegmentCapacity)
      ((m.segments (row / kDataSegmentCapacity)).getD [])

/-- What is in the files, what they give back, and what the calls answer. Wherever the calls
end, nothing is read or written outside of a mapping. -/
structure MappedStore.Shows (m : MappedStore) (c : Contents) : Prop where
  header : m.header = some c.headerBytes
  segments : ∀ i, m.segments i = none ∨ m.segments i = some [] ∨ m.segments i = some (c.segmentBytes i)
  used : ∀ i, i * kDataSegmentCapacity < c.log.length → m.segments i = some (c.segmentBytes i)
  decoded : m.decodedRows = c.log
  path : Mapped.sourceFilePath m = (.ok c.path, m)
  opens : m.faults = [] → (Mapped.openReader m).1 = .ok ()
  answers : ∀ (call : WriterCall) answer n, call.Fits c → call.exec m = (.ok answer, n) →
    answer = call.answer c
  reads : ∀ row e n, Mapped.readEntryAt row m = (.ok e, n) → c.log[row]? = some e
  readsRows : ∀ rows es n, Mapped.readRows rows m = (.ok es, n) → es.map some = rows.map (c.log[·]?)
  pages : m.faults = [] → ∀ offset count, 0 < count → offset ≤ c.log.length →
    (Mapped.readPage offset count m).1 = .ok ((c.log.take ((offset + count) % 2 ^ 64)).drop offset)
  callsDefined : ∀ call : WriterCall, call.Fits c → Effect.Avoids .undefined call.exec m
  readsDefined : (∀ row, Effect.Avoids .undefined (Mapped.readEntryAt row) m) ∧
    (∀ rows, Effect.Avoids .undefined (Mapped.readRows rows) m) ∧
    ∀ offset count, Effect.Avoids .undefined (Mapped.readPage offset count) m

section Shows

variable {s : Session} {c : Contents}

theorem Session.Kept.header_file (h : s.Kept c) : s.mapped.header = some c.headerBytes := by
  change s.files.header.mapped MmapHeader.bytes = _
  rw [h.file, File.mapped, header_bytes _ (h.fits.header _ h.file)]
  rfl

theorem Session.Kept.segment_file (h : s.Kept c) (i : Nat) : s.mapped.segments i = none ∨
    s.mapped.segments i = some [] ∨
    s.mapped.segments i = some (c.segmentBytes i) := by
  simp only [Session.mapped]
  cases file : s.files.segments i with
  | missing => exact .inl rfl
  | empty => exact .inr (.inl rfl)
  | bytes rows => exact .inr (.inr (congrArg some (h.segment_bytes file)))

theorem Session.Kept.used_file (h : s.Kept c) {i : Nat}
    (used : i * kDataSegmentCapacity < c.log.length) :
    s.mapped.segments i = some (c.segmentBytes i) := by
  obtain ⟨rows, file⟩ := h.segment_there used
  rw [Nat.mul_div_cancel i (by decide)] at file
  simp only [Session.mapped, file]
  exact congrArg some (h.segment_bytes file)

theorem Session.Kept.decoded (h : s.Kept c) : s.mapped.decodedRows = c.log := by
  refine List.ext_getElem ?_ fun row _ counted => ?_
  · rw [MappedStore.decodedRows, List.length_map, List.length_range, h.totalRows]
  · obtain ⟨rows, file⟩ := h.segment_there counted
    simp only [MappedStore.decodedRows, List.getElem_map, List.getElem_range]
    rw [segment_mapped file, load_mapped h.fits file]
    exact (h.rows row _ (List.getElem?_eq_getElem counted)).2

theorem Session.Kept.opens (h : s.Kept c) (noFault : s.faults = []) :
    (Mapped.openReader s.mapped).1 = .ok () := by
  obtain ⟨rows, here⟩ := h.first
  have header : openHeaderRo s = (.ok (), s) := mmapOpen_calm noFault h.file
  have reader : openReader s = openSegment 0 s := by
    rw [openReader, Effect.bind_of_ok header, Effect.read_bind, here]
  rw [(openReader_agrees h.fits).1, reader, openSegment_maps noFault ⟨rows, here⟩]

theorem execRows_avoids (h : s.Kept c) {call : WriterCall} (fits : call.Fits c) :
    Effect.Avoids .undefined call.execRows s := by
  have done {α β : Type} (f : α → β) (a : α) (t : Session) :
      Effect.Avoids .undefined (pure (f a) : StoreM β) t := by
    simp [Effect.Avoids]
  cases call with
  | append entry =>
    exact (appendEntry_avoids (by rw [h.next]; exact fits.2)).bind fun row t _ => done some row t
  | update row entry => exact (updateRow_avoids row s).bind fun _ t _ => done (fun _ => none) () t
  | setSourceFilePath path => simp [Effect.Avoids, WriterCall.execRows, setSourceFilePath]

end Shows

/-- However the calls of a writer went, its files are its contents, byte for byte. -/
theorem files_hold_contents {c : Contents} {m : MappedStore} (written : Written c m) : m.Shows c := by
  obtain ⟨s, rfl, h⟩ := written.kept
  refine ⟨h.header_file, h.segment_file, fun i used => h.used_file used, h.decoded,
    sourceFilePath_mapped h.fits h.file,
    h.opens, fun call answer n fits run => ?_, fun row e n run => ?_, fun rows es n run =>
      ?_, fun noFault offset count pos inside => ?_,
    fun call fits => (exec_agrees h fits).avoids (execRows_avoids h fits),
    fun row => (readEntryAt_agrees h.fits h.file row).avoids (readEntryAt_avoids row s),
    fun rows => (readRows_agrees h.fits h.file rows).avoids (readRows_avoids rows s),
    fun offset count => (readPage_agrees h.fits h.file offset count).avoids
      (readPage_avoids offset count s)⟩
  · have same := (exec_agrees h fits).ok run
    rcases execRows_kept h fits with ⟨e, threw, -⟩ | ⟨returned, -⟩
    · rw [same] at threw
      cases threw
    · rw [same] at returned
      exact Except.ok.inj returned
  · exact readEntryAt_listed h.toHolds ((readEntryAt_agrees h.fits h.file row).ok run)
  · exact readRows_listed h.toHolds ((readRows_agrees h.fits h.file rows).ok run)
  · obtain ⟨mapped, run⟩ := readPage_maps h.toHolds noFault pos inside
    rw [(readPage_agrees h.fits h.file offset count).1, run]

theorem files_hold_contents_sample : ∃ m, Written ⟨[], [ParsedEntry.zero]⟩ m ∧
    m.Shows ⟨[], [ParsedEntry.zero]⟩ := by
  have fits : Session.fresh.Fits :=
    ⟨fun _ h => (by cases h), fun _ _ h => (by cases h), fun _ h => (by cases h),
      fun _ h => (by cases h)⟩
  have answer : (WriterCall.execRows (.append ParsedEntry.zero) (openWriter Session.fresh).2).1 =
    .ok (some 0) := rfl
  let s := (openWriter Session.fresh).2
  have opened : Mapped.openWriter MappedStore.fresh = (.ok (), s.mapped) :=
    Prod.ext (openWriter_agrees fits).1 (openWriter_agrees fits).2.1
  have kept : s.Kept ⟨[], []⟩ := @openWriter_kept s [] rfl (openWriter_agrees fits).2.2
  let call : WriterCall := .append ParsedEntry.zero
  have small : call.Fits ⟨[], []⟩ := ⟨parsedEntryCodec_zero_fits, by decide⟩
  have appended : call.exec s.mapped = (.ok (some 0), (call.exec s.mapped).2) :=
    pair_of_fst ((exec_agrees kept small).1.trans answer)
  have first : Written ⟨[], []⟩ s.mapped := @Written.opened [] _ opened
  have second : Written ⟨[], [ParsedEntry.zero]⟩ _ :=
    @Written.returned ⟨[], []⟩ _ _ call _ first small appended
  exact ⟨_, second, files_hold_contents second⟩

end FsCore
