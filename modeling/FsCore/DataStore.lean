import FsCore.UpdateFailure

namespace FsCore

/-- The constructor of `DataMmapInterface<ReadWrite>`. -/
def openWriter : StoreM Unit := do
  openHeaderRw
  openOrCreateSegmentForWrite 0

/-- The constructor of `DataMmapInterface<ReadOnly>`. -/
def openReader : StoreM Unit := do
  openHeaderRo
  let s ← Effect.read
  match s.files.segments 0 with
  | .missing => pure ()
  | _ => openSegment 0

/-- `DataMmapInterface<ReadOnly>::read_rows` -/
def readRows : List Nat → StoreM (List ParsedEntry)
  | [] => pure []
  | row :: rest => do
    let entry ← readEntryAt row
    let entries ← readRows rest
    pure (entry :: entries)

/-- A call to the writer of the data store; an append answers with its row. -/
inductive DataCall where
  | append (entry : ParsedEntry)
  | update (row : Nat) (entry : ParsedEntry)

def DataCall.exec : DataCall → StoreM (Option Nat)
  | .append entry => do
    let row ← appendEntry entry
    pure (some row)
  | .update row entry => do
    updateRow row entry
    pure none

/-- The same call on a list of rows. -/
def DataCall.onList (log : List ParsedEntry) : DataCall → List ParsedEntry
  | .append entry => log ++ [entry]
  | .update row entry => log.set row entry

def DataCall.answer (log : List ParsedEntry) : DataCall → Option Nat
  | .append _ => some log.length
  | .update _ _ => none

def DataCall.InRange (log : List ParsedEntry) : DataCall → Prop
  | .append _ => True
  | .update row _ => row < log.length

/-- One writer on fresh files, with the values last written. Any system call may fail; a call
that throws writes nothing. Elsewhere readers map the files and unmap them. -/
inductive Logged : List ParsedEntry → Session → Prop
  | opened {faults : List Bool} {s : Session}
      (h : openWriter { Session.fresh with faults := faults } = (.ok (), s)) : Logged [] s
  | returned {log : List ParsedEntry} {s t : Session} {c : DataCall} {answer : Option Nat}
      (logged : Logged log s) (few : (c.onList log).length < 2 ^ 31)
        (h : c.exec s = (.ok answer, t)) : Logged (c.onList log) t
  | threw {log : List ParsedEntry} {s t : Session} {c : DataCall} {e : StoreError}
      (logged : Logged log s) (few : (c.onList log).length < 2 ^ 31)
        (h : c.exec s = (.error e, t)) : Logged log t
  | elsewhere {log : List ParsedEntry} {s : Session} (mapped : List Nat) (faults : List Bool)
      (logged : Logged log s) : Logged log { s with readMapped := mapped, faults := faults }

/-- The files hold the rows of a list, and the header counts them. -/
structure Session.Holds (s : Session) (log : List ParsedEntry) : Prop where
  count : s.header.writeCount = log.length
  bounded : log.length < 2 ^ 31
  rows : ∀ r e, log[r]? = some e → s.HasSegment (r / kDataSegmentCapacity) ∧ s.rowAt r = e

/-- Steps of a reader: nothing but its mappings is new. -/
def OnlyMaps (s t : Session) : Prop :=
  ∃ mapped faults, t = { s with readMapped := mapped, faults := faults }

theorem OnlyMaps.refl (s : Session) : OnlyMaps s s := ⟨s.readMapped, s.faults, rfl⟩

theorem OnlyMaps.trans (s t u : Session) (hst : OnlyMaps s t) (htu : OnlyMaps t u) : OnlyMaps s u := by
  obtain ⟨_, _, rfl⟩ := hst
  obtain ⟨mapped, faults, rfl⟩ := htu
  exact ⟨mapped, faults, rfl⟩

section Readers

variable {s : Session} {log : List ParsedEntry}

theorem Quiet.holds {t : Session} (quiet : Quiet s t) (h : s.Holds log) : t.Holds log := by
  have header : t.header = s.header := congrArg Image.header quiet.image
  have rows : t.rowAt = s.rowAt := congrArg Image.row quiet.image
  refine ⟨by rw [header, h.count], h.bounded, fun r e hr => ⟨quiet.keeps _ (h.rows r e hr).1, ?_⟩⟩
  rw [rows]
  exact (h.rows r e hr).2

theorem OnlyMaps.holds {t : Session} (maps : OnlyMaps s t) (h : s.Holds log) : t.Holds log := by
  obtain ⟨_, _, rfl⟩ := maps
  exact ⟨h.count, h.bounded, h.rows⟩

theorem call_onlyMaps (name : String) (s : Session) : OnlyMaps s (call name s).2 := by
  unfold call
  split <;> exact ⟨s.readMapped, _, rfl⟩

theorem mmapOpen_onlyMaps {α : Type} (f : File α) (s : Session) : OnlyMaps s (mmapOpen f s).2 := by
  cases f with
  | missing => exact OnlyMaps.refl s
  | empty => exact Effect.bind_frame OnlyMaps.trans (call_onlyMaps _ s) (fun _ t _ => OnlyMaps.refl t)
  | bytes content =>
    exact Effect.bind_frame OnlyMaps.trans (call_onlyMaps _ s) (fun _ t _ => call_onlyMaps _ t)

theorem openSegment_onlyMaps (i : Nat) (s : Session) : OnlyMaps s (openSegment i s).2 := by
  simp only [openSegment, Effect.read_bind]
  split
  next => exact OnlyMaps.refl s
  next =>
    exact Effect.bind_frame OnlyMaps.trans (mmapOpen_onlyMaps _ s)
      (fun _ t _ => ⟨i :: t.readMapped, t.faults, rfl⟩)

theorem readAt_onlyMaps (row : Nat) (s : Session) : OnlyMaps s (readAt row s).2 :=
  Effect.bind_frame OnlyMaps.trans (openSegment_onlyMaps _ s) (fun _ t _ => OnlyMaps.refl t)

theorem readEntryAt_onlyMaps (row : Nat) (s : Session) : OnlyMaps s (readEntryAt row s).2 := by
  simp only [readEntryAt, Effect.read_bind]
  split
  next => exact OnlyMaps.refl s
  next => exact readAt_onlyMaps row s

theorem readRows_onlyMaps (rows : List Nat) (s : Session) : OnlyMaps s (readRows rows s).2 := by
  induction rows generalizing s with
  | nil => exact OnlyMaps.refl s
  | cons row rest ih =>
    refine Effect.bind_frame OnlyMaps.trans (readEntryAt_onlyMaps row s) (fun _ t _ => ?_)
    exact Effect.bind_frame OnlyMaps.trans (ih t) (fun _ u _ => OnlyMaps.refl u)

theorem readEntryAt_refused {row : Nat} (h : s.header.writeCount ≤ row) :
    readEntryAt row s = (.error (.mmap s!"row index out of range: {row}"), s) := by
  simp only [readEntryAt, Effect.read_bind, if_pos h]
  rfl

/-- A row that is read is a row of the list. -/
theorem readEntryAt_listed (h : s.Holds log) {row : Nat} {e : ParsedEntry} {t : Session}
    (run : readEntryAt row s = (.ok e, t)) : log[row]? = some e := by
  obtain ⟨-, rfl, counted⟩ := readEntryAt_ok run
  rw [h.count] at counted
  have listed := List.getElem?_eq_getElem counted
  rw [listed, (h.rows row _ listed).2]

theorem readRows_listed {rows : List Nat} {es : List ParsedEntry} {t : Session} (h : s.Holds log)
    (run : readRows rows s = (.ok es, t)) : es.map some = rows.map (log[·]?) := by
  induction rows generalizing s es with
  | nil =>
    cases run
    rfl
  | cons row rest ih =>
    obtain ⟨e, mid, first, run⟩ := Effect.bind_eq_ok_iff.mp run
    obtain ⟨others, u, second, run⟩ := Effect.bind_eq_ok_iff.mp run
    cases run
    have maps := readEntryAt_onlyMaps row s
    rw [first] at maps
    rw [List.map_cons, List.map_cons, readEntryAt_listed h first, ih (maps.holds h) second]

theorem openSegment_maps {i : Nat} (noFault : s.faults = []) (h : s.HasSegment i) :
    openSegment i s = (.ok (), { s with readMapped := s.readMapped.insert i }) := by
  obtain ⟨rows, hrows⟩ := h
  simp only [openSegment, Effect.read_bind]
  by_cases known : i ∈ s.readMapped
  · rw [if_pos known, List.insert_of_mem known]
    rfl
  · rw [if_neg known, List.insert_of_not_mem known]
    exact Effect.bind_of_ok (mmapOpen_calm noFault hrows)

theorem readAt_maps (h : s.Holds log) (noFault : s.faults = []) {row : Nat} {e : ParsedEntry}
    (listed : log[row]? = some e) :
    ∃ mapped, readAt row s = (.ok e, { s with readMapped := mapped }) := by
  obtain ⟨here, value⟩ := h.rows row e listed
  rw [← value]
  exact ⟨s.readMapped.insert (row / kDataSegmentCapacity),
    (Effect.bind_of_ok (openSegment_maps noFault here)).trans rfl⟩

theorem readEntryAt_maps (h : s.Holds log) (noFault : s.faults = []) {row : Nat} {e : ParsedEntry}
    (listed : log[row]? = some e) :
    ∃ mapped, readEntryAt row s = (.ok e, { s with readMapped := mapped }) := by
  have counted : row < s.header.writeCount := by
    rw [h.count]
    exact (List.getElem?_eq_some_iff.mp listed).1
  simp only [readEntryAt, Effect.read_bind, if_neg (not_le.mpr counted)]
  exact readAt_maps h noFault listed

/-- Checked reads of listed rows return, and the first one that is not listed throws. -/
theorem readRows_maps (rows : List Nat) (h : s.Holds log) (noFault : s.faults = []) :
    ∃ mapped, (∃ es, readRows rows s = (.ok es, { s with readMapped := mapped })) ∧
        (∀ row ∈ rows, row < log.length) ∨
      (∃ what, readRows rows s = (.error (.mmap what), { s with readMapped := mapped })) ∧
        ∃ row ∈ rows, log.length ≤ row := by
  induction rows generalizing s with
  | nil => exact ⟨s.readMapped, Or.inl ⟨⟨[], rfl⟩, by simp⟩⟩
  | cons row rest ih =>
    by_cases counted : row < log.length
    · obtain ⟨mapped, first⟩ := readEntryAt_maps h noFault (List.getElem?_eq_getElem counted)
      have later : ({ s with readMapped := mapped } : Session).Holds log := ⟨h.count, h.bounded, h.rows⟩
      obtain ⟨mapped', ⟨⟨es, hes⟩, within⟩ | ⟨⟨what, hwhat⟩, r, hr, past⟩⟩ := ih later noFault
      · refine ⟨mapped', Or.inl ⟨⟨_ :: es,
          (Effect.bind_of_ok first).trans (Effect.bind_of_ok hes)⟩, ?_⟩⟩
        simpa using ⟨counted, within⟩
      · exact ⟨mapped', Or.inr ⟨⟨what, (Effect.bind_of_ok first).trans (Effect.bind_of_error hwhat)⟩,
          r, List.mem_cons_of_mem row hr, past⟩⟩
    · have refused := @readEntryAt_refused s row (by rw [h.count]; omega)
      exact ⟨s.readMapped, Or.inr ⟨⟨_, Effect.bind_of_error refused⟩, row, by simp, not_lt.mp counted⟩⟩

end Readers

/-- The writer goes on behind the rows that it holds. -/
structure Session.Appends (s : Session) (log : List ParsedEntry) : Prop extends s.Holds log where
  next : s.writeNext = log.length
  headerFile : ∃ header, s.files.header = .bytes header

section Writer

variable {s : Session} {log : List ParsedEntry} {entry : ParsedEntry}

theorem Quiet.appends {t : Session} (quiet : Quiet s t) (h : s.Appends log) : t.Appends log := by
  have next : t.writeNext = s.writeNext := congrArg Image.nextIndex quiet.image
  exact ⟨quiet.holds h.toHolds, next.trans h.next, quiet.headerFile ▸ h.headerFile⟩

theorem putRow_other (h : s.Holds log) {row r : Nat} {e : ParsedEntry} (listed : log[r]? = some e)
    (other : r ≠ row) :
    (s.putRow row entry).HasSegment (r / kDataSegmentCapacity) ∧ (s.putRow row entry).rowAt r = e := by
  refine ⟨putRow_keeps s row entry _ (h.rows r e listed).1, ?_⟩
  rw [putRow_rowAt, Function.update_of_ne other]
  exact (h.rows r e listed).2

theorem putRow_own (s : Session) (row : Nat) (entry : ParsedEntry) :
    (s.putRow row entry).HasSegment (row / kDataSegmentCapacity) ∧
      (s.putRow row entry).rowAt row = entry := by
  refine ⟨putRow_hasSegment s row entry, ?_⟩
  rw [putRow_rowAt, Function.update_self]

/-- A row past the last one is not part of the list before the header counts it. -/
theorem putRow_behind (h : s.Appends log) : (s.putRow log.length entry).Appends log := by
  refine ⟨⟨h.count, h.bounded, fun r e listed => putRow_other h.toHolds listed ?_⟩,
    h.next, h.headerFile⟩
  have := (List.getElem?_eq_some_iff.mp listed).1
  omega

theorem putRow_set (h : s.Appends log) (row : Nat) :
    (s.putRow row entry).Appends (log.set row entry) := by
  refine ⟨⟨?_, ?_, fun r e listed => ?_⟩, ?_, h.headerFile⟩
  · rw [List.length_set]
    exact h.count
  · rw [List.length_set]
    exact h.bounded
  · rw [List.getElem?_set] at listed
    by_cases own : row = r
    · subst own
      rw [if_pos rfl] at listed
      split at listed
      next =>
        cases listed
        exact putRow_own s row entry
      next => cases listed
    · rw [if_neg own] at listed
      exact putRow_other h.toHolds listed (Ne.symm own)
  · rw [List.length_set]
    exact h.next

/-- An append, however it ends. -/
theorem appendEntry_appends (h : s.Appends log) (small : log.length + 1 < 2 ^ 31) :
    (∃ e, (appendEntry entry s).1 = .error e ∧ (appendEntry entry s).2.Appends log) ∨
      (appendEntry entry s).1 = .ok log.length ∧ (appendEntry entry s).2.Appends (log ++ [entry]) := by
  obtain ⟨a, quiet, cases⟩ := appendEntry_cases entry s
  have before := quiet.appends h
  have behind : (a.putRow s.writeNext entry).Appends log := by
    rw [h.next]
    exact putRow_behind before
  rcases cases with ⟨e, run⟩ | ⟨-, run⟩ | run
  · rw [run]
    exact Or.inl ⟨e, rfl, before⟩
  · rw [run]
    refine Or.inr ⟨by rw [h.next], ⟨?_, ?_, fun r e listed => ?_⟩, ?_, ⟨_, rfl⟩⟩
    · rw [List.length_append, List.length_singleton, ← h.next]
      rfl
    · rw [List.length_append, List.length_singleton]
      exact small
    · rcases Nat.lt_or_ge r log.length with old | new
      · rw [List.getElem?_append_left old] at listed
        exact behind.rows r e listed
      · rw [List.getElem?_append_right new, List.getElem?_singleton] at listed
        split at listed
        next last =>
          cases listed
          obtain rfl : r = s.writeNext := by
            rw [h.next]
            omega
          exact putRow_own a s.writeNext entry
        next => cases listed
    · rw [List.length_append, List.length_singleton, ← h.next]
      rfl
  · rw [run]
    exact Or.inl ⟨.undefined, rfl, behind⟩

theorem updateRow_refused {row : Nat} (h : s.header.writeCount ≤ row) :
    updateRow row entry s = (.error (.mmap "row index out of range"), s) := by
  simp only [updateRow, Effect.read_bind, if_pos h]
  rfl

/-- An update, however it ends: it never meets the row at which the writer goes on. -/
theorem updateRow_appends (h : s.Appends log) (row : Nat) :
    (∃ e, (updateRow row entry s).1 = .error e ∧ (updateRow row entry s).2.Appends log) ∨
      (updateRow row entry s).1 = .ok () ∧ (updateRow row entry s).2.Appends (log.set row entry) := by
  by_cases counted : row < log.length
  · have here := (h.rows row _ (List.getElem?_eq_getElem counted)).1
    have bound : row < s.header.writeCount := by rw [h.count]; exact counted
    have noGap : row ≤ s.writeNext := by rw [h.next]; exact counted.le
    rcases updateRow_outcome bound noGap here entry with ⟨-, e, t, run, quiet⟩ | ⟨-, a, quiet, run⟩
    · rw [run]
      exact Or.inl ⟨e, rfl, quiet.appends h⟩
    · rw [run]
      have before := quiet.appends h
      have stays : (a.putRow row entry).advance row = a.putRow row entry := by
        have next : (a.putRow row entry).writeNext = log.length := before.next
        rw [Session.advance, if_neg (by omega)]
      rw [stays]
      exact Or.inr ⟨rfl, putRow_set before row⟩
  · have refused := @updateRow_refused s entry row (by rw [h.count]; omega)
    rw [refused]
    exact Or.inl ⟨_, rfl, h⟩

theorem exec_appends (c : DataCall) (h : s.Appends log) (few : (c.onList log).length < 2 ^ 31) :
    (∃ e, (c.exec s).1 = .error e ∧ (c.exec s).2.Appends log) ∨
      (c.exec s).1 = .ok (c.answer log) ∧ (c.exec s).2.Appends (c.onList log) := by
  cases c with
  | append entry =>
    have small : log.length + 1 < 2 ^ 31 := by
      simpa only [DataCall.onList, List.length_append, List.length_singleton] using few
    rw [DataCall.exec, Effect.bind_pure_map]
    rcases @appendEntry_appends s log entry h small with ⟨e, threw, same⟩ | ⟨returned, appends⟩
    · exact Or.inl ⟨e, by rw [threw]; rfl, same⟩
    · exact Or.inr ⟨by rw [returned]; rfl, appends⟩
  | update row entry =>
    rw [DataCall.exec, Effect.bind_pure_map]
    rcases @updateRow_appends s log entry h row with ⟨e, threw, same⟩ | ⟨returned, appends⟩
    · exact Or.inl ⟨e, by rw [threw]; rfl, same⟩
    · exact Or.inr ⟨by rw [returned]; rfl, appends⟩

theorem openHeaderRw_headerFile {t : Session} (h : openHeaderRw s = (.ok (), t)) :
    ∃ header, t.files.header = .bytes header := by
  have init {u : Session} {content : MmapHeader} (hu : u.files.header = .bytes content) :
      ∃ header, u.initCapacity.files.header = .bytes header := by
    unfold Session.initCapacity
    split
    next => exact ⟨_, rfl⟩
    next => exact ⟨content, hu⟩
  simp only [openHeaderRw, Effect.read_bind] at h
  obtain ⟨_, mid, ho, h⟩ := Effect.bind_eq_ok_iff.mp h
  cases h
  rcases mmapOpenOrCreate_ok (by intros; rfl) ho with ⟨content, _, there, rfl⟩ | ⟨_, _, rfl⟩
  · exact init there
  · exact init rfl

theorem openWriter_appends {faults : List Bool}
    (h : openWriter { Session.fresh with faults := faults } = (.ok (), s)) : s.Appends [] := by
  obtain ⟨_, a, header, segment⟩ := Effect.bind_eq_ok_iff.mp h
  have quiet := openOrCreateSegmentForWrite_ok segment
  obtain ⟨image, -⟩ := openHeaderRw_ok header
  have opened : a.header = MmapHeader.zero.opened := congrArg Image.header image
  have next : a.writeNext = 0 := congrArg Image.nextIndex image
  refine quiet.appends ⟨⟨?_, by simp, by simp⟩, next, openHeaderRw_headerFile header⟩
  rw [opened, opened_writeCount]
  rfl

end Writer

theorem Logged.appends {log : List ParsedEntry} {s : Session} (logged : Logged log s) :
    s.Appends log := by
  induction logged with
  | opened h => exact openWriter_appends h
  | @returned log s t c answer logged few h ih =>
    have outcome := exec_appends c ih few
    rw [h] at outcome
    obtain ⟨e, threw, -⟩ | ⟨-, appends⟩ := outcome
    · cases threw
    · exact appends
  | @threw log s t c e logged few h ih =>
    have outcome := exec_appends c ih few
    rw [h] at outcome
    obtain ⟨_, -, appends⟩ | ⟨returned, -⟩ := outcome
    · exact appends
    · cases returned
  | elsewhere mapped faults logged ih => exact ⟨⟨ih.count, ih.bounded, ih.rows⟩, ih.next, ih.headerFile⟩

section Progress

variable {s : Session} {log : List ParsedEntry}

theorem openReader_returns (h : s.Appends log) (hc : s.Calm) :
    ∃ t, openReader s = (.ok (), t) ∧ t.Calm := by
  obtain ⟨header, there⟩ := h.headerFile
  have opened : openHeaderRo s = (.ok (), s) := mmapOpen_calm hc.noFault there
  rw [openReader, Effect.bind_of_ok opened, Effect.read_bind]
  cases segment : s.files.segments 0 with
  | missing => exact ⟨s, rfl, hc⟩
  | empty => exact absurd segment (hc.whole 0)
  | bytes rows => exact openSegment_returns hc ⟨rows, segment⟩

theorem openReader_onlyMaps (s : Session) : OnlyMaps s (openReader s).2 := by
  refine Effect.bind_frame OnlyMaps.trans (mmapOpen_onlyMaps _ s) (fun _ t _ => ?_)
  rw [Effect.read_bind]
  cases t.files.segments 0 with
  | missing => exact OnlyMaps.refl t
  | empty | bytes => exact openSegment_onlyMaps 0 t

theorem exec_returns {c : DataCall} (h : s.Appends log) (hc : s.Calm)
    (few : (c.onList log).length < 2 ^ 31) (within : c.InRange log) :
    ∃ t, c.exec s = (.ok (c.answer log), t) ∧ t.Calm := by
  cases c with
  | append entry =>
    have small : s.writeNext + 1 < 2 ^ 31 := by
      rw [h.next]
      simpa only [DataCall.onList, List.length_append, List.length_singleton] using few
    obtain ⟨row, t, run, calm⟩ := appendEntry_returns entry hc small
    have own : row = s.writeNext := by
      obtain ⟨cur, mid, hw, run⟩ := Effect.bind_eq_ok_iff.mp run
      cases run
      exact (writeNextRow_ok hw).1
    refine ⟨t, (Effect.bind_of_ok run).trans ?_, calm⟩
    rw [own, h.next]
    rfl
  | update row entry =>
    have within : row < log.length := within
    obtain ⟨t, run, calm⟩ := updateRow_returns row entry hc (by rw [h.count]; exact within)
      (by rw [h.next]; exact within.le)
    exact ⟨t, Effect.bind_of_ok run, calm⟩

end Progress

/-- The store answers as the list does: the counters, the writer's calls, the reads of any
reader, and what is out of range. Where no system call fails, what is in range returns. -/
structure ActsAs (s : Session) (log : List ParsedEntry) : Prop where
  counters : s.writeNext = log.length ∧ s.header.writeCount = log.length
  answers : ∀ c answer t, (c.onList log).length < 2 ^ 31 → DataCall.exec c s = (.ok answer, t) →
    answer = c.answer log
  updateRefused : ∀ row entry, log.length ≤ row →
    updateRow row entry s = (.error (.mmap "row index out of range"), s)
  reads : ∀ row e t, readEntryAt row s = (.ok e, t) → log[row]? = some e
  unchecked : ∀ row e t, row < log.length → readAt row s = (.ok e, t) → log[row]? = some e
  readsRows : ∀ rows es t, readRows rows s = (.ok es, t) → es.map some = rows.map (log[·]?)
  readRefused : ∀ row, log.length ≤ row →
    readEntryAt row s = (.error (.mmap s!"row index out of range: {row}"), s)
  onlyMaps : ∀ rows, OnlyMaps s (openReader s).2 ∧ OnlyMaps s (readRows rows s).2
  readsReturn : s.faults = [] → (∀ row < log.length, ∃ e t, readEntryAt row s = (.ok e, t)) ∧
    (∀ row < log.length, ∃ e t, readAt row s = (.ok e, t)) ∧
    ∀ rows, ((∃ es t, readRows rows s = (.ok es, t)) ↔ ∀ row ∈ rows, row < log.length) ∧
      ((∃ what t, readRows rows s = (.error (.mmap what), t)) ↔ ∃ row ∈ rows, log.length ≤ row)
  callsReturn : s.Calm → (∃ t, openReader s = (.ok (), t) ∧ t.Calm) ∧
    ∀ c, (c.onList log).length < 2 ^ 31 → c.InRange log →
      ∃ t, DataCall.exec c s = (.ok (c.answer log), t) ∧ t.Calm

theorem readRows_iff {s : Session} {log : List ParsedEntry} (h : s.Holds log) (noFault : s.faults = [])
    (rows : List Nat) : ((∃ es t, readRows rows s = (.ok es, t)) ↔ ∀ row ∈ rows, row < log.length) ∧
      ((∃ what t, readRows rows s = (.error (.mmap what), t)) ↔ ∃ row ∈ rows, log.length ≤ row) := by
  obtain ⟨mapped, ⟨⟨es, run⟩, within⟩ | ⟨⟨what, run⟩, row, hr, past⟩⟩ := readRows_maps rows h noFault
  · have none : ¬ ∃ row ∈ rows, log.length ≤ row := by
      intro outside
      obtain ⟨row, hr, past⟩ := outside
      have := within row hr
      omega
    rw [run]
    simpa [none] using within
  · have some : ¬ ∀ row ∈ rows, row < log.length := fun within => not_lt.mpr past (within row hr)
    rw [run]
    simpa [some] using ⟨row, hr, past⟩

theorem data_store_refines_list {s : Session} {log : List ParsedEntry} (logged : Logged log s) :
    ActsAs s log := by
  have h := logged.appends
  have holds := h.toHolds
  have count (row : Nat) (past : log.length ≤ row) : s.header.writeCount ≤ row := by
    rw [h.count]
    exact past
  refine ⟨⟨h.next, h.count⟩, fun c answer t few run => ?_, fun row entry past =>
    updateRow_refused (count row past),
    fun row e t run => readEntryAt_listed holds run, fun row e t within run => ?_,
    fun rows es t run => readRows_listed holds run, fun row past =>
      readEntryAt_refused (count row past),
    fun rows => ⟨openReader_onlyMaps s, readRows_onlyMaps rows s⟩,
    fun noFault => ⟨fun row within => ?_, fun row within => ?_, readRows_iff holds noFault⟩,
    fun hc => ⟨openReader_returns h hc, fun c few within => exec_returns h hc few within⟩⟩
  · have outcome := exec_appends c h few
    rw [run] at outcome
    rcases outcome with ⟨e, threw, -⟩ | ⟨returned, -⟩
    · cases threw
    · exact Except.ok.inj returned
  · have listed := List.getElem?_eq_getElem within
    rw [listed, (readAt_ok run).2, (holds.rows row _ listed).2]
  · obtain ⟨mapped, run⟩ := readEntryAt_maps holds noFault (List.getElem?_eq_getElem within)
    exact ⟨_, _, run⟩
  · obtain ⟨mapped, run⟩ := readAt_maps holds noFault (List.getElem?_eq_getElem within)
    exact ⟨_, _, run⟩

theorem data_store_refines_list_sample :
    let s := (DataCall.exec (.append ParsedEntry.zero) (openWriter Session.fresh).2).2
    Logged [ParsedEntry.zero] s ∧ ActsAs s [ParsedEntry.zero] := by
  intro s
  have opened : Logged [] (openWriter Session.fresh).2 := @Logged.opened [] _ rfl
  have appended : Logged [ParsedEntry.zero] s :=
    @Logged.returned [] _ s (.append ParsedEntry.zero) (some 0) opened (by decide) rfl
  exact ⟨appended, data_store_refines_list appended⟩

end FsCore
