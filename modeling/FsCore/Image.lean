import FsCore.Storage

namespace FsCore

/-- What a session says, without segment boundaries, mappings and failures: the
store as an array of rows with its counters. -/
structure Image where
  header : MmapHeader
  row : Nat → ParsedEntry
  nextIndex : Nat
  lastRow : UInt32 → Option UInt32
  index : IndexDb
  browser : ViewBrowser

def Session.image (s : Session) : Image where
  header := s.header
  row := s.rowAt
  nextIndex := s.writeNext
  lastRow := s.lastRowByCanId
  index := s.index
  browser := s.browser

/-- A segment can be read once its file has its full size. -/
def Session.HasSegment (s : Session) (segIdx : Nat) : Prop :=
  ∃ rows, s.files.segments segIdx = .bytes rows

/-- Steps that neither change the image nor lose a segment. -/
structure Quiet (s t : Session) : Prop where
  image : t.image = s.image
  headerFile : t.files.header = s.files.header
  keeps : ∀ i, s.HasSegment i → t.HasSegment i

theorem Quiet.refl (s : Session) : Quiet s s := ⟨rfl, rfl, fun _ h => h⟩

theorem Quiet.trans {s t u : Session} (hst : Quiet s t) (htu : Quiet t u) : Quiet s u :=
  ⟨htu.image.trans hst.image, htu.headerFile.trans hst.headerFile, fun i h =>
    htu.keeps i (hst.keeps i h)⟩

theorem call_ok {name : String} {s t : Session} (h : call name s = (.ok (), t)) :
    ∃ rest, t = { s with faults := rest } := by
  unfold call at h
  split at h
  next => cases h; exact ⟨s.faults, rfl⟩
  next => cases h; exact ⟨_, rfl⟩
  next => cases h

theorem mmapOpen_ok {α : Type} {f : File α} {s t : Session} (h : mmapOpen f s = (.ok (), t)) :
    (∃ rest, t = { s with faults := rest }) ∧ ∃ content, f = .bytes content := by
  cases f with
  | missing => cases h
  | empty =>
    obtain ⟨_, mid, _, h⟩ := Effect.bind_eq_ok_iff.mp h
    cases h
  | bytes content =>
    obtain ⟨_, mid, hopen, hmmap⟩ := Effect.bind_eq_ok_iff.mp h
    obtain ⟨_, rfl⟩ := call_ok hopen
    obtain ⟨rest, rfl⟩ := call_ok hmmap
    exact ⟨⟨rest, rfl⟩, content, rfl⟩

/-- Creation runs three calls, with the empty file in between. -/
theorem mmapCreateRw_ok {α : Type} {zero : α} {set : File α → Session → Session} {s t : Session}
    (hset : ∀ f rest (s : Session), set f { s with faults := rest } = { set f s with faults := rest })
    (h : mmapCreateRw zero set s = (.ok (), t)) :
    ∃ rest, t = { set (.bytes zero) (set .empty s) with faults := rest } := by
  obtain ⟨_, a, ha, h⟩ := Effect.bind_eq_ok_iff.mp h
  obtain ⟨_, rfl⟩ := call_ok ha
  rw [Effect.modify_bind, hset] at h
  obtain ⟨_, b, hb, h⟩ := Effect.bind_eq_ok_iff.mp h
  obtain ⟨_, rfl⟩ := call_ok hb
  rw [Effect.modify_bind, hset] at h
  obtain ⟨rest, rfl⟩ := call_ok h
  exact ⟨rest, by rw [hset]⟩

/-- Either the file was there, and nothing but the mapping is new, or it was
missing and is now full of zero bytes. -/
theorem mmapOpenOrCreate_ok {α : Type} {zero : α} {set : File α → Session → Session}
    {f : File α} {s t : Session}
    (hset : ∀ f rest (s : Session), set f { s with faults := rest } = { set f s with faults := rest })
    (h : mmapOpenOrCreate zero set f s = (.ok (), t)) :
    (∃ content rest, f = .bytes content ∧ t = { s with faults := rest }) ∨
      (f = .missing ∧ ∃ rest, t = { set (.bytes zero) (set .empty s) with faults := rest }) := by
  cases f with
  | missing => exact Or.inr ⟨rfl, mmapCreateRw_ok hset h⟩
  | empty =>
    obtain ⟨_, content, he⟩ := mmapOpen_ok (α := α) (f := .empty) h
    cases he
  | bytes content =>
    obtain ⟨⟨rest, ht⟩, _⟩ := mmapOpen_ok (α := α) (f := .bytes content) h
    exact Or.inl ⟨content, rest, rfl, ht⟩

theorem openSegment_ok {segIdx : Nat} {s t : Session} (h : openSegment segIdx s = (.ok (), t)) :
    Quiet s t := by
  simp only [openSegment, Effect.read_bind] at h
  split at h
  next => cases h; exact Quiet.refl s
  next =>
    obtain ⟨_, mid, ho, h⟩ := Effect.bind_eq_ok_iff.mp h
    obtain ⟨⟨_, rfl⟩, _⟩ := mmapOpen_ok ho
    cases h
    exact ⟨rfl, rfl, fun _ h => h⟩

@[simp] theorem setSegment_segments (s : Session) (i j : Nat) (f : File Segment) :
    (s.setSegment i f).files.segments j = if j = i then f else s.files.segments j := by
  simp [Session.setSegment, Function.update_apply]

theorem row_eq_iff {a b : Nat} : a = b ↔ a / kDataSegmentCapacity = b / kDataSegmentCapacity ∧
    a % kDataSegmentCapacity = b % kDataSegmentCapacity := by
  simp only [kDataSegmentCapacity]
  omega

/-- Creating the file of a segment leaves every row as it was: a missing file
reads as zero bytes too. -/
theorem openOrCreateSegmentForWrite_ok {segIdx : Nat} {s t : Session}
    (h : openOrCreateSegmentForWrite segIdx s = (.ok (), t)) : Quiet s t := by
  simp only [openOrCreateSegmentForWrite, Effect.read_bind] at h
  split at h
  next => cases h; exact Quiet.refl s
  next =>
    obtain ⟨_, mid, ho, h⟩ := Effect.bind_eq_ok_iff.mp h
    cases h
    rcases mmapOpenOrCreate_ok (by intros; rfl) ho with ⟨_, _, _, rfl⟩ | ⟨missing, _, rfl⟩
    · exact ⟨rfl, rfl, fun _ h => h⟩
    · refine ⟨?_, rfl, ?_⟩
      · simp only [Session.image, Image.mk.injEq]
        refine ⟨rfl, ?_, rfl, rfl, rfl, rfl⟩
        funext r
        simp only [Session.rowAt, setSegment_segments]
        by_cases hr : r / kDataSegmentCapacity = segIdx
        · simp [hr, missing, File.content]
        · simp [hr]
      · intro i h
        obtain ⟨rows, hi⟩ := h
        have ne : i ≠ segIdx := fun eq => by simp [eq, missing] at hi
        exact ⟨rows, by simpa [ne] using hi⟩

theorem putRow_rowAt (s : Session) (row : Nat) (entry : ParsedEntry) :
    (s.putRow row entry).rowAt = Function.update s.rowAt row entry := by
  funext r
  simp only [Session.rowAt, Session.putRow, setSegment_segments, Function.update_apply]
  by_cases hseg : r / kDataSegmentCapacity = row / kDataSegmentCapacity
  · simp only [hseg, if_true, File.content, Function.update_apply]
    by_cases hloc : r % kDataSegmentCapacity = row % kDataSegmentCapacity
    · simp [row_eq_iff.mpr ⟨hseg, hloc⟩]
    · have ne : r ≠ row := fun eq => hloc (by rw [eq])
      simp [hloc, ne]
  · have ne : r ≠ row := fun eq => hseg (by rw [eq])
    simp [hseg, ne]

theorem putRow_image (s : Session) (row : Nat) (entry : ParsedEntry) :
    (s.putRow row entry).image = { s.image with row := Function.update s.image.row row entry } := by
  simp only [Session.image, putRow_rowAt]
  rfl

theorem putRow_keeps (s : Session) (row : Nat) (entry : ParsedEntry) (i : Nat)
    (h : s.HasSegment i) : (s.putRow row entry).HasSegment i := by
  obtain ⟨rows, hi⟩ := h
  simp only [Session.HasSegment, Session.putRow, setSegment_segments]
  split
  next => exact ⟨_, rfl⟩
  next => exact ⟨rows, hi⟩

theorem putRow_hasSegment (s : Session) (row : Nat) (entry : ParsedEntry) :
    (s.putRow row entry).HasSegment (row / kDataSegmentCapacity) := by
  simp only [Session.HasSegment, Session.putRow, setSegment_segments, if_true]
  exact ⟨_, rfl⟩

theorem advance_image (s : Session) (row : Nat) : (s.advance row).image =
    { s.image with nextIndex := if row = s.writeNext then s.writeNext + 1 else s.writeNext } := by
  unfold Session.advance
  split <;> rfl

theorem advance_files (s : Session) (row : Nat) : (s.advance row).files = s.files := by
  unfold Session.advance
  split <;> rfl

theorem readAt_ok {row : Nat} {e : ParsedEntry} {s t : Session} (h : readAt row s = (.ok e, t)) :
    Quiet s t ∧ e = s.rowAt row := by
  obtain ⟨_, mid, ho, h⟩ := Effect.bind_eq_ok_iff.mp h
  cases h
  have quiet := openSegment_ok ho
  exact ⟨quiet, congrFun (congrArg Image.row quiet.image) row⟩

theorem readEntryAt_ok {row : Nat} {e : ParsedEntry} {s t : Session}
    (h : readEntryAt row s = (.ok e, t)) :
    Quiet s t ∧ e = s.rowAt row ∧ row < s.header.writeCount := by
  simp only [readEntryAt, Effect.read_bind] at h
  split at h
  next => cases h
  next bound => exact ⟨(readAt_ok h).1, (readAt_ok h).2, by omega⟩

end FsCore
