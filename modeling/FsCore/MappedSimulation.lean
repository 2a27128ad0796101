import FsCore.MappedFiles

namespace FsCore

/-- The object of a header file, as the code leaves it. -/
def MmapHeader.constract (h : MmapHeader) : MmapHeaderConstract where
  writeCount := Int32.ofNat h.writeCount
  capacity := UInt32.ofNat h.capacity
  segmentCount := 0
  reserved := Vector.replicate 12 0
  sourceFilePathLen := UInt16.ofNat h.sourceFilePath.length
  sourceFilePath := Vector.ofFn fun i => h.sourceFilePath.getD i nul

structure MmapHeader.Fits (h : MmapHeader) : Prop where
  count : h.writeCount < 2 ^ 31
  capacity : h.capacity < 2 ^ 32
  path : h.sourceFilePath.length ≤ kMmapSourceFilePathCapacity
  chars : ∀ c ∈ h.sourceFilePath, c.toNat < 256

def MmapHeader.bytes (h : MmapHeader) : List UInt8 := headerCodec.encode h.constract

def Segment.bytes (rows : Segment) : List UInt8 := parsedEntryCodec.cells rows 0 kDataSegmentCapacity

def File.mapped {α : Type} (bytes : α → List UInt8) : File α → Option (List UInt8)
  | .missing => none
  | .empty => some []
  | .bytes content => some (bytes content)

/-- The bytes behind the files of a session. -/
def Session.mapped (s : Session) : MappedStore where
  header := s.files.header.mapped MmapHeader.bytes
  segments i := (s.files.segments i).mapped Segment.bytes
  writeNext := s.writeNext
  writeMapped := s.writeMapped
  readMapped := s.readMapped
  faults := s.faults

/-- What the bytes can hold, and that the segments that are mapped are there. -/
structure Session.Fits (s : Session) : Prop where
  header : ∀ h, s.files.header = .bytes h → h.Fits
  rows : ∀ i rows, s.files.segments i = .bytes rows → ∀ j, parsedEntryCodec.Fits (rows j)
  reads : ∀ i ∈ s.readMapped, s.HasSegment i
  writes : ∀ i ∈ s.writeMapped, s.HasSegment i

def Represents (inv : Session → Prop) (m : MappedStore) (s : Session) : Prop := m = s.mapped ∧ inv s

section Header

variable {h : MmapHeader} {s : Session}

theorem constract_fits (fits : h.Fits) : headerCodec.Fits h.constract := by
  have chars : ∀ c ∈ h.constract.sourceFilePath.toList, c.toNat < 256 := by
    intro c hc
    simp only [MmapHeader.constract, Vector.toList_ofFn, List.mem_ofFn,
      List.getD_eq_getElem?_getD] at hc
    obtain ⟨i, rfl⟩ := hc
    cases at' : h.sourceFilePath[i.val]? with
    | none => decide
    | some c => exact fits.chars c (List.mem_of_getElem? at')
  exact ⟨UInt32.toNat_lt _, UInt32.toNat_lt _, UInt32.toNat_lt _, fun _ _ => trivial,
    UInt16.toNat_lt _, chars⟩

theorem constract_mapped (there : s.files.header = .bytes h) (fits : h.Fits) :
    s.mapped.constract = h.constract := by
  simp only [MappedStore.constract, Session.mapped, there, File.mapped, Option.getD_some,
    MmapHeader.bytes]
  exact headerCodec.load_encode (constract_fits fits)

theorem setConstract_mapped (there : s.files.header = .bytes h) (next : MmapHeader) :
    s.mapped.setConstract next.constract = (s.setHeader (.bytes next)).mapped := by
  have stored : headerCodec.store 0 next.constract h.bytes = next.bytes := headerCodec.store_encode _ _
  simp only [MappedStore.setConstract, MappedStore.setHeader, Session.mapped, Session.setHeader,
    there, File.mapped, Option.getD_some, stored]

theorem totalRows_constract (fits : h.Fits) : h.constract.totalRows = h.writeCount := by
  have small := fits.count
  rw [MmapHeaderConstract.totalRows, MmapHeader.constract, Int32.toInt_ofNat_of_lt small]
  omega

theorem header_bytes (h : MmapHeader) (fits : h.Fits) : h.bytes =
    toBytes 4 h.writeCount ++ toBytes 4 h.capacity ++ List.replicate 16 0 ++
      toBytes 2 h.sourceFilePath.length ++ h.sourceFilePath.flatMap Codec.char.encode ++
      List.replicate (kMmapSourceFilePathCapacity - h.sourceFilePath.length) 0 := by
  have count : (Int32.ofNat h.writeCount).toUInt32.toNat = h.writeCount := by
    have small := fits.count
    exact UInt32.toNat_ofNat_of_lt' (by rw [UInt32.size]; omega)
  have capacity : (UInt32.ofNat h.capacity).toNat = h.capacity :=
    UInt32.toNat_ofNat_of_lt' fits.capacity
  have length : (UInt16.ofNat h.sourceFilePath.length).toNat = h.sourceFilePath.length :=
    UInt16.toNat_ofNat_of_lt' (lt_of_le_of_lt fits.path (by decide))
  have path :
    (Vector.ofFn fun i : Fin kMmapSourceFilePathCapacity => h.sourceFilePath.getD i nul).toList =
      h.sourceFilePath ++ List.replicate
        (kMmapSourceFilePathCapacity - h.sourceFilePath.length) nul := by
    have := fits.path
    refine List.ext_getElem (by simp; omega) fun i hi hj => ?_
    simp only [Vector.toList_ofFn, List.getElem_ofFn, List.getElem_append, List.getElem_replicate]
    split
    next inside => rw [List.getD_eq_getElem _ _ inside]
    next outside => rw [List.getD_eq_default _ _ (not_lt.mp outside)]
  have blank (k : Nat) : (List.replicate k nul).flatMap Codec.char.encode = List.replicate k 0 := by
    induction k with
    | zero => rfl
    | succ k ih =>
      rw [List.replicate_succ, List.flatMap_cons, ih]
      rfl
  calc
    h.bytes = toBytes 4 (Int32.ofNat h.writeCount).toUInt32.toNat ++
      (toBytes 4 (UInt32.ofNat h.capacity).toNat ++
        (toBytes 4 (0 : UInt32).toNat ++ ((Codec.byte.vector 12).encode (Vector.replicate 12 0) ++
          (toBytes 2 (UInt16.ofNat h.sourceFilePath.length).toNat ++
            (Vector.ofFn fun i : Fin kMmapSourceFilePathCapacity =>
              h.sourceFilePath.getD i nul).toList.flatMap Codec.char.encode)))) := by
      simp only [MmapHeader.bytes, headerCodec, Codec.along, Codec.pair, Codec.int32,
        Codec.uint32, Codec.uint16, Codec.word, MmapHeader.constract, Codec.vector]
    _ = _ := by
      have reserved : (Codec.byte.vector 12).encode (Vector.replicate 12 0) = List.replicate 12 0 :=
        Codec.vector_zero rfl 12
      have zeros : List.replicate 16 (0 : UInt8) = toBytes 4 (0 : UInt32).toNat ++
        List.replicate 12 0 := rfl
      rw [count, capacity, length, path, List.flatMap_append, blank, reserved, zeros]
      simp only [List.append_assoc]

theorem header_zero_fits : MmapHeader.zero.Fits :=
  ⟨by decide, by decide, Nat.zero_le _, fun _ hc => (List.not_mem_nil hc).elim⟩

theorem header_zero : MmapHeader.zero.bytes = List.replicate headerCodec.width 0 := by
  rw [header_bytes _ header_zero_fits]
  decide +kernel

end Header

section Files

variable {inv : Session → Prop} {α : Type} {zero : α} {setM : List UInt8 → MappedStore → MappedStore}
  {setS : File α → Session → Session} {size : Nat} {bytes : α → List UInt8}

theorem call_simulates (closed : ∀ s rest, inv s → inv { s with faults := rest }) (name : String) :
    Effect.Simulates (Represents inv) (Mapped.call name) (call name) := by
  intro m s h
  obtain ⟨rfl, hs⟩ := h
  unfold Effect.Agrees Mapped.call call
  rcases hf : s.faults with _ | ⟨fails, rest⟩
  · simp only [Session.mapped, hf]
    exact ⟨trivial, by rw [Session.mapped, hf], hs⟩
  · cases fails <;> simp only [Session.mapped, hf] <;> exact ⟨trivial, rfl, closed s rest hs⟩

theorem mmapOpen_simulates (closed : ∀ s rest, inv s → inv { s with faults := rest })
    (some : ∀ content, bytes content ≠ []) (f : File α) :
    Effect.Simulates (Represents inv) (Mapped.mmapOpen (f.mapped bytes)) (mmapOpen f) := by
  cases f with
  | missing => exact fun m s h => .raise _ h
  | empty => exact (call_simulates closed _).bind fun _ m s h => .raise _ h
  | bytes content =>
    refine (call_simulates closed _).bind fun _ => ?_
    rw [if_neg (mt List.length_eq_zero_iff.mp (some content))]
    exact call_simulates closed _

theorem mmapCreateRw_simulates (closed : ∀ s rest, inv s → inv { s with faults := rest })
    (empty : ∀ s, inv s → Represents inv (setM [] s.mapped) (setS .empty s))
    (full : ∀ s, inv s →
      Represents inv (setM (List.replicate size 0) s.mapped) (setS (.bytes zero) s)) :
    Effect.Simulates (Represents inv) (Mapped.mmapCreateRw size setM) (mmapCreateRw zero setS) := by
  refine (call_simulates closed _).bind fun _ => .bind ?_ fun _ =>
    (call_simulates closed _).bind fun _ =>
    .bind ?_ fun _ => call_simulates closed _
  · intro m s h
    obtain ⟨rfl, hs⟩ := h
    exact .modify (empty s hs)
  · intro m s h
    obtain ⟨rfl, hs⟩ := h
    exact .modify (full s hs)

theorem mmapOpenOrCreate_simulates (closed : ∀ s rest, inv s → inv { s with faults := rest })
    (some : ∀ content, bytes content ≠ []) (f : File α) (create : f = .missing →
      Effect.Simulates (Represents inv) (Mapped.mmapCreateRw size setM) (mmapCreateRw zero setS)) :
    Effect.Simulates (Represents inv) (Mapped.mmapOpenOrCreate size setM (f.mapped bytes))
      (mmapOpenOrCreate zero setS f) := by
  cases f with
  | missing => exact create rfl
  | empty => exact mmapOpen_simulates closed some .empty
  | bytes content => exact mmapOpen_simulates closed some (.bytes content)

end Files

section Segments

variable {s : Session} {i : Nat}

theorem segment_bytes_length (rows : Segment) : rows.bytes.length = Mapped.kSegmentBytes := by
  rw [Segment.bytes, Codec.cells_length, Mapped.kSegmentBytes]

theorem segment_bytes_zero : Segment.zero.bytes = List.replicate Mapped.kSegmentBytes 0 := by
  unfold Segment.bytes Segment.zero Mapped.kSegmentBytes
  exact parsedEntryCodec.cells_zero parsedEntryCodec_zero 0 kDataSegmentCapacity

theorem setSegment_mapped (s : Session) (i : Nat) {f : File Segment} {bytes : List UInt8}
    (h : f.mapped Segment.bytes = some bytes) :
    s.mapped.setSegment i bytes = (s.setSegment i f).mapped := by
  have segments : Function.update s.mapped.segments i (some bytes) =
    (s.setSegment i f).mapped.segments := by
    funext j
    simp only [Session.mapped, setSegment_segments, Function.update_apply]
    split
    next => exact h.symm
    next => rfl
  rw [MappedStore.setSegment, segments]
  rfl

theorem Session.Fits.setSegment {f : File Segment} (fits : s.Fits)
    (rows : ∀ r, f = .bytes r → ∀ j, parsedEntryCodec.Fits (r j))
    (kept : ∀ j, s.HasSegment j → (j ∈ s.readMapped ∨ j ∈ s.writeMapped) →
      (s.setSegment i f).HasSegment j) : (s.setSegment i f).Fits := by
  refine ⟨fits.header, fun j r hr => ?_, fun j hj => kept j (fits.reads j hj) (.inl hj),
    fun j hj => kept j (fits.writes j hj) (.inr hj)⟩
  rw [setSegment_segments] at hr
  split at hr
  next => exact rows r hr
  next => exact fits.rows j r hr

theorem bytes_ne_nil (rows : Segment) : rows.bytes ≠ [] := by
  intro empty
  have length := segment_bytes_length rows
  rw [empty, List.length_nil, Mapped.kSegmentBytes] at length
  exact absurd length (by decide)

theorem header_bytes_ne_nil (h : MmapHeader) : h.bytes ≠ [] := by
  intro empty
  have length : h.bytes.length = headerCodec.width := headerCodec.encode_length _
  rw [empty] at length
  exact absurd length (by decide)

theorem Session.Fits.faults (fits : s.Fits) (rest : List Bool) :
    ({ s with faults := rest } : Session).Fits :=
  ⟨fits.header, fits.rows, fits.reads, fits.writes⟩

abbrev Holds := Represents Session.Fits

/-- A segment that no view has mapped: its file may be created. -/
def Session.FitsWithout (i : Nat) (s : Session) : Prop := s.Fits ∧ i ∉ s.readMapped ∧ i ∉ s.writeMapped

theorem setSegment_new {f : File Segment} {bytes : List UInt8} (h : s.FitsWithout i)
    (mapped : f.mapped Segment.bytes = some bytes) (rows : ∀ r, f = .bytes r → r = Segment.zero) :
    Represents (Session.FitsWithout i) (s.mapped.setSegment i bytes) (s.setSegment i f) := by
  obtain ⟨fits, reads, writes⟩ := h
  refine ⟨setSegment_mapped s i mapped,
    fits.setSegment (fun r hr j => ?_) (fun j hj known => ?_), reads, writes⟩
  · rw [rows r hr]
    exact parsedEntryCodec_zero_fits
  · have other : j ≠ i := by
      rintro rfl
      exact known.elim reads writes
    obtain ⟨r, hr⟩ := hj
    refine ⟨r, ?_⟩
    rw [setSegment_segments, if_neg other, hr]

theorem createSegment_simulates (i : Nat) : Effect.Simulates (Represents (Session.FitsWithout i))
    (Mapped.mmapCreateRw Mapped.kSegmentBytes (MappedStore.setSegment i))
      (mmapCreateRw Segment.zero (Session.setSegment i)) := by
  refine mmapCreateRw_simulates (fun s rest h => ⟨h.1.faults rest, h.2⟩) (fun s h => ?_) (fun s h => ?_)
  · exact setSegment_new h rfl fun r hr => by cases hr
  · refine setSegment_new h ?_ fun r hr => (File.bytes.inj hr).symm
    rw [File.mapped, segment_bytes_zero]

theorem openOrCreateSegmentForWrite_known {t : Session}
    (h : openOrCreateSegmentForWrite i s = (.ok (), t)) : i ∈ t.writeMapped := by
  simp only [openOrCreateSegmentForWrite, Effect.read_bind] at h
  split at h
  next known =>
    cases h
    exact known
  next =>
    obtain ⟨_, mid, _, h⟩ := Effect.bind_eq_ok_iff.mp h
    cases h
    exact List.mem_cons_self

theorem openSegment_known {t : Session} (h : openSegment i s = (.ok (), t)) : i ∈ t.readMapped := by
  simp only [openSegment, Effect.read_bind] at h
  split at h
  next known =>
    cases h
    exact known
  next =>
    obtain ⟨_, mid, _, h⟩ := Effect.bind_eq_ok_iff.mp h
    cases h
    exact List.mem_cons_self

theorem openOrCreateSegmentForWrite_agrees (fits : s.Fits) (i : Nat) :
    Effect.Agrees Holds (Mapped.openOrCreateSegmentForWrite i)
      (openOrCreateSegmentForWrite i) s.mapped s := by
  refine .read (.ite Iff.rfl (fun _ => .pure _ ⟨rfl, fits⟩) fun unknown => .bind ?_ ?_)
  · by_cases missing : s.files.segments i = .missing
    · have none : ¬ s.HasSegment i := fun ⟨r, hr⟩ => by rw [missing] at hr; cases hr
      have new : s.FitsWithout i := ⟨fits, fun known => none (fits.reads i known), unknown⟩
      have create := createSegment_simulates i s.mapped s ⟨rfl, new⟩
      change Effect.Agrees Holds
        (Mapped.mmapOpenOrCreate _ _ ((s.files.segments i).mapped Segment.bytes)) _ _ _
      rw [missing]
      exact create.weaken fun _ _ h => ⟨h.1, h.2.1⟩
    · exact mmapOpenOrCreate_simulates (fun _ rest h => h.faults rest) bytes_ne_nil _
        (fun h => absurd h missing) _ _
        ⟨rfl, fits⟩
  · rintro _ _ t _ run ⟨rfl, later⟩
    have here : t.HasSegment i := by
      rcases mmapOpenOrCreate_ok (by intros; rfl) run with ⟨r, _, there, rfl⟩ | ⟨_, _, rfl⟩
      · exact ⟨r, there⟩
      · exact ⟨Segment.zero, by simp⟩
    refine .modify ⟨rfl, later.header, later.rows, later.reads, fun j hj => ?_⟩
    rcases List.mem_cons.mp hj with rfl | hj
    · exact here
    · exact later.writes j hj

theorem openSegment_agrees (fits : s.Fits) (i : Nat) :
    Effect.Agrees Holds (Mapped.openSegment i) (openSegment i) s.mapped s := by
  refine .read (.ite Iff.rfl (fun _ => .pure _ ⟨rfl, fits⟩) fun _ => .bind ?_ ?_)
  · exact mmapOpen_simulates (fun _ rest h => h.faults rest) bytes_ne_nil _ _ _ ⟨rfl, fits⟩
  · rintro _ _ t _ run ⟨rfl, later⟩
    obtain ⟨⟨_, rfl⟩, here⟩ := mmapOpen_ok run
    refine .modify ⟨rfl, later.header, later.rows, fun j hj => ?_, later.writes⟩
    rcases List.mem_cons.mp hj with rfl | hj
    · exact here
    · exact later.reads j hj

/-- A row of a mapped segment lies inside of the mapping. -/
theorem row_inside {rows : Segment} {row : Nat} :
    (row % kDataSegmentCapacity + 1) * parsedEntryCodec.width ≤ rows.bytes.length := by
  rw [segment_bytes_length]
  exact Nat.mul_le_mul_right _ (Nat.mod_lt row (by decide))

theorem segment_mapped {rows : Segment} (here : s.files.segments i = .bytes rows) :
    (s.mapped.segments i).getD [] = rows.bytes := by
  simp only [Session.mapped, here, File.mapped, Option.getD_some]

theorem load_mapped (fits : s.Fits) {row : Nat} {rows : Segment}
    (here : s.files.segments (row / kDataSegmentCapacity) = .bytes rows) :
    parsedEntryCodec.load (row % kDataSegmentCapacity) rows.bytes = s.rowAt row := by
  rw [Session.rowAt, here, Segment.bytes,
    Codec.load_cells _ (Nat.mod_lt row (by decide)) (fits.rows _ rows here _)]
  rfl

theorem loadRow_agrees (fits : s.Fits) {row : Nat} (here : s.HasSegment (row / kDataSegmentCapacity)) :
    Effect.Agrees Holds (Mapped.loadRow (row / kDataSegmentCapacity) (row % kDataSegmentCapacity))
      (pure (s.rowAt row)) s.mapped s := by
  obtain ⟨rows, here⟩ := here
  unfold Effect.Agrees Mapped.loadRow
  simp only [Effect.read_bind, segment_mapped here, if_pos row_inside, load_mapped fits here]
  exact ⟨rfl, rfl, fits⟩

theorem storeRow_agrees (fits : s.Fits) {row : Nat}
    (here : s.HasSegment (row / kDataSegmentCapacity)) {entry : ParsedEntry}
    (chars : parsedEntryCodec.Fits entry) :
    Effect.Agrees Holds (Mapped.storeRow (row / kDataSegmentCapacity)
      (row % kDataSegmentCapacity) entry)
      (Effect.modify (Session.putRow row entry)) s.mapped s := by
  obtain ⟨rows, here⟩ := here
  unfold Effect.Agrees Mapped.storeRow
  simp only [Effect.read_bind, segment_mapped here, if_pos row_inside]
  refine ⟨rfl, setSegment_mapped s _ ?_, fits.setSegment (fun r hr j => ?_) fun j hj _ => ?_⟩
  · rw [File.mapped, here, File.content, Segment.bytes, Segment.bytes,
      Codec.store_cells _ (Nat.mod_lt row (by decide))]
  · cases hr
    rw [here, File.content, Function.update_apply]
    split
    next => exact chars
    next => exact fits.rows _ rows here j
  · obtain ⟨r, hr⟩ := hj
    simp only [Session.HasSegment, setSegment_segments]
    split
    next => exact ⟨_, rfl⟩
    next => exact ⟨r, hr⟩

end Segments

section Operations

variable {s : Session} {h : MmapHeader} {entry : ParsedEntry}

theorem readAt_agrees (fits : s.Fits) (row : Nat) :
    Effect.Agrees Holds (Mapped.readAt row) (readAt row) s.mapped s := by
  rw [Mapped.readAt, Mapped.record, if_neg (not_le.mpr (Nat.mod_lt row (by decide)))]
  refine (openSegment_agrees fits _).bind ?_
  rintro _ _ t _ run ⟨rfl, later⟩
  exact loadRow_agrees later (later.reads _ (openSegment_known run))

/-- What is counted in the header is counted in its bytes. -/
theorem totalRows_mapped (fits : s.Fits) (there : s.files.header = .bytes h) :
    s.mapped.constract.totalRows = s.header.writeCount := by
  rw [constract_mapped there (fits.header h there), totalRows_constract (fits.header h there),
    Session.header, there]
  rfl

theorem readEntryAt_agrees (fits : s.Fits) (there : s.files.header = .bytes h) (row : Nat) :
    Effect.Agrees Holds (Mapped.readEntryAt row) (readEntryAt row) s.mapped s := by
  refine .read (.ite ?_ (fun _ => .raise _ ⟨rfl, fits⟩) fun _ => readAt_agrees fits row)
  rw [totalRows_mapped fits there]

theorem readRows_agrees (fits : s.Fits) (there : s.files.header = .bytes h) (rows : List Nat) :
    Effect.Agrees Holds (Mapped.readRows rows) (readRows rows) s.mapped s := by
  induction rows generalizing s with
  | nil => exact .pure _ ⟨rfl, fits⟩
  | cons row rest ih =>
    refine (readEntryAt_agrees fits there row).bind ?_
    rintro e _ t _ run ⟨rfl, later⟩
    have still : t.files.header = .bytes h := (readEntryAt_ok run).1.headerFile.trans there
    refine (ih later still).bind ?_
    rintro es _ u _ _ ⟨rfl, last⟩
    exact .pure _ ⟨rfl, last⟩

theorem readRowsFrom_agrees (fits : s.Fits) (row n : Nat) :
    Effect.Agrees Holds (Mapped.readRowsFrom row n) (readRowsFrom row n) s.mapped s := by
  induction n generalizing s row with
  | zero => exact .pure _ ⟨rfl, fits⟩
  | succ n ih =>
    refine (readAt_agrees fits row).bind ?_
    rintro e _ t _ _ ⟨rfl, later⟩
    refine (ih later (row + 1)).bind ?_
    rintro es _ u _ _ ⟨rfl, last⟩
    exact .pure _ ⟨rfl, last⟩

theorem readPage_agrees (fits : s.Fits) (there : s.files.header = .bytes h) (offset count : Nat) :
    Effect.Agrees Holds (Mapped.readPage offset count) (readPage offset count) s.mapped s := by
  unfold Mapped.readPage readPage
  refine .read (.ite Iff.rfl (fun _ => .pure _ ⟨rfl, fits⟩) fun _ => ?_)
  rw [totalRows_mapped fits there]
  exact .ite Iff.rfl (fun _ => .raise _ ⟨rfl, fits⟩) fun _ => readRowsFrom_agrees fits _ _

theorem setHeader_holds (fits : s.Fits) (there : s.files.header = .bytes h) (next : MmapHeader)
    (nextFits : next.Fits) :
    Holds (s.mapped.setConstract next.constract) (s.setHeader (.bytes next)) := by
  refine ⟨setConstract_mapped there next, fun g hg => ?_, fits.rows, fits.reads, fits.writes⟩
  cases hg
  exact nextFits

theorem header_of_file (there : s.files.header = .bytes h) : s.header = h := by
  rw [Session.header, there]
  rfl

theorem setWriteCount_agrees (fits : s.Fits) (there : s.files.header = .bytes h) {value : Nat}
    (small : value < 2 ^ 31) :
    Effect.Agrees Holds (Mapped.setWriteCount value) (setWriteCount value) s.mapped s := by
  have old := fits.header h there
  have next := setHeader_holds fits there { h with writeCount := value } ⟨small, old.capacity,
    old.path, old.chars⟩
  refine .modify ?_
  rw [constract_mapped there old, header_of_file there]
  exact next

theorem setSourceFilePath_agrees (fits : s.Fits) (there : s.files.header = .bytes h) {value : Text}
    (chars : ∀ c ∈ value, c.toNat < 256) :
    Effect.Agrees Holds (Mapped.setSourceFilePath value) (setSourceFilePath value) s.mapped s := by
  have old := fits.header h there
  have length : (value.take kMmapSourceFilePathCapacity).length =
    min value.length kMmapSourceFilePathCapacity := by
    rw [List.length_take, Nat.min_comm]
  have next := setHeader_holds fits there
    { h with sourceFilePath := value.take kMmapSourceFilePathCapacity }
    ⟨old.count, old.capacity, by rw [length]; exact Nat.min_le_right _ _, fun c hc =>
      chars c (List.mem_of_mem_take hc)⟩
  have cut : value.take (min value.length kMmapSourceFilePathCapacity) =
    value.take kMmapSourceFilePathCapacity := by
    rw [List.take_eq_take_iff]
    omega
  refine .modify ?_
  rw [constract_mapped there old, header_of_file there, ← length, length, cut]
  exact length ▸ next

theorem sourceFilePath_mapped (fits : s.Fits) (there : s.files.header = .bytes h) :
    Mapped.sourceFilePath s.mapped = (.ok h.sourceFilePath, s.mapped) := by
  have old := fits.header h there
  have whole : h.constract.sourceFilePathLen.toNat = h.sourceFilePath.length :=
    UInt16.toNat_ofNat_of_lt' (lt_of_le_of_lt old.path (by decide))
  have path : h.constract.sourceFilePath.toList.take h.sourceFilePath.length = h.sourceFilePath := by
    refine List.ext_getElem ?_ fun i hi hj => ?_
    · simpa using old.path
    · simp [MmapHeader.constract, hj]
  simp only [Mapped.sourceFilePath, Effect.read_bind, constract_mapped there old, whole,
    if_neg (not_lt.mpr old.path), path]
  rfl

theorem writeNextRow_agrees (fits : s.Fits) (chars : parsedEntryCodec.Fits entry) :
    Effect.Agrees Holds (Mapped.writeNextRow entry) (writeNextRow entry) s.mapped s := by
  refine .read ((openOrCreateSegmentForWrite_agrees fits _).bind ?_)
  rintro _ _ t _ run ⟨rfl, later⟩
  refine (storeRow_agrees later (later.writes _ (openOrCreateSegmentForWrite_known run)) chars).bind ?_
  rintro _ _ u _ _ ⟨rfl, last⟩
  exact .ite Iff.rfl (fun _ => ⟨rfl, rfl, last.header, last.rows, last.reads, last.writes⟩) fun _ =>
    .raise _ ⟨rfl, last⟩

theorem advance_mapped (s : Session) (row : Nat) :
    Mapped.advance row s.mapped = (s.advance row).mapped := by
  unfold Mapped.advance Session.advance
  by_cases last : row = s.writeNext
  · rw [if_pos last, if_pos (show row = s.mapped.writeNext from last)]
    rfl
  · rw [if_neg last, if_neg (show ¬ row = s.mapped.writeNext from last)]

theorem Session.Fits.advance (fits : s.Fits) (row : Nat) : (s.advance row).Fits := by
  unfold Session.advance
  split
  next => exact ⟨fits.header, fits.rows, fits.reads, fits.writes⟩
  next => exact fits

theorem writeAt_agrees (fits : s.Fits) (chars : parsedEntryCodec.Fits entry) (row : Nat) :
    Effect.Agrees Holds (Mapped.writeAt row entry) (writeAt row entry) s.mapped s := by
  refine .read (.ite Iff.rfl (fun _ => .raise _ ⟨rfl, fits⟩) fun _ =>
    (openOrCreateSegmentForWrite_agrees fits _).bind ?_)
  rintro _ _ t _ run ⟨rfl, later⟩
  refine (storeRow_agrees later (later.writes _ (openOrCreateSegmentForWrite_known run)) chars).bind ?_
  rintro _ _ u _ _ ⟨rfl, last⟩
  exact .modify ⟨advance_mapped u row, last.advance row⟩

theorem updateRow_agrees (fits : s.Fits) (there : s.files.header = .bytes h)
    (chars : parsedEntryCodec.Fits entry) (row : Nat) :
    Effect.Agrees Holds (Mapped.updateRow row entry) (updateRow row entry) s.mapped s := by
  refine .read (.ite ?_ (fun _ => .raise _ ⟨rfl, fits⟩) fun _ => writeAt_agrees fits chars row)
  rw [totalRows_mapped fits there]

theorem writeNextRow_headerFile {row : Nat} {t : Session} (run : writeNextRow entry s = (.ok row, t)) :
    t.files.header = s.files.header := by
  simp only [writeNextRow, Effect.read_bind] at run
  obtain ⟨_, mid, opened, run⟩ := Effect.bind_eq_ok_iff.mp run
  rw [Effect.modify_bind] at run
  split at run
  next =>
    cases run
    exact (openOrCreateSegmentForWrite_ok opened).headerFile
  next => cases run

theorem appendEntry_agrees (fits : s.Fits) (there : s.files.header = .bytes h)
    (chars : parsedEntryCodec.Fits entry) :
    Effect.Agrees Holds (Mapped.appendEntry entry) (appendEntry entry) s.mapped s := by
  refine (writeNextRow_agrees fits chars).bind ?_
  rintro row _ t _ run ⟨rfl, later⟩
  obtain ⟨rfl, small, -⟩ := writeNextRow_ok run
  refine (setWriteCount_agrees later ((writeNextRow_headerFile run).trans there) small).bind ?_
  rintro _ _ u _ _ ⟨rfl, last⟩
  exact .pure _ ⟨rfl, last⟩

theorem checkHeader_agrees (fits : s.Fits) (there : s.files.header = .bytes h) :
    Effect.Agrees Holds Mapped.checkHeader (pure ()) s.mapped s := by
  have length : (s.mapped.header.getD []).length = headerCodec.width := by
    simp only [Session.mapped, there, File.mapped, Option.getD_some]
    exact headerCodec.encode_length _
  unfold Effect.Agrees Mapped.checkHeader
  simp only [Effect.read_bind, length, if_neg (lt_irrefl headerCodec.width)]
  exact ⟨rfl, rfl, fits⟩

theorem initCapacity_agrees (fits : s.Fits) (there : s.files.header = .bytes h) :
    Effect.Agrees Holds Mapped.initCapacity (Effect.modify Session.initCapacity) s.mapped s := by
  have old := fits.header h there
  have same : s.mapped.constract.capacity = 0 ↔ h.capacity = 0 := by
    rw [constract_mapped there old, ← UInt32.toNat_inj, MmapHeader.constract,
      UInt32.toNat_ofNat_of_lt' old.capacity]
    rfl
  have next := setHeader_holds fits there { h with capacity := kDataSegmentCapacity }
    ⟨old.count, show kDataSegmentCapacity < 2 ^ 32 by decide, old.path, old.chars⟩
  unfold Effect.Agrees Mapped.initCapacity
  simp only [Effect.read_bind, Effect.modify_apply, Session.initCapacity, header_of_file there, same]
  by_cases new : h.capacity = 0
  · rw [if_pos new, if_pos new, constract_mapped there old]
    exact ⟨rfl, next⟩
  · rw [if_neg new, if_neg new]
    exact ⟨rfl, rfl, fits⟩

theorem createHeader_simulates :
    Effect.Simulates Holds (Mapped.mmapCreateRw headerCodec.width MappedStore.setHeader)
    (mmapCreateRw MmapHeader.zero Session.setHeader) := by
  refine mmapCreateRw_simulates (fun s rest h => h.faults rest) (fun s fits => ?_) (fun s fits => ?_)
  · exact ⟨rfl, fun g hg => (by cases hg), fits.rows, fits.reads, fits.writes⟩
  · refine ⟨?_, fun g hg => ?_, fits.rows, fits.reads, fits.writes⟩
    · rw [← header_zero]
      rfl
    · cases hg
      exact header_zero_fits

theorem openHeaderRw_agrees (fits : s.Fits) :
    Effect.Agrees Holds Mapped.openHeaderRw openHeaderRw s.mapped s := by
  refine .read (.bind (mmapOpenOrCreate_simulates (fun s rest h => h.faults rest)
    header_bytes_ne_nil s.files.header
    (fun _ => createHeader_simulates) _ _ ⟨rfl, fits⟩) ?_)
  rintro _ _ t _ run ⟨rfl, later⟩
  obtain ⟨h, there⟩ : ∃ h, t.files.header = .bytes h := by
    rcases mmapOpenOrCreate_ok (by intros; rfl) run with ⟨h, _, there, rfl⟩ | ⟨_, _, rfl⟩
    · exact ⟨h, there⟩
    · exact ⟨MmapHeader.zero, rfl⟩
  have rest : Effect.Agrees Holds (Mapped.checkHeader >>= fun _ => Mapped.initCapacity)
      ((pure () : StoreM Unit) >>= fun _ => Effect.modify Session.initCapacity) t.mapped t := by
    refine (checkHeader_agrees later there).bind ?_
    rintro _ _ u _ same ⟨rfl, last⟩
    cases same
    exact initCapacity_agrees last there
  exact rest

theorem openHeaderRo_agrees (fits : s.Fits) :
    Effect.Agrees Holds Mapped.openHeaderRo openHeaderRo s.mapped s := by
  have rest : Effect.Agrees Holds Mapped.openHeaderRo
      (mmapOpen s.files.header >>= fun _ => (pure () : StoreM Unit)) s.mapped s := by
    refine .bind (mmapOpen_simulates (fun s rest h => h.faults rest) header_bytes_ne_nil
      s.files.header _ _ ⟨rfl, fits⟩) ?_
    rintro _ _ t _ run ⟨rfl, later⟩
    obtain ⟨⟨_, rfl⟩, h, there⟩ := mmapOpen_ok run
    exact checkHeader_agrees later there
  unfold Effect.Agrees at rest
  rwa [Effect.bind_pure_unit] at rest

theorem openWriter_agrees (fits : s.Fits) :
    Effect.Agrees Holds Mapped.openWriter openWriter s.mapped s := by
  refine (openHeaderRw_agrees fits).bind ?_
  rintro _ _ t _ _ ⟨rfl, later⟩
  exact openOrCreateSegmentForWrite_agrees later 0

theorem openReader_agrees (fits : s.Fits) :
    Effect.Agrees Holds Mapped.openReader openReader s.mapped s := by
  refine (openHeaderRo_agrees fits).bind ?_
  rintro _ _ t _ _ ⟨rfl, later⟩
  refine .read ?_
  simp only [Session.mapped]
  cases first : t.files.segments 0 with
  | missing => exact .pure _ ⟨rfl, later⟩
  | empty | bytes => exact openSegment_agrees later 0

end Operations

end FsCore
