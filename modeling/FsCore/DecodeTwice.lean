import FsCore.PageCuts

namespace FsCore

section Twice

variable {n : Nat} {row : Nat → ParsedEntry} {d : Decoding} {model : CanDatabaseModel}

theorem length_samples_rowIndex (b : SignalBlobs) (id : UInt32) (name : Text) :
    (b.samples id name).rowIndex.length = b.rowIndex.length / 4 := by
  rw [SignalBlobs.samples, List.length_map, blobToValues_length]

/-- Appending the samples of some rows makes the list of rows longer by as many. -/
theorem length_samples_append (b : SignalBlobs) (decoder : CanDatabaseModel) (id : UInt32) (si : Nat)
    (rows : List Nat) (name : Text) :
    ((b.append (signalChunk decoder row id si rows).blobs).samples id name).rowIndex.length =
      (b.samples id name).rowIndex.length + rows.length := by
  have added : (b.append (signalChunk decoder row id si rows).blobs).rowIndex.length =
      b.rowIndex.length + rows.length * 4 := by
    simp [SignalBlobs.append, signalChunk, DecodedSignalChunk.blobs, toBlob_length]
  rw [length_samples_rowIndex, length_samples_rowIndex, added, Nat.add_mul_div_right _ _ (by decide)]

theorem Filled.unchanged {decoder : CanDatabaseModel} {rows : List Nat} {t u : DecodedTable}
    (filled : Filled decoder row rows t u)
    (silent : ∀ r ∈ rows, decoder.signalCountOf (row r).canId.toNat = 0) (k : SignalKey) :
    blobsAt u k = blobsAt t k := by
  by_cases signal : ∃ id si, si < decoder.signalCountOf id.toNat ∧ keyOf id (signalName si) = k
  · obtain ⟨id, si, low, rfl⟩ := signal
    have none : rows.filter (fun r => (row r).canId = id) = [] := by
      rw [List.filter_eq_nil_iff]
      intro r hr own
      rw [← of_decide_eq_true own, silent r hr] at low
      cases low
    rw [filled.appended id si low, none]
    simp [signalChunk, DecodedSignalChunk.blobs, toBlob, SignalBlobs.append]
  · exact filled.other k fun id si low same => signal ⟨id, si, low, same⟩

/-- A second run over the same store leaves the samples as they are exactly when no row that the
loop reads has signals: it appends every sample again. -/
theorem samples_kept_iff_silent (order order' : ChunkOrder) (reads : d.session.Reads n row)
    (idle : d.db.transaction = none) {error : DecodeError} {first : Decoding}
    (run : canDecoderRun order model d = (.ok error, first)) (success : error.rc = 0) :
    (∀ id name, samplesIn (canDecoderRun order' model first).2.db id name =
      samplesIn first.db id name) ↔
      ∀ r ∈ rowsRead n, (loadDb model).signalCountOf (row r).canId.toNat = 0 := by
  obtain ⟨two, decodes, few⟩ := decodes_of_success reads idle (congrArg Prod.fst run) success
  obtain ⟨e, run', reads', idle', -⟩ := canDecoderRun_filled order two decodes few reads idle
  cases run.symm.trans run'
  obtain ⟨second, again, -, -, filled⟩ := canDecoderRun_filled order' two decodes few reads' idle'
  rw [again]
  constructor
  · intro kept r hr
    by_contra signals
    have low : 0 < (loadDb model).signalCountOf (row r).canId.toNat := Nat.pos_of_ne_zero signals
    have same := congrArg (fun c => c.rowIndex.length) (kept (row r).canId (signalName 0))
    rw [samplesIn, samplesIn, filled.appended _ _ low, length_samples_append] at same
    have own : r ∈ (rowsRead n).filter fun q => (row q).canId = (row r).canId :=
      List.mem_filter.mpr ⟨hr, decide_eq_true rfl⟩
    have some' := List.length_pos_of_mem own
    omega
  · intro silent id name
    rw [samplesIn, samplesIn, filled.unchanged silent]

end Twice

theorem samples_kept_iff_silent_sample :
    let s := (storeSession [.writeEntries [sampleRecord, sampleRecord]] Session.fresh).2
    let first := (canDecoderRun keepOrder sampleModel ⟨s, .empty⟩).2
    (canDecoderRun keepOrder sampleModel ⟨s, .empty⟩).1 = .ok ⟨0, []⟩ ∧
    ((∀ id name, samplesIn (canDecoderRun keepOrder sampleModel first).2.db id name =
      samplesIn first.db id name) ↔
      ∀ r ∈ rowsRead s.header.writeCount, (loadDb sampleModel).signalCountOf
        (s.rowAt r).canId.toNat = 0) := by
  intro s first
  have run : storeSession [.writeEntries [sampleRecord, sampleRecord]] Session.fresh =
    (.ok (), s) := rfl
  have decoded : (canDecoderRun keepOrder sampleModel ⟨s, .empty⟩).1 = .ok ⟨0, []⟩ := by decide +kernel
  exact ⟨decoded, samples_kept_iff_silent (d := ⟨s, .empty⟩) keepOrder keepOrder
    (Reached.of_session run).reads rfl
    (pair_of_fst decoded) rfl⟩

/-- Two rows, decoded twice: the samples of the first row are there twice. -/
theorem decoding_not_idempotent : ¬ ∀ order model n row (d : Decoding) first, d.session.Reads n row →
    d.db = .empty → canDecoderRun order model d = (.ok ⟨0, []⟩, first) →
      ∀ id name, samplesIn (canDecoderRun order model first).2.db id name =
        samplesIn first.db id name := by
  intro all
  let s := (storeSession [.writeEntries [sampleRecord, sampleRecord]] Session.fresh).2
  have run : storeSession [.writeEntries [sampleRecord, sampleRecord]] Session.fresh =
    (.ok (), s) := rfl
  have decoded : (canDecoderRun keepOrder sampleModel ⟨s, .empty⟩).1 = .ok ⟨0, []⟩ := by decide +kernel
  have same := all keepOrder sampleModel s.header.writeCount s.rowAt ⟨s, .empty⟩ _
    (Reached.of_session run).reads rfl
    (pair_of_fst decoded) 5 (signalName 0)
  have once :
      (samplesIn (canDecoderRun keepOrder sampleModel ⟨s, .empty⟩).2.db 5 (signalName 0)).rowIndex =
        [0] := by
    decide +kernel
  have twice : (samplesIn (canDecoderRun keepOrder sampleModel
      (canDecoderRun keepOrder sampleModel ⟨s, .empty⟩).2).2.db 5 (signalName 0)).rowIndex =
        [0, 0] := by
    decide +kernel
  rw [same, once] at twice
  cases twice

end FsCore
