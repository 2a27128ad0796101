import FsCore.DecodeTwice

namespace FsCore

/-- A transaction is open over what is committed. -/
structure Decoding.Pending (committed : DecodedTable) (d : Decoding) : Prop where
  committed : d.db.committed = committed
  begun : d.db.transaction ≠ none

section Pending

variable {committed : DecodedTable} {order : ChunkOrder} {decoder : CanDatabaseModel}

theorem onSession_keeps {α : Type} (m : StoreM α) : (onSession m).Keeps (Decoding.Pending committed) :=
  fun _ h => ⟨h.committed, h.begun⟩

theorem writeChunk_keeps (chunk : DecodedSignalChunk) :
    (writeChunk chunk).Keeps (Decoding.Pending committed) := by
  unfold writeChunk
  split
  swap
  · exact fun _ h => h
  refine (onSession_keeps _).bind fun _ d h => ?_
  cases hopen : d.db.transaction with
  | none => exact absurd hopen h.begun
  | some tables =>
    rw [onDb, Effect.modify_apply, DecodedDb.write, hopen]
    exact ⟨h.committed, by simp⟩

theorem prepareUpsert_keeps : prepareUpsert.Keeps (Decoding.Pending committed) := by
  intro d h
  rw [prepareUpsert, Effect.read_bind]
  split
  next => exact h
  next => exact ((onSession_keeps _).bind fun _ e h => ⟨h.committed, h.begun⟩) d h

theorem writeSignals_keeps (chunks : List DecodedSignalChunk) :
    (writeSignals chunks).Keeps (Decoding.Pending committed) :=
  prepareUpsert_keeps.bind fun _ =>
    (Effect.Keeps.forEach fun chunk _ => writeChunk_keeps chunk).bind fun _ _ h => h

theorem processPage_keeps (page : List ParsedEntry) (start : Nat) :
    (processPage order decoder page start).Keeps (Decoding.Pending committed) := by
  unfold processPage
  split
  next => exact fun _ h => h
  next =>
    refine (writeSignals_keeps _).bind fun rc => ?_
    split <;> exact fun _ h => h

theorem decodeRound_keeps (entryCount start : Nat) :
    (decodeRound order decoder entryCount start).Keeps (Decoding.Pending committed) := by
  refine (onSession_keeps _).bind fun page => ?_
  split
  next => exact fun _ h => h
  next => exact processPage_keeps page start

theorem pageLoop_keeps {round : Nat → DecodeM DecodeError}
    (each : ∀ start, (round start).Keeps (Decoding.Pending committed))
    (entryCount fuel start : Nat) :
    (pageLoop round entryCount fuel start).Keeps (Decoding.Pending committed) := by
  induction fuel generalizing start with
  | zero => exact fun _ h => h
  | succ fuel ih =>
    rw [pageLoop]
    split
    next =>
      refine (each start).bind fun error => ?_
      split
      next => exact fun _ h => h
      next => exact ih _
    next => exact fun _ h => h

theorem onSession_cases {α : Type} (m : StoreM α) (d : Decoding) :
    (∃ a e, onSession m d = (.ok a, e) ∧ e.db = d.db) ∨
      ∃ error e, onSession m d = (.error error, e) ∧ e.db = d.db := by
  rcases h : onSession m d with ⟨r, e⟩
  obtain rfl : (onSession m d).2 = e := congrArg Prod.snd h
  cases r with
  | ok a => exact Or.inl ⟨a, _, rfl, rfl⟩
  | error error => exact Or.inr ⟨error, _, rfl, rfl⟩

theorem beginDecoded_cases (d : Decoding) :
    (∃ e, beginDecoded d = (.ok 0, e) ∧ e.Pending d.db.committed) ∨
    ∃ error e, beginDecoded d = (.error error, e) ∧ e.db = d.db := by
  rcases onSession_cases (call "BEGIN TRANSACTION;") d with ⟨_, e, began, same⟩ |
    ⟨error, e, failed, same⟩
  · have step : beginDecoded d = _ := Effect.bind_of_ok began
    rw [step, Effect.read_bind]
    cases e.db.transaction with
    | some tables => exact Or.inr ⟨_, e, rfl, same⟩
    | none =>
      have kept : e.db.committed = d.db.committed := congrArg DecodedDb.committed same
      exact Or.inl ⟨_, rfl, kept, by simp⟩
  · exact Or.inr ⟨error, e, Effect.bind_of_error failed, same⟩

/-- A commit that does not return has changed nothing. -/
theorem commitDecoded_cases (d : Decoding) :
    (∃ e, commitDecoded d = (.ok 0, e)) ∨ ∃ error e, commitDecoded d = (.error error, e) ∧
      e.db = d.db := by
  rcases onSession_cases (call "COMMIT;") d with ⟨_, e, called, same⟩ | ⟨error, e, failed, same⟩
  · have step : commitDecoded d = _ := Effect.bind_of_ok called
    rw [step, Effect.read_bind]
    cases e.db.transaction with
    | some tables => exact Or.inl ⟨_, rfl⟩
    | none => exact Or.inr ⟨_, e, rfl, same⟩
  · exact Or.inr ⟨error, e, Effect.bind_of_error failed, same⟩

/-- Without success nothing is committed. -/
theorem decodeAll_cases (order : ChunkOrder) (decoder : CanDatabaseModel) (entryCount : Nat)
    (d : Decoding) : (decodeAll order decoder entryCount d).1 = .ok ⟨0, []⟩ ∨
      (decodeAll order decoder entryCount d).2.db.committed = d.db.committed := by
  unfold decodeAll
  rcases onSession_cases _ d with ⟨_, opened, hopen, same⟩ | ⟨error, e, failed, same⟩
  · rw [openDecoded, Effect.bind_of_ok hopen]
    rcases beginDecoded_cases opened with ⟨begun, hbegin, pending⟩ | ⟨error, e, failed, unchanged⟩
    · rw [Effect.bind_of_ok hbegin, if_neg (by simp), same] at *
      have rounds (start : Nat) : (decodeRound order decoder entryCount start).Keeps
        (Decoding.Pending d.db.committed) :=
        decodeRound_keeps entryCount start
      have kept := pageLoop_keeps rounds entryCount (entryCount / kReadChunkSize + 1) 0 begun pending
      rcases hloop : decodeLoop order decoder entryCount begun with ⟨r, looped⟩
      rw [decodeLoop] at hloop
      rw [hloop] at kept
      cases r with
      | error error =>
        rw [decodeLoop, Effect.bind_of_error hloop]
        exact Or.inr kept.committed
      | ok loop =>
        rw [decodeLoop, Effect.bind_of_ok hloop]
        split
        next => exact Or.inr kept.committed
        next =>
          rcases commitDecoded_cases looped with ⟨e, commit⟩ | ⟨error, e, failed, unchanged⟩
          · rw [Effect.bind_of_ok commit]
            exact Or.inl rfl
          · rw [Effect.bind_of_error failed]
            exact Or.inr ((congrArg DecodedDb.committed unchanged).trans kept.committed)
    · rw [Effect.bind_of_error failed]
      exact Or.inr (congrArg DecodedDb.committed (unchanged.trans same))
  · rw [openDecoded, Effect.bind_of_error failed]
    exact Or.inr (congrArg DecodedDb.committed same)

theorem canDecoderRun_cases (order : ChunkOrder) (model : CanDatabaseModel) (d : Decoding) :
    (canDecoderRun order model d).1 = .ok ⟨0, []⟩ ∨ (canDecoderRun order model d).2.db.close =
      d.db.close := by
  rw [canDecoderRun]
  rcases onSession_cases fetchCount d with ⟨count, e, counted, same⟩ | ⟨error, e, failed, same⟩
  · rw [Effect.bind_of_ok counted]
    split
    next => exact Or.inr (congrArg DecodedDb.close same)
    next =>
      rcases decodeAll_cases order (loadDb model) count e with success | kept
      · exact Or.inl success
      · refine Or.inr ?_
        change (⟨_, none, false⟩ : DecodedDb) = ⟨_, none, false⟩
        rw [← same, ← kept]
        rfl
  · rw [Effect.bind_of_error failed]
    exact Or.inr (congrArg DecodedDb.close same)

end Pending

/-- A run that does not succeed leaves the samples as they were for every later connection,
whatever ended it. -/
theorem failed_run_leaves_samples {order : ChunkOrder} {model : CanDatabaseModel} {d e : Decoding}
    {r : Except StoreError DecodeError} (run : canDecoderRun order model d = (r, e))
    (fails : ∀ error, r = .ok error → error.rc ≠ 0) (s : Session) (id : UInt32) (name : Text) :
    getSignalSamples id name ⟨s, e.db.close⟩ = getSignalSamples id name ⟨s, d.db.close⟩ := by
  rcases canDecoderRun_cases order model d with success | kept
  · rw [run] at success
    exact absurd rfl (fails _ success)
  · rw [run] at kept
    rw [kept]

/-- The second run over a store of two rows fails at its last call, the commit. -/
theorem failed_run_leaves_samples_sample :
    let s := (storeSession [.writeEntries [sampleRecord, sampleRecord]] Session.fresh).2
    let first := (canDecoderRun keepOrder sampleModel ⟨s, .empty⟩).2
    let second := canDecoderRun keepOrder sampleModel
      ⟨{ s with faults := List.replicate 10 false ++ [true] }, first.db⟩
    second.1 = .error (.io "COMMIT;") ∧
      getSignalSamples 5 (signalName 0) ⟨s, second.2.db.close⟩ =
        getSignalSamples 5 (signalName 0) ⟨s, first.db.close⟩ := by
  intro s first second
  have failed : second.1 = .error (.io "COMMIT;") := by decide +kernel
  refine ⟨failed, failed_run_leaves_samples (pair_of_fst failed) (fun error h => ?_) s 5 (signalName 0)⟩
  cases h

end FsCore
