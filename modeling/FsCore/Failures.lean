import FsCore.StoreRuns

namespace FsCore

theorem call_quiet (name : String) (s : Session) : Quiet s (call name s).2 := by
  unfold call
  split <;> exact ⟨rfl, rfl, fun _ h => h⟩

theorem mmapOpen_quiet {α : Type} (f : File α) (s : Session) : Quiet s (mmapOpen f s).2 := by
  have trans (a b c : Session) (hab : Quiet a b) (hbc : Quiet b c) := hab.trans hbc
  cases f with
  | missing => exact Quiet.refl s
  | empty => exact Effect.bind_frame trans (call_quiet _ s) (fun _ t _ => Quiet.refl t)
  | bytes content => exact Effect.bind_frame trans (call_quiet _ s) (fun _ t _ => call_quiet _ t)

section Frames

variable (i row : Nat) (s : Session)

/-- A file that holds no rows yet reads as zero bytes, whatever becomes of it. -/
theorem setSegment_quiet {f : File Segment}
    (before : (s.files.segments i).content Segment.zero = Segment.zero) (none : ¬ s.HasSegment i)
    (after : f.content Segment.zero = Segment.zero) : Quiet s (s.setSegment i f) := by
  refine ⟨?_, rfl, fun j hj => ?_⟩
  · simp only [Session.image, Image.mk.injEq]
    refine ⟨rfl, ?_, rfl, rfl, rfl, rfl⟩
    funext r
    simp only [Session.rowAt, setSegment_segments]
    by_cases hr : r / kDataSegmentCapacity = i
    · rw [if_pos hr, hr, before, after]
    · rw [if_neg hr]
  · have other : j ≠ i := fun eq => none (eq ▸ hj)
    rw [Session.HasSegment, setSegment_segments, if_neg other]
    exact hj

/-- A creation that stops half way leaves no row behind. -/
theorem mmapCreateRw_quiet (missing : s.files.segments i = .missing) :
    Quiet s (mmapCreateRw Segment.zero (Session.setSegment i) s).2 := by
  have trans (a b c : Session) (hab : Quiet a b) (hbc : Quiet b c) := hab.trans hbc
  have absent {t : Session} (h : t.files.segments i = .missing ∨ t.files.segments i = .empty) :
      (t.files.segments i).content Segment.zero = Segment.zero ∧ ¬ t.HasSegment i := by
    refine ⟨by rcases h with h | h <;> rw [h] <;> rfl, fun present => ?_⟩
    obtain ⟨rows, hrows⟩ := present
    rw [hrows] at h
    rcases h with h | h <;> cases h
  refine Effect.bind_frame trans (call_quiet _ s) (fun _ a ha => ?_)
  obtain ⟨_, rfl⟩ := call_ok ha
  obtain ⟨zero, none⟩ := absent (t := { s with faults := _ }) (Or.inl missing)
  refine Effect.bind_frame trans (setSegment_quiet i _ zero none rfl) (fun _ b hb => ?_)
  cases hb
  refine Effect.bind_frame trans (call_quiet _ _) (fun _ c hc => ?_)
  obtain ⟨_, rfl⟩ := call_ok hc
  obtain ⟨zero, none⟩ := absent (t := { s.setSegment i .empty with faults := _ })
    (Or.inr (by simp [Session.setSegment]))
  exact Effect.bind_frame trans (setSegment_quiet i _ zero none rfl) (fun _ d _ => call_quiet _ d)

theorem openSegment_quiet : Quiet s (openSegment i s).2 := by
  simp only [openSegment, Effect.read_bind]
  split
  next => exact Quiet.refl s
  next =>
    exact Effect.bind_frame (fun _ _ _ => Quiet.trans) (mmapOpen_quiet _ s)
      (fun _ t _ => ⟨rfl, rfl, fun _ h => h⟩)

theorem openOrCreateSegmentForWrite_quiet : Quiet s (openOrCreateSegmentForWrite i s).2 := by
  simp only [openOrCreateSegmentForWrite, Effect.read_bind]
  split
  next => exact Quiet.refl s
  next =>
    refine Effect.bind_frame (fun _ _ _ => Quiet.trans) ?_ (fun _ t _ => ⟨rfl, rfl, fun _ h => h⟩)
    cases hf : s.files.segments i with
    | missing => exact mmapCreateRw_quiet i s hf
    | empty | bytes => exact mmapOpen_quiet _ s

theorem readAt_quiet : Quiet s (readAt row s).2 :=
  Effect.bind_frame (fun _ _ _ => Quiet.trans) (openSegment_quiet _ s) (fun _ t _ => Quiet.refl t)

theorem readEntryAt_quiet : Quiet s (readEntryAt row s).2 := by
  simp only [readEntryAt, Effect.read_bind]
  split
  next => exact Quiet.refl s
  next => exact readAt_quiet row s

theorem buildEntry_quiet (record : LogRecord) (prev : UInt32) :
    Quiet s (buildEntry record prev s).2 := by
  unfold buildEntry
  split
  next => exact Quiet.refl s
  next =>
    exact Effect.bind_frame (fun _ _ _ => Quiet.trans) (readAt_quiet _ s)
      (fun _ t _ => Quiet.refl t)

theorem recomputeEntry_quiet (old : ParsedEntry) (record : LogRecord) :
    Quiet s (recomputeEntry old record s).2 := by
  unfold recomputeEntry
  split
  next => exact Quiet.refl s
  next =>
    exact Effect.bind_frame (fun _ _ _ => Quiet.trans) (readEntryAt_quiet _ s)
      (fun _ t _ => Quiet.refl t)

end Frames

/-- A transaction that is open stays open. -/
def StaysOpen (s t : Session) : Prop := s.index.transaction ≠ none → t.index.transaction ≠ none

theorem StaysOpen.trans {s t u : Session} (hst : StaysOpen s t) (htu : StaysOpen t u) : StaysOpen s u :=
  fun active => htu (hst active)

theorem Quiet.staysOpen {s t : Session} (h : Quiet s t) : StaysOpen s t := by
  intro active
  rw [show t.index = s.index from congrArg Image.index h.image]
  exact active

theorem write_staysOpen (s : Session) (f : IndexTables → IndexTables) :
    StaysOpen s { s with index := s.index.write f } :=
  fun active closed => active ((write_transaction_none s.index f).mp closed)

theorem stepNotNull_staysOpen (timestamp : Binary64) (touches : IndexTables → Bool)
    (f : IndexTables → IndexTables) (s : Session) :
    StaysOpen s (stepNotNull timestamp touches f s).2 := by
  refine Effect.bind_frame (fun _ _ _ => StaysOpen.trans) (call_quiet _ s).staysOpen (fun _ t _ => ?_)
  rw [Effect.read_bind]
  split
  next => exact fun active => active
  next => exact write_staysOpen t f

end FsCore
