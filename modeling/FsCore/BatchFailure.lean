import FsCore.Failures
import FsCore.SessionRuns

namespace FsCore

/-- A new row: no segment for it, or it is written and counted, or its number overflows. -/
theorem appendEntry_cases (entry : ParsedEntry) (s : Session) : ∃ a, Quiet s a ∧
    ((∃ e, appendEntry entry s = (.error e, a)) ∨
      (s.writeNext + 1 < 2 ^ 31 ∧ appendEntry entry s = (.ok s.writeNext,
        ({ a.putRow s.writeNext entry with writeNext := s.writeNext + 1 } : Session).setHeader
          (.bytes { (a.putRow s.writeNext entry).header with writeCount := s.writeNext + 1 }))) ∨
      appendEntry entry s = (.error .undefined, a.putRow s.writeNext entry)) := by
  have opened := openOrCreateSegmentForWrite_quiet (s.writeNext / kDataSegmentCapacity) s
  cases ho : openOrCreateSegmentForWrite (s.writeNext / kDataSegmentCapacity) s with
  | mk result a =>
    rw [ho] at opened
    refine ⟨a, opened, ?_⟩
    cases result with
    | error e =>
      refine Or.inl ⟨e, Effect.bind_of_error ?_⟩
      rw [writeNextRow, Effect.read_bind]
      exact Effect.bind_of_error ho
    | ok _ =>
      have written : writeNextRow entry s = (if s.writeNext + 1 < 2 ^ 31 then
          (.ok s.writeNext, { a.putRow s.writeNext entry with writeNext := s.writeNext + 1 })
          else (.error .undefined, a.putRow s.writeNext entry)) := by
        rw [writeNextRow, Effect.read_bind]
        refine (Effect.bind_of_ok ho).trans ?_
        rw [Effect.modify_bind]
        split <;> rfl
      by_cases small : s.writeNext + 1 < 2 ^ 31
      · rw [if_pos small] at written
        exact Or.inr (Or.inl ⟨small, (Effect.bind_of_ok written).trans rfl⟩)
      · rw [if_neg small] at written
        exact Or.inr (Or.inr (Effect.bind_of_error written))

theorem appendEntry_staysOpen (entry : ParsedEntry) (s : Session) :
    StaysOpen s (appendEntry entry s).2 := by
  obtain ⟨a, quiet, ⟨e, run⟩ | ⟨-, run⟩ | run⟩ := appendEntry_cases entry s
  · rw [run]
    exact quiet.staysOpen
  · rw [run]
    exact quiet.staysOpen
  · rw [run]
    exact quiet.staysOpen

theorem appendIndex_staysOpen (row : Nat) (entry : ParsedEntry) (s : Session) :
    StaysOpen s (appendIndex row entry s).2 := by
  have trans (a b c : Session) (hab : StaysOpen a b) (hbc : StaysOpen b c) := hab.trans hbc
  refine Effect.bind_frame trans (stepNotNull_staysOpen _ _ _ s) (fun _ a _ => ?_)
  refine Effect.bind_frame trans (call_quiet _ a).staysOpen (fun _ b _ => ?_)
  refine Effect.bind_frame trans (write_staysOpen b _) (fun _ c _ => ?_)
  exact Effect.bind_frame trans (call_quiet _ c).staysOpen (fun _ d _ => write_staysOpen d _)

/-- Whatever happens in a round, the transaction is not closed. -/
theorem writeEntry_staysOpen (record : LogRecord) (s : Session) :
    StaysOpen s (writeEntry record s).2 := by
  have trans (a b c : Session) (hab : StaysOpen a b) (hbc : StaysOpen b c) := hab.trans hbc
  rw [writeEntry, Effect.read_bind, Effect.bind_of_ok (trackerAppend_returns _ _ s)]
  let tracked : Session := { s with
    lastRowByCanId := Function.update s.lastRowByCanId record.canId (some (UInt32.ofNat s.writeNext)) }
  have built :
      StaysOpen s (buildEntry record ((s.lastRowByCanId record.canId).getD kInvalidRow) tracked).2 :=
    (buildEntry_quiet tracked record _).staysOpen
  change StaysOpen tracked _
  exact Effect.bind_frame trans built (fun _ b _ =>
    Effect.bind_frame trans (appendEntry_staysOpen _ b) (fun _ c _ => appendIndex_staysOpen _ _ c))

theorem writeLoop_staysOpen (entries : List LogRecord) (s : Session) :
    StaysOpen s (Effect.forEach writeEntry entries s).2 := by
  induction entries generalizing s with
  | nil => exact fun active => active
  | cons record rest ih =>
    exact Effect.bind_frame (fun _ _ _ => StaysOpen.trans) (writeEntry_staysOpen record s)
      (fun _ t _ => ih t)

theorem commitTransaction_error_staysOpen {s t : Session} {e : StoreError}
    (h : commitTransaction s = (.error e, t)) : StaysOpen s t := by
  intro active
  rcases Effect.bind_eq_error_iff.mp h with h | ⟨_, a, ha, h⟩
  · have same := (call_quiet "COMMIT;" s).staysOpen active
    rwa [h] at same
  · obtain ⟨_, rfl⟩ := call_ok ha
    obtain ⟨tables, htx⟩ := Option.ne_none_iff_exists'.mp active
    rw [Effect.read_bind] at h
    simp only [htx] at h
    cases h

/-- A batch that throws after its transaction has begun leaves the transaction open. -/
theorem writeEntries_error_open {entries : List LogRecord} {s a t : Session} {e : StoreError}
    (begun : beginTransaction s = (.ok (), a)) (h : writeEntries entries s = (.error e, t)) :
    t.index.transaction ≠ none := by
  rw [writeEntries, Effect.bind_of_ok begun] at h
  have active : a.index.transaction ≠ none := by
    have image := (beginTransaction_ok begun).2.1
    have index : a.index = s.image.begin.index := congrArg Image.index image
    rw [index]
    exact Option.some_ne_none _
  have looped := writeLoop_staysOpen entries a active
  rcases Effect.bind_eq_error_iff.mp h with h | ⟨_, b, hb, h⟩
  · rwa [h] at looped
  · rw [hb] at looped
    exact commitTransaction_error_staysOpen h looped

/-- What a failed write_entries has to leave: counters, tracker and index as they were, no open
transaction, and with it an object that takes every batch that it took before. -/
structure Untaken (s t : Session) : Prop where
  count : t.header.writeCount = s.header.writeCount
  next : t.writeNext = s.writeNext
  tracker : t.lastRowByCanId = s.lastRowByCanId
  index : t.index.tables = s.index.tables
  closed : t.index.transaction = none
  takes : ∀ entries, (writeEntries entries { s with faults := [] }).1 = .ok () →
    (writeEntries entries { t with faults := [] }).1 = .ok ()

theorem beginTransaction_error_quiet {s t : Session} {e : StoreError}
    (h : beginTransaction s = (.error e, t)) : Quiet s t := by
  rcases Effect.bind_eq_error_iff.mp h with h | ⟨_, a, ha, h⟩
  · have quiet := call_quiet "BEGIN TRANSACTION;" s
    rwa [h] at quiet
  · have quiet := call_quiet "BEGIN TRANSACTION;" s
    rw [ha] at quiet
    rw [Effect.read_bind] at h
    cases htx : a.index.transaction with
    | none =>
      simp only [htx] at h
      cases h
    | some tables =>
      simp only [htx] at h
      cases h
      exact quiet

theorem begin_of_call {s a : Session} (hcall : call "BEGIN TRANSACTION;" s = (.ok (), a))
    (idle : s.index.transaction = none) :
    beginTransaction s =
      (.ok (), { a with index := { a.index with transaction := some a.index.committed } }) := by
  obtain ⟨_, rfl⟩ := call_ok hcall
  rw [beginTransaction, Effect.bind_of_ok hcall, Effect.read_bind]
  simp only [idle]
  rfl

/-- A write_entries that throws has undone what it did exactly when it has done nothing: no
transaction was open, and the first call, the one that begins the transaction, fails. -/
theorem untaken_iff_begin_fails {entries : List LogRecord} {s t : Session} {e : StoreError}
    (h : writeEntries entries s = (.error e, t)) :
    Untaken s t ↔ s.index.transaction = none ∧ s.faults.head? = some true := by
  constructor
  · intro untaken
    have failed : ∀ a, beginTransaction s ≠ (.ok (), a) := fun a begun =>
      writeEntries_error_open begun h untaken.closed
    have same : t.index = s.index := by
      rcases Effect.bind_eq_error_iff.mp h with h | ⟨_, a, begun, -⟩
      · have quiet := beginTransaction_error_quiet h
        exact congrArg Image.index quiet.image
      · exact absurd begun (failed a)
    have idle : s.index.transaction = none := same ▸ untaken.closed
    refine ⟨idle, ?_⟩
    cases hf : s.faults with
    | nil => exact absurd (begin_of_call (by rw [call, hf]) idle) (failed _)
    | cons b rest =>
      cases b with
      | true => rfl
      | false => exact absurd (begin_of_call (by rw [call, hf]) idle) (failed _)
  · intro first
    obtain ⟨idle, fails⟩ := first
    obtain ⟨rest, faults⟩ : ∃ rest, s.faults = true :: rest := by
      cases hf : s.faults with
      | nil => simp [hf] at fails
      | cons b rest =>
        rw [hf] at fails
        cases Option.some.inj fails
        exact ⟨rest, rfl⟩
    have begin : beginTransaction s =
      (.error (.io "BEGIN TRANSACTION;"), { s with faults := rest }) := by
      refine Effect.bind_of_error ?_
      rw [call, faults]
    cases h.symm.trans (Effect.bind_of_error begin)
    exact ⟨rfl, rfl, rfl, rfl, idle, fun _ ok => ok⟩

/-- The second record of a batch cannot be indexed: the first one stays counted, and no later
batch is taken. -/
theorem failed_batch_half_taken : ¬ ∀ s entries t e, Reached (fun _ _ => True) { s with faults := [] } →
    writeEntries entries s = (.error e, t) → Untaken s t := by
  intro all
  let ready := (construct Session.fresh).2
  let s : Session := { ready with faults := [false, false, false, false, true] }
  have run : (writeEntries [sampleRecord, sampleRecord] s).1 =
    .error (.io "sqlite3_step") := by decide +kernel
  have untaken := all s [sampleRecord, sampleRecord] _ _ (.start rfl) (pair_of_fst run)
  have counted : (writeEntries [sampleRecord, sampleRecord] s).2.header.writeCount =
    2 := by decide +kernel
  have none : s.header.writeCount = 0 := by decide +kernel
  have same := untaken.count
  omega

theorem untaken_iff_begin_fails_sample :
    let s : Session := { (construct Session.fresh).2 with faults := [true] }
    (writeEntries [sampleRecord] s).1 = .error (.io "BEGIN TRANSACTION;") ∧
    (Untaken s (writeEntries [sampleRecord] s).2 ↔ s.index.transaction = none ∧
      s.faults.head? = some true) := by
  intro s
  have run : (writeEntries [sampleRecord] s).1 = .error (.io "BEGIN TRANSACTION;") := by decide +kernel
  exact ⟨run, untaken_iff_begin_fails (pair_of_fst run)⟩

end FsCore
