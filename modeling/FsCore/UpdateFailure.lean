import FsCore.FaultRuns

namespace FsCore

/-- One of the next `n` calls fails. -/
def Session.Fails (s : Session) (n : Nat) : Prop := true ∈ s.faults.take n

/-- The calls that it takes to map a segment. -/
def unmapped (i : Nat) (mapped : List Nat) : Nat := if i ∈ mapped then 0 else 2

/-- The calls that map the segments of a row and of the row that it is linked to, for reading. -/
def Session.readCalls (s : Session) (row : Nat) : Nat :=
  let segIdx := row / kDataSegmentCapacity
  let prev := (s.rowAt row).prevSameCan
  unmapped segIdx s.readMapped +
    if prev = kInvalidRow then 0
    else unmapped (prev.toNat / kDataSegmentCapacity) (s.readMapped.insert segIdx)

/-- The calls of update_entry before its first write. -/
def Session.mapCalls (s : Session) (row : Nat) : Nat :=
  s.readCalls row + unmapped (row / kDataSegmentCapacity) s.writeMapped

/-- An update that is refused or stopped before it writes anything. -/
def Session.StopsUpdate (s : Session) (row : Nat) : Prop :=
  s.header.writeCount ≤ row ∨ s.writeNext < row ∨ s.Fails (s.mapCalls row)

theorem fails_add {s : Session} {m n : Nat} :
    s.Fails (m + n) ↔ s.Fails m ∨ true ∈ (s.faults.drop m).take n := by
  rw [Session.Fails, List.take_add, List.mem_append]
  rfl

/-- A step that fails exactly when one of its `n` calls does, and else gives `a` and `t`. -/
def RunsOn {α : Type} (n : Nat) (m : StoreM α) (s : Session) (a : α) (t : Session) : Prop :=
  (s.Fails n ∧ ∃ e u, m s = (.error e, u)) ∨ (¬ s.Fails n ∧ m s = (.ok a, t) ∧
    t.faults = s.faults.drop n)

/-- Two steps need the calls of both. -/
theorem RunsOn.bind {α β : Type} {k n : Nat} {m : StoreM α} {next : α → StoreM β}
    {s t u : Session} {a : α} {b : β} (first : RunsOn k m s a t) (then' : RunsOn n (next a) t b u) :
    RunsOn (k + n) (m >>= next) s b u := by
  rcases first with ⟨fails, e, v, hm⟩ | ⟨runs, hm, faults⟩
  · exact Or.inl ⟨fails_add.mpr (Or.inl fails), e, v, Effect.bind_of_error hm⟩
  · have later : t.Fails n ↔ true ∈ (s.faults.drop k).take n := by rw [Session.Fails, faults]
    rcases then' with ⟨fails, e, v, hn⟩ | ⟨runs', hn, faults'⟩
    · exact Or.inl ⟨fails_add.mpr (Or.inr (later.mp fails)), e, v, (Effect.bind_of_ok hm).trans hn⟩
    · refine Or.inr ⟨fun fails => (fails_add.mp fails).elim runs (fun h => runs' (later.mpr h)),
        (Effect.bind_of_ok hm).trans hn, ?_⟩
      rw [faults', faults, List.drop_drop]

theorem RunsOn.pure {α : Type} (a : α) (s : Session) : RunsOn 0 (pure a) s a s :=
  Or.inr ⟨by simp [Session.Fails], rfl, rfl⟩

/-- What follows without a call of its own. -/
theorem RunsOn.bind_free {α β : Type} {n : Nat} {m : StoreM α} {next : α → StoreM β}
    {s t u : Session} {a : α} {b : β} (first : RunsOn n m s a t) (free : next a t = (.ok b, u))
    (same : u.faults = t.faults) : RunsOn n (m >>= next) s b u := by
  rcases first with ⟨fails, e, v, hm⟩ | ⟨runs, hm, faults⟩
  · exact Or.inl ⟨fails, e, v, Effect.bind_of_error hm⟩
  · exact Or.inr ⟨runs, (Effect.bind_of_ok hm).trans free, same.trans faults⟩

theorem RunsOn.of_eq {α : Type} {n : Nat} {m m' : StoreM α} {s t : Session} {a : α}
    (h : RunsOn n m s a t) (same : m' s = m s) : RunsOn n m' s a t := by
  rw [RunsOn, same]
  exact h

/-- The state after `n` calls that did not fail. -/
def Session.spend (n : Nat) (s : Session) : Session := { s with faults := s.faults.drop n }

section Outcomes

variable {s : Session} {i row : Nat}

theorem call_runs (name : String) (s : Session) : RunsOn 1 (call name) s () (s.spend 1) := by
  obtain ⟨files, index, writeNext, writeMapped, readMapped, last, browser, faults⟩ := s
  cases faults with
  | nil => exact Or.inr ⟨by simp [Session.Fails], rfl, rfl⟩
  | cons fault rest =>
    cases fault with
    | true => exact Or.inl ⟨by simp [Session.Fails], .io name, _, rfl⟩
    | false => exact Or.inr ⟨by simp [Session.Fails], rfl, rfl⟩

theorem mmapOpen_runs {α : Type} (content : α) (s : Session) :
    RunsOn 2 (mmapOpen (.bytes content)) s () (s.spend 2) := by
  have second : RunsOn 1 (call "mmap") (s.spend 1) () (s.spend 2) := by
    have called := call_runs "mmap" (s.spend 1)
    rwa [show (s.spend 1).spend 1 = s.spend 2 by simp only [Session.spend, List.drop_drop]] at called
  change RunsOn (1 + 1) (call "open" >>= fun _ => call "mmap") s () (s.spend 2)
  exact (call_runs "open" s).bind second

/-- A segment that is there is mapped, by two calls if it was not mapped before. -/
theorem openSegment_runs (h : s.HasSegment i) : RunsOn (unmapped i s.readMapped) (openSegment i) s ()
    { s.spend (unmapped i s.readMapped) with readMapped := s.readMapped.insert i } := by
  obtain ⟨rows, hrows⟩ := h
  unfold unmapped
  by_cases known : i ∈ s.readMapped
  · rw [if_pos known, List.insert_of_mem known]
    refine (RunsOn.pure () s).of_eq ?_
    simp only [openSegment, Effect.read_bind, if_pos known]
  · rw [if_neg known, List.insert_of_not_mem known]
    have opened : openSegment i s = (mmapOpen (.bytes rows) >>= fun _ => Effect.modify fun s =>
        { s with readMapped := i :: s.readMapped } : StoreM Unit) s := by
      simp only [openSegment, Effect.read_bind, if_neg known, hrows]
    refine RunsOn.of_eq ?_ opened
    exact (mmapOpen_runs rows s).bind_free rfl rfl

theorem openOrCreateSegmentForWrite_runs (h : s.HasSegment i) :
    RunsOn (unmapped i s.writeMapped) (openOrCreateSegmentForWrite i) s ()
      { s.spend (unmapped i s.writeMapped) with writeMapped := s.writeMapped.insert i } := by
  obtain ⟨rows, hrows⟩ := h
  unfold unmapped
  by_cases known : i ∈ s.writeMapped
  · rw [if_pos known, List.insert_of_mem known]
    refine (RunsOn.pure () s).of_eq ?_
    simp only [openOrCreateSegmentForWrite, Effect.read_bind, if_pos known]
  · rw [if_neg known, List.insert_of_not_mem known]
    have opened : openOrCreateSegmentForWrite i s = (mmapOpen (.bytes rows) >>= fun _ =>
        Effect.modify fun s => { s with writeMapped := i :: s.writeMapped } : StoreM Unit) s := by
      simp only [openOrCreateSegmentForWrite, Effect.read_bind, if_neg known, hrows]
      rfl
    refine RunsOn.of_eq ?_ opened
    exact (mmapOpen_runs rows s).bind_free rfl rfl

theorem readEntryAt_runs (counted : row < s.header.writeCount)
    (h : s.HasSegment (row / kDataSegmentCapacity)) :
    RunsOn (unmapped (row / kDataSegmentCapacity) s.readMapped) (readEntryAt row) s (s.rowAt row)
      { s.spend (unmapped (row / kDataSegmentCapacity) s.readMapped) with
        readMapped := s.readMapped.insert (row / kDataSegmentCapacity) } := by
  have checked : readEntryAt row s =
      (openSegment (row / kDataSegmentCapacity) >>= fun _ => Effect.read >>= fun s =>
        pure (s.rowAt row) : StoreM ParsedEntry) s := by
    simp only [readEntryAt, Effect.read_bind, if_neg (not_le.mpr counted)]
    rfl
  refine RunsOn.of_eq ?_ checked
  exact (openSegment_runs h).bind_free rfl rfl

/-- The row before is read only where there is one. -/
theorem recomputeEntry_runs {old : ParsedEntry} (record : LogRecord)
    (prev : old.prevSameCan ≠ kInvalidRow → old.prevSameCan.toNat < s.header.writeCount ∧
      s.HasSegment (old.prevSameCan.toNat / kDataSegmentCapacity)) :
    ∃ t, RunsOn
      (if old.prevSameCan = kInvalidRow then 0
        else unmapped (old.prevSameCan.toNat / kDataSegmentCapacity) s.readMapped)
      (recomputeEntry old record) s
        (recomputed old record (s.rowAt old.prevSameCan.toNat).toLogRecord) t ∧
      t.writeMapped = s.writeMapped := by
  by_cases first : old.prevSameCan = kInvalidRow
  · rw [if_pos first]
    refine ⟨s, (RunsOn.pure _ s).of_eq ?_, rfl⟩
    simp [recomputeEntry, recomputed, first]
  · rw [if_neg first]
    have reads : recomputeEntry old record s = (readEntryAt old.prevSameCan.toNat >>= fun prev =>
        pure (recomputed old record prev.toLogRecord) : StoreM ParsedEntry) s := by
      rw [recomputeEntry, if_neg first]
    have read := readEntryAt_runs (prev first).1 (prev first).2
    exact ⟨_, RunsOn.of_eq (read.bind_free rfl rfl) reads, rfl⟩

/-- The row as update_entry recomputes it, before anything is written. -/
def readAndRecompute (row : Nat) (record : LogRecord) : StoreM ParsedEntry := do
  let old ← readEntryAt row
  recomputeEntry old record

theorem readAndRecompute_quiet (row : Nat) (record : LogRecord) (s : Session) :
    Quiet s (readAndRecompute row record s).2 :=
  Effect.bind_frame (fun _ _ _ => Quiet.trans) (readEntryAt_quiet row s)
    (fun old t _ => recomputeEntry_quiet t old record)

theorem readAndRecompute_runs (h : s.Solid) (counted : row < s.header.writeCount) (record : LogRecord) :
    ∃ b, RunsOn (s.readCalls row) (readAndRecompute row record) s (s.image.recompute row record) b ∧
      b.writeMapped = s.writeMapped := by
  obtain ⟨here, behind, -⟩ := h.rows row (Or.inl counted)
  let a : Session := { s.spend (unmapped (row / kDataSegmentCapacity) s.readMapped) with
    readMapped := s.readMapped.insert (row / kDataSegmentCapacity) }
  have read : RunsOn _ (readEntryAt row) s (s.rowAt row) a := readEntryAt_runs counted here
  have prev (linked : (s.rowAt row).prevSameCan ≠ kInvalidRow) :
      (s.rowAt row).prevSameCan.toNat < a.header.writeCount ∧
        a.HasSegment ((s.rowAt row).prevSameCan.toNat / kDataSegmentCapacity) := by
    have before : (s.rowAt row).prevSameCan.toNat < s.header.writeCount :=
      (behind.resolve_left linked).trans counted
    exact ⟨before, (h.rows _ (Or.inl before)).1⟩
  obtain ⟨b, recomputes, mapped⟩ := recomputeEntry_runs record prev
  have both : RunsOn _ (readEntryAt row >>= fun old => recomputeEntry old record) s _ b :=
    read.bind recomputes
  exact ⟨b, both, mapped⟩

/-- The first write of update_entry, once its segment is mapped. -/
theorem updateRow_outcome {t : Session} (counted : row < t.header.writeCount)
    (noGap : row ≤ t.writeNext) (here : t.HasSegment (row / kDataSegmentCapacity))
    (entry : ParsedEntry) :
    (t.Fails (unmapped (row / kDataSegmentCapacity) t.writeMapped) ∧
        ∃ e u, updateRow row entry t = (.error e, u) ∧ Quiet t u) ∨
      (¬ t.Fails (unmapped (row / kDataSegmentCapacity) t.writeMapped) ∧
        ∃ c, Quiet t c ∧ updateRow row entry t = (.ok (), (c.putRow row entry).advance row)) := by
  have checked : updateRow row entry t =
    (openOrCreateSegmentForWrite (row / kDataSegmentCapacity) >>= fun _ =>
      Effect.modify (Session.putRow row entry) >>= fun _ => Effect.modify (Session.advance row) :
        StoreM Unit) t := by
    simp only [updateRow, writeAt, Effect.read_bind, if_neg (not_le.mpr counted),
      if_neg (not_lt.mpr noGap)]
  have quiet := openOrCreateSegmentForWrite_quiet (row / kDataSegmentCapacity) t
  rw [checked]
  rcases openOrCreateSegmentForWrite_runs here with ⟨fails, e, u, hu⟩ | ⟨runs, hu, -⟩
  · rw [hu] at quiet
    exact Or.inl ⟨fails, e, u, Effect.bind_of_error hu, quiet⟩
  · rw [hu] at quiet
    exact Or.inr ⟨runs, _, quiet, (Effect.bind_of_ok hu).trans rfl⟩

theorem recompute_ended (h : s.Solid) (counted : row < s.header.writeCount) (record : LogRecord) :
    (s.image.recompute row record).nextSameCan = kInvalidRow := (h.rows row (Or.inl counted)).2.2

/-- No row has a next one, so the repair of update_entry never runs. -/
theorem updateEntry_without_repair (h : s.Solid) (counted : row < s.header.writeCount)
    (record : LogRecord) :
    updateEntry row record s = (readAndRecompute row record >>= persistRow row) s := by
  have split : updateEntry row record s = (readAndRecompute row record >>= fun current =>
      persistRow row current >>= fun _ =>
        if current.nextSameCan = kInvalidRow then pure ()
        else readEntryAt current.nextSameCan.toNat >>= fun next =>
          persistRow current.nextSameCan.toNat (repaired next current.toLogRecord) :
              StoreM Unit) s := by
    rw [readAndRecompute, Effect.bind_assoc]
    rfl
  obtain ⟨b, runs, -⟩ := readAndRecompute_runs h counted record
  rcases runs with ⟨-, e, t, ht⟩ | ⟨-, hb, -⟩
  · rw [split, Effect.bind_of_error ht, Effect.bind_of_error ht]
  · rw [split, Effect.bind_of_ok hb, Effect.bind_of_ok hb, if_pos (recompute_ended h counted record)]
    exact Effect.bind_pure_unit _ b

/-- An update stops before it writes, or it writes the row and goes on to the index. -/
theorem updateEntry_cases (h : s.Solid) (row : Nat) (record : LogRecord) :
    (s.StopsUpdate row ∧ ∃ e t, updateEntry row record s = (.error e, t) ∧ Quiet s t) ∨
      (¬ s.StopsUpdate row ∧ row < s.header.writeCount ∧ ∃ c, Quiet s c ∧ updateEntry row record s =
        updateIndex row (s.image.recompute row record)
          ((c.putRow row (s.image.recompute row record)).advance row)) := by
  let current := s.image.recompute row record
  by_cases counted : row < s.header.writeCount
  swap
  · have refused := @updateEntry_refused row record s (not_lt.mp counted)
    exact Or.inl ⟨Or.inl (not_lt.mp counted), _, s, refused, Quiet.refl s⟩
  have persists := updateEntry_without_repair h counted record
  have quiet := readAndRecompute_quiet row record s
  obtain ⟨b, runs, mapped⟩ := readAndRecompute_runs h counted record
  rcases runs with ⟨fails, e, t, ht⟩ | ⟨runs, hb, faults⟩
  · rw [ht] at quiet
    rw [Effect.bind_of_error ht] at persists
    exact Or.inl ⟨Or.inr (Or.inr (fails_add.mpr (Or.inl fails))), e, t, persists, quiet⟩
  rw [hb] at quiet
  rw [Effect.bind_of_ok hb] at persists
  have next : b.writeNext = s.writeNext := congrArg Image.nextIndex quiet.image
  have header : b.header = s.header := congrArg Image.header quiet.image
  have later : b.Fails (unmapped (row / kDataSegmentCapacity) b.writeMapped) ↔
      true ∈ (s.faults.drop (s.readCalls row)).take
        (unmapped (row / kDataSegmentCapacity) s.writeMapped) := by
    rw [Session.Fails, faults, mapped]
  by_cases noGap : row ≤ s.writeNext
  swap
  · have gap : updateRow row current b = (.error (.mmap "write_at row_index creates a gap"), b) := by
      simp only [updateRow, writeAt, Effect.read_bind, header, next, if_neg (not_le.mpr counted),
        if_pos (not_le.mp noGap), Effect.raise_apply]
    rw [persistRow, Effect.bind_of_error gap] at persists
    exact Or.inl ⟨Or.inr (Or.inl (not_le.mp noGap)), _, b, persists, quiet⟩
  have here := quiet.keeps _ (h.rows row (Or.inl counted)).1
  rcases updateRow_outcome (header ▸ counted) (next ▸ noGap) here current with
    ⟨fails, e, t, ht, still⟩ | ⟨maps, c, still, hc⟩
  · rw [persistRow, Effect.bind_of_error ht] at persists
    exact Or.inl ⟨Or.inr (Or.inr (fails_add.mpr (Or.inr (later.mp fails)))), e, t, persists,
      quiet.trans still⟩
  · rw [persistRow, Effect.bind_of_ok hc] at persists
    refine Or.inr ⟨?_, counted, c, quiet.trans still, persists⟩
    rintro (refused | gap | fails)
    · omega
    · omega
    · exact (fails_add.mp fails).elim runs (fun h => maps (later.mpr h))

theorem updateIndex_error_quiet {entry : ParsedEntry} {t : Session} {e : StoreError}
    (h : updateIndex row entry s = (.error e, t)) : Quiet s t := by
  have prepared := call_quiet "sqlite3_prepare_v2" s
  rcases Effect.bind_eq_error_iff.mp h with h | ⟨_, a, ha, h⟩
  · rwa [h] at prepared
  rw [ha] at prepared
  have stepped := call_quiet "sqlite3_step" a
  rcases Effect.bind_eq_error_iff.mp h with h | ⟨_, b, hb, h⟩
  · rw [h] at stepped
    exact prepared.trans stepped
  rw [hb] at stepped
  rw [Effect.read_bind] at h
  split at h
  next =>
    cases h
    exact prepared.trans stepped
  next => cases h

theorem updateIndex_staysOpen (entry : ParsedEntry) : StaysOpen s (updateIndex row entry s).2 :=
  Effect.bind_frame (fun _ _ _ => StaysOpen.trans) (call_quiet _ s).staysOpen
    (fun _ t _ => stepNotNull_staysOpen _ _ _ t)

theorem advance_solid (h : s.Solid) (counted : row < s.header.writeCount) : (s.advance row).Solid := by
  unfold Session.advance
  split
  next last =>
    have bound := h.count
    refine ⟨show s.writeNext + 1 < 2 ^ 31 by omega, h.count, fun r hr => h.rows r (Or.inl ?_)⟩
    change r < s.header.writeCount ∨ r < s.writeNext + 1 at hr
    omega
  next => exact h

theorem advance_tracked (tracked : s.Tracked) (row : Nat) : (s.advance row).Tracked := by
  unfold Session.advance
  split
  next => exact fun id p hp => Nat.lt_succ_of_lt (tracked id p hp)
  next => exact tracked

end Outcomes

/-- An update, however it ends. -/
theorem updateEntry_intact {s : Session} (h : s.Intact) (row : Nat) (record : LogRecord) :
    (updateEntry row record s).2.Intact := by
  rcases updateEntry_cases h.toSolid row record with ⟨-, e, t, ht, quiet⟩ | ⟨-, counted, c, quiet, ht⟩
  · rw [ht]
    exact quiet.intact h
  · let current := s.image.recompute row record
    let u := (c.putRow row current).advance row
    have before := quiet.intact h
    have header : c.header = s.header := congrArg Image.header quiet.image
    have behind : current.Behind row := (h.rows row (Or.inl counted)).2
    have put : u.Solid := advance_solid (putRow_solid before.toSolid behind) (header ▸ counted)
    have indexed := updateIndex_indexOnly row current u
    have index : u.index = c.index := congrArg Image.index (advance_image (c.putRow row current) row)
    rw [ht]
    refine ⟨indexed.solid put, fun idle => ?_⟩
    have closed : c.index.transaction = none := by
      by_contra active
      rw [← index] at active
      exact updateIndex_staysOpen current active idle
    have tracked : (c.putRow row current).Tracked := before.tracked closed
    exact indexed.isTracked (advance_tracked tracked row)

/-- The header may become another one that counts as many rows. -/
theorem setHeader_intact {s : Session} (h : s.Intact) {f : File MmapHeader}
    (same : (f.content MmapHeader.zero).writeCount = s.header.writeCount) : (s.setHeader f).Intact := by
  have count : (s.setHeader f).header.writeCount = s.header.writeCount := same
  refine ⟨⟨h.next, count ▸ h.count, fun r hr => ?_⟩, h.tracked⟩
  rw [count] at hr
  exact h.rows r hr

theorem initCapacity_intact {s : Session} (h : s.Intact) : s.initCapacity.Intact := by
  unfold Session.initCapacity
  split
  next => exact setHeader_intact h rfl
  next => exact h

theorem openHeaderRw_intact {s : Session} (h : s.Intact) : (openHeaderRw s).2.Intact := by
  have trans (a b c : Session) (hab : a.Intact → b.Intact) (hbc : b.Intact →
    c.Intact) (ha : a.Intact) :=
    hbc (hab ha)
  have opened : s.Intact →
      (mmapOpenOrCreate MmapHeader.zero Session.setHeader s.files.header s).2.Intact := by
    cases hf : s.files.header with
    | empty | bytes => exact (mmapOpen_quiet _ s).intact
    | missing =>
      have zero : s.header.writeCount = 0 := by
        rw [Session.header, hf]
        rfl
      refine Effect.bind_frame trans (call_quiet _ s).intact (fun _ a ha => ?_)
      obtain ⟨_, rfl⟩ := call_ok ha
      refine Effect.bind_frame trans (fun fine => setHeader_intact fine zero.symm) (fun _ b hb => ?_)
      cases hb
      refine Effect.bind_frame trans (call_quiet _ _).intact (fun _ c hc => ?_)
      obtain ⟨_, rfl⟩ := call_ok hc
      exact Effect.bind_frame trans (fun fine => setHeader_intact fine rfl)
        (fun _ d _ => (call_quiet _ d).intact)
  rw [openHeaderRw, Effect.read_bind]
  exact Effect.bind_frame (s := s) trans opened (fun _ t _ => initCapacity_intact) h

theorem openIndex_quiet (s : Session) : Quiet s (openIndex s).2 := by
  unfold openIndex
  generalize ["sqlite3_open", "PRAGMA journal_mode=WAL;", "PRAGMA synchronous=NORMAL;",
    "PRAGMA temp_store=MEMORY;", "CREATE TABLE IF NOT EXISTS", "prepare log_index",
    "prepare log_can_ids", "prepare log_channels"] = names
  induction names generalizing s with
  | nil => exact Quiet.refl s
  | cons name rest ih =>
    exact Effect.bind_frame (fun _ _ _ => Quiet.trans) (call_quiet name s) (fun _ t _ => ih t)

theorem openReaders_quiet (s : Session) : Quiet s (openReaders s).2 := by
  have trans (a b c : Session) (hab : Quiet a b) (hbc : Quiet b c) := hab.trans hbc
  refine Effect.bind_frame trans (mmapOpen_quiet _ s) (fun _ a _ => ?_)
  rw [Effect.read_bind]
  cases a.files.segments 0 with
  | missing => exact openIndex_quiet a
  | empty | bytes =>
    exact Effect.bind_frame trans (openSegment_quiet 0 a) (fun _ b _ => openIndex_quiet b)

/-- A constructor, however it ends. -/
theorem construct_intact {s : Session} (h : s.Intact) : (construct s).2.Intact := by
  have trans (a b c : Session) (hab : a.Intact → b.Intact) (hbc : b.Intact →
    c.Intact) (ha : a.Intact) :=
    hbc (hab ha)
  refine Effect.bind_frame (s := s) trans openHeaderRw_intact (fun _ a _ => ?_) h
  exact Effect.bind_frame trans (openOrCreateSegmentForWrite_quiet 0 a).intact
    (fun _ b _ => (openReaders_quiet b).intact)

/-- States of the objects over one token, whatever calls fail: an object that threw stays in use,
and another one can be made over the files that it leaves. -/
inductive Tried : Session → Prop
  | fresh (faults : List Bool) : Tried (construct { Session.fresh with faults := faults }).2
  | call {s : Session} (hs : Tried s) (c : StoreCall) : Tried (exec c s).2
  | reopened {s : Session} (hs : Tried s) (faults : List Bool) :
      Tried (construct { s.reopen with faults := faults }).2

/-- The first object over a token, however its constructor ends. -/
theorem construct_fresh_intact (faults : List Bool) :
    (construct { Session.fresh with faults := faults }).2.Intact := by
  refine construct_intact ⟨⟨Nat.two_pow_pos 31, Nat.two_pow_pos 31, fun r hr => ?_⟩,
    fun _ id p hp => by cases hp⟩
  exact absurd hr (by simp [Session.fresh, Session.start, Session.header, File.content,
    MmapHeader.zero])

theorem construct_reopen_intact {s : Session} (h : s.Intact) (faults : List Bool) :
    (construct { s.reopen with faults := faults }).2.Intact := by
  refine construct_intact ⟨⟨Nat.two_pow_pos 31, h.count, fun r hr => ?_⟩, fun _ id p hp => by cases hp⟩
  have counted : r < s.header.writeCount := hr.elim id (fun none => absurd none (Nat.not_lt_zero r))
  exact h.rows r (Or.inl counted)

/-- A call, however it ends. -/
theorem exec_intact {s : Session} (h : s.Intact) (c : StoreCall) : (exec c s).2.Intact := by
  cases c with
  | writeEntries entries => exact writeEntries_intact h entries
  | updateEntry row record => exact updateEntry_intact h row record

theorem Tried.intact {s : Session} (hs : Tried s) : s.Intact := by
  induction hs with
  | fresh faults => exact construct_fresh_intact faults
  | call hs c ih => exact exec_intact ih c
  | reopened hs faults ih => exact construct_reopen_intact ih faults

/-- The rows of both stores are what they were. -/
def SameRows (s t : Session) : Prop := t.rowAt = s.rowAt ∧
    t.index.tables.logIndex = s.index.tables.logIndex

/-- A row stores the record already, compared with the row that it is linked to. -/
def Session.AlreadyHolds (s : Session) (row : Nat) (record : LogRecord) : Prop :=
  let stored := s.rowAt row
  let prev := (s.rowAt stored.prevSameCan.toNat).toLogRecord
  stored.toLogRecord = record ∧
    if stored.prevSameCan = kInvalidRow then stored.changed = 0 ∧
      stored.lastTimestamp = record.timestamp
    else stored.changed = (payloadChanged prev record).toUInt8 ∧ stored.lastTimestamp = prev.timestamp

theorem recomputed_eq_self_iff {old : ParsedEntry} {record prev : LogRecord} :
    recomputed old record prev = old ↔ old.toLogRecord = record ∧
      if old.prevSameCan = kInvalidRow then old.changed = 0 ∧ old.lastTimestamp = record.timestamp
      else old.changed = (payloadChanged prev record).toUInt8 ∧ old.lastTimestamp = prev.timestamp := by
  obtain ⟨stored, line, last, changed, back, next⟩ := old
  simp only [recomputed, ParsedEntry.mk.injEq, true_and, and_true]
  split
  next =>
    exact ⟨fun h => ⟨h.1.symm, h.2.2.symm, h.2.1.symm⟩, fun h =>
      ⟨h.1.symm, h.2.2.symm, h.2.1.symm⟩⟩
  next =>
    exact ⟨fun h => ⟨h.1.symm, h.2.2.symm, h.2.1.symm⟩, fun h =>
      ⟨h.1.symm, h.2.2.symm, h.2.1.symm⟩⟩

theorem recompute_eq_iff (s : Session) (row : Nat) (record : LogRecord) :
    s.image.recompute row record = s.rowAt row ↔ s.AlreadyHolds row record := recomputed_eq_self_iff

/-- An update that throws leaves both stores as they were exactly when it stops before its first
write, or when the row that it writes is the stored one. -/
theorem sameRows_iff_of_throws {s t : Session} (hs : Tried s) {row : Nat} {record : LogRecord}
    {e : StoreError} (h : updateEntry row record s = (.error e, t)) :
    SameRows s t ↔ s.StopsUpdate row ∨ s.AlreadyHolds row record := by
  rcases updateEntry_cases hs.intact.toSolid row record with ⟨stops, f, u, hu, quiet⟩ |
    ⟨goes, -, c, quiet, hu⟩
  · cases h.symm.trans hu
    have same : SameRows s t :=
      ⟨congrArg Image.row quiet.image, congrArg (fun g : Image => g.index.tables.logIndex) quiet.image⟩
    exact iff_of_true same (Or.inl stops)
  · let current := s.image.recompute row record
    let put := c.putRow row current
    have failed := updateIndex_error_quiet (hu.symm.trans h)
    have image : t.image = _ := failed.image.trans (advance_image put row)
    have index : t.index = c.index := congrArg Image.index image
    have rows : t.rowAt = Function.update s.rowAt row current := by
      rw [show t.rowAt = put.rowAt from congrArg Image.row image, putRow_rowAt,
        show c.rowAt = s.rowAt from congrArg Image.row quiet.image]
    have kept : t.index.tables.logIndex = s.index.tables.logIndex := by
      rw [index, show c.index = s.index from congrArg Image.index quiet.image]
    rw [SameRows, rows, Function.update_eq_self_iff, or_iff_right goes, ← recompute_eq_iff]
    exact ⟨fun same => same.1, fun same => ⟨same, kept⟩⟩

/-- The UPDATE of the index fails after the row has been written. -/
theorem failed_update_half_done : ¬ ∀ s t row record e, Tried s →
    updateEntry row record s = (.error e, t) →
    SameRows s t := by
  intro all
  let faults : List Bool := List.replicate 24 false ++ [true]
  let s := (exec (.writeEntries [sampleRecord]) (construct { Session.fresh with faults := faults }).2).2
  let edited : LogRecord := { sampleRecord with dataLen := 2 }
  have run : (updateEntry 0 edited s).1 = .error (.io "sqlite3_step") := by decide +kernel
  have same := all s _ 0 edited _ (.call (.fresh faults) _) (pair_of_fst run)
  have before : (s.rowAt 0).dataLen = 1 := by decide +kernel
  have after : ((updateEntry 0 edited s).2.rowAt 0).dataLen = 2 := by decide +kernel
  rw [same.1, before] at after
  cases after

theorem sameRows_iff_of_throws_sample :
    let s := (exec (.writeEntries [sampleRecord])
      (construct { Session.fresh with faults := List.replicate 23 false ++ [true] }).2).2
    (updateEntry 0 sampleRecord s).1 = .error (.io "sqlite3_prepare_v2") ∧
      (SameRows s (updateEntry 0 sampleRecord s).2 ↔ s.StopsUpdate 0 ∨
        s.AlreadyHolds 0 sampleRecord) := by
  intro s
  have run : (updateEntry 0 sampleRecord s).1 = .error (.io "sqlite3_prepare_v2") := by decide +kernel
  exact ⟨run, sameRows_iff_of_throws (.call (.fresh _) _) (pair_of_fst run)⟩

end FsCore
