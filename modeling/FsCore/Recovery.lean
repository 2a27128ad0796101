import FsCore.FaultRuns
import FsCore.Retries
import FsCore.StartTimes

namespace FsCore

/-- A property of the segment files and of the writer's mappings of them. -/
def Session.OnSegments (p : (Nat → File Segment) → List Nat → Prop) (s : Session) : Prop :=
  p s.files.segments s.writeMapped

/-- What the writer may do to one segment: it writes a file that it has mapped or that is
not in the middle of its creation, and it maps only such a file. -/
structure Tolerates (p : (Nat → File Segment) → List Nat → Prop) (j : Nat) : Prop where
  write : ∀ {segments mapped} f, segments j ≠ .empty ∨ j ∈ mapped → p segments mapped →
    p (Function.update segments j f) mapped
  map : ∀ {segments mapped}, segments j ≠ .empty → p segments mapped → p segments (j :: mapped)

section Segments

variable {p : (Nat → File Segment) → List Nat → Prop}

theorem call_onSegments (name : String) : (call name).Keeps (Session.OnSegments p) := by
  intro s hs
  unfold call
  split <;> exact hs

/-- A call that fails ends the code there. -/
theorem call_then {α : Type} {P : Session → Prop} {name : String} {f : Unit → StoreM α} {s : Session}
    (fails : ∀ faults, P { s with faults := faults })
    (returns : ∀ faults, P (f () { s with faults := faults }).2) : P ((call name >>= f) s).2 := by
  cases h : s.faults with
  | nil =>
    have run : call name s = (.ok (), s) := call_calm name h
    rw [Effect.bind_of_ok run]
    exact returns s.faults
  | cons fault rest =>
    cases fault with
    | false =>
      have run : call name s = (.ok (), { s with faults := rest }) := by simp only [call, h]
      rw [Effect.bind_of_ok run]
      exact returns rest
    | true =>
      have run : call name s = (.error (.io name), { s with faults := rest }) := by simp only [call, h]
      rw [Effect.bind_of_error run]
      exact fails rest

theorem mmapOpen_onSegments {α : Type} (f : File α) : (mmapOpen f).Keeps (Session.OnSegments p) := by
  cases f with
  | missing => exact fun s hs => hs
  | empty => exact (call_onSegments _).bind fun _ s hs => hs
  | bytes content => exact (call_onSegments _).bind fun _ => call_onSegments _

theorem openHeaderRw_onSegments : openHeaderRw.Keeps (Session.OnSegments p) := by
  have capacity : (Effect.modify Session.initCapacity : StoreM Unit).Keeps (Session.OnSegments p) := by
    intro s hs
    rw [Effect.modify_apply]
    unfold Session.initCapacity
    split <;> exact hs
  intro s hs
  simp only [openHeaderRw, Effect.read_bind]
  suffices opening : (mmapOpenOrCreate MmapHeader.zero Session.setHeader s.files.header).Keeps
      (Session.OnSegments p) from opening.bind (fun _ => capacity) s hs
  cases s.files.header with
  | missing =>
    exact (call_onSegments _).bind fun _ => Effect.Keeps.bind (fun t ht => ht) fun _ =>
      (call_onSegments _).bind fun _ => Effect.Keeps.bind (fun t ht => ht) fun _ => call_onSegments _
  | empty => exact mmapOpen_onSegments _
  | bytes header => exact mmapOpen_onSegments _

/-- A segment that is mapped for writing is mapped from then on. -/
theorem openOrCreateSegmentForWrite_mapped {j : Nat} {s t : Session}
    (h : openOrCreateSegmentForWrite j s = (.ok (), t)) : j ∈ t.writeMapped := by
  simp only [openOrCreateSegmentForWrite, Effect.read_bind] at h
  split at h
  next mapped =>
    cases h
    exact mapped
  next =>
    obtain ⟨_, _, _, h⟩ := Effect.bind_eq_ok_iff.mp h
    cases h
    exact List.mem_cons_self

theorem openOrCreateSegmentForWrite_onSegments {j : Nat} (tolerates : Tolerates p j) :
    (openOrCreateSegmentForWrite j).Keeps (Session.OnSegments p) := by
  intro s hs
  simp only [openOrCreateSegmentForWrite, Effect.read_bind]
  split
  next => exact hs
  next =>
    cases hf : s.files.segments j with
    | empty =>
      simp only [mmapOpenOrCreate, mmapOpen, Effect.bind_assoc]
      exact call_then (fun _ => hs) fun _ => hs
    | bytes rows =>
      have whole : s.files.segments j ≠ .empty := by simp [hf]
      simp only [mmapOpenOrCreate, mmapOpen, Effect.bind_assoc]
      exact call_then (fun _ => hs) fun _ => call_then (fun _ => hs) fun _ => tolerates.map whole hs
    | missing =>
      have none : s.files.segments j ≠ .empty := by simp [hf]
      have created : p (Function.update s.files.segments j .empty) s.writeMapped :=
        tolerates.write _ (.inl none) hs
      have sized (rows : Segment) :
          p (Function.update (Function.update s.files.segments j .empty) j (.bytes rows))
            s.writeMapped := by
        rw [Function.update_idem]
        exact tolerates.write _ (.inl none) hs
      simp only [mmapOpenOrCreate, mmapCreateRw, Effect.bind_assoc]
      refine call_then (fun _ => hs) fun _ => call_then (fun _ => created) fun _ =>
        call_then (fun _ => sized _) fun _ => tolerates.map ?_ (sized _)
      simp [Session.setSegment]

theorem openSegment_onSegments (i : Nat) : (openSegment i).Keeps (Session.OnSegments p) := by
  intro s hs
  simp only [openSegment, Effect.read_bind]
  split
  next => exact hs
  next => exact (mmapOpen_onSegments _).bind (fun _ t ht => ht) s hs

theorem openReaders_onSegments : openReaders.Keeps (Session.OnSegments p) := by
  have index : openIndex.Keeps (Session.OnSegments p) := Effect.Keeps.forEach fun name _ =>
    call_onSegments name
  refine Effect.Keeps.bind (fun s hs => mmapOpen_onSegments _ s hs) fun _ => ?_
  intro s hs
  rw [Effect.read_bind]
  cases s.files.segments 0 with
  | missing => exact index s hs
  | empty | bytes => exact (openSegment_onSegments 0).bind (fun _ => index) s hs

theorem construct_onSegments (tolerates : Tolerates p 0) : construct.Keeps (Session.OnSegments p) :=
  openHeaderRw_onSegments.bind fun _ =>
    (openOrCreateSegmentForWrite_onSegments tolerates).bind fun _ => openReaders_onSegments

theorem writeNextRow_onSegments {entry : ParsedEntry} {s : Session}
    (tolerates : Tolerates p (s.writeNext / kDataSegmentCapacity)) (h : s.OnSegments p) :
    (writeNextRow entry s).2.OnSegments p := by
  have opened := openOrCreateSegmentForWrite_onSegments tolerates s h
  simp only [writeNextRow, Effect.read_bind]
  rcases ho : openOrCreateSegmentForWrite (s.writeNext / kDataSegmentCapacity) s with ⟨e | _, t⟩
  · rw [ho] at opened
    rw [Effect.bind_of_error ho]
    exact opened
  · rw [ho] at opened
    have put : p (Function.update t.files.segments (s.writeNext / kDataSegmentCapacity)
        (.bytes (Function.update
          ((t.files.segments (s.writeNext / kDataSegmentCapacity)).content Segment.zero)
          (s.writeNext % kDataSegmentCapacity) entry))) t.writeMapped :=
      tolerates.write _ (.inr (openOrCreateSegmentForWrite_mapped ho)) opened
    rw [Effect.bind_of_ok ho, Effect.modify_bind]
    split
    next => exact put
    next => exact put

theorem writeRow_onSegments {record : LogRecord} {s : Session}
    (tolerates : Tolerates p (s.writeNext / kDataSegmentCapacity)) (h : s.OnSegments p) :
    (writeRow record s).2.OnSegments p := by
  simp only [writeRow, Effect.read_bind]
  rw [Effect.bind_of_ok (trackerAppend_returns _ _ s)]
  let a : Session := { s with
    lastRowByCanId := Function.update s.lastRowByCanId record.canId (some (UInt32.ofNat s.writeNext)) }
  have built : (buildEntry record ((s.lastRowByCanId record.canId).getD kInvalidRow)).Keeps
    (Session.OnSegments p) := by
    unfold buildEntry
    split
    next => exact fun t ht => ht
    next =>
      exact Effect.Keeps.bind ((openSegment_onSegments _).bind fun _ t ht => ht) fun _ t ht => ht
  have built := built a h
  rcases hb : buildEntry record
    ((s.lastRowByCanId record.canId).getD kInvalidRow) a with ⟨e | parsed, b⟩
  · rw [hb] at built
    rw [Effect.bind_of_error hb]
    exact built
  · rw [hb] at built
    have next : b.writeNext = s.writeNext := congrArg Image.nextIndex (buildEntry_ok hb).2.image
    rw [← next] at tolerates
    have written := @writeNextRow_onSegments p parsed b tolerates built
    rw [Effect.bind_of_ok hb, Effect.bind_pure_map]
    exact written

theorem stepNotNull_onSegments (timestamp : Binary64) (touches : IndexTables → Bool)
    (f : IndexTables → IndexTables) :
    (stepNotNull timestamp touches f).Keeps (Session.OnSegments p) := by
  refine (call_onSegments _).bind fun _ s hs => ?_
  rw [Effect.read_bind]
  split
  next => exact hs
  next => exact hs

theorem appendIndex_onSegments (row : Nat) (entry : ParsedEntry) :
    (appendIndex row entry).Keeps (Session.OnSegments p) :=
  (stepNotNull_onSegments _ _ _).bind fun _ => (call_onSegments _).bind fun _ =>
    Effect.Keeps.bind (fun _ ht => ht) fun _ => (call_onSegments _).bind fun _ _ ht => ht

theorem beginTransaction_onSegments : beginTransaction.Keeps (Session.OnSegments p) := by
  refine (call_onSegments _).bind fun _ t ht => ?_
  rw [Effect.read_bind]
  cases t.index.transaction <;> exact ht

theorem commitTransaction_onSegments : commitTransaction.Keeps (Session.OnSegments p) := by
  refine (call_onSegments _).bind fun _ t ht => ?_
  rw [Effect.read_bind]
  cases t.index.transaction <;> exact ht

/-- A step of the writer touches a segment only to write its next row. -/
theorem action_onSegments {pc : WriterPc} {m : StoreM WriterPc} {s : Session} (hm : pc.action = some m)
    (tolerates : ∀ record rest batches, pc = .inBatch (record :: rest) batches →
      Tolerates p (s.writeNext / kDataSegmentCapacity))
    (h : s.OnSegments p) : (m s).2.OnSegments p := by
  match pc with
  | .gone => cases hm
  | .idle [] => cases hm
  | .idle (entries :: batches) =>
    cases hm
    exact beginTransaction_onSegments.bind (fun _ t ht => ht) s h
  | .inBatch [] batches =>
    cases hm
    exact commitTransaction_onSegments.bind (fun _ t ht => ht) s h
  | .inBatch (record :: rest) batches =>
    cases hm
    rw [Effect.bind_pure_map]
    exact writeRow_onSegments (tolerates _ _ _ rfl) h
  | .stored rowIndex row entry rest batches =>
    cases hm
    exact h
  | .counted rowIndex entry rest batches =>
    cases hm
    exact (appendIndex_onSegments _ _).bind (fun _ t ht => ht) s h

variable {g : Image} {log records : List LogRecord} {store left : TokenStore}

theorem World.Retries.onSegments {w w' : World} (h : w.Retries g log) (hs : w.Step w')
    (tolerates : ∀ r, g.nextIndex ≤ r → r < g.nextIndex + log.length →
      Tolerates p (r / kDataSegmentCapacity))
    (held : w.store.OnSegments p) : w'.store.OnSegments p := by
  have row (record : LogRecord) (rest : List LogRecord) (batches : List (List LogRecord))
      (pc : w.pc = .inBatch (record :: rest) batches) :
          Tolerates p (w.store.writeNext / kDataSegmentCapacity) := by
    have follows := h.follows
    rw [pc] at follows
    cases batches with
    | cons first later => exact follows.elim
    | nil =>
      obtain ⟨done, whole, himage⟩ := follows
      have next : w.store.writeNext = g.nextIndex + done.length :=
        (congrArg Image.nextIndex himage).trans (during_nextIndex g done)
      have inside : done.length < log.length := by rw [← whole]; simp
      exact tolerates _ (by omega) (by omega)
  cases hs with
  | writes hm ht =>
    have after := action_onSegments hm row held
    rwa [ht] at after
  | throws hm ht =>
    have after := action_onSegments hm row held
    rwa [ht] at after
  | kill => exact held
  | snapshot reader => exact held

/-- What an attempt does to the segment files: it writes the rows of its records. -/
theorem Attempt.onSegments (attempt : Attempt records store left) (first : Tolerates p 0)
    (tolerates : ∀ r, r < records.length → Tolerates p (r / kDataSegmentCapacity))
    (held : p store.files.segments []) : ∃ mapped, p left.files.segments mapped := by
  have opened {faults : List Bool} {r : Except StoreError Unit} {s : Session}
      (hs : construct (store.start faults) = (r, s)) : s.OnSegments p := by
    have held : (store.start faults).OnSegments p := held
    have after := construct_onSegments first _ held
    rwa [hs] at after
  cases attempt with
  | opening hs => exact ⟨_, opened hs⟩
  | opened hs => exact ⟨_, opened hs⟩
  | @writing faults a filePath R w hs steps =>
    obtain ⟨next, -, -, -⟩ := @named_image store filePath faults a hs
    have start : World.Retries (setSourceFilePath filePath a).2.image records
        ⟨.idle [records], (setSourceFilePath filePath a).2, R⟩ :=
      ⟨⟨rfl, rfl⟩, .inl rfl, le_max_left _ _⟩
    suffices both : w.Retries (setSourceFilePath filePath a).2.image records ∧ w.store.OnSegments p from
      ⟨_, both.2⟩
    induction steps with
    | refl =>
      have named : a.OnSegments p := opened hs
      exact ⟨start, named⟩
    | tail _ last ih =>
      refine ⟨ih.1.step last, ih.1.onSegments last (fun r _ hr => tolerates r ?_) ih.2⟩
      rwa [next, Nat.zero_add] at hr

end Segments

/-- A file in the middle of its creation, which the object has not mapped. -/
def StuckFile (i : Nat) (segments : Nat → File Segment) (mapped : List Nat) : Prop :=
  segments i = .empty ∧ i ∉ mapped

/-- The files that `n` rows reach; segment 0 is there without a row. -/
def WithinRows (n : Nat) (segments : Nat → File Segment) (_mapped : List Nat) : Prop :=
  ∀ i, segments i ≠ .missing → i = 0 ∨ i * kDataSegmentCapacity < n

theorem stuckFile_tolerates (i j : Nat) : Tolerates (StuckFile i) j := by
  have other {segments : Nat → File Segment} {mapped : List Nat} (stuck : StuckFile i segments mapped)
      (h : segments j ≠ .empty ∨ j ∈ mapped) : i ≠ j := by
    intro same
    subst same
    exact h.elim (fun whole => whole stuck.1) stuck.2
  refine ⟨fun f h stuck => ⟨?_, stuck.2⟩, fun h stuck => ⟨stuck.1, ?_⟩⟩
  · rw [Function.update_of_ne (other stuck h)]
    exact stuck.1
  · rw [List.mem_cons, not_or]
    exact ⟨other stuck (.inl h), stuck.2⟩

theorem withinRows_tolerates {n j : Nat} (reached : j = 0 ∨ j * kDataSegmentCapacity < n) :
    Tolerates (WithinRows n) j := by
  refine ⟨fun f _ within i hi => ?_, fun _ within => within⟩
  by_cases same : i = j
  · rw [same]
    exact reached
  · rw [Function.update_of_ne same] at hi
    exact within i hi

section Stuck

variable {records : List LogRecord} {store left : TokenStore} {filePath tokenId text : Text}
  {faults : List Bool}

theorem Attempts.within (h : Attempts records .empty store) :
    WithinRows records.length store.files.segments [] := by
  induction h with
  | refl => exact fun i hi => absurd rfl hi
  | tail _ last ih =>
    obtain ⟨_, within⟩ := last.onSegments (withinRows_tolerates (.inl rfl))
      (fun r hr => withinRows_tolerates (.inr ((Nat.div_mul_le_self r _).trans_lt hr))) ih
    exact within

/-- A store whose header or first segment is in the middle of its creation. -/
def TokenStore.Bricked (store : TokenStore) : Prop :=
  store.files.header = .empty ∨ store.files.segments 0 = .empty

/-- An empty file can be opened, but not mapped. -/
theorem mmapOpen_empty {α : Type} (s : Session) :
    ∃ e rest, mmapOpen (.empty : File α) s = (.error e, { s with faults := rest }) := by
  rcases hc : call "open" s with ⟨e | _, t⟩
  · have kept : ∃ rest, t = { s with faults := rest } := by
      have same := @call_then Unit (fun u => ∃ rest, u = { s with faults := rest }) "open"
        (fun _ => pure ()) s
        (fun faults => ⟨faults, rfl⟩) (fun faults => ⟨faults, rfl⟩)
      rwa [Effect.bind_of_error hc] at same
    obtain ⟨rest, rfl⟩ := kept
    exact ⟨e, rest, Effect.bind_of_error hc⟩
  · obtain ⟨rest, rfl⟩ := call_ok hc
    exact ⟨_, rest, Effect.bind_of_ok hc⟩

/-- The constructor throws on such a store, and leaves it as it is. -/
theorem construct_bricked (h : store.Bricked) :
    (∃ e, (construct (store.start faults)).1 = .error e) ∧
      (construct (store.start faults)).2.left.Bricked := by
  rcases h with header | segment
  · obtain ⟨e, rest, run⟩ := @mmapOpen_empty MmapHeader (store.start faults)
    have opened : openHeaderRw (store.start faults) =
      (.error e, { store.start faults with faults := rest }) := by
      have file : (store.start faults).files.header = .empty := header
      simp only [openHeaderRw, Effect.read_bind, file, mmapOpenOrCreate]
      exact Effect.bind_of_error run
    have all : construct (store.start faults) =
      (.error e, { store.start faults with faults := rest }) :=
      Effect.bind_of_error opened
    rw [all]
    exact ⟨⟨e, rfl⟩, .inl header⟩
  · have stuck : (store.start faults).OnSegments (StuckFile 0) := ⟨segment, List.not_mem_nil⟩
    have after := construct_onSegments (stuckFile_tolerates 0 0) _ stuck
    refine ⟨?_, .inr after.1⟩
    rcases hc : construct (store.start faults) with ⟨e | _, s⟩
    · exact ⟨e, rfl⟩
    · -- the first segment is mapped once the constructor has returned
      obtain ⟨_, a, ha, hc⟩ := Effect.bind_eq_ok_iff.mp hc
      obtain ⟨_, b, hb, hc⟩ := Effect.bind_eq_ok_iff.mp hc
      have stuck := openHeaderRw_onSegments _ stuck
      rw [ha] at stuck
      have stuck := openOrCreateSegmentForWrite_onSegments (stuckFile_tolerates 0 0) _ stuck
      rw [hb] at stuck
      exact absurd (openOrCreateSegmentForWrite_mapped hb) stuck.2

theorem Attempt.bricked (attempt : Attempt records store left) (h : store.Bricked) : left.Bricked := by
  have never {faults : List Bool} {s : Session} (hs : construct (store.start faults) =
    (.ok (), s)) : False := by
    obtain ⟨⟨e, throws⟩, -⟩ := @construct_bricked store faults h
    rw [hs] at throws
    cases throws
  cases attempt with
  | @opening faults e s hs =>
    have left := (@construct_bricked store faults h).2
    rwa [hs] at left
  | opened hs => exact (never hs).elim
  | writing hs => exact (never hs).elim

/-- Killed or failed in the middle of creating the header or the first segment, the worker
leaves a token under which no later run, on any file, reports success. -/
theorem bricked_forever {file : Option Text} (h : store.Bricked)
    (later : Relation.ReflTransGen (fun a b => ∃ records, Attempt records a b) store left) :
    left.Bricked ∧ (runWorkerSegmented filePath tokenId file faults left).1 ≠ some 0 := by
  have bricked : left.Bricked := by
    induction later with
    | refl => exact h
    | tail _ last ih =>
      obtain ⟨records, attempt⟩ := last
      exact attempt.bricked ih
  refine ⟨bricked, ?_⟩
  unfold runWorkerSegmented
  split
  next => exact fun h => by cases h
  next =>
    cases file with
    | none => exact fun h => by cases h
    | some text =>
      dsimp only
      cases workerReader.readAll text with
      | error i => exact fun h => by cases h
      | ok records =>
        obtain ⟨⟨e, throws⟩, -⟩ := @construct_bricked left faults bricked
        have run : workerStore filePath records (left.start faults) =
            (.error e, (construct (left.start faults)).2) :=
          Effect.bind_of_error (Prod.ext throws rfl)
        dsimp only
        rw [run]
        cases e <;> exact fun h => by cases h

/-- The second call of the first run is the one that would size the header. -/
theorem bricked_sample : (workerRun oneLine (brokenRun 1 oneLine .empty).2).2.Bricked ∧
    (workerRun oneLine (workerRun oneLine (brokenRun 1 oneLine .empty).2).2).1 ≠ some 0 := by
  have reads : (workerReader.readAll oneLine).isOk = true := by decide +kernel
  have missed :
      (match (brokenRun 1 oneLine .empty).2.files.header with | .empty => true | _ => false) =
        true := by
    decide +kernel
  have bricked : (brokenRun 1 oneLine .empty).2.Bricked := by
    cases h : (brokenRun 1 oneLine .empty).2.files.header with
    | empty => exact .inl h
    | missing | bytes => simp [h] at missed
  cases read : workerReader.readAll oneLine with
  | error i =>
    rw [read] at reads
    cases reads
  | ok records =>
    have later : Relation.ReflTransGen (fun a b => ∃ records, Attempt records a b)
      (brokenRun 1 oneLine .empty).2
        (workerRun oneLine (brokenRun 1 oneLine .empty).2).2 := by
      rcases worker_attempt read
        (Prod.eta (workerRun oneLine (brokenRun 1 oneLine .empty).2)).symm with same | attempt
      · rw [same]
      · exact .single ⟨records, attempt⟩
    exact bricked_forever bricked later

end Stuck

section Progress

variable {entries records : List LogRecord} {s t : Session} {store : TokenStore}
  {filePath tokenId text : Text}
  {faults : List Bool}

/-- The rows that the object wrote are in files of full size. -/
def Session.Written (s : Session) : Prop := ∀ r, r < s.writeNext →
    s.HasSegment (r / kDataSegmentCapacity)

theorem writeEntry_written {record : LogRecord} (h : writeEntry record s = (.ok (), t))
    (written : s.Written) : t.Written := by
  obtain ⟨-, -, himage, keeps, own⟩ := writeEntry_ok h
  have next : t.writeNext = s.writeNext + 1 := congrArg Image.nextIndex himage
  intro r hr
  by_cases last : r = s.writeNext
  · rw [last]
    exact own
  · exact keeps _ (written r (by omega))

theorem writeLoop_written (h : Effect.forEach writeEntry entries s = (.ok (), t))
    (written : s.Written) : t.Written :=
  Effect.forEach_ok (fun _ u => u.Written) (fun _ _ _ _ hu hx => writeEntry_written hx hu) written h

/-- The loop of write_entries returns over files of whatever content when nothing fails. -/
theorem writeLoop_returns (hc : s.Calm) (small : s.writeNext + entries.length < 2 ^ 31)
    (numbers : ∀ record ∈ entries, record.timestamp.isNaN = false) (tracked : s.Tracked)
    (written : s.Written) :
    ∃ t, Effect.forEach writeEntry entries s = (.ok (), t) ∧ t.Calm := by
  induction entries generalizing s with
  | nil => exact ⟨s, rfl, hc⟩
  | cons record rest ih =>
    rw [List.length_cons] at small
    obtain ⟨mid, hm, hcalm⟩ := writeEntry_returns hc (by omega) (numbers record (by simp))
      fun p hp => written _ (tracked _ p hp)
    have next : mid.writeNext = s.writeNext + 1 := congrArg Image.nextIndex (writeEntry_ok hm).2.2.1
    obtain ⟨t, ht, hfinal⟩ := ih hcalm (by omega) (fun r hr => numbers r (by simp [hr]))
      (writeEntry_tracked tracked hm) (writeEntry_written hm written)
    exact ⟨t, (Effect.bind_of_ok hm).trans ht, hfinal⟩

theorem writeEntries_returns (hc : s.Calm) (idle : s.index.transaction = none)
    (small : s.writeNext + entries.length < 2 ^ 31)
    (numbers : ∀ record ∈ entries, record.timestamp.isNaN = false) (tracked : s.Tracked)
    (written : s.Written) : ∃ t, writeEntries entries s = (.ok (), t) := by
  obtain ⟨a, hbegin, hca⟩ := beginTransaction_returns hc idle
  obtain ⟨_, ha, keeps⟩ := beginTransaction_ok hbegin
  have next : a.writeNext = s.writeNext := congrArg Image.nextIndex ha
  have last : a.lastRowByCanId = s.lastRowByCanId := congrArg Image.lastRow ha
  have trackedA : a.Tracked := by
    intro id p hp
    rw [last] at hp
    rw [next]
    exact tracked id p hp
  obtain ⟨b, hloop, hcb⟩ := writeLoop_returns hca (by omega) numbers trackedA fun r hr =>
    keeps _ (written r (next ▸ hr))
  have start : a.writeNext < 2 ^ 31 := by omega
  have himage : b.image = entries.foldl Image.append a.image := (writeLoop_ok start hloop).2.2.1
  have active : b.index.transaction ≠ none := by
    have same : b.image.index.transaction = none ↔ a.image.index.transaction = none := by
      rw [himage]
      exact foldl_append_transaction entries a.image
    rw [ha] at same
    simpa [Image.begin, Session.image] using same
  obtain ⟨tables, active⟩ := Option.ne_none_iff_exists'.mp active
  obtain ⟨t, hcommit, -⟩ := commitTransaction_returns hcb active
  exact ⟨t, (Effect.bind_of_ok hbegin).trans ((Effect.bind_of_ok hloop).trans hcommit)⟩

/-- Over files none of which is in the middle of its creation the worker stores its records. -/
theorem workerStore_returns (header : store.files.header ≠ .empty)
    (whole : ∀ i, store.files.segments i ≠ .empty) (small : records.length < 2 ^ 31)
    (numbers : ∀ record ∈ records, record.timestamp.isNaN = false) :
    ∃ s, workerStore filePath records (store.start []) = (.ok (), s) := by
  obtain ⟨a, ha, hca⟩ := construct_returns (show (store.start []).Calm from ⟨rfl, header, whole⟩)
  obtain ⟨next, noRow, index, -⟩ := @named_image store filePath [] a ha
  let b := (setSourceFilePath filePath a).2
  have named : setSourceFilePath filePath a = (.ok (), b) := rfl
  have zero : b.writeNext = 0 := next
  have none : b.lastRowByCanId = fun _ => none := noRow
  have idle : b.index.transaction = Option.none := congrArg IndexDb.transaction index
  have calm : b.Calm := setHeader_calm hca _
  obtain ⟨s, hs⟩ := writeEntries_returns calm idle (by omega) numbers
    (fun id p hp => by rw [none] at hp; cases hp) (fun r hr => by omega)
  exact ⟨s, (Effect.bind_of_ok ha).trans ((Effect.bind_of_ok named).trans hs)⟩

/-- The rows of a run that reports success are in files of full size. -/
theorem workerStore_stored (hs : workerStore filePath records (store.start faults) = (.ok (), s))
    {r : Nat} (hr : r < records.length) : s.HasSegment (r / kDataSegmentCapacity) := by
  obtain ⟨_, a, ha, hs⟩ := Effect.bind_eq_ok_iff.mp hs
  obtain ⟨_, b, hb, hs⟩ := Effect.bind_eq_ok_iff.mp hs
  obtain rfl : (setSourceFilePath filePath a).2 = b := congrArg Prod.snd hb
  obtain ⟨next, -, -, -⟩ := @named_image store filePath faults a ha
  have next : (setSourceFilePath filePath a).2.writeNext = 0 := next
  obtain ⟨_, c, hbegin, hs⟩ := Effect.bind_eq_ok_iff.mp hs
  obtain ⟨_, d, hloop, hcommit⟩ := Effect.bind_eq_ok_iff.mp hs
  have zero : c.writeNext = 0 := (congrArg Image.nextIndex (beginTransaction_ok hbegin).2.1).trans next
  have written := writeLoop_written hloop fun r hr => by omega
  have count : d.writeNext = records.length := by
    have himage := (writeLoop_ok (by omega) hloop).2.2.1
    have last : d.writeNext = c.writeNext + records.length :=
      (congrArg Image.nextIndex himage).trans (foldl_append_nextIndex records c.image)
    rw [last, zero, Nat.zero_add]
  exact (commitTransaction_ok hcommit).2 _ (written r (by omega))

/-- After any runs on a file that were killed or failed, the next run on it, when nothing
fails in it, reports success exactly when none of the files that those left is empty. -/
theorem retried_worker_succeeds_iff (path : filePath ≠ []) (token : tokenId ≠ [])
    (read : workerReader.readAll text = .ok records) (small : records.length < 2 ^ 31)
    (earlier : Attempts records .empty store) :
    (runWorkerSegmented filePath tokenId (some text) [] store).1 = some 0 ↔
      store.files.header ≠ .empty ∧ ∀ i, store.files.segments i ≠ .empty := by
  have run : (runWorkerSegmented filePath tokenId (some text) [] store).1 = some 0 ↔
      ∃ s, workerStore filePath records (store.start []) = (.ok (), s) := by
    unfold runWorkerSegmented
    rw [if_neg (by simp [path, token])]
    simp only [read]
    rcases hs : workerStore filePath records (store.start []) with ⟨e | u, s⟩
    · cases e <;> simp
    · simp
  rw [run]
  constructor
  · intro h
    obtain ⟨s, hs⟩ := h
    have sound : ¬ store.Bricked := by
      intro bricked
      obtain ⟨⟨e, throws⟩, -⟩ := @construct_bricked store [] bricked
      obtain ⟨_, a, ha, -⟩ := Effect.bind_eq_ok_iff.mp hs
      rw [ha] at throws
      cases throws
    refine ⟨fun header => sound (.inl header), fun i segment => ?_⟩
    have reached : i * kDataSegmentCapacity < records.length :=
      (earlier.within i (by simp [segment])).resolve_left fun first => sound (.inr (first ▸ segment))
    have start : StuckFile i store.files.segments [] := ⟨segment, List.not_mem_nil⟩
    obtain ⟨_, stuck⟩ := (workerStore_attempt hs).onSegments (stuckFile_tolerates i 0)
      (fun r _ => stuckFile_tolerates i _) start
    have own := workerStore_stored hs reached
    rw [Nat.mul_div_cancel i (by decide)] at own
    obtain ⟨rows, hrows⟩ := own
    have empty : s.files.segments i = .empty := stuck.1
    rw [hrows] at empty
    cases empty
  · intro h
    have numbers : ∀ record ∈ records, record.timestamp.isNaN = false := by
      rw [AscReader.readAll_relative rfl] at read
      exact AscReader.lineRecords_isNaN read
    exact workerStore_returns h.1 h.2 small numbers

theorem retried_worker_succeeds_sample :
    (workerRun twoLines (brokenRun 24 twoLines .empty).2).1 = some 0 ↔
    (brokenRun 24 twoLines .empty).2.files.header ≠ .empty ∧
      ∀ i, (brokenRun 24 twoLines .empty).2.files.segments i ≠ .empty := by
  have reads : (workerReader.readAll twoLines).map List.length = .ok 2 := by decide +kernel
  cases read : workerReader.readAll twoLines with
  | error i =>
    rw [read] at reads
    cases reads
  | ok records =>
    rw [read] at reads
    have two : records.length = 2 := Except.ok.inj reads
    have earlier : Attempts records .empty (brokenRun 24 twoLines .empty).2 := by
      rcases worker_attempt read (Prod.eta (brokenRun 24 twoLines .empty)).symm with same | attempt
      · rw [same]
      · exact .single attempt
    exact retried_worker_succeeds_iff (by decide) (by decide) read (by omega) earlier

end Progress

end FsCore
