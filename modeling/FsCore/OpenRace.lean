import FsCore.WriterSteps

namespace FsCore

def testHeader : StoreM Bool := do
  let s ← Effect.read
  pure s.files.header.isMissing

/-- Acts on what the test saw, whatever the file is by now. -/
def openHeader (missing : Bool) : StoreM Unit := do
  let s ← Effect.read
  if missing then mmapCreateRw MmapHeader.zero Session.setHeader else mmapOpen s.files.header

def testSegment : StoreM Bool := do
  let s ← Effect.read
  pure (s.files.segments 0).isMissing

def openFirstSegment (missing : Bool) : StoreM Unit := do
  let s ← Effect.read
  if missing then mmapCreateRw Segment.zero (Session.setSegment 0) else mmapOpen (s.files.segments 0)
  Effect.modify fun s => { s with writeMapped := 0 :: s.writeMapped }

/-- How far a process has come in the constructor, and the appends after it. -/
inductive OpenPc where
  | start
  | headerTested (missing : Bool)
  | headerMapped
  | headerReady
  | segmentTested (missing : Bool)
  | segmentMapped
  | ready
  | stored (row : Nat) (entry : ParsedEntry)
  | gone

/-- The next file-level step of the constructor. -/
def OpenPc.action : OpenPc → Option (StoreM OpenPc)
  | .start => some do
    let missing ← testHeader
    pure (.headerTested missing)
  | .headerTested missing => some do
    openHeader missing
    pure .headerMapped
  | .headerMapped => some do
    Effect.modify Session.initCapacity
    pure .headerReady
  | .headerReady => some do
    let missing ← testSegment
    pure (.segmentTested missing)
  | .segmentTested missing => some do
    openFirstSegment missing
    pure .segmentMapped
  | .segmentMapped => some do
    openReaders
    pure .ready
  | _ => none

theorem mmapOpenOrCreate_eq {α : Type} (zero : α) (set : File α → Session → Session) (f : File α) :
    mmapOpenOrCreate zero set f = if f.isMissing then mmapCreateRw zero set else mmapOpen f := by
  cases f <;> rfl

theorem openHeaderRw_eq_steps : openHeaderRw = (do
    let missing ← testHeader
    openHeader missing
    Effect.modify Session.initCapacity) := by
  funext s
  simp only [openHeaderRw, testHeader, openHeader, Effect.read_bind, Effect.pure_bind_apply,
    Effect.bind_assoc, mmapOpenOrCreate_eq]

theorem openFirstSegment_eq_steps {s : Session} (h : s.writeMapped = []) :
    openOrCreateSegmentForWrite 0 s = (do
      let missing ← testSegment
      openFirstSegment missing : StoreM Unit) s := by
  simp only [openOrCreateSegmentForWrite, testSegment, openFirstSegment, Effect.read_bind,
    Effect.pure_bind_apply, Effect.bind_assoc, mmapOpenOrCreate_eq, h, List.not_mem_nil, if_false]
  cases (s.files.segments 0).isMissing <;> rfl

theorem openHeaderRw_writeMapped {s t : Session} (h : openHeaderRw s = (.ok (), t)) :
    t.writeMapped = s.writeMapped := by
  have init (u : Session) : u.initCapacity.writeMapped = u.writeMapped := by
    unfold Session.initCapacity
    split <;> rfl
  simp only [openHeaderRw, Effect.read_bind] at h
  obtain ⟨_, mid, ho, h⟩ := Effect.bind_eq_ok_iff.mp h
  cases h
  rw [init]
  rcases mmapOpenOrCreate_ok (by intros; rfl) ho with ⟨_, _, _, rfl⟩ | ⟨_, _, rfl⟩ <;> rfl

/-- Taken without a pause, the steps are the constructor. -/
theorem construct_eq_steps {s : Session} (h : s.writeMapped = []) : construct s = (do
    let headerMissing ← testHeader
    openHeader headerMissing
    Effect.modify Session.initCapacity
    let segmentMissing ← testSegment
    openFirstSegment segmentMissing
    openReaders : StoreM Unit) s := by
  have grouped : (do
      let headerMissing ← testHeader
      openHeader headerMissing
      Effect.modify Session.initCapacity
      let segmentMissing ← testSegment
      openFirstSegment segmentMissing
      openReaders : StoreM Unit) =
      openHeaderRw >>= fun _ => (testSegment >>= openFirstSegment) >>= fun _ => openReaders := by
    rw [openHeaderRw_eq_steps]
    simp only [Effect.bind_assoc]
  rw [grouped, construct]
  rcases hw : openHeaderRw s with ⟨r, t⟩
  cases r with
  | error e => rw [Effect.bind_of_error hw, Effect.bind_of_error hw]
  | ok _ =>
    have first := openFirstSegment_eq_steps ((openHeaderRw_writeMapped hw).trans h)
    rw [Effect.bind_of_ok hw, Effect.bind_of_ok hw]
    rcases hs : openOrCreateSegmentForWrite 0 t with ⟨r, u⟩
    cases r with
    | error e => rw [Effect.bind_of_error hs, Effect.bind_of_error (first.symm.trans hs)]
    | ok _ => rw [Effect.bind_of_ok hs, Effect.bind_of_ok (first.symm.trans hs)]

/-- The files of a token, the processes that open it, and the rows that process 0
has appended and counted. -/
structure OpenWorld where
  files : MmapFiles
  procs : Nat → OpenPc × Session
  given : List ParsedEntry

/-- A process works on the files as they are now. -/
def OpenWorld.enter (w : OpenWorld) (p : Nat) : Session := { (w.procs p).2 with files := w.files }

def OpenWorld.leave (w : OpenWorld) (p : Nat) (pc : OpenPc) (t : Session) : OpenWorld :=
  { w with files := t.files, procs := Function.update w.procs p (pc, t) }

def OpenWorld.run (w : OpenWorld) (p : Nat) (m : StoreM OpenPc) : OpenWorld :=
  match m (w.enter p) with
  | (.ok pc, t) => w.leave p pc t
  | (.error _, t) => w.leave p .gone t

/-- A step of some process: on with its constructor, or one half of an append. -/
inductive Move where
  | construct (p : Nat)
  | store (entry : ParsedEntry)
  | count

def OpenWorld.step (w : OpenWorld) : Move → OpenWorld
  | .construct p =>
    match (w.procs p).1.action with
    | some m => w.run p m
    | none => w
  | .store entry =>
    match (w.procs 0).1 with
    | .ready => w.run 0 do
      let row ← writeNextRow entry
      pure (.stored row entry)
    | _ => w
  | .count =>
    match (w.procs 0).1 with
    | .stored row entry =>
      { w.run 0 (do
          setWriteCount (row + 1)
          pure .ready) with given := w.given ++ [entry] }
    | _ => w

/-- Processes before their constructors, over files that may hold a store already. -/
def OpenWorld.start (files : MmapFiles) (faults : Nat → List Bool) : OpenWorld where
  files := files
  procs := fun p => (.start, Session.start files IndexTables.empty (faults p))
  given := []

/-- Every appended row is counted and as it was given. -/
def OpenWorld.Intact (w : OpenWorld) : Prop :=
  ∀ i, (h : i < w.given.length) →
    i < (w.enter 0).header.writeCount ∧ (w.enter 0).rowAt i = w.given[i]

/-- No file that exists loses its rows or its count. -/
structure Spares (d d' : MmapFiles) : Prop where
  header : ∀ h, d.header = .bytes h → ∃ h', d'.header = .bytes h' ∧ h'.writeCount = h.writeCount
  segments : ∀ i rows, d.segments i = .bytes rows → d'.segments i = .bytes rows

/-- No row is lost in any state of a run, and no constructor zeroes a file that exists. -/
def Unharmed (w : OpenWorld) : List Move → Prop
  | [] => w.Intact
  | move :: moves =>
    w.Intact ∧ (∀ p, move = .construct p → Spares w.files (w.step move).files) ∧
      Unharmed (w.step move) moves

/-- A process about to create a file finds it still missing. -/
def OpenWorld.Careful (w : OpenWorld) : Move → Prop
  | .construct p =>
    match (w.procs p).1 with
    | .headerTested true => w.files.header.isMissing = true
    | .segmentTested true => (w.files.segments 0).isMissing = true
    | _ => True
  | _ => True

instance (w : OpenWorld) (move : Move) : Decidable (w.Careful move) := by
  unfold OpenWorld.Careful
  split <;> (try split) <;> infer_instance

def CarefulRun (w : OpenWorld) : List Move → Prop
  | [] => True
  | move :: moves => w.Careful move ∧ CarefulRun (w.step move) moves

instance decidableCarefulRun (w : OpenWorld) : (moves : List Move) → Decidable (CarefulRun w moves)
  | [] => inferInstanceAs (Decidable True)
  | move :: moves =>
    have := decidableCarefulRun (w.step move) moves
    inferInstanceAs (Decidable (w.Careful move ∧ CarefulRun (w.step move) moves))

/-- What a careful step of a constructor leaves alone. -/
structure Untouched (s t : Session) : Prop where
  count : t.header.writeCount = s.header.writeCount
  rows : t.rowAt = s.rowAt
  next : t.writeNext = s.writeNext
  spares : Spares s.files t.files

theorem Spares.refl (d : MmapFiles) : Spares d d := ⟨fun h hd => ⟨h, hd, rfl⟩, fun _ _ hd => hd⟩

theorem Untouched.refl (s : Session) : Untouched s s := ⟨rfl, rfl, rfl, Spares.refl _⟩

theorem Untouched.trans (s t u : Session) (hst : Untouched s t) (htu : Untouched t u) :
    Untouched s u := by
  refine ⟨htu.count.trans hst.count, htu.rows.trans hst.rows, htu.next.trans hst.next, ?_, ?_⟩
  · intro h hs
    obtain ⟨h', ht, eq⟩ := hst.spares.header h hs
    obtain ⟨h'', hu, eq'⟩ := htu.spares.header h' ht
    exact ⟨h'', hu, eq'.trans eq⟩
  · exact fun i rows hs => htu.spares.segments i rows (hst.spares.segments i rows hs)

theorem call_untouched (name : String) (s : Session) : Untouched s (call name s).2 := by
  unfold call
  split <;> exact ⟨rfl, rfl, rfl, Spares.refl _⟩

theorem mmapOpen_untouched {α : Type} (f : File α) (s : Session) : Untouched s (mmapOpen f s).2 := by
  cases f with
  | missing => exact Untouched.refl s
  | empty =>
    exact Effect.bind_frame Untouched.trans (call_untouched _ s) (fun _ t _ => Untouched.refl t)
  | bytes content =>
    exact Effect.bind_frame Untouched.trans (call_untouched _ s) (fun _ t _ => call_untouched _ t)

/-- Creation touches nothing when each of its two writes to the file finds no contents. -/
theorem mmapCreateRw_untouched {α : Type} {zero : α} {set : File α → Session → Session} {s : Session}
    (first : ∀ rest, Untouched { s with faults := rest } (set .empty { s with faults := rest }))
    (second : ∀ rest rest', Untouched
      { set .empty { s with faults := rest } with faults := rest' }
      (set (.bytes zero) { set .empty { s with faults := rest } with faults := rest' })) :
    Untouched s (mmapCreateRw zero set s).2 := by
  refine Effect.bind_frame Untouched.trans (call_untouched _ s) (fun _ a ha => ?_)
  obtain ⟨rest, rfl⟩ := call_ok ha
  refine Effect.bind_frame Untouched.trans (first rest) (fun _ b hb => ?_)
  cases hb
  refine Effect.bind_frame Untouched.trans (call_untouched _ _) (fun _ c hc => ?_)
  obtain ⟨rest', rfl⟩ := call_ok hc
  exact Effect.bind_frame Untouched.trans (second rest rest') (fun _ d _ => call_untouched _ d)

theorem setHeader_untouched {s : Session} {f : File MmapHeader} (none : ∀ h, s.files.header ≠ .bytes h)
    (zero : (f.content MmapHeader.zero).writeCount = 0) : Untouched s (s.setHeader f) := by
  have old : s.header = MmapHeader.zero := by
    cases hf : s.files.header with
    | bytes h => exact absurd hf (none h)
    | missing => simp [Session.header, hf, File.content]
    | empty => simp [Session.header, hf, File.content]
  refine ⟨?_, rfl, rfl, fun h hs => absurd hs (none h), fun _ _ hs => hs⟩
  rw [old]
  exact zero

theorem setSegment_untouched {s : Session} {i : Nat} {f : File Segment} (none : ¬ s.HasSegment i)
    (zero : f.content Segment.zero = Segment.zero) : Untouched s (s.setSegment i f) := by
  have old : (s.files.segments i).content Segment.zero = Segment.zero := by
    cases hf : s.files.segments i with
    | bytes rows => exact absurd ⟨rows, hf⟩ none
    | missing => rfl
    | empty => rfl
  refine ⟨rfl, ?_, rfl, fun h hs => ⟨h, hs, rfl⟩, ?_⟩
  · funext r
    simp only [Session.rowAt, setSegment_segments]
    split
    next eq => rw [eq, old, zero]
    next => rfl
  · intro j rows hs
    have ne : j ≠ i := fun eq => none ⟨rows, eq ▸ hs⟩
    rw [setSegment_segments, if_neg ne]
    exact hs

theorem isMissing_iff {α : Type} {f : File α} : f.isMissing = true ↔ f = .missing := by
  cases f <;> simp [File.isMissing]

theorem openHeader_untouched {missing : Bool} {s : Session}
    (careful : missing = true → s.files.header.isMissing = true) :
    Untouched s (openHeader missing s).2 := by
  simp only [openHeader, Effect.read_bind]
  cases missing with
  | false => exact mmapOpen_untouched _ s
  | true =>
    have none := isMissing_iff.mp (careful rfl)
    refine mmapCreateRw_untouched (fun rest => setHeader_untouched (fun h hs => ?_) rfl)
      (fun rest rest' => setHeader_untouched (fun h hs => ?_) rfl)
    · cases none.symm.trans hs
    · cases hs

theorem openFirstSegment_untouched {missing : Bool} {s : Session}
    (careful : missing = true → (s.files.segments 0).isMissing = true) :
    Untouched s (openFirstSegment missing s).2 := by
  have mapped (t : Session) : Untouched t { t with writeMapped := 0 :: t.writeMapped } :=
    ⟨rfl, rfl, rfl, Spares.refl _⟩
  simp only [openFirstSegment, Effect.read_bind]
  cases missing with
  | false => exact Effect.bind_frame Untouched.trans (mmapOpen_untouched _ s) (fun _ t _ => mapped t)
  | true =>
    refine Effect.bind_frame Untouched.trans ?_ (fun _ t _ => mapped t)
    have none := isMissing_iff.mp (careful rfl)
    refine mmapCreateRw_untouched (fun rest => setSegment_untouched ?_ rfl)
      (fun rest rest' => setSegment_untouched ?_ rfl)
    · intro h
      obtain ⟨rows, hs⟩ := h
      cases none.symm.trans hs
    · intro h
      obtain ⟨rows, hs⟩ := h
      simp [Session.setSegment] at hs

theorem initCapacity_untouched (s : Session) : Untouched s s.initCapacity := by
  unfold Session.initCapacity
  split
  next =>
    refine ⟨rfl, rfl, rfl, fun h hs => ⟨_, rfl, ?_⟩, fun _ _ hs => hs⟩
    have : s.header = h := by simp [Session.header, hs, File.content]
    rw [this]
  next => exact Untouched.refl s

theorem openSegment_untouched (i : Nat) (s : Session) : Untouched s (openSegment i s).2 := by
  simp only [openSegment, Effect.read_bind]
  split
  next => exact Untouched.refl s
  next =>
    exact Effect.bind_frame Untouched.trans (mmapOpen_untouched _ s)
      (fun _ t _ => ⟨rfl, rfl, rfl, Spares.refl _⟩)

theorem forEach_call_untouched (names : List String) (s : Session) :
    Untouched s (Effect.forEach call names s).2 := by
  induction names generalizing s with
  | nil => exact Untouched.refl s
  | cons name rest ih =>
    exact Effect.bind_frame Untouched.trans (call_untouched name s) (fun _ t _ => ih t)

theorem openReaders_untouched (s : Session) : Untouched s (openReaders s).2 := by
  refine Effect.bind_frame Untouched.trans (mmapOpen_untouched _ s) (fun _ a _ => ?_)
  rw [Effect.read_bind]
  cases a.files.segments 0 with
  | missing => exact forEach_call_untouched _ a
  | empty | bytes =>
    exact Effect.bind_frame Untouched.trans (openSegment_untouched 0 a)
      (fun _ b _ => forEach_call_untouched _ b)

/-- A constructor's step, when it creates only what is missing. -/
theorem action_untouched {w : OpenWorld} {p : Nat} (careful : w.Careful (.construct p))
    {m : StoreM OpenPc} (hm : (w.procs p).1.action = some m) :
    Untouched (w.enter p) (m (w.enter p)).2 := by
  have alone {α : Type} {m : StoreM α} {f : α → OpenPc} (h : Untouched (w.enter p) (m (w.enter p)).2) :
      Untouched (w.enter p) ((m >>= fun a => pure (f a)) (w.enter p)).2 :=
    Effect.bind_frame Untouched.trans h (fun _ t _ => Untouched.refl t)
  simp only [OpenWorld.Careful] at careful
  cases hpc : (w.procs p).1 with
  | stored | ready | gone =>
    rw [hpc] at hm
    cases hm
  | start | headerReady =>
    rw [hpc] at hm
    cases hm
    exact alone (Untouched.refl _)
  | headerMapped =>
    rw [hpc] at hm
    cases hm
    exact alone (initCapacity_untouched _)
  | segmentMapped =>
    rw [hpc] at hm
    cases hm
    exact alone (openReaders_untouched _)
  | headerTested missing =>
    rw [hpc] at hm careful
    cases hm
    refine alone (openHeader_untouched (fun h => ?_))
    subst h
    exact careful
  | segmentTested missing =>
    rw [hpc] at hm careful
    cases hm
    refine alone (openFirstSegment_untouched (fun h => ?_))
    subst h
    exact careful

/-- The constructor never leads into the middle of an append. -/
theorem action_not_stored {pc pc' : OpenPc} {m : StoreM OpenPc} {s t : Session}
    (hm : pc.action = some m) (h : m s = (.ok pc', t)) (row : Nat) (entry : ParsedEntry) :
    pc' ≠ .stored row entry := by
  cases pc with
  | stored | ready | gone => cases hm
  | start | headerTested | headerMapped | headerReady | segmentTested | segmentMapped =>
    cases hm
    obtain ⟨_, mid, _, h⟩ := Effect.bind_eq_ok_iff.mp h
    cases h
    exact OpenPc.noConfusion

/-- Where the appending process stands against what it has appended. -/
def OpenPc.Holds (given : List ParsedEntry) (s : Session) : OpenPc → Prop
  | .gone => True
  | .stored row entry => row = given.length ∧ s.writeNext = given.length + 1 ∧
      s.HasSegment (row / kDataSegmentCapacity) ∧ s.rowAt row = entry
  | _ => s.writeNext = given.length

structure OpenWorld.Safe (w : OpenWorld) : Prop where
  rows : ∀ i, (h : i < w.given.length) →
    (w.enter 0).HasSegment (i / kDataSegmentCapacity) ∧ (w.enter 0).rowAt i = w.given[i]
  counted : w.given ≠ [] → (w.enter 0).header.writeCount = w.given.length
  writer : (w.procs 0).1.Holds w.given (w.enter 0)

theorem OpenWorld.Safe.intact {w : OpenWorld} (h : w.Safe) : w.Intact := by
  intro i hi
  have some : w.given ≠ [] := by
    rintro none
    simp [none] at hi
  exact ⟨by rw [h.counted some]; exact hi, (h.rows i hi).2⟩

theorem enter_leave (w : OpenWorld) (p q : Nat) (pc : OpenPc) (t : Session) :
    (w.leave p pc t).enter q = if q = p then t else { (w.procs q).2 with files := t.files } := by
  simp only [OpenWorld.enter, OpenWorld.leave, Function.update_apply]
  split <;> rfl

/-- Where the appending process stands is not a matter of what other rows there are. -/
theorem OpenPc.Holds.congr {pc : OpenPc} {given : List ParsedEntry} {s t : Session}
    (h : pc.Holds given s) (next : t.writeNext = s.writeNext) (rows : t.rowAt = s.rowAt)
    (keeps : ∀ i, s.HasSegment i → t.HasSegment i) : pc.Holds given t := by
  cases pc with
  | gone => trivial
  | stored row entry =>
    obtain ⟨hrow, hnext, seg, eq⟩ := h
    exact ⟨hrow, next.trans hnext, keeps _ seg, by rw [rows]; exact eq⟩
  | start | headerTested | headerMapped | headerReady | segmentTested | segmentMapped | ready =>
    exact next.trans h

/-- A careful step of a constructor, of whichever process. -/
theorem leave_safe {w : OpenWorld} (h : w.Safe) {p : Nat} {pc : OpenPc} {t : Session}
    (untouched : Untouched (w.enter p) t)
    (own : p = 0 → (w.procs 0).1.Holds w.given (w.enter 0) → pc.Holds w.given t) :
    (w.leave p pc t).Safe := by
  have files : ((w.leave p pc t).enter 0).files = t.files := by
    rw [enter_leave]
    split <;> rfl
  have header : ((w.leave p pc t).enter 0).header = t.header := by
    simp only [Session.header, files]
  have rows : ((w.leave p pc t).enter 0).rowAt = (w.enter 0).rowAt := by
    have same : ((w.leave p pc t).enter 0).rowAt = t.rowAt := by
      funext r
      simp only [Session.rowAt, files]
    exact same.trans untouched.rows
  have keeps (i : Nat) (hs : (w.enter 0).HasSegment i) : ((w.leave p pc t).enter 0).HasSegment i := by
    obtain ⟨content, hc⟩ := hs
    exact ⟨content, by rw [files]; exact untouched.spares.segments i content hc⟩
  refine ⟨?_, ?_, ?_⟩
  · intro i hi
    obtain ⟨seg, eq⟩ := h.rows i hi
    exact ⟨keeps _ seg, by rw [rows]; exact eq⟩
  · intro some
    rw [header, untouched.count]
    exact h.counted some
  · by_cases mine : p = 0
    · subst mine
      have hpc : ((w.leave 0 pc t).procs 0).1 = pc := by simp [OpenWorld.leave]
      rw [hpc, enter_leave, if_pos rfl]
      exact own rfl h.writer
    · have other : ((w.leave p pc t).procs 0) = w.procs 0 := by
        simp [OpenWorld.leave, Function.update_of_ne (Ne.symm mine)]
      have next : ((w.leave p pc t).enter 0).writeNext = (w.enter 0).writeNext := by
        rw [enter_leave, if_neg (Ne.symm mine)]
        rfl
      rw [other]
      exact h.writer.congr next rows keeps

theorem holds_of_next {pc : OpenPc} {given : List ParsedEntry} {s : Session}
    (open' : ∀ row entry, pc ≠ .stored row entry) (h : s.writeNext = given.length) :
    pc.Holds given s := by
  cases pc with
  | stored row entry => exact absurd rfl (open' row entry)
  | gone => trivial
  | start | headerTested | headerMapped | headerReady | segmentTested | segmentMapped | ready => exact h

theorem next_of_holds {pc : OpenPc} {m : StoreM OpenPc} {given : List ParsedEntry} {s : Session}
    (hm : pc.action = some m) (h : pc.Holds given s) : s.writeNext = given.length := by
  cases pc with
  | stored | ready | gone => cases hm
  | start | headerTested | headerMapped | headerReady | segmentTested | segmentMapped => exact h

theorem construct_safe {w : OpenWorld} (h : w.Safe) {p : Nat} (careful : w.Careful (.construct p)) :
    (w.step (.construct p)).Safe ∧ Spares w.files (w.step (.construct p)).files := by
  simp only [OpenWorld.step]
  cases hm : (w.procs p).1.action with
  | none => exact ⟨h, Spares.refl _⟩
  | some m =>
    have untouched := action_untouched careful hm
    simp only [OpenWorld.run]
    rcases hr : m (w.enter p) with ⟨r, t⟩
    rw [hr] at untouched
    cases r with
    | error e => exact ⟨leave_safe h untouched (fun _ _ => trivial), untouched.spares⟩
    | ok pc =>
      refine ⟨leave_safe h untouched ?_, untouched.spares⟩
      rintro rfl holds
      exact holds_of_next (action_not_stored hm hr) (untouched.next.trans (next_of_holds hm holds))

theorem stored_holds {w : OpenWorld} {entry : ParsedEntry} {row : Nat} {t : Session}
    (next : (w.enter 0).writeNext = w.given.length)
    (hr : writeNextRow entry (w.enter 0) = (.ok row, t)) :
    (OpenPc.stored row entry).Holds w.given t := by
  obtain ⟨hrow, _, himage, _, own⟩ := writeNextRow_ok hr
  refine ⟨hrow.trans next, ?_, by rw [hrow]; exact own, ?_⟩
  · have := congrArg Image.nextIndex himage
    rw [next] at this
    exact this
  · have hat : t.image.row row = entry := by
      rw [himage, hrow]
      simp
    exact hat

/-- The appending process stores a row: the rows before it are not concerned. -/
theorem store_safe {w : OpenWorld} (h : w.Safe) (entry : ParsedEntry) :
    (w.step (.store entry)).Safe := by
  simp only [OpenWorld.step]
  cases hpc : (w.procs 0).1 with
  | start | headerTested | headerMapped | headerReady | segmentTested | segmentMapped | stored | gone =>
    exact h
  | ready =>
    have next : (w.enter 0).writeNext = w.given.length := by
      have hw := h.writer
      rw [hpc] at hw
      exact hw
    have kept := writeNextRow_kept entry (w.enter 0)
    rw [next] at kept
    have rows {t : Session} (kept : Kept w.given.length (w.enter 0) t) (i : Nat)
      (hi : i < w.given.length) :
        t.HasSegment (i / kDataSegmentCapacity) ∧ t.rowAt i = w.given[i] := by
      obtain ⟨seg, eq⟩ := h.rows i hi
      obtain ⟨seg', eq'⟩ := kept.rows i hi seg
      exact ⟨seg', eq'.trans eq⟩
    rcases hr : writeNextRow entry (w.enter 0) with ⟨r, t⟩
    rw [hr] at kept
    have counted (some : w.given ≠ []) : t.header.writeCount = w.given.length := by
      rw [kept.header]
      exact h.counted some
    cases r with
    | error e =>
      have run : w.run 0 (do let row ← writeNextRow entry; pure (.stored row entry)) =
        w.leave 0 .gone t := by
        simp only [OpenWorld.run, Effect.bind_of_error hr]
      have enter : (w.leave 0 .gone t).enter 0 = t := by rw [enter_leave, if_pos rfl]
      rw [run]
      exact ⟨by rw [enter]; exact rows kept, by rw [enter]; exact counted,
        by simp [OpenWorld.leave, OpenPc.Holds]⟩
    | ok row =>
      have run : w.run 0 (do let row ← writeNextRow entry; pure (.stored row entry)) =
          w.leave 0 (.stored row entry) t := by
        simp only [OpenWorld.run, Effect.bind_of_ok hr]
        rfl
      have enter : (w.leave 0 (.stored row entry) t).enter 0 = t := by rw [enter_leave, if_pos rfl]
      rw [run]
      exact ⟨by rw [enter]; exact rows kept, by rw [enter]; exact counted,
        by rw [enter]; simpa [OpenWorld.leave] using stored_holds next hr⟩

theorem count_safe {w : OpenWorld} (h : w.Safe) : (w.step .count).Safe := by
  simp only [OpenWorld.step]
  cases hpc : (w.procs 0).1 with
  | start | headerTested | headerMapped | headerReady | segmentTested | segmentMapped | ready | gone =>
    exact h
  | stored row entry =>
    have hw := h.writer
    rw [hpc] at hw
    obtain ⟨rfl, hnext, seg, eq⟩ := hw
    let t := (w.enter 0).setHeader (.bytes { (w.enter 0).header with writeCount := w.given.length + 1 })
    have run : w.run 0 (do setWriteCount (w.given.length + 1); pure .ready) = w.leave 0 .ready t := rfl
    have enter : OpenWorld.enter { w.leave 0 .ready t with given := w.given ++ [entry] } 0 = t := by
      change (w.leave 0 .ready t).enter 0 = t
      rw [enter_leave, if_pos rfl]
    simp only [run]
    refine ⟨?_, ?_, ?_⟩
    · intro i hi
      rw [enter]
      by_cases last : i = w.given.length
      · subst last
        exact ⟨seg, eq.trans (by simp)⟩
      · have hi : i < w.given.length := by
          simp only [List.length_append, List.length_singleton] at hi
          omega
        have old := h.rows i hi
        exact ⟨old.1, by rw [List.getElem_append_left hi]; exact old.2⟩
    · intro _
      rw [enter, List.length_append, List.length_singleton]
      rfl
    · have pc : (w.leave 0 .ready t).procs 0 = (.ready, t) := by simp [OpenWorld.leave]
      rw [enter]
      simp only [pc, OpenPc.Holds, List.length_append, List.length_singleton]
      exact hnext

theorem start_safe (files : MmapFiles) (faults : Nat → List Bool) :
    (OpenWorld.start files faults).Safe :=
  ⟨fun i hi => absurd hi (Nat.not_lt_zero i), fun some => absurd rfl some, rfl⟩

theorem unharmed_of_safe {w : OpenWorld} (h : w.Safe) {moves : List Move}
    (careful : CarefulRun w moves) : Unharmed w moves := by
  induction moves generalizing w with
  | nil => exact h.intact
  | cons move moves ih =>
    cases move with
    | construct p =>
      obtain ⟨safe, spares⟩ := construct_safe h careful.1
      refine ⟨h.intact, ?_, ih safe careful.2⟩
      rintro q eq
      cases eq
      exact spares
    | store entry => exact ⟨h.intact, fun p eq => (nomatch eq), ih (store_safe h entry) careful.2⟩
    | count => exact ⟨h.intact, fun p eq => (nomatch eq), ih (count_safe h) careful.2⟩

/-- In a run in which every file that is created is missing at that moment, nothing is
lost, whatever the files hold at first, whichever calls fail and however many processes
there are. -/
theorem careful_run_unharmed {files : MmapFiles} {faults : Nat → List Bool} {moves : List Move}
    (careful : CarefulRun (OpenWorld.start files faults) moves) :
    Unharmed (OpenWorld.start files faults) moves :=
  unharmed_of_safe (start_safe files faults) careful

theorem careful_run_unharmed_sample :
    Unharmed (OpenWorld.start ⟨.missing, fun _ => .missing⟩ (fun _ => []))
      (List.replicate 6 (.construct 0) ++
        [.store ParsedEntry.zero, .count, .construct 1, .construct 1]) :=
  careful_run_unharmed (by decide +kernel)

theorem Unharmed.final {w : OpenWorld} {moves : List Move} (h : Unharmed w moves) :
    (moves.foldl OpenWorld.step w).Intact := by
  induction moves generalizing w with
  | nil => exact h
  | cons move moves ih => exact ih h.2.2

/-- Process 1 tests for the header, process 0 opens the token and appends a row, and
then process 1 creates the header. -/
def lateCreation : List Move :=
  .construct 1 :: List.replicate 6 (.construct 0) ++ [.store ParsedEntry.zero, .count, .construct 1]

theorem lateCreation_harms : ¬ ∀ files faults moves, Unharmed (OpenWorld.start files faults) moves := by
  intro unharmed
  have intact := (unharmed ⟨.missing, fun _ => .missing⟩ (fun _ => []) lateCreation).final
  have counted := (intact 0 (by decide +kernel)).1
  exact absurd counted (by decide +kernel)

end FsCore
