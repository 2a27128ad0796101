import FsCore.Handles
import Mathlib.Algebra.Group.Nat.Defs
import Mathlib.Data.Finset.Card

namespace FsCore

inductive MMapAccess where
  | readOnly
  | readWrite
deriving DecidableEq

/-- `std::filesystem::exists`, which throws when the system cannot tell. -/
def sysExists (path : String) : ProcessM Bool := do
  let a ← sysCall
  match a with
  | none => Effect.raise (.filesystem path)
  | some 0 => pure false
  | some _ => pure true

def MMapHandle.new (path : String) : MMapAccess → ProcessM MMapHandle
  | .readOnly => MMapHandle.mmapOpenRo path
  | .readWrite => MMapHandle.mmapOpenRw path

/-- Maps the file that is there, or creates it. -/
def newOrCreate (path : String) (bytes : Nat) : ProcessM MMapHandle := do
  let found ← sysExists path
  if found = true then MMapHandle.new path .readWrite else MMapHandle.mmapCreateRw path bytes

/-- `sizeof(MmapHeaderConstract)` -/
def headerBytes : Nat := 538

/-- `SegmentView<ParsedEntry>::kSegmentBytes` -/
def segmentBytes : Nat := 100000 * 121

structure HeaderView where
  mmap : MMapHandle

/-- What the member `mmap_` is made from. -/
def HeaderView.file (path : String) : MMapAccess → ProcessM MMapHandle
  | .readOnly => MMapHandle.new path .readOnly
  | .readWrite => newOrCreate path headerBytes

/-- When the body throws, the member `mmap_` is destroyed. -/
def HeaderView.new (path : String) (access : MMapAccess) : ProcessM HeaderView := do
  let mmap ← HeaderView.file path access
  if mmap.size < headerBytes then do
    let _ ← mmap.mmapClose
    Effect.raise (.mmap ("Header mmap too small: " ++ path))
  else
    pure ⟨mmap⟩

/-- `segments` is the map `segments_`, in the order in which its destructor takes the entries. -/
structure SegmentView where
  basePath : String
  access : MMapAccess
  writeNext : Nat
  segments : List (Nat × MMapHandle)

namespace SegmentView

/-- The number with at least three digits. -/
def segmentPath (v : SegmentView) (segIdx : Nat) : String :=
  v.basePath ++ "." ++ String.ofList (List.leftpad 3 '0' (Nat.toDigits 10 segIdx))

def mapped (v : SegmentView) (segIdx : Nat) : Bool := v.segments.any fun entry => entry.1 == segIdx

/-- `try_emplace` of a segment that is not there: nothing is inserted when the handle throws. -/
def emplace (v : SegmentView) (segIdx : Nat) (m : ProcessM MMapHandle) : ProcessM SegmentView := do
  let mmap ← m
  pure { v with segments := (segIdx, mmap) :: v.segments }

def openSegment (v : SegmentView) (segIdx : Nat) : ProcessM SegmentView :=
  if v.mapped segIdx then pure v else v.emplace segIdx (MMapHandle.new (v.segmentPath segIdx) v.access)

def openOrCreateSegmentForWrite (v : SegmentView) (segIdx : Nat) : ProcessM SegmentView :=
  if v.access = .readOnly then
    Effect.raise (.mmap "SegmentView is read-only")
  else if v.mapped segIdx then
    pure v
  else
    v.emplace segIdx (newOrCreate (v.segmentPath segIdx) segmentBytes)

/-- The destructor of the map. -/
def closeAll : List (Nat × MMapHandle) → ProcessM Unit
  | [] => pure ()
  | entry :: rest => do
    let _ ← entry.2.mmapClose
    closeAll rest

/-- Segment 0 is opened at once, by a reader only when it is there; when that throws, the map is
still empty. -/
def new (basePath : String) (access : MMapAccess) : ProcessM SegmentView :=
  let v : SegmentView := ⟨basePath, access, 0, []⟩
  match access with
  | .readWrite => v.openOrCreateSegmentForWrite 0
  | .readOnly => do
    let found ← sysExists (v.segmentPath 0)
    if found = true then v.openSegment 0 else pure v

def rowsPerSegment : Nat := 100000

def readAt (v : SegmentView) (row : Nat) : ProcessM SegmentView := v.openSegment (row / rowsPerSegment)

/-- `write_next_` is an int32_t, and a call that would make it overflow is undefined from its start. -/
def writeNextRow (v : SegmentView) : ProcessM SegmentView :=
  if v.access = .readOnly then
    Effect.raise (.mmap "SegmentView is read-only")
  else if v.writeNext + 1 < 2 ^ 31 then do
    let v ← v.openOrCreateSegmentForWrite (v.writeNext / rowsPerSegment)
    pure { v with writeNext := v.writeNext + 1 }
  else
    Effect.raise .undefined

def writeAt (v : SegmentView) (row : Nat) : ProcessM SegmentView :=
  if v.access = .readOnly then
    Effect.raise (.mmap "SegmentView is read-only")
  else if v.writeNext < row then
    Effect.raise (.mmap "write_at row_index creates a gap")
  else if row = v.writeNext ∧ 2 ^ 31 ≤ row + 1 then
    Effect.raise .undefined
  else do
    let v ← v.openOrCreateSegmentForWrite (row / rowsPerSegment)
    pure (if row = v.writeNext then { v with writeNext := v.writeNext + 1 } else v)

end SegmentView

structure DataMmapInterface where
  header : HeaderView
  segments : SegmentView

namespace DataMmapInterface

/-- When the second member throws, the first one is destroyed. -/
def new (filePath : String) (access : MMapAccess) : ProcessM DataMmapInterface := do
  let header ← HeaderView.new (filePath ++ ".header") access
  let segments ← (SegmentView.new filePath access).attempt
  match segments with
  | .ok segments => pure ⟨header, segments⟩
  | .error e => do
    let _ ← header.mmap.mmapClose
    Effect.raise e

/-- The members are destroyed in the reverse order. -/
def destroy (d : DataMmapInterface) : ProcessM Unit := do
  SegmentView.closeAll d.segments.segments
  let _ ← d.header.mmap.mmapClose
  pure ()

/-- The object and what was thrown, if anything. A call that opens several segments keeps those
that it has opened when it throws at the next one. -/
abbrev CallM := ProcessM (DataMmapInterface × Option HandleError)

/-- A call that changes the segments, or throws and leaves them. -/
def call (d : DataMmapInterface) (m : ProcessM SegmentView) : CallM := do
  let r ← m.attempt
  match r with
  | .ok segments => pure ({ d with segments := segments }, none)
  | .error e => pure (d, some e)

/-- `read_page` and `read_rows`, on the rows that they read one after the other. -/
def readRows (d : DataMmapInterface) : List Nat → CallM
  | [] => pure (d, none)
  | row :: rows => do
    let (d, thrown) ← d.call (d.segments.readAt row)
    match thrown with
    | none => readRows d rows
    | some e => pure (d, some e)

def appendEntry (d : DataMmapInterface) : CallM := d.call d.segments.writeNextRow

/-- `total` is the write count in the header. -/
def updateEntry (d : DataMmapInterface) (row total : Nat) : CallM :=
  if total ≤ row then
    pure (d, some (.mmap "row index out of range"))
  else
    d.call (d.segments.writeAt row)

end DataMmapInterface

section Trades

theorem sysExists_trades (path : String) :
    HandleTrades ∅ (sysExists path) (fun _ r => r = ∅) fun r => r = ∅ := by
  refine Trades.bind sysCall_trades (fun a r none => ?_) fun _ h => h.elim
  subst none
  match a with
  | none =>
    refine Trades.raise ?_ rfl
    rintro ⟨r, h⟩
    cases h
  | some 0 => exact Trades.pure rfl
  | some (n + 1) => exact Trades.pure rfl

theorem MMapHandle.new_trades (path : String) (access : MMapAccess) :
    HandleTrades ∅ (MMapHandle.new path access) MMapHandle.Opened fun r => r = ∅ := by
  cases access with
  | readOnly => exact MMapHandle.mmapOpen_trades "ro" path
  | readWrite => exact MMapHandle.mmapOpen_trades "rw" path

theorem newOrCreate_trades (path : String) (bytes : Nat) :
    HandleTrades ∅ (newOrCreate path bytes) MMapHandle.Opened fun r => r = ∅ := by
  refine Trades.bind (sysExists_trades path) (fun found r none => ?_) fun _ h => h
  subst none
  split
  · exact MMapHandle.new_trades path .readWrite
  · exact MMapHandle.mmapCreateRw_trades path bytes

/-- A handle is closed before an error goes on. -/
theorem closeThen_trades {α : Type} {h : MMapHandle} {r : Finset Resource} {e : HandleError}
    {ok : α → Finset Resource → Prop} (opened : h.Opened r) (fine : ¬ e.IsMisuse) :
    HandleTrades r (h.mmapClose >>= fun _ => Effect.raise e) ok fun r => r = ∅ := by
  obtain ⟨-, -, rfl⟩ := opened
  exact Trades.bind h.mmapClose_trades (fun _ _ closed => Trades.raise fine closed.2) fun _ h => h.elim

theorem HeaderView.new_trades (path : String) (access : MMapAccess) :
    HandleTrades ∅ (HeaderView.new path access) (fun h => h.mmap.Opened) fun r => r = ∅ := by
  have file : HandleTrades ∅ (HeaderView.file path access) MMapHandle.Opened fun r => r = ∅ := by
    cases access with
    | readOnly => exact MMapHandle.new_trades path .readOnly
    | readWrite => exact newOrCreate_trades path headerBytes
  refine file.bind (fun h r opened => ?_) fun _ h => h
  split
  · exact closeThen_trades opened (mmap_not_misuse _)
  · exact Trades.pure opened

/-- The entries of a segment map, each with its own file open and mapped. -/
inductive SegmentsHold : List (Nat × MMapHandle) → Finset Resource → Prop where
  | nil : SegmentsHold [] ∅
  | cons {segIdx : Nat} {mmap : MMapHandle} {rest : List (Nat × MMapHandle)} {own r : Finset Resource}
      (opened : mmap.Opened own) (apart : Disjoint own r) (new : segIdx ∉ rest.map Prod.fst)
      (others : SegmentsHold rest r) : SegmentsHold ((segIdx, mmap) :: rest) (own ∪ r)

namespace SegmentView

variable {v : SegmentView} {r : Finset Resource}

theorem emplace_trades (h : SegmentsHold v.segments r) {segIdx : Nat} {m : ProcessM MMapHandle}
    (new : ¬ v.mapped segIdx = true) (file : HandleTrades ∅ m MMapHandle.Opened fun r => r = ∅) :
    HandleTrades r (v.emplace segIdx m) (fun v' => SegmentsHold v'.segments) fun r' => r' = r := by
  refine file.bind_beside (fun _ _ => trivial)
    (fun mmap own opened apart => Trades.pure (.cons opened apart ?_ h)) fun own none _ => ?_
  · simpa [mapped] using new
  · rw [none, Finset.empty_union]

theorem openSegment_trades (h : SegmentsHold v.segments r) (segIdx : Nat) :
    HandleTrades r (v.openSegment segIdx) (fun v' => SegmentsHold v'.segments) fun r' => r' = r := by
  unfold openSegment
  split
  next => exact Trades.pure h
  next new => exact emplace_trades h new (MMapHandle.new_trades _ _)

theorem openOrCreate_trades (h : SegmentsHold v.segments r) (segIdx : Nat) :
    HandleTrades r (v.openOrCreateSegmentForWrite segIdx) (fun v' => SegmentsHold v'.segments)
      fun r' => r' = r := by
  unfold openOrCreateSegmentForWrite
  split
  next => exact Trades.raise (mmap_not_misuse _) rfl
  next =>
    split
    next => exact Trades.pure h
    next new => exact emplace_trades h new (newOrCreate_trades _ _)

theorem new_trades (basePath : String) (access : MMapAccess) :
    HandleTrades ∅ (SegmentView.new basePath access) (fun v => SegmentsHold v.segments)
      fun r => r = ∅ := by
  cases access with
  | readWrite => exact openOrCreate_trades (v := ⟨basePath, .readWrite, 0, []⟩) .nil 0
  | readOnly =>
    refine (sysExists_trades _).bind (fun found r none => ?_) fun _ h => h
    subst none
    split
    · exact openSegment_trades (v := ⟨basePath, .readOnly, 0, []⟩) .nil 0
    · exact Trades.pure .nil

theorem writeNextRow_trades (h : SegmentsHold v.segments r) :
    HandleTrades r v.writeNextRow (fun v' => SegmentsHold v'.segments) fun r' => r' = r := by
  unfold writeNextRow
  split
  next => exact Trades.raise (mmap_not_misuse _) rfl
  next =>
    split
    next => exact (openOrCreate_trades h _).bind (fun _ _ h => Trades.pure h) fun _ h => h
    next => exact Trades.raise undefined_not_misuse rfl

theorem writeAt_trades (h : SegmentsHold v.segments r) (row : Nat) :
    HandleTrades r (v.writeAt row) (fun v' => SegmentsHold v'.segments) fun r' => r' = r := by
  unfold writeAt
  split
  next => exact Trades.raise (mmap_not_misuse _) rfl
  next =>
    split
    next => exact Trades.raise (mmap_not_misuse _) rfl
    next =>
      split
      next => exact Trades.raise undefined_not_misuse rfl
      next =>
        refine (openOrCreate_trades h _).bind (fun v' _ h => ?_) fun _ h => h
        split <;> exact Trades.pure h

theorem closeAll_trades {segments : List (Nat × MMapHandle)} (h : SegmentsHold segments r) :
    HandleTrades r (closeAll segments) (fun _ r' => r' = ∅) fun _ => False := by
  induction h with
  | nil => exact Trades.pure rfl
  | @cons segIdx mmap rest own r opened apart _ _ ih =>
    obtain ⟨-, -, rfl⟩ := opened
    refine mmap.mmapClose_trades.bind_frame apart (fun _ _ => trivial)
      (fun _ own closed _ => ?_) fun _ h _ => h
    rw [closed.2, Finset.empty_union]
    exact ih

end SegmentView

namespace DataMmapInterface

/-- The header and the segments, all open. -/
def Holds (d : DataMmapInterface) (r : Finset Resource) : Prop :=
  ∃ own rest, d.header.mmap.Opened own ∧ SegmentsHold d.segments.segments rest ∧
    Disjoint own rest ∧ r = own ∪ rest

variable {d : DataMmapInterface} {r : Finset Resource}

theorem new_trades (filePath : String) (access : MMapAccess) :
    HandleTrades ∅ (DataMmapInterface.new filePath access) Holds fun r => r = ∅ := by
  refine (HeaderView.new_trades _ access).bind (fun header own opened => ?_) fun _ h => h
  refine ((SegmentView.new_trades filePath access).attempt fun _ => False).bind_beside
    (fun _ _ => trivial) ?_ fun _ h => h.elim
  intro segments rest result apart
  cases segments with
  | ok v => exact Trades.pure ⟨own, rest, opened, result, apart.symm, Finset.union_comm _ _⟩
  | error e =>
    obtain ⟨fine, none⟩ := result
    rw [none, Finset.empty_union]
    exact closeThen_trades opened fine

theorem destroy_trades (h : d.Holds r) :
    HandleTrades r d.destroy (fun _ r' => r' = ∅) fun _ => False := by
  obtain ⟨own, rest, ⟨-, -, rfl⟩, segments, apart, rfl⟩ := h
  rw [Finset.union_comm]
  refine (SegmentView.closeAll_trades segments).bind_frame apart.symm (fun _ _ => trivial)
    (fun _ left none _ => ?_) fun _ h _ => h
  rw [none, Finset.empty_union]
  exact d.header.mmap.mmapClose_trades.bind (fun _ _ closed => Trades.pure closed.2) fun _ h => h

/-- What every call leaves: an object that still accounts for what it holds. -/
def Left (a : DataMmapInterface × Option HandleError) (r : Finset Resource) : Prop :=
  a.1.Holds r ∧ ∀ e ∈ a.2, ¬ e.IsMisuse

theorem call_trades (h : d.Holds r) {m : ProcessM SegmentView}
    (code : ∀ rest, SegmentsHold d.segments.segments rest →
      HandleTrades rest m (fun v => SegmentsHold v.segments) fun r' => r' = rest) :
    HandleTrades r (d.call m) Left fun _ => False := by
  obtain ⟨own, rest, header, segments, apart, rfl⟩ := h
  rw [Finset.union_comm]
  refine ((code rest segments).attempt fun _ => False).bind_frame apart.symm
    (fun _ _ => trivial) ?_ fun _ h _ => h
  intro v left result beside
  cases v with
  | ok v => exact Trades.pure ⟨⟨own, left, header, result, beside.symm, Finset.union_comm _ _⟩, by simp⟩
  | error e =>
    obtain ⟨fine, rfl⟩ := result
    refine Trades.pure ⟨⟨own, left, header, segments, apart, Finset.union_comm _ _⟩, ?_⟩
    rintro _ ⟨⟩
    exact fine

theorem readRows_trades (h : d.Holds r) (rows : List Nat) :
    HandleTrades r (d.readRows rows) Left fun _ => False := by
  induction rows generalizing d r with
  | nil => exact Trades.pure ⟨h, by simp⟩
  | cons row rows ih =>
    refine (call_trades h fun rest held => SegmentView.openSegment_trades held _).bind ?_ fun _ h => h
    rintro ⟨d', thrown⟩ r' ⟨held, fine⟩
    cases thrown with
    | none => exact ih held
    | some e => exact Trades.pure ⟨held, fine⟩

theorem updateEntry_trades (h : d.Holds r) (row total : Nat) :
    HandleTrades r (d.updateEntry row total) Left fun _ => False := by
  unfold updateEntry
  split
  · refine Trades.pure ⟨h, ?_⟩
    rintro _ ⟨⟩
    exact mmap_not_misuse _
  · exact call_trades h fun rest held => SegmentView.writeAt_trades held row

end DataMmapInterface

end Trades

section Programs

variable {ι : Type} [DecidableEq ι]

/-- A process with its data stores, each over the files of some token. -/
abbrev DataProgram (ι : Type) := Scope ι Process DataMmapInterface

inductive DataStep (ι : Type) where
  | construct (i : ι) (filePath : String) (access : MMapAccess)
  | readRows (i : ι) (rows : List Nat)
  | appendEntry (i : ι)
  | updateEntry (i : ι) (row total : Nat)
  | destroy (i : ι)

/-- A call after which the object is still there. -/
def onObject (i : ι) (f : DataMmapInterface → DataMmapInterface.CallM) :
    Effect (DataProgram ι) HandleError Unit :=
  Scope.call i fun d => do
    let a ← f d
    pure (some a.1, a.2)

def DataStep.run : DataStep ι → Effect (DataProgram ι) HandleError Unit
  | .construct i filePath access => Scope.construct i (DataMmapInterface.new filePath access)
  | .readRows i rows => onObject i fun d => d.readRows rows
  | .appendEntry i => onObject i DataMmapInterface.appendEntry
  | .updateEntry i row total => onObject i fun d => d.updateEntry row total
  | .destroy i => Scope.call i fun d => do
    d.destroy
    pure (none, none)

abbrev DataProgram.Safe (step : Effect (DataProgram ι) HandleError Unit) : Prop :=
  Scope.Safe handleAccount DataMmapInterface.Holds ∅ step

theorem onObject_safe {f : DataMmapInterface → DataMmapInterface.CallM}
    (code : ∀ (d : DataMmapInterface) r, d.Holds r →
      HandleTrades r (f d) DataMmapInterface.Left fun _ => False)
    (i : ι) : DataProgram.Safe (onObject i f) := by
  refine Scope.call_safe (fun d r held => ?_) (fun _ _ => trivial) i
  exact (code d r held).bind (fun _ _ left => Trades.pure ⟨left.1, left.2⟩) fun _ h => h

theorem dataStep_safe (step : DataStep ι) : DataProgram.Safe step.run := by
  cases step with
  | construct i filePath access =>
    exact Scope.construct_safe (DataMmapInterface.new_trades filePath access) (fun _ _ => trivial) i
  | readRows i rows => exact onObject_safe (fun _ _ h => DataMmapInterface.readRows_trades h rows) i
  | appendEntry i =>
    exact onObject_safe
      (fun _ _ h => DataMmapInterface.call_trades h
        fun _ held => SegmentView.writeNextRow_trades held) i
  | updateEntry i row total =>
    exact onObject_safe (fun _ _ h => DataMmapInterface.updateEntry_trades h row total) i
  | destroy i =>
    refine Scope.call_safe (fun d r held => ?_) (fun _ _ => trivial) i
    exact (DataMmapInterface.destroy_trades held).bind (fun _ _ none => Trades.pure ⟨none, by simp⟩)
      fun _ h => h

theorem MMapHandle.Opened.card {h : MMapHandle} {r : Finset Resource} (opened : h.Opened r) :
    r.card = 2 := by
  obtain ⟨fd, addr, rfl⟩ := opened
  rw [MMapHandle.resources, if_neg addr, if_neg (by omega)]
  rfl

/-- One mapping and one descriptor a file, and no file twice. -/
theorem SegmentsHold.card {segments : List (Nat × MMapHandle)} {r : Finset Resource}
    (h : SegmentsHold segments r) :
    r.card = 2 * segments.length ∧ (segments.map Prod.fst).Nodup := by
  induction h with
  | nil => exact ⟨rfl, List.nodup_nil⟩
  | @cons segIdx mmap rest own r opened apart new _ ih =>
    refine ⟨?_, List.nodup_cons.mpr ⟨new, ih.2⟩⟩
    rw [Finset.card_union_of_disjoint apart, opened.card, ih.1, List.length_cons]
    omega

theorem DataMmapInterface.Holds.card {d : DataMmapInterface} {r : Finset Resource} (h : d.Holds r) :
    r.card = 2 * (d.segments.segments.length + 1) ∧ (d.segments.segments.map Prod.fst).Nodup := by
  obtain ⟨own, rest, header, segments, apart, rfl⟩ := h
  refine ⟨?_, segments.card.2⟩
  rw [Finset.card_union_of_disjoint apart, header.card, segments.card.1]
  omega

/-- A constructor that throws leaves what was open before. -/
theorem construct_store_throws {w : DataProgram ι}
    (h : Scope.Sound handleAccount DataMmapInterface.Holds ∅ w) {i : ι} {filePath : String}
    {access : MMapAccess} {e : HandleError}
    (thrown : ((DataStep.construct i filePath access).run w).1 = .error e) :
    ((DataStep.construct i filePath access).run w).2.system.pool = w.system.pool := by
  obtain ⟨leak, -, -, -, left⟩ :=
    Scope.construct_sound (DataMmapInterface.new_trades filePath access) (fun _ _ => trivial) h i
  obtain ⟨none, -, pool⟩ := left e thrown
  rw [none, Finset.union_empty] at pool
  exact pool

/-- A process that has opened nothing yet. -/
def DataProgram.start (answers : List (Option Nat)) : DataProgram ι := ⟨⟨∅, answers⟩, fun _ => none⟩

/-- Whatever a process does with data stores, in whatever order, and whatever the system answers:
what is open is split between the stores, a store has one descriptor and one mapping for its header
and for each segment that it has used, no segment twice, nothing is given back that the process
does not have, a constructor that throws leaves nothing open, and neither do stores that are gone. -/
theorem stores_own_everything (answers : List (Option Nat)) (steps : List (DataStep ι)) :
    let w := Scope.run (steps.map DataStep.run) (DataProgram.start answers)
    (∃ held, Owned w.system.pool held ∧ (∀ i, w.objects i = none → held i = ∅) ∧
      ∀ i, ∀ d ∈ w.objects i, d.Holds (held i) ∧ (held i).card = 2 * (d.segments.segments.length + 1) ∧
        (d.segments.segments.map Prod.fst).Nodup) ∧
      (∀ (step : DataStep ι) (r : Resource), (step.run w).1 ≠ .error (.misuse r)) ∧
      (∀ i filePath access e, ((DataStep.construct i filePath access).run w).1 = .error e →
        ((DataStep.construct i filePath access).run w).2.system.pool = w.system.pool) ∧
      ((∀ i, w.objects i = none) → w.system.pool = ∅) := by
  intro w
  have start :
      Scope.Sound handleAccount DataMmapInterface.Holds ∅ (DataProgram.start (ι := ι) answers) :=
    Scope.sound_start rfl
  have sound : Scope.Sound handleAccount DataMmapInterface.Holds ∅ w :=
    Scope.run_sound start fun step hs => by
    obtain ⟨s, -, rfl⟩ := List.mem_map.mp hs
    exact dataStep_safe s
  refine ⟨?_, fun step r thrown => (dataStep_safe step w sound).2 _ thrown ⟨r, rfl⟩,
    fun i filePath access e thrown =>
      construct_store_throws sound thrown, fun gone => ?_⟩
  · obtain ⟨held, owned, parts⟩ := Scope.sound_iff.mp sound
    refine ⟨held, owned, fun i none => ?_, fun i d hd => ?_⟩
    · have part := parts i
      rwa [none] at part
    · have part := parts i
      rw [Option.mem_def.mp hd] at part
      exact ⟨part, DataMmapInterface.Holds.card part⟩
  · refine sound.pool_eq fun i r part => ?_
    rwa [gone i] at part

/-- The header is open when the first segment cannot be mapped: both files are closed again. -/
example : ((DataStep.construct 0 "a" .readOnly).run (DataProgram.start (ι := Nat)
    [some 3, some 538, some 4096, some 1, some 4, some 12100000, none])).2.system = ⟨∅, []⟩ := by
  decide

end Programs

end FsCore
