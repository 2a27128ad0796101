import FsCore.Reference
import Mathlib.Data.List.Induction

namespace FsCore

/-- The last record of an id in a list. -/
def lastOf (records : List LogRecord) (id : UInt32) : Option LogRecord :=
  (records.filter (fun r => r.canId == id)).getLast?

/-- `changed` and `last_timestamp` of a frame behind the last record of its id, if there is one. -/
def LogRecord.derivedFrom (f : LogRecord) : Option LogRecord → UInt8 × Binary64
  | none => (0, f.timestamp)
  | some p => (if p.payload = f.payload then 0 else 1, p.timestamp)

def ParsedEntry.derived (e : ParsedEntry) : UInt8 × Binary64 := (e.changed, e.lastTimestamp)

theorem lastBelow?_lastOf (records : List LogRecord) (id : UInt32) :
    (lastBelow? (fun j => (recordAt records j).canId == id) records.length).map (recordAt records) =
      lastOf records id := by
  induction records using List.reverseRecOn with
  | nil => rfl
  | append_singleton records record ih =>
    have before : lastBelow? (fun j => (recordAt (records ++ [record]) j).canId == id) records.length =
        lastBelow? (fun j => (recordAt records j).canId == id) records.length :=
      lastBelow?_congr fun j hj => by rw [recordAt_append record hj]
    rw [List.length_append, List.length_singleton, lastBelow?, recordAt_last, before, lastOf,
      List.filter_append]
    by_cases own : (record.canId == id) = true
    · have last : [record].filter (fun r => r.canId == id) = [record] := List.filter_cons_of_pos own
      rw [if_pos own, last, List.getLast?_concat, Option.map_some, recordAt_last]
    · have none : [record].filter (fun r => r.canId == id) = [] := List.filter_cons_of_neg own
      rw [if_neg own, none, List.append_nil, ← lastOf, ← ih]
      cases found : lastBelow? (fun j => (recordAt records j).canId == id) records.length with
      | none => rfl
      | some j => simp [recordAt_append record (lastBelow?_lt found)]

theorem recordAt_before {before after : List LogRecord} {f : LogRecord} {j : Nat}
    (hj : j < before.length) : recordAt (before ++ f :: after) j = recordAt before j := by
  simp [recordAt, List.getD_eq_getElem?_getD, List.getElem?_append_left hj]

theorem recordAt_own (before after : List LogRecord) (f : LogRecord) :
    recordAt (before ++ f :: after) before.length = f := by
  simp [recordAt]

/-- The derived fields of a row are those that the records before it determine. -/
theorem referenceRow_derived (before after : List LogRecord) (f : LogRecord) :
    (referenceRow (before ++ f :: after) before.length).derived =
      f.derivedFrom (lastOf before f.canId) := by
  have previous : previousRow (before ++ f :: after) before.length =
      lastBelow? (fun j => (recordAt before j).canId == f.canId) before.length := by
    apply lastBelow?_congr
    intro j hj
    rw [recordAt_own, recordAt_before hj]
  rw [← lastBelow?_lastOf, ← previous]
  cases found : previousRow (before ++ f :: after) before.length with
  | none => simp [ParsedEntry.derived, referenceRow, LogRecord.derivedFrom, found, recordAt_own]
  | some j =>
    have row := @recordAt_before before after f j (previousRow_lt found)
    simp [ParsedEntry.derived, referenceRow, LogRecord.derivedFrom, found, recordAt_own, row]

/-- The row of a frame after its list was written, in whatever batches. -/
theorem written_derived {batches : List (List LogRecord)}
    {before after : List LogRecord} {f : LogRecord} {s : Session}
    (run : storeSession (batches.map StoreCall.writeEntries) Session.fresh = (.ok (), s))
    (list : batches.flatten = before ++ f :: after) :
    (s.rowAt before.length).derived = f.derivedFrom (lastOf before f.canId) := by
  have rows : s.rowAt = (Image.reference batches.flatten).row :=
    congrArg Image.row (writeBatches_image run).2
  have stored : before.length < batches.flatten.length := by
    rw [list, List.length_append, List.length_cons]
    omega
  have own : s.rowAt before.length = referenceRow batches.flatten before.length := by
    rw [rows]
    exact if_pos stored
  rw [own, list, referenceRow_derived]

/-- A frame in two lists of records: its derived fields depend on the last record of its can_id
before it and on nothing else, so not on frames of other ids. -/
theorem derived_iff_last {batches batches' : List (List LogRecord)}
    {before after before' after' : List LogRecord} {f : LogRecord} {s s' : Session}
    (run : storeSession (batches.map StoreCall.writeEntries) Session.fresh = (.ok (), s))
    (run' : storeSession (batches'.map StoreCall.writeEntries) Session.fresh = (.ok (), s'))
    (list : batches.flatten = before ++ f :: after)
    (list' : batches'.flatten = before' ++ f :: after') :
    ((s.rowAt before.length).derived = (s'.rowAt before'.length).derived ↔
      f.derivedFrom (lastOf before f.canId) = f.derivedFrom (lastOf before' f.canId)) ∧
    ((before.filter fun r => r.canId == f.canId) = (before'.filter fun r => r.canId == f.canId) →
      (s.rowAt before.length).derived = (s'.rowAt before'.length).derived) ∧
    ((∀ r ∈ before ++ before', r.isErrorFrame = true → r.canId = 0) → f.canId ≠ 0 →
      (before.filter fun r => !r.isErrorFrame) = (before'.filter fun r => !r.isErrorFrame) →
      (s.rowAt before.length).derived = (s'.rowAt before'.length).derived) := by
  rw [written_derived run list, written_derived run' list']
  have sameId (h : (before.filter fun r => r.canId == f.canId) =
    (before'.filter fun r => r.canId == f.canId)) :
      f.derivedFrom (lastOf before f.canId) = f.derivedFrom (lastOf before' f.canId) := by
    rw [lastOf, lastOf, h]
  refine ⟨Iff.rfl, sameId, fun errors other same => sameId ?_⟩
  -- an error frame has another id than `f`, so dropping it first does not change the frames of that id
  have drop (records : List LogRecord) (zero : ∀ r ∈ records, r.isErrorFrame = true → r.canId = 0) :
      (records.filter fun r => r.canId == f.canId) =
        (records.filter fun r => !r.isErrorFrame).filter fun r => r.canId == f.canId := by
    rw [List.filter_filter]
    refine List.filter_congr fun r hr => ?_
    cases error : r.isErrorFrame with
    | false => simp
    | true => simp [zero r hr error, Ne.symm other]
  rw [drop before fun r hr => errors r (by simp [hr]), drop before' fun r hr =>
    errors r (by simp [hr]), same]

theorem derived_iff_last_sample :
    let other : LogRecord := { sampleRecord with canId := 7 }
    let s := (storeSession [.writeEntries [other, sampleRecord]] Session.fresh).2
    let s' := (storeSession [.writeEntries [sampleRecord]] Session.fresh).2
    (s.rowAt 1).derived = (s'.rowAt 0).derived := by
  intro other s s'
  have run : (storeSession ([[other, sampleRecord]].map StoreCall.writeEntries) Session.fresh).1 =
    .ok () := by
    decide +kernel
  have run' : (storeSession ([[sampleRecord]].map StoreCall.writeEntries) Session.fresh).1 =
    .ok () := by
    decide +kernel
  exact (@derived_iff_last _ _ [other] [] [] [] sampleRecord _ _ (pair_of_fst run)
    (pair_of_fst run') rfl rfl).2.1
    (by decide)

/-- Two lists of records that end with the same data frame, equal but for what is not kept. -/
def SameDerived (keep : LogRecord → LogRecord → Bool) : Prop :=
  ∀ (before before' : List LogRecord) (f : LogRecord) (s s' : Session), f.isErrorFrame = false →
    storeSession [.writeEntries (before ++ [f])] Session.fresh = (.ok (), s) →
    storeSession [.writeEntries (before' ++ [f])] Session.fresh = (.ok (), s') →
    before.filter (keep f) = before'.filter (keep f) →
    (s.rowAt before.length).derived = (s'.rowAt before'.length).derived

/-- An error frame counts as the frame before a frame with id 0, and an extended frame as the one
before a standard frame with its number. -/
theorem identity_influences : ¬ SameDerived (fun _ r => !r.isErrorFrame) ∧
    ¬ SameDerived (fun f r => !(r.canId == f.canId && r.isExtendedId != f.isExtendedId)) := by
  let plain : LogRecord := { sampleRecord with canId := 0 }
  let error : LogRecord := { LogRecord.zero with isErrorFrame := true }
  let extended : LogRecord := { plain with dataLen := 2, isExtendedId := true }
  have alone : (storeSession [.writeEntries ([] ++ [plain])] Session.fresh).1 =
    .ok () := by decide +kernel
  have behindError : (storeSession [.writeEntries ([error] ++ [plain])] Session.fresh).1 = .ok () := by
    decide +kernel
  have behindExtended : (storeSession [.writeEntries ([extended] ++ [plain])] Session.fresh).1 =
    .ok () := by
    decide +kernel
  refine ⟨fun same => ?_, fun same => ?_⟩
  · have equal := same [error] [] plain _ _ rfl (pair_of_fst behindError)
      (pair_of_fst alone) (by decide)
    exact absurd equal (by decide +kernel)
  · have equal := same [extended] [] plain _ _ rfl (pair_of_fst behindExtended)
      (pair_of_fst alone) (by decide)
    exact absurd equal (by decide +kernel)

end FsCore
