import FsCore.DerivedFields
import FsCore.Reference
import Mathlib.Data.List.Nodup

namespace FsCore

/-- The nearest later one of the first `n` rows that has the id of a row. -/
def nextRow (row : Nat → ParsedEntry) (n r : Nat) : Option Nat :=
  (List.range' (r + 1) (n - (r + 1))).find? (fun j => (row j).canId == (row r).canId)

def linkTo (r : Option Nat) : UInt32 := (r.map UInt32.ofNat).getD kInvalidRow

/-- The rows met along the forward links, if the walk ends within the given number of steps. -/
def walk (row : Nat → ParsedEntry) : Nat → UInt32 → Option (List Nat)
  | steps, link =>
    if link = kInvalidRow then some []
    else
      match steps with
      | 0 => none
      | steps + 1 => (walk row steps (row link.toNat).nextSameCan).map (link.toNat :: ·)

/-- The rows of each id among the first `n` form a doubly linked list in row order. -/
structure DoublyLinked (row : Nat → ParsedEntry) (n : Nat) : Prop where
  back : ∀ r, r < n → (row r).prevSameCan = linkTo (nearestRow row r)
  forward : ∀ r, r < n → (row r).nextSameCan = linkTo (nextRow row n r)
  inverse : ∀ p r, p < n → r < n →
    ((row p).nextSameCan = UInt32.ofNat r ↔ (row r).prevSameCan = UInt32.ofNat p)
  visits : ∀ r, r < n → nearestRow row r = none →
    walk row n (UInt32.ofNat r) = some ((List.range n).filter fun j => (row j).canId == (row r).canId)

theorem nextRow_eq_some_iff {row : Nat → ParsedEntry} {n r j : Nat} : nextRow row n r = some j ↔
    r < j ∧ j < n ∧ (row j).canId = (row r).canId ∧ ∀ k, r < k →
      k < j → (row k).canId ≠ (row r).canId := by
  simp only [nextRow, List.find?_range'_eq_some, beq_iff_eq, List.mem_range'_1, Bool.not_eq_true',
    beq_eq_false_iff_ne]
  constructor
  · intro h
    obtain ⟨same, range, first⟩ := h
    exact ⟨by omega, by omega, same, fun k hk hkj => first k hk hkj⟩
  · intro h
    obtain ⟨after, below, same, first⟩ := h
    exact ⟨same, by omega, fun k hk hkj => first k hk hkj⟩

theorem nextRow_eq_none_iff {row : Nat → ParsedEntry} {n r : Nat} : nextRow row n r = none ↔
    ∀ k, r < k → k < n → (row k).canId ≠ (row r).canId := by
  simp only [nextRow, List.find?_eq_none, List.mem_range'_1, beq_iff_eq]
  exact ⟨fun h k hk hkn => h k (by omega), fun h k hk => h k (by omega) (by omega)⟩

section Rows

variable {row : Nat → ParsedEntry} {n : Nat}

theorem nearestRow_eq_none_iff {r : Nat} : nearestRow row r = none ↔
    ∀ k, k < r → (row k).canId ≠ (row r).canId := by
  simp [nearestRow, lastBelow?_eq_none_iff]

/-- No two of the first `n` rows have one id. -/
def DistinctIds (row : Nat → ParsedEntry) (n : Nat) : Prop :=
  ∀ i j, i < j → j < n → (row i).canId ≠ (row j).canId

theorem DistinctIds.alone (h : DistinctIds row n) {r j : Nat} (hr : r < n) (hj : j < n)
    (same : (row j).canId = (row r).canId) : j = r := by
  rcases Nat.lt_trichotomy j r with lt | eq | gt
  · exact absurd same (h j r lt hr)
  · exact eq
  · exact absurd same.symm (h r j gt hj)

theorem DistinctIds.filter (h : DistinctIds row n) {r : Nat} (hr : r < n) :
    (List.range n).filter (fun j => (row j).canId == (row r).canId) = [r] := by
  have own (j : Nat) (hj : j ∈ List.range n) : ((row j).canId == (row r).canId) = (j == r) := by
    rw [Bool.eq_iff_iff, beq_iff_eq, beq_iff_eq]
    exact ⟨h.alone hr (List.mem_range.mp hj), fun eq => eq ▸ rfl⟩
  rw [List.filter_congr own, List.filter_beq,
    List.count_eq_one_of_mem List.nodup_range (List.mem_range.mpr hr)]
  rfl

/-- Without forward links the rows are doubly linked exactly when every list has one row. -/
theorem doublyLinked_iff_distinctIds (small : n < 2 ^ 31)
    (back : ∀ r, r < n → (row r).prevSameCan = linkTo (nearestRow row r))
    (ended : ∀ r, r < n → (row r).nextSameCan = kInvalidRow) : DoublyLinked row n ↔
      DistinctIds row n := by
  constructor
  · intro linked i j hij hj same
    have forward := linked.forward i (by omega)
    cases hnext : nextRow row n i with
    | none => exact nextRow_eq_none_iff.mp hnext j hij hj same.symm
    | some k =>
      have hk : k < n := (nextRow_eq_some_iff.mp hnext).2.1
      rw [hnext, ended i (by omega)] at forward
      exact ofNat_row_ne_invalid (show k < 2 ^ 31 by omega) forward.symm
  · intro distinct
    have first (r : Nat) (hr : r < n) : nearestRow row r = none :=
      nearestRow_eq_none_iff.mpr fun k hk => distinct k r hk hr
    have last (r : Nat) : nextRow row n r = none :=
      nextRow_eq_none_iff.mpr fun k hk hkn same => distinct r k hk hkn same.symm
    have unlinked (r : Nat) (hr : r < n) : kInvalidRow ≠ UInt32.ofNat r :=
      (ofNat_row_ne_invalid (show r < 2 ^ 31 by omega)).symm
    refine ⟨back, fun r hr => by rw [ended r hr, last r]; rfl, fun p r hp hr => ?_, fun r hr _ => ?_⟩
    · rw [ended p hp, back r hr, first r hr]
      exact iff_of_false (unlinked r hr) (unlinked p hp)
    · rw [distinct.filter hr]
      obtain ⟨m, rfl⟩ : ∃ m, n = m + 1 := ⟨n - 1, by omega⟩
      rw [walk, if_neg (unlinked r hr).symm, toNat_ofNat_row (by omega), ended r hr]
      cases m <;> rfl

end Rows

section Batches

variable {batches : List (List LogRecord)} {t : Session}

theorem batches_row (h : t.image = Image.reference batches.flatten) {r : Nat}
    (hr : r < t.header.writeCount) : t.rowAt r = referenceRow batches.flatten r := by
  have rows : t.rowAt = (Image.reference batches.flatten).row := congrArg Image.row h
  have count : t.header.writeCount = batches.flatten.length :=
    congrArg (fun g : Image => g.header.writeCount) h
  rw [rows]
  exact if_pos (count ▸ hr)

theorem batches_prev (h : t.image = Image.reference batches.flatten) {r : Nat}
    (hr : r < t.header.writeCount) :
    (t.rowAt r).prevSameCan = linkTo (nearestRow t.rowAt r) := by
  have near : nearestRow t.rowAt r = previousRow batches.flatten r := by
    apply lastBelow?_congr
    intro j hj
    rw [batches_row h hr, batches_row h (hj.trans hr)]
    rfl
  rw [near, batches_row h hr]
  cases hp : previousRow batches.flatten r <;> simp [referenceRow, hp, linkTo]

theorem batches_distinct_iff (h : t.image = Image.reference batches.flatten) :
    DistinctIds t.rowAt t.header.writeCount ↔ (batches.flatten.map (·.canId)).Nodup := by
  have count : t.header.writeCount = batches.flatten.length :=
    congrArg (fun g : Image => g.header.writeCount) h
  have id {r : Nat} (hr : r < batches.flatten.length) :
      (batches.flatten.map (·.canId))[r]? = some (t.rowAt r).canId := by
    rw [batches_row h (count ▸ hr), List.getElem?_map, List.getElem?_eq_getElem hr]
    change some _ = some (recordAt batches.flatten r).canId
    rw [recordAt, List.getD_eq_getElem?_getD, List.getElem?_eq_getElem hr]
    rfl
  rw [List.nodup_iff_getElem?_ne_getElem?, DistinctIds, count, List.length_map]
  constructor
  · intro distinct i j hij hj same
    rw [id (hij.trans hj), id hj] at same
    exact distinct i j hij hj (Option.some.inj same)
  · intro nodup i j hij hj same
    refine nodup i j hij hj ?_
    rw [id (hij.trans hj), id hj, same]

end Batches

/-- After the batches of a session the rows are doubly linked exactly when no id comes twice. -/
theorem doublyLinked_iff {batches : List (List LogRecord)} {t : Session}
    (h : storeSession (batches.map StoreCall.writeEntries) Session.fresh = (.ok (), t)) :
    DoublyLinked t.rowAt t.header.writeCount ↔ (batches.flatten.map (·.canId)).Nodup := by
  obtain ⟨sound, himage⟩ := writeBatches_image h
  have linked := sound.linked
  rw [← batches_distinct_iff himage]
  exact doublyLinked_iff_distinctIds linked.bounded (fun r hr => batches_prev himage hr) linked.ended

theorem doublyLinked_iff_sample :
    let t := (storeSession ([[sampleRecord], [sampleRecord]].map StoreCall.writeEntries)
      Session.fresh).2
    DoublyLinked t.rowAt t.header.writeCount ↔
      ([[sampleRecord], [sampleRecord]].flatten.map (·.canId)).Nodup :=
  doublyLinked_iff (t :=
    (storeSession ([[sampleRecord], [sampleRecord]].map StoreCall.writeEntries) Session.fresh).2) rfl

/-- The first of two messages of one id is not linked to the second. -/
theorem batches_not_doublyLinked : ¬ ∀ (batches : List (List LogRecord)) (t : Session),
    storeSession (batches.map StoreCall.writeEntries) Session.fresh = (.ok (), t) →
      DoublyLinked t.rowAt t.header.writeCount := by
  intro all
  let t := (storeSession ([[sampleRecord], [sampleRecord]].map StoreCall.writeEntries) Session.fresh).2
  have forward := (all [[sampleRecord], [sampleRecord]] t rfl).forward 0 (by decide +kernel)
  have ended : (t.rowAt 0).nextSameCan = kInvalidRow := by decide +kernel
  have next : nextRow t.rowAt t.header.writeCount 0 = some 1 := by decide +kernel
  rw [next, ended] at forward
  exact absurd forward (by decide)

end FsCore
