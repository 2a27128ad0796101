import FsCore.Failures
import FsCore.Metadata

namespace FsCore

section Extremes

variable {α : Type} {le : α → α → Bool} {P : α → Prop}

/-- The fold that keeps the best value so far finds a least one among values that the relation
orders. -/
theorem foldl_least (total : ∀ x y, P x → P y → le x y = true ∨ le y x = true)
    (trans : ∀ x y z, le x y = true → le y z = true → le x z = true) {pick : α → α → α}
    (picks : ∀ b x, pick b x = if le b x then b else x) {x : α} {rest : List α}
    (all : ∀ y ∈ x :: rest, P y) :
    rest.foldl pick x ∈ x :: rest ∧ ∀ y ∈ x :: rest, le (rest.foldl pick x) y = true := by
  have refl (y : α) (hy : P y) : le y y = true := (total y y hy hy).elim id id
  induction rest generalizing x with
  | nil =>
    refine ⟨by simp, fun y hy => ?_⟩
    rw [List.mem_singleton.mp hy]
    exact refl x (all x (by simp))
  | cons z rest ih =>
    have hx := all x (by simp)
    have hz := all z (by simp)
    have within (y : α) (hy : y ∈ rest) : P y := all y (by simp [hy])
    rw [List.foldl_cons, picks]
    by_cases keep : le x z = true
    · rw [if_pos keep]
      obtain ⟨mem, least⟩ := ih (x := x) (List.forall_mem_cons.mpr ⟨hx, within⟩)
      have head := least x (by simp)
      refine ⟨?_, List.forall_mem_cons.mpr ⟨head, List.forall_mem_cons.mpr ⟨trans _ _ _ head keep, ?_⟩⟩⟩
      · rcases List.mem_cons.mp mem with eq | mem
        · exact List.mem_cons.mpr (Or.inl eq)
        · exact List.mem_cons_of_mem _ (List.mem_cons_of_mem _ mem)
      · exact fun y hy => least y (List.mem_cons_of_mem _ hy)
    · rw [if_neg keep]
      obtain ⟨mem, least⟩ := ih (x := z) (List.forall_mem_cons.mpr ⟨hz, within⟩)
      have below : le z x = true := (total x z hx hz).resolve_left keep
      refine ⟨List.mem_cons_of_mem _ mem, List.forall_mem_cons.mpr ⟨?_, least⟩⟩
      exact trans _ _ _ (least z (by simp)) below

end Extremes

namespace Binary64

theorem le_iff {x y : Binary64} : x.le y = true ↔ x.isNaN = false ∧ y.isNaN = false ∧
    x.key ≤ y.key := by
  simp [le, and_assoc]

theorem le_total {x y : Binary64} (hx : x.isNaN = false) (hy : y.isNaN = false) :
    x.le y = true ∨ y.le x = true := by
  rw [le_iff, le_iff]
  rcases Int.le_total x.key y.key with h | h
  · exact Or.inl ⟨hx, hy, h⟩
  · exact Or.inr ⟨hy, hx, h⟩

theorem le_trans {x y z : Binary64} (hxy : x.le y = true) (hyz : y.le z = true) : x.le z = true := by
  rw [le_iff] at *
  exact ⟨hxy.1, hyz.2.1, hxy.2.2.trans hyz.2.2⟩

/-- Equal as numbers: the two zeros are one. -/
def same (x y : Binary64) : Prop := x.le y = true ∧ y.le x = true

end Binary64

/-- An index database since it was created, whichever calls were made and failed. -/
inductive Indexed : Session → Prop
  | opened (faults : List Bool) : Indexed { Session.fresh with faults := faults }
  | appended {s : Session} (hs : Indexed s) (row : Nat) (entry : ParsedEntry) :
      Indexed (appendIndex row entry s).2
  | updated {s : Session} (hs : Indexed s) (row : Nat) (entry : ParsedEntry) :
      Indexed (updateIndex row entry s).2
  | began {s : Session} (hs : Indexed s) : Indexed (beginTransaction s).2
  | committed {s : Session} (hs : Indexed s) : Indexed (commitTransaction s).2
  | reopened {s : Session} (hs : Indexed s) (faults : List Bool) :
      Indexed { s with index := ⟨s.index.committed, none⟩, faults := faults }

def Session.timestamps (s : Session) : List Binary64 :=
  s.index.tables.logIndex.rows.map (fun r => r.2.timestamp)

/-- Both ways of asking give the least and the greatest stored timestamp. -/
def Session.SpansAgree (s : Session) : Prop :=
  ∃ span first last, getMetadata .boundedTimestamp s = (.ok (.boundedTimestamp span), s) ∧
    getFirstLastTimestamp s = (.ok (true, first, last), s) ∧ span.first.same first ∧
      span.last.same last ∧
    (first ∈ s.timestamps ∧ ∀ x ∈ s.timestamps, first.le x = true) ∧
    (last ∈ s.timestamps ∧ ∀ x ∈ s.timestamps, x.le last = true)

/-- No row is before the row of the lowest index in time, and none is after that of the highest. -/
structure IndexTables.EndsInOrder (t : IndexTables) : Prop where
  first : ∀ k v, t.logIndex.find? k = some v → (∀ j ∈ t.logIndex.keys, k ≤ j) →
    ∀ j w, t.logIndex.find? j = some w → v.timestamp.le w.timestamp = true
  last : ∀ k v, t.logIndex.find? k = some v → (∀ j ∈ t.logIndex.keys, j ≤ k) →
    ∀ j w, t.logIndex.find? j = some w → w.timestamp.le v.timestamp = true

/-- Every stored timestamp is a number. -/
def IndexTables.Numeric (t : IndexTables) : Prop :=
  ∀ k v, t.logIndex.find? k = some v → v.timestamp.isNaN = false

structure IndexDb.Numeric (db : IndexDb) : Prop where
  committed : db.committed.Numeric
  working : ∀ t, db.transaction = some t → t.Numeric

theorem IndexDb.Numeric.tables {db : IndexDb} (h : db.Numeric) : db.tables.Numeric := by
  cases htx : db.transaction with
  | none =>
    rw [IndexDb.tables, htx]
    exact h.committed
  | some t =>
    rw [IndexDb.tables, htx]
    exact h.working t htx

section Numbers

variable {t : IndexTables} {row : Nat} {r : IndexRow}

theorem insertRow_numeric (h : t.Numeric) (number : r.timestamp.isNaN = false) :
    (t.insertRow row r).Numeric := by
  intro k v found
  rw [IndexTables.insertRow, Table.find?_upsert] at found
  split at found
  next =>
    cases found
    exact number
  next => exact h k v found

theorem updateRow_numeric (h : t.Numeric) (takes : t.Takes row r.timestamp) :
    (t.updateRow row r).Numeric := by
  intro k v found
  rw [IndexTables.updateRow, Table.find?_update] at found
  split at found
  next own =>
    obtain ⟨old, there, rfl⟩ := Option.map_eq_some_iff.mp found
    refine takes.resolve_right fun missing => ?_
    rw [IndexTables.holds, there] at missing
    cases missing
  next => exact h k v found

theorem write_numeric {db : IndexDb} {f : IndexTables → IndexTables} (h : db.Numeric)
    (keeps : (f db.tables).Numeric) : (db.write f).Numeric := by
  cases htx : db.transaction with
  | none =>
    have written : db.write f = { db with committed := f db.committed } := by simp [IndexDb.write, htx]
    rw [IndexDb.tables, htx] at keeps
    rw [written]
    exact ⟨keeps, h.working⟩
  | some t =>
    have written : db.write f = { db with transaction := some (f t) } := by simp [IndexDb.write, htx]
    rw [IndexDb.tables, htx] at keeps
    rw [written]
    refine ⟨h.committed, fun u hu => ?_⟩
    cases hu
    exact keeps

def Session.Numeric (s : Session) : Prop := s.index.Numeric

theorem call_numeric (name : String) : (call name).Keeps Session.Numeric := by
  intro s h
  have index : (call name s).2.index = s.index := congrArg Image.index (call_quiet name s).image
  rw [Session.Numeric, index]
  exact h

theorem writeTables_numeric {f : IndexTables → IndexTables} (keeps : ∀ t, t.Numeric → (f t).Numeric) :
    (writeTables f).Keeps Session.Numeric := fun _ h => write_numeric h (keeps _ h.tables)

/-- A NaN is refused by the column. -/
theorem stepNotNull_numeric {timestamp : Binary64} {touches : IndexTables → Bool}
    {f : IndexTables → IndexTables}
    (keeps : ∀ t, (timestamp.isNaN = false ∨ touches t = false) → t.Numeric → (f t).Numeric) :
    (stepNotNull timestamp touches f).Keeps Session.Numeric := by
  refine Effect.Keeps.bind (call_numeric _) (fun _ s h => ?_)
  rw [Effect.read_bind]
  split
  next => exact h
  next number =>
    rw [Bool.and_eq_true, not_and_or, Bool.not_eq_true, Bool.not_eq_true] at number
    exact write_numeric h (keeps _ number h.tables)

theorem appendIndex_numeric (row : Nat) (entry : ParsedEntry) :
    (appendIndex row entry).Keeps Session.Numeric := by
  have side (f : IndexTables → IndexTables) (same : ∀ t, (f t).logIndex = t.logIndex) :
      (writeTables f).Keeps Session.Numeric := by
    refine writeTables_numeric fun t h k v found => h k v ?_
    rw [← same]
    exact found
  refine Effect.Keeps.bind (stepNotNull_numeric fun t number h =>
    insertRow_numeric h (number.resolve_right (by simp))) (fun _ => ?_)
  refine Effect.Keeps.bind (call_numeric _) (fun _ => ?_)
  refine Effect.Keeps.bind (side _ fun _ => rfl) (fun _ => ?_)
  exact Effect.Keeps.bind (call_numeric _) (fun _ => side _ fun _ => rfl)

theorem updateIndex_numeric (row : Nat) (entry : ParsedEntry) :
    (updateIndex row entry).Keeps Session.Numeric :=
  Effect.Keeps.bind (call_numeric _) fun _ =>
    stepNotNull_numeric fun _ takes h => updateRow_numeric h takes

theorem beginTransaction_numeric : beginTransaction.Keeps Session.Numeric := by
  refine Effect.Keeps.bind (call_numeric _) (fun _ s h => ?_)
  rw [Effect.read_bind]
  cases s.index.transaction with
  | some t => exact h
  | none =>
    refine ⟨h.committed, fun t ht => ?_⟩
    cases ht
    exact h.committed

theorem commitTransaction_numeric : commitTransaction.Keeps Session.Numeric := by
  refine Effect.Keeps.bind (call_numeric _) (fun _ s h => ?_)
  rw [Effect.read_bind]
  cases htx : s.index.transaction with
  | none => exact h
  | some t => exact ⟨h.working t htx, fun u hu => by cases hu⟩

end Numbers

theorem Indexed.numeric {s : Session} (hs : Indexed s) : s.Numeric := by
  induction hs with
  | opened faults =>
    refine ⟨fun k v found => ?_, fun t ht => ?_⟩
    · cases found
    · cases ht
  | appended hs row entry ih => exact appendIndex_numeric row entry _ ih
  | updated hs row entry ih => exact updateIndex_numeric row entry _ ih
  | began hs ih => exact beginTransaction_numeric _ ih
  | committed hs ih => exact commitTransaction_numeric _ ih
  | reopened hs faults ih => exact ⟨ih.committed, fun t ht => by cases ht⟩

section Spans

variable {s : Session}

/-- The extremes that MIN and MAX find among numbers. -/
theorem minTimestamp_least {x : Binary64} {rest : List Binary64}
    (numbers : ∀ y ∈ x :: rest, y.isNaN = false) :
    rest.foldl minTimestamp x ∈ x :: rest ∧ ∀ y ∈ x :: rest, (rest.foldl minTimestamp x).le y = true :=
  foldl_least (fun _ _ => Binary64.le_total) (fun _ _ _ => Binary64.le_trans) (fun _ _ => rfl) numbers

theorem maxTimestamp_greatest {x : Binary64} {rest : List Binary64}
    (numbers : ∀ y ∈ x :: rest, y.isNaN = false) :
    rest.foldl maxTimestamp x ∈ x :: rest ∧ ∀ y ∈ x :: rest, y.le (rest.foldl maxTimestamp x) = true :=
  @foldl_least Binary64 (fun a b => b.le a) (fun y => y.isNaN = false)
    (fun _ _ hx hy => Binary64.le_total hy hx)
    (fun _ _ _ hxy hyz => Binary64.le_trans hyz hxy) maxTimestamp (fun _ _ => rfl) x rest numbers

theorem mem_timestamps {x : Binary64} : x ∈ s.timestamps ↔
    ∃ k v, s.index.tables.logIndex.find? k = some v ∧ v.timestamp = x := by
  simp only [Session.timestamps, List.mem_map, Prod.exists, Table.mem_rows_iff]

/-- The lowest key is the first one. -/
theorem head_lowest {t : IndexTables} {k : Nat} {v : IndexRow} {rest : List (Nat × IndexRow)}
    (h : t.logIndex.rows = (k, v) :: rest) : t.logIndex.find? k = some v ∧
      ∀ j ∈ t.logIndex.keys, k ≤ j := by
  refine ⟨Table.mem_rows_iff.mp (by simp [h]), fun j hj => ?_⟩
  have sorted := t.logIndex.sorted
  rw [h] at sorted
  rw [Table.keys, h, List.map_cons] at hj
  rcases List.mem_cons.mp hj with rfl | hj
  · exact le_rfl
  · obtain ⟨r, hr, rfl⟩ := List.mem_map.mp hj
    exact ((List.pairwise_cons.mp sorted).1 r hr).le

theorem last_highest {t : IndexTables} {k : Nat} {v : IndexRow} {init : List (Nat × IndexRow)}
    (h : t.logIndex.rows = init ++ [(k, v)]) : t.logIndex.find? k = some v ∧
      ∀ j ∈ t.logIndex.keys, j ≤ k := by
  refine ⟨Table.mem_rows_iff.mp (by simp [h]), fun j hj => ?_⟩
  have sorted := t.logIndex.sorted
  rw [h] at sorted
  rw [Table.keys, h, List.map_append] at hj
  rcases List.mem_append.mp hj with hj | hj
  · obtain ⟨r, hr, rfl⟩ := List.mem_map.mp hj
    exact ((List.pairwise_append.mp sorted).2.2 r hr (k, v) (by simp)).le
  · exact (List.mem_singleton.mp hj).le

/-- What get_metadata reads are the timestamps of the rows at the two ends. -/
theorem ends_stored (some : s.timestamps ≠ []) : ∃ k v j w,
    s.index.tables.logIndex.find? k = Option.some v ∧ (∀ i ∈ s.index.tables.logIndex.keys, k ≤ i) ∧
      s.index.tables.firstTimestamp = v.timestamp ∧
    s.index.tables.logIndex.find? j = Option.some w ∧ (∀ i ∈ s.index.tables.logIndex.keys, i ≤ j) ∧
      s.index.tables.lastTimestamp = w.timestamp := by
  let t := s.index.tables
  have rows : t.logIndex.rows ≠ [] := by
    intro none
    apply some
    rw [Session.timestamps, none, List.map_nil]
  obtain ⟨⟨k, v⟩, rest, head⟩ := List.exists_cons_of_ne_nil rows
  have last := (List.dropLast_append_getLast rows).symm
  have low := head_lowest head
  have high := last_highest last
  refine ⟨k, v, _, _, low.1, low.2, ?_, high.1, high.2, ?_⟩
  · rw [IndexTables.firstTimestamp, head]
    rfl
  · rw [IndexTables.lastTimestamp, List.getLast?_eq_some_getLast rows]
    rfl

theorem endsInOrder_iff (some : s.timestamps ≠ []) : s.index.tables.EndsInOrder ↔
    (∀ x ∈ s.timestamps, s.index.tables.firstTimestamp.le x = true) ∧
      ∀ x ∈ s.timestamps, x.le s.index.tables.lastTimestamp = true := by
  obtain ⟨k, v, j, w, hk, lowest, first, hj, highest, last⟩ := ends_stored some
  rw [first, last]
  constructor
  · intro ends
    refine ⟨fun x hx => ?_, fun x hx => ?_⟩
    · obtain ⟨i, u, found, rfl⟩ := mem_timestamps.mp hx
      exact ends.first k v hk lowest i u found
    · obtain ⟨i, u, found, rfl⟩ := mem_timestamps.mp hx
      exact ends.last j w hj highest i u found
  · intro ends
    have key {i : Nat} {u : IndexRow} (found : s.index.tables.logIndex.find? i = Option.some u) :
        i ∈ s.index.tables.logIndex.keys := Table.mem_keys_iff.mpr ⟨u, found⟩
    refine ⟨fun i u found low n x hx => ?_, fun i u found high n x hx => ?_⟩
    · obtain rfl : i = k := Nat.le_antisymm (low k (key hk)) (lowest i (key found))
      obtain rfl := Option.some.inj (found.symm.trans hk)
      exact ends.1 _ (mem_timestamps.mpr ⟨n, x, hx, rfl⟩)
    · obtain rfl : i = j := Nat.le_antisymm (highest i (key found)) (high j (key hj))
      obtain rfl := Option.some.inj (found.symm.trans hj)
      exact ends.2 _ (mem_timestamps.mpr ⟨n, x, hx, rfl⟩)

theorem getMetadata_span (noFault : s.faults = []) : getMetadata .boundedTimestamp s =
    (.ok (.boundedTimestamp ⟨s.index.tables.firstTimestamp, s.index.tables.lastTimestamp⟩), s) := by
  rw [getMetadata, Effect.bind_of_ok (call_calm _ noFault), Effect.bind_of_ok (call_calm _ noFault)]
  rfl

/-- The second way always gives the extremes. -/
theorem getFirstLastTimestamp_extremes (numeric : s.Numeric) (noFault : s.faults = [])
    (some : s.timestamps ≠ []) :
    ∃ first last, getFirstLastTimestamp s = (.ok (true, first, last), s) ∧
      (first ∈ s.timestamps ∧ ∀ x ∈ s.timestamps, first.le x = true) ∧
      (last ∈ s.timestamps ∧ ∀ x ∈ s.timestamps, x.le last = true) := by
  obtain ⟨x, rest, h⟩ := List.exists_cons_of_ne_nil some
  have numbers : ∀ y ∈ x :: rest, y.isNaN = false := by
    intro y hy
    rw [← h] at hy
    obtain ⟨k, v, found, rfl⟩ := mem_timestamps.mp hy
    exact numeric.tables k v found
  rw [h]
  refine ⟨_, _, ?_, minTimestamp_least numbers, maxTimestamp_greatest numbers⟩
  have rows : s.index.tables.logIndex.rows.map (fun r => r.2.timestamp) = x :: rest := h
  rw [getFirstLastTimestamp, Effect.bind_of_ok (call_calm _ noFault),
    Effect.bind_of_ok (call_calm _ noFault), Effect.read_bind, rows]
  rfl

end Spans

/-- When the two ways of asking for the time span agree. -/
theorem spansAgree_iff {s : Session} (hs : Indexed s) (noFault : s.faults = [])
    (some : s.timestamps ≠ []) : s.SpansAgree ↔ s.index.tables.EndsInOrder := by
  rw [endsInOrder_iff some]
  obtain ⟨first, last, answer, least, greatest⟩ :=
    getFirstLastTimestamp_extremes hs.numeric noFault some
  have span := getMetadata_span noFault
  constructor
  · intro agree
    obtain ⟨span', first', last', hspan, hanswer, sameFirst, sameLast, least', greatest'⟩ := agree
    rw [span] at hspan
    cases hspan
    exact ⟨fun x hx => Binary64.le_trans sameFirst.1 (least'.2 x hx),
      fun x hx => Binary64.le_trans (greatest'.2 x hx) sameLast.2⟩
  · intro ends
    obtain ⟨k, v, j, w, hk, -, atFirst, hj, -, atLast⟩ := ends_stored some
    have firstMem : s.index.tables.firstTimestamp ∈ s.timestamps :=
      mem_timestamps.mpr ⟨k, v, hk, atFirst.symm⟩
    have lastMem : s.index.tables.lastTimestamp ∈ s.timestamps :=
      mem_timestamps.mpr ⟨j, w, hj, atLast.symm⟩
    exact ⟨_, first, last, span, answer, ⟨ends.1 _ least.1, least.2 _ firstMem⟩,
      ⟨greatest.2 _ lastMem, ends.2 _ greatest.1⟩, least, greatest⟩

def oneSecond : Binary64 := ⟨0x3ff0000000000000⟩

def twoSeconds : Binary64 := ⟨0x4000000000000000⟩

/-- The index after two appends, at two times. -/
def indexedTwice (x y : Binary64) : Session :=
  (appendIndex 1 { ParsedEntry.zero with timestamp := y }
    (appendIndex 0 { ParsedEntry.zero with timestamp := x } Session.fresh).2).2

theorem indexedTwice_indexed (x y : Binary64) : Indexed (indexedTwice x y) :=
  .appended (.appended (.opened []) 0 _) 1 _

theorem spansAgree_iff_sample :
    let s := indexedTwice oneSecond twoSeconds
    s.timestamps = [oneSecond, twoSeconds] ∧ (s.SpansAgree ↔ s.index.tables.EndsInOrder) := by
  intro s
  have stored : s.timestamps = [oneSecond, twoSeconds] := by decide +kernel
  have faults : s.faults = [] := by decide +kernel
  exact ⟨stored, spansAgree_iff (indexedTwice_indexed oneSecond twoSeconds) faults
    (by rw [stored]; simp)⟩

/-- The later row has the earlier time, as in a log that was put together from two. -/
theorem spans_differ : ¬ ∀ s, Indexed s → s.faults = [] → s.timestamps ≠ [] → s.SpansAgree := by
  intro agree
  let s := indexedTwice twoSeconds oneSecond
  have stored : s.timestamps = [twoSeconds, oneSecond] := by decide +kernel
  have faults : s.faults = [] := by decide +kernel
  obtain ⟨span, first, last, hspan, -, same, -, least, -⟩ :=
    agree s (indexedTwice_indexed twoSeconds oneSecond) faults (by rw [stored]; simp)
  have answer : (getMetadata .boundedTimestamp s).1 =
      .ok (.boundedTimestamp ⟨twoSeconds, oneSecond⟩) := by decide +kernel
  rw [hspan] at answer
  cases answer
  have below : twoSeconds.le oneSecond = true :=
    Binary64.le_trans same.1 (least.2 oneSecond (by rw [stored]; simp))
  exact absurd below (by decide +kernel)

end FsCore
