import FsCore.PageCuts

namespace FsCore

/-- Calls of write_signals one after the other. -/
def writeCalls (calls : List (List DecodedSignalChunk)) : DecodeM Unit :=
  Effect.forEach (fun chunks => do
    let _ ← writeSignals chunks
    pure ()) calls

/-- The vectors of the chunks of a key, in the order in which they were written. -/
def writtenAs (chunks : List DecodedSignalChunk) (canId : UInt32) (signalName : Text) :
    DecodedSignalChunk :=
  let own := chunks.filter fun c => keyOf c.canId c.signalName = keyOf canId signalName
  ⟨canId, signalName, own.flatMap DecodedSignalChunk.rowIndex, own.flatMap DecodedSignalChunk.rawValue,
    own.flatMap DecodedSignalChunk.physValue⟩

/-- What a call gives whenever it returns, and it does return when no SQLite call fails. -/
def Gives {α : Type} (m : DecodeM α) (d : Decoding) (a : α) : Prop :=
  (∀ b e, m d = (.ok b, e) → b = a) ∧ (d.session.faults = [] → ∃ e, m d = (.ok a, e))

section Writes

variable {d e : Decoding}

theorem foldl_blobs (chunks : List DecodedSignalChunk) (canId : UInt32) (signalName : Text)
    (b : SignalBlobs) :
    (chunks.map DecodedSignalChunk.blobs).foldl SignalBlobs.append b =
      b.append (⟨canId, signalName, chunks.flatMap DecodedSignalChunk.rowIndex,
        chunks.flatMap DecodedSignalChunk.rawValue,
        chunks.flatMap DecodedSignalChunk.physValue⟩ : DecodedSignalChunk).blobs := by
  induction chunks generalizing b with
  | nil => simp [DecodedSignalChunk.blobs, SignalBlobs.append, toBlob]
  | cons c rest ih =>
    rw [List.map_cons, List.foldl_cons, ih, SignalBlobs.append_assoc]
    simp [DecodedSignalChunk.blobs, SignalBlobs.append, toBlob_append]

/-- Under a key stands what was written for it, where all of it fits. -/
theorem samples_foldl {chunks : List DecodedSignalChunk} {canId : UInt32} {signalName : Text}
    (fits : ∀ c ∈ chunks, keyOf c.canId c.signalName = keyOf canId signalName → c.Fits) :
    (blobsAt (chunks.foldl (fun t c => c.upsert t) .empty) (keyOf canId signalName)).samples canId
      signalName = writtenAs chunks canId signalName := by
  have none : blobsAt .empty (keyOf canId signalName) = .empty := rfl
  have whole : (chunks.filter fun c => keyOf c.canId c.signalName = keyOf canId signalName).map
        DecodedSignalChunk.bound =
      (chunks.filter fun c => keyOf c.canId c.signalName = keyOf canId signalName).map
        DecodedSignalChunk.blobs := by
    refine List.map_congr_left fun c hc => ?_
    obtain ⟨mem, own⟩ := List.mem_filter.mp hc
    exact (fits c mem (of_decide_eq_true own)).bound_eq
  rw [blobsAt_foldl, none, whole, foldl_blobs _ canId signalName, SignalBlobs.empty_append]
  exact samples_blobs (writtenAs chunks canId signalName)

theorem mem_keys_foldl (chunks : List DecodedSignalChunk) (t : DecodedTable) (k : SignalKey) :
    k ∈ (chunks.foldl (fun t c => c.upsert t) t).keys ↔
      k ∈ t.keys ∨ ∃ c ∈ chunks, keyOf c.canId c.signalName = k := by
  induction chunks generalizing t with
  | nil => simp
  | cons c rest ih =>
    rw [List.foldl_cons, ih, DecodedSignalChunk.upsert, Table.mem_keys_upsert,
      List.exists_mem_cons_iff, or_assoc, or_left_comm, eq_comm]

theorem writeCalls_ok {calls : List (List DecodedSignalChunk)} (h : writeCalls calls d = (.ok (), e)) :
    e.db.tables = calls.flatten.foldl (fun t c => c.upsert t) d.db.tables := by
  refine Effect.forEach_ok
    (fun done e => e.db.tables = done.flatten.foldl (fun t c => c.upsert t) d.db.tables) ?_ rfl h
  intro done chunks s t before step
  obtain ⟨rc, u, write, step⟩ := Effect.bind_eq_ok_iff.mp step
  cases step
  rw [(writeSignals_ok write).2, before, List.flatten_append, List.foldl_append, List.flatten_singleton]

theorem writeCalls_progress {calls : List (List DecodedSignalChunk)}
    (binds : ∀ c ∈ calls.flatten, c.Bindable) (noFault : d.session.faults = []) :
    ∃ e, writeCalls calls d = (.ok (), e) ∧ e.session.faults = [] := by
  have step : ∀ chunks ∈ calls, ∀ s : Decoding, s.session.faults = [] →
      ∃ t, (writeSignals chunks >>= fun _ => pure ()) s = (.ok (), t) ∧ t.session.faults = [] := by
    intro chunks mem s calm
    obtain ⟨db, write⟩ :=
      writeSignals_progress (fun c hc => binds c (List.mem_flatten_of_mem mem hc)) calm
    exact ⟨_, Effect.bind_of_ok write, calm⟩
  exact Effect.forEach_returns step noFault

theorem getSignalSamples_gives (id : UInt32) (name : Text) :
    Gives (getSignalSamples id name) d (samplesIn d.db id name) := by
  constructor
  · intro c e h
    obtain ⟨_, prepared, prepare, h⟩ := Effect.bind_eq_ok_iff.mp h
    obtain ⟨_, stepped, step, h⟩ := Effect.bind_eq_ok_iff.mp h
    cases h
    rw [onSession_db step, onSession_db prepare]
    rfl
  · intro calm
    rw [getSignalSamples, Effect.bind_of_ok (onSession_call _ calm),
      Effect.bind_of_ok (onSession_call _ calm)]
    exact ⟨d, rfl⟩

theorem forEach_call_calm (name : String) {α : Type} (xs : List α) {s : Session}
    (calm : s.faults = []) :
    Effect.forEach (fun _ => call name) xs s = (.ok (), s) := by
  induction xs with
  | nil => rfl
  | cons x xs ih => exact (Effect.bind_of_ok (call_calm name calm)).trans ih

theorem getSignalNames_gives (id : UInt32) : Gives (getSignalNames id) d
    ((d.db.tables.keys.filter fun k => (ofLex k).1 = id.toNat).map fun k => (ofLex k).2) := by
  constructor
  · intro names e h
    obtain ⟨_, prepared, prepare, h⟩ := Effect.bind_eq_ok_iff.mp h
    rw [Effect.read_bind] at h
    obtain ⟨_, _, _, h⟩ := Effect.bind_eq_ok_iff.mp h
    obtain ⟨_, _, _, h⟩ := Effect.bind_eq_ok_iff.mp h
    cases h
    rw [onSession_db prepare]
  · intro calm
    rw [getSignalNames, Effect.bind_of_ok (onSession_call _ calm), Effect.read_bind]
    rw [Effect.bind_of_ok (onSession_ok (forEach_call_calm _ _ calm)),
      Effect.bind_of_ok (onSession_call _ calm)]
    exact ⟨d, rfl⟩

/-- The names of an id come in order, so each of them once. -/
theorem names_sorted (t : DecodedTable) (id : Nat) :
    ((t.keys.filter fun k => (ofLex k).1 = id).map fun k => (ofLex k).2).Pairwise (· < ·) := by
  rw [List.pairwise_map]
  refine List.Pairwise.imp_of_mem ?_ (t.keys_sorted.filter _)
  intro a b ha hb lt
  have same : (ofLex a).1 = (ofLex b).1 :=
    (of_decide_eq_true (List.mem_filter.mp ha).2).trans
      (of_decide_eq_true (List.mem_filter.mp hb).2).symm
  rcases (Prod.Lex.lt_iff (x := a) (y := b)).mp lt with first | second
  · exact absurd same (ne_of_lt first)
  · exact second.2

theorem mem_names_iff {t : DecodedTable} {id : UInt32} {name : Text} :
    name ∈ ((t.keys.filter fun k => (ofLex k).1 = id.toNat).map fun k => (ofLex k).2) ↔
      toLex (id.toNat, name) ∈ t.keys := by
  rw [List.mem_map]
  constructor
  · rintro ⟨k, hk, rfl⟩
    obtain ⟨mem, own⟩ := List.mem_filter.mp hk
    rw [← of_decide_eq_true own]
    exact mem
  · intro mem
    exact ⟨_, List.mem_filter.mpr ⟨mem, decide_eq_true rfl⟩, rfl⟩

end Writes

/-- What is read is what was written: the samples of a key are those of its chunks in the order
of the writes, where their blobs have fewer than 2^31 bytes, and the names of an id are those
written for it, each once. A name counts up to its first NUL. -/
theorem samples_of_writes {calls : List (List DecodedSignalChunk)} {d : Decoding}
    (fresh : d.db.tables = .empty) :
    ((∀ c ∈ calls.flatten, c.Fits) → d.session.faults = [] →
      ∃ e, writeCalls calls d = (.ok (), e) ∧ e.session.faults = []) ∧
    ∀ e, writeCalls calls d = (.ok (), e) →
      (∀ id name, (∀ c ∈ calls.flatten, keyOf c.canId c.signalName = keyOf id name → c.Fits) →
        Gives (getSignalSamples id name) e (writtenAs calls.flatten id name)) ∧
      ∀ id, ∃ names : List Text, Gives (getSignalNames id) e names ∧ names.Nodup ∧
        ∀ name, name ∈ names ↔
          ∃ c ∈ calls.flatten, c.canId = id ∧ c.signalName.takeWhile (· ≠ nul) = name := by
  refine ⟨fun fits => writeCalls_progress fun c hc => (fits c hc).bindable, fun e run => ?_⟩
  have tables := writeCalls_ok run
  rw [fresh] at tables
  refine ⟨fun id name fits => ?_, fun id => ⟨_, getSignalNames_gives id, ?_, fun name => ?_⟩⟩
  · rw [← samples_foldl fits, ← tables]
    exact getSignalSamples_gives id name
  · exact (names_sorted e.db.tables id.toNat).imp ne_of_lt
  · rw [mem_names_iff, tables, mem_keys_foldl, or_iff_right (by simp [Table.keys, Table.empty])]
    refine exists_congr fun c => and_congr_right fun _ => ?_
    rw [keyOf, toLex_inj, Prod.mk.injEq, UInt32.toNat_inj]

/-- Two calls that write the same signal, once with nothing in it. -/
theorem samples_of_writes_sample :
    let calls := [[(⟨5, "a".toList, [0], [1], [.zero]⟩ : DecodedSignalChunk),
      ⟨5, "b".toList, [], [], []⟩], [⟨5, "a".toList, [2, 4], [3, 7], [.zero, .zero]⟩]]
    ∃ e, writeCalls calls ⟨Session.fresh, .empty⟩ = (.ok (), e) ∧
      Gives (getSignalSamples 5 "a".toList) e ⟨5, "a".toList, [0, 2, 4], [1, 3, 7],
        [.zero, .zero, .zero]⟩ ∧
      Gives (getSignalSamples 6 "a".toList) e ⟨6, "a".toList, [], [], []⟩ := by
  intro calls
  have fresh : (⟨Session.fresh, .empty⟩ : Decoding).db.tables = .empty := rfl
  have fits : ∀ c ∈ calls.flatten, c.Fits := by
    simp only [calls, List.flatten_cons, List.flatten_nil, List.cons_append, List.nil_append,
      List.forall_mem_cons]
    exact ⟨⟨by decide, by decide, by decide⟩, ⟨by decide, by decide, by decide⟩,
      ⟨by decide, by decide, by decide⟩, by simp⟩
  obtain ⟨e, run, -⟩ := (@samples_of_writes calls _ fresh).1 fits rfl
  have reads := ((samples_of_writes fresh).2 e run).1
  exact ⟨e, run, reads 5 "a".toList fun c mem _ => fits c mem,
    reads 6 "a".toList fun c mem _ => fits c mem⟩

def nulName : Text := "a".toList ++ nul :: "b".toList

/-- A chunk of row numbers only. -/
def rowsChunk (n : Nat) : DecodedSignalChunk := ⟨5, "a".toList, List.replicate n 0, [], []⟩

/-- 2^30 of them are bound as an empty blob. -/
theorem rowsChunk_bound {n : Nat} (wraps : intOfSize (n * 4) = 0) :
    (rowsChunk n).Bindable ∧ (rowsChunk n).bound = .empty := by
  have rows : intOfSize (((rowsChunk n).rowIndex.map UInt32.toNat).length * 4) = 0 := by
    rw [List.length_map, rowsChunk, List.length_replicate, wraps]
  have nothing : bindBlob [] = [] := List.take_nil
  have zero : 0 ≤ intOfSize 0 := by decide
  constructor
  · refine ⟨?_, zero, zero⟩
    rw [DecodedSignalChunk.blobs, toBlob_length, rows]
  · rw [DecodedSignalChunk.bound, DecodedSignalChunk.blobs, bindBlob_nothing rows]
    exact congrArg₂ (SignalBlobs.mk []) nothing nothing

/-- A name with a NUL in it is stored, and given back, up to there; and of 2^30 row numbers
nothing is stored, though no call fails. -/
theorem cut_names_and_blobs :
    (¬ ∀ (calls : List (List DecodedSignalChunk)) (d e : Decoding) (id : UInt32) (names : List Text),
      d.db.tables = .empty → writeCalls calls d = (.ok (), e) → (getSignalNames id e).1 = .ok names →
        ∀ name, name ∈ names ↔ ∃ c ∈ calls.flatten, c.canId = id ∧ c.signalName = name) ∧
    ¬ ∀ (calls : List (List DecodedSignalChunk)) (d e : Decoding) (id : UInt32) (name : Text),
      d.db.tables = .empty → writeCalls calls d = (.ok (), e) →
        Gives (getSignalSamples id name) e (writtenAs calls.flatten id name) := by
  constructor
  · intro all
    have names :
      (getSignalNames 5 (writeCalls [[⟨5, nulName, [], [], []⟩]] ⟨Session.fresh, .empty⟩).2).1 =
        .ok ["a".toList] := by
      decide
    have literal := (all [[⟨5, nulName, [], [], []⟩]] ⟨Session.fresh,
      .empty⟩ _ 5 _ rfl rfl names nulName).mpr
      ⟨⟨5, nulName, [], [], []⟩, by decide, rfl, rfl⟩
    revert literal
    decide
  · intro all
    obtain ⟨n, hn⟩ : ∃ n : Nat, n = 2 ^ 30 := ⟨_, rfl⟩
    obtain ⟨binds, bound⟩ := rowsChunk_bound (n := n) (by rw [hn]; decide)
    have each : ∀ c ∈ [[rowsChunk n]].flatten, c.Bindable :=
      fun c mem => List.mem_singleton.mp mem ▸ binds
    obtain ⟨e, run, calm⟩ := @writeCalls_progress ⟨Session.fresh, .empty⟩ _ each rfl
    have stored : blobsAt e.db.tables (keyOf 5 "a".toList) = .empty := by
      rw [writeCalls_ok run]
      refine (blobsAt_upsert (rowsChunk n) .empty _).trans ?_
      rw [bound, ite_self]
      rfl
    obtain ⟨_, read⟩ := (getSignalSamples_gives 5 "a".toList).2 calm
    have rows := congrArg DecodedSignalChunk.rowIndex ((all _ _ e 5 "a".toList rfl run).1 _ _ read)
    rw [rowIndex_samplesIn [] (by simp) (by rw [stored]; rfl)] at rows
    have written : (writtenAs [[rowsChunk n]].flatten 5 "a".toList).rowIndex = List.replicate n 0 := by
      simp [writtenAs, rowsChunk]
    have long := congrArg List.length (rows.trans written)
    rw [List.map_nil, List.length_nil, List.length_replicate, hn] at long
    cases long

end FsCore
