import FsCore.DecodeRun

namespace FsCore

/-- A prefix of characters of one kind ends where a character of the other kind stands. -/
theorem append_cons_inj {α : Type} {p : α → Bool} {a b x y : List α} {c : α} (ha : ∀ d ∈ a, p d = true)
    (hb : ∀ d ∈ b, p d = true) (hc : p c = false) (h : a ++ c :: x = b ++ c :: y) : a = b ∧ x = y := by
  have head := congrArg (List.takeWhile p) h
  rw [List.takeWhile_append_of_pos ha, List.takeWhile_append_of_pos hb,
    List.takeWhile_cons_of_neg (by simp [hc]), List.append_nil,
    List.takeWhile_cons_of_neg (by simp [hc]), List.append_nil] at head
  subst head
  exact ⟨rfl, (List.cons.inj (List.append_cancel_left h)).2⟩

theorem digits_isDigit {n : Nat} : ∀ d ∈ Nat.toDigits 10 n, d.isDigit = true := fun _ hd =>
  Nat.isDigit_of_mem_toDigits (by decide) (by decide) hd

theorem toDigits_inj {m n : Nat} (h : Nat.toDigits 10 m = Nat.toDigits 10 n) : m = n := by
  have := congrArg (fun cs => Nat.ofDigitChars 10 cs 0) h
  simpa [Nat.ofDigitChars_toDigits] using this

theorem signalName_inj {s t : Nat} (h : signalName s = signalName t) : s = t :=
  toDigits_inj (List.append_cancel_left h)

theorem cacheKey_inj {a b : UInt32} {x y : Text} (h : cacheKey a x = cacheKey b y) : a = b ∧ x = y := by
  obtain ⟨digits, names⟩ := append_cons_inj digits_isDigit digits_isDigit (by decide) h
  exact ⟨UInt32.toNat_inj.mp (toDigits_inj digits), names⟩

theorem signalName_bound (s : Nat) : (signalName s).takeWhile (· ≠ nul) = signalName s := by
  rw [List.takeWhile_eq_self_iff]
  intro c hc
  have letters : "signal_".toList.all (fun c => c ≠ nul) = true := by decide
  rw [decide_eq_true_iff]
  rcases List.mem_append.mp hc with hc | hc
  · exact of_decide_eq_true (List.all_eq_true.mp letters c hc)
  · rintro rfl
    exact absurd (digits_isDigit nul hc) (by decide)

theorem keyOf_inj {a b : UInt32} {s t : Nat} (h : keyOf a (signalName s) = keyOf b (signalName t)) :
    a = b ∧ s = t := by
  unfold keyOf at h
  rw [signalName_bound, signalName_bound] at h
  have pair := Prod.mk.inj (toLex_inj.mp h)
  exact ⟨UInt32.toNat_inj.mp pair.1, signalName_inj pair.2⟩

section Samples

variable (decoder : CanDatabaseModel) (row : Nat → ParsedEntry)

/-- The samples of a signal in the given rows. -/
def signalChunk (id : UInt32) (si : Nat) (rows : List Nat) : DecodedSignalChunk where
  canId := id
  signalName := signalName si
  rowIndex := rows.map UInt32.ofNat
  rawValue := rows.map fun r => (decoder.decoded (row r).toLogRecord si).rawValue
  physValue := rows.map fun r => (decoder.decoded (row r).toLogRecord si).physValue

/-- Row by row and signal by signal, what the loop over a page sees. -/
def sampleEvents (rows : List Nat) : List (Nat × Nat) :=
  rows.flatMap fun r => (List.range (decoder.signalCountOf (row r).canId.toNat)).map fun si => (r, si)

def cacheEvent (cache : SignalCache) (event : Nat × Nat) : SignalCache :=
  cacheSample (row event.1).canId (UInt32.ofNat event.1) cache
    (decoder.decoded (row event.1).toLogRecord event.2)

/-- Whether an event is a sample of a signal. -/
def ofSignal (id : UInt32) (si : Nat) (event : Nat × Nat) : Bool :=
  (row event.1).canId = id ∧ event.2 = si

/-- What the cache holds after some events: for every signal its samples, and nothing else. -/
structure CacheHolds (events : List (Nat × Nat)) (cache : SignalCache) : Prop where
  signal : ∀ id si, cache.find? (cacheKey id (signalName si)) =
    if events.filter (ofSignal row id si) = [] then none
    else some (signalChunk decoder row id si ((events.filter (ofSignal row id si)).map Prod.fst))
  key : ∀ k chunk, cache.find? k = some chunk →
    ∃ si, k = cacheKey chunk.canId chunk.signalName ∧ chunk.signalName = signalName si

variable {decoder row}

theorem decoded_signalName {entry : LogRecord} {si : Nat} :
    (decoder.decoded entry si).signalName = signalName si := rfl

theorem CacheHolds.event {events : List (Nat × Nat)} {cache : SignalCache}
    (h : CacheHolds decoder row events cache) (event : Nat × Nat) :
    CacheHolds decoder row (events ++ [event]) (cacheEvent decoder row cache event) := by
  obtain ⟨r, s⟩ := event
  constructor
  · intro id si
    rw [cacheEvent, cacheSample, Table.find?_upsert, decoded_signalName]
    by_cases same : (row r).canId = id ∧ s = si
    · obtain ⟨rfl, rfl⟩ := same
      have own : ofSignal row (row r).canId s (r, s) = true := by simp [ofSignal]
      rw [if_pos rfl, h.signal, List.filter_append, List.filter_singleton, own]
      split
      next none => simp [none, signalChunk]
      next => simp [signalChunk]
    · have other : ofSignal row id si (r, s) = false := by simpa [ofSignal] using same
      have ne : cacheKey id (signalName si) ≠ cacheKey (row r).canId (signalName s) := by
        intro eq
        obtain ⟨ids, names⟩ := cacheKey_inj eq
        exact same ⟨ids.symm, (signalName_inj names).symm⟩
      have nothing : (events ++ [(r, s)]).filter (ofSignal row id si) =
        events.filter (ofSignal row id si) := by
        simp [List.filter_append, other]
      rw [if_neg ne, h.signal, nothing]
  · intro k chunk hk
    rw [cacheEvent, cacheSample, Table.find?_upsert] at hk
    split at hk
    next eq =>
      cases hk
      exact ⟨s, eq, rfl⟩
    next => exact h.key k chunk hk

theorem cacheHolds_foldl (events : List (Nat × Nat)) :
    CacheHolds decoder row events (events.foldl (cacheEvent decoder row) Table.empty) := by
  induction events using List.reverseRecOn with
  | nil => exact ⟨fun id si => rfl, fun k chunk h => nomatch h⟩
  | append_singleton events event ih =>
    rw [List.foldl_append]
    exact ih.event event

theorem filter_range_eq (n si : Nat) :
    (List.range n).filter (fun s => decide (s = si)) = if si < n then [si] else [] := by
  induction n with
  | zero => rfl
  | succ n ih =>
    rw [List.range_succ, List.filter_append, ih, List.filter_singleton]
    by_cases last : n = si
    · subst last
      simp
    · by_cases low : si < n
      · simp [last, low, show si < n + 1 by omega]
      · simp [last, low, show ¬ si < n + 1 by omega]

/-- A signal of an id has a sample in every row of the id. -/
theorem sampleEvents_filter {id : UInt32} {si : Nat} (hsi : si < decoder.signalCountOf id.toNat)
    (rows : List Nat) : ((sampleEvents decoder row rows).filter (ofSignal row id si)).map Prod.fst =
      rows.filter fun r => (row r).canId = id := by
  induction rows with
  | nil => rfl
  | cons r rest ih =>
    rw [sampleEvents, List.flatMap_cons, List.filter_append, List.map_append]
    change _ ++ ((sampleEvents decoder row rest).filter _).map _ = _
    rw [ih, List.filter_map]
    by_cases same : (row r).canId = id
    · have own : ofSignal row id si ∘ (fun s => (r, s)) = fun s => decide (s = si) := by
        funext s
        simp [ofSignal, same]
      rw [own, filter_range_eq, same, if_pos hsi]
      simp [same]
    · have other : ofSignal row id si ∘ (fun s => (r, s)) = fun _ => false := by
        funext s
        simp [ofSignal, same]
      rw [other]
      simp [same]

/-- The events of a row are the samples that decoding it gives. -/
theorem foldl_sampleEvents_cons (r : Nat) (rest : List Nat) (cache : SignalCache) :
    (sampleEvents decoder row (r :: rest)).foldl (cacheEvent decoder row) cache =
      (sampleEvents decoder row rest).foldl (cacheEvent decoder row)
        (((List.range (decoder.signalCountOf (row r).canId.toNat)).map
          (decoder.decoded (row r).toLogRecord)).foldl
            (cacheSample (row r).canId (UInt32.ofNat r)) cache) := by
  rw [sampleEvents, List.flatMap_cons, List.foldl_append, List.foldl_map, List.foldl_map]
  rfl

theorem cachePage_some {start n : Nat}
    (hx : ∀ r ∈ List.range' start n, decoder.Decodes (row r).toLogRecord) (cache : SignalCache) :
    cachePage decoder start ((List.range' start n).map row) cache =
      some ((sampleEvents decoder row (List.range' start n)).foldl (cacheEvent decoder row) cache) := by
  induction n generalizing start cache with
  | zero => rfl
  | succ n ih =>
    rw [List.range'_succ] at hx ⊢
    rw [List.map_cons, cachePage, decodeEntry_of_decodes (hx start (by simp)), foldl_sampleEvents_cons]
    exact ih (fun r hr => hx r (by simp [hr])) _

theorem cachePage_none {start n : Nat}
    (hx : ∃ r ∈ List.range' start n, ¬ decoder.Decodes (row r).toLogRecord) (cache : SignalCache) :
    cachePage decoder start ((List.range' start n).map row) cache = none := by
  induction n generalizing start cache with
  | zero =>
    obtain ⟨r, hr, -⟩ := hx
    cases hr
  | succ n ih =>
    rw [List.range'_succ] at hx ⊢
    rw [List.map_cons, cachePage]
    by_cases first : decoder.Decodes (row start).toLogRecord
    · rw [decodeEntry_of_decodes first]
      refine ih ?_ _
      obtain ⟨r, hr, fails⟩ := hx
      rcases List.mem_cons.mp hr with rfl | hr
      · exact absurd first fails
      · exact ⟨r, hr, fails⟩
    · rw [Option.not_isSome_iff_eq_none.mp first]
      rfl

theorem cachePage_of_some {start n : Nat} {cache final : SignalCache}
    (h : cachePage decoder start ((List.range' start n).map row) cache = some final) :
    ∀ r ∈ List.range' start n, decoder.Decodes (row r).toLogRecord := by
  by_contra! fails
  rw [cachePage_none fails] at h
  cases h

theorem signalChunk_append (id : UInt32) (si : Nat) (xs ys : List Nat) :
    (signalChunk decoder row id si (xs ++ ys)).blobs =
      (signalChunk decoder row id si xs).blobs.append (signalChunk decoder row id si ys).blobs := by
  simp [signalChunk, DecodedSignalChunk.blobs, SignalBlobs.append, toBlob_append]

/-- The raw values of the rows of an id are those that extraction gives. -/
theorem rawValue_signalChunk {id : UInt32} {si : Nat} {sig : SignalDef}
    (hsig : decoder.signalOf id.toNat si = some sig) {rows : List Nat}
    (own : ∀ r ∈ rows, (row r).canId = id ∧ decoder.Extracts (row r).toLogRecord) :
    (signalChunk decoder row id si rows).rawValue.map some =
      rows.map fun r => extractSignal (row r).data (row r).dataLen.toNat sig := by
  rw [signalChunk, List.map_map]
  refine List.map_congr_left fun r hr => ?_
  obtain ⟨same, extracts⟩ := own r hr
  have hsig : decoder.signalOf (row r).canId.toNat si = some sig := by rw [same, hsig]
  obtain ⟨raw, hraw⟩ := Option.isSome_iff_exists.mp (extracts si sig hsig)
  simp [CanDatabaseModel.decoded, hsig, hraw]

/-- The chunk of fewer than 2^28 samples can be bound, and is bound whole. -/
theorem fits_signalChunk {rows : List Nat} (few : rows.length < 2 ^ 28) (id : UInt32) (si : Nat) :
    (signalChunk decoder row id si rows).Fits := by
  constructor <;> rw [signalChunk, List.length_map] <;> omega

theorem bindable_signalChunk_iff {id : UInt32} {si : Nat} {rows : List Nat} :
    (signalChunk decoder row id si rows).Bindable ↔
      0 ≤ intOfSize (rows.length * 4) ∧ 0 ≤ intOfSize (rows.length * 8) := by
  obtain ⟨rowLength, rawLength, physLength⟩ := blobs_lengths (signalChunk decoder row id si rows)
  simp only [signalChunk, List.length_map] at rowLength rawLength physLength
  constructor
  · intro h
    exact ⟨rowLength ▸ h.rowIndex, rawLength ▸ h.rawValue⟩
  · intro h
    exact ⟨rowLength.symm ▸ h.1, rawLength.symm ▸ h.2, physLength.symm ▸ h.2⟩

/-- Writing the chunks of a page, in whatever order, appends to every signal what is bound of
its samples. -/
theorem flush_blobs (order : ChunkOrder) {events : List (Nat × Nat)} {cache : SignalCache}
    (h : CacheHolds decoder row events cache) (id : UInt32) (si : Nat) (t : DecodedTable) :
    blobsAt ((order.arrange (cache.rows.map Prod.snd)).foldl (fun t c => c.upsert t) t)
        (keyOf id (signalName si)) =
      (blobsAt t (keyOf id (signalName si))).append
        (signalChunk decoder row id si ((events.filter (ofSignal row id si)).map Prod.fst)).bound := by
  have own : (cache.rows.map Prod.snd).filter
        (fun c => keyOf c.canId c.signalName = keyOf id (signalName si)) =
      (cache.find? (cacheKey id (signalName si))).toList := by
    have keys : cache.rows.filter
          ((fun c => decide (keyOf c.canId c.signalName = keyOf id (signalName si))) ∘ Prod.snd) =
        cache.rows.filter (fun r => r.1 = cacheKey id (signalName si)) := by
      refine List.filter_congr ?_
      rintro ⟨k, c⟩ hr
      obtain ⟨s, rfl, name⟩ := h.key k c (Table.mem_rows_iff.mp hr)
      refine decide_eq_decide.mpr ?_
      dsimp only
      rw [name]
      constructor
      · intro eq
        obtain ⟨rfl, rfl⟩ := keyOf_inj eq
        rfl
      · intro eq
        obtain ⟨rfl, names⟩ := cacheKey_inj eq
        rw [names]
    rw [List.filter_map, keys, Table.filter_key, List.map_map]
    exact List.map_id _
  have perm := (order.perm (cache.rows.map Prod.snd)).filter
    (fun c => keyOf c.canId c.signalName = keyOf id (signalName si))
  rw [own, h.signal id si] at perm
  rw [blobsAt_foldl]
  split at perm
  next none =>
    rw [List.perm_nil.mp perm, none]
    simp [signalChunk, DecodedSignalChunk.bound, DecodedSignalChunk.blobs, bindBlob, toBlob,
      SignalBlobs.append]
  next =>
    rw [List.perm_singleton.mp perm]
    rfl

/-- What the cache holds for a page are chunks of the model's signals, with all their samples. -/
theorem cached_chunk {rows : List Nat} {cache : SignalCache}
    (h : CacheHolds decoder row (sampleEvents decoder row rows) cache) {chunk : DecodedSignalChunk}
    (hc : chunk ∈ cache.rows.map Prod.snd) : ∃ si, si < decoder.signalCountOf chunk.canId.toNat ∧
      chunk = signalChunk decoder row chunk.canId si (rows.filter fun r => (row r).canId =
        chunk.canId) := by
  obtain ⟨⟨key, c⟩, mem, rfl⟩ := List.mem_map.mp hc
  have found := Table.mem_rows_iff.mp mem
  obtain ⟨si, rfl, name⟩ := h.key key c found
  dsimp only at name found ⊢
  rw [name, h.signal] at found
  have low : si < decoder.signalCountOf c.canId.toNat := by
    by_contra high
    have empty : (sampleEvents decoder row rows).filter (ofSignal row c.canId si) = [] := by
      rw [List.filter_eq_nil_iff]
      intro event he own
      obtain ⟨r, -, he⟩ := List.mem_flatMap.mp he
      obtain ⟨s, hs, rfl⟩ := List.mem_map.mp he
      obtain ⟨same, rfl⟩ := of_decide_eq_true own
      dsimp only at same
      exact high (same ▸ List.mem_range.mp hs)
    rw [if_pos empty] at found
    cases found
  split at found
  next => cases found
  next =>
    rw [sampleEvents_filter low] at found
    exact ⟨si, low, (Option.some.inj found).symm⟩

/-- A key of no signal of the model gets nothing. -/
theorem flush_other (order : ChunkOrder) {rows : List Nat} {cache : SignalCache}
    (h : CacheHolds decoder row (sampleEvents decoder row rows) cache) {k : SignalKey}
    (other : ∀ id si, si < decoder.signalCountOf id.toNat → keyOf id (signalName si) ≠ k)
    (t : DecodedTable) :
    blobsAt ((order.arrange (cache.rows.map Prod.snd)).foldl (fun t c => c.upsert t) t) k =
      blobsAt t k := by
  have none : (order.arrange (cache.rows.map Prod.snd)).filter
    (fun c => keyOf c.canId c.signalName = k) = [] := by
    rw [List.filter_eq_nil_iff]
    intro chunk hc
    obtain ⟨si, low, own⟩ := cached_chunk h ((order.perm _).mem_iff.mp hc)
    have name : chunk.signalName = signalName si := by rw [own, signalChunk]
    rw [name, decide_eq_true_iff]
    exact other chunk.canId si low
  rw [blobsAt_foldl, none]
  rfl

/-- The chunks of a page can be bound when those of all signals can. -/
theorem bindable_flush_iff (order : ChunkOrder) {rows : List Nat} {cache : SignalCache}
    (h : CacheHolds decoder row (sampleEvents decoder row rows) cache) :
    (∀ chunk ∈ order.arrange (cache.rows.map Prod.snd), chunk.Bindable) ↔
      ∀ id si, si < decoder.signalCountOf id.toNat →
        (signalChunk decoder row id si (rows.filter fun r => (row r).canId = id)).Bindable := by
  constructor
  · intro all id si low
    have own := @sampleEvents_filter decoder row id si low rows
    by_cases nothing : (sampleEvents decoder row rows).filter (ofSignal row id si) = []
    · rw [← own, nothing]
      exact (@fits_signalChunk _ _ [] (Nat.two_pow_pos 28) id si).bindable
    · have found := h.signal id si
      rw [if_neg nothing, own] at found
      have mem := List.mem_map_of_mem (f := Prod.snd) (Table.mem_rows_iff.mpr found)
      exact all _ ((order.perm _).mem_iff.mpr mem)
  · intro all chunk hc
    obtain ⟨si, low, own⟩ := cached_chunk h ((order.perm _).mem_iff.mp hc)
    rw [own]
    exact all chunk.canId si low

end Samples

end FsCore
