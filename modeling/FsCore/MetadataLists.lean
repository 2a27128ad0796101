import FsCore.Metadata

namespace FsCore

/-- What `log_channels` stores for a record. -/
def LogRecord.channelKey (r : LogRecord) : Text := normalizeChannelKey r.channelText

/-- Among `n` rows with values `f`, row `row` can take the value `v` without a value coming or going. -/
def Retains {κ : Type} (f : Nat → κ) (n row : Nat) (v : κ) : Prop :=
  (∃ r < n, f r = v) ∧ (v = f row ∨ ∃ r < n, r ≠ row ∧ f r = f row)

/-- An update changes neither the set of ids nor the set of channels. -/
def keepsValues (s : Session) : StoreCall → Prop
  | .writeEntries _ => True
  | .updateEntry row record =>
    Retains (fun r => (s.rowAt r).canId) s.header.writeCount row record.canId ∧
      Retains (fun r => (s.rowAt r).channelKey) s.header.writeCount row record.channelKey

/-- The queries for one id, and for one channel. -/
def LogQuery.forCanId (id : UInt32) : LogQuery := ⟨[id], [], [], false, false, .zero, .zero⟩

def LogQuery.forChannel (channel : Text) : LogQuery := ⟨[], [channel], [], false, false, .zero, .zero⟩

/-- Views that are not empty, have no row in common and show every row together. -/
def Session.Partitioned {κ : Type} (s : Session) (query : κ → LogQuery) (values : List κ) : Prop :=
  ∃ rows : κ → List Nat,
    (∀ v ∈ values, ∃ view t, browse (query v) s = (.ok view, t) ∧ view.Shows (rows v) ∧ rows v ≠ []) ∧
    (∀ v ∈ values, ∀ w ∈ values, v ≠ w → (rows v).Disjoint (rows w)) ∧
    ∀ r, (∃ v ∈ values, r ∈ rows v) ↔ r < s.header.writeCount

/-- The lists that get_metadata gives are those of the stored rows. -/
structure Session.MetadataExact (s : Session) : Prop where
  canIds : ∃ ids t, getMetadata .canIds s = (.ok (.canIds ids), t) ∧ ids.Pairwise (· < ·) ∧
    (∀ id, id ∈ ids ↔ ∃ r < s.header.writeCount, (s.rowAt r).canId = id) ∧
    s.Partitioned LogQuery.forCanId ids
  channels : ∃ channels t, getMetadata .channels s = (.ok (.channels channels), t) ∧
    channels.Pairwise (· < ·) ∧
    (∀ c, c ∈ channels ↔ ∃ r < s.header.writeCount, (s.rowAt r).channelKey = c) ∧
    s.Partitioned LogQuery.forChannel channels

/-- Keys that are exactly the values of `n` rows. -/
def Lists {κ : Type} (keys : List κ) (f : Nat → κ) (n : Nat) : Prop := ∀ k, k ∈ keys ↔ ∃ r < n, f r = k

/-- The side tables have the values of the stored rows. -/
structure Image.Listed (g : Image) : Prop where
  ids : Lists g.index.tables.logCanIds.keys (fun r => (g.row r).canId.toNat) g.header.writeCount
  channels : Lists g.index.tables.logChannels.keys (fun r => (g.row r).channelKey) g.header.writeCount

section Values

variable {κ : Type} {f : Nat → κ} {n row : Nat} {v : κ} {keys : List κ}

theorem lists_append [LinearOrder κ] {t : Table κ Unit} (h : Lists t.keys f n) :
    Lists (t.upsert v (fun _ => ())).keys (Function.update f n v) (n + 1) := by
  intro k
  rw [Table.mem_keys_upsert, h k]
  constructor
  · intro stored
    rcases stored with rfl | ⟨r, hr, value⟩
    · exact ⟨n, by omega, Function.update_self _ _ _⟩
    · exact ⟨r, by omega, by rw [Function.update_of_ne (by omega), value]⟩
  · intro stored
    obtain ⟨r, hr, value⟩ := stored
    by_cases last : r = n
    · rw [last, Function.update_self] at value
      exact Or.inl value.symm
    · rw [Function.update_of_ne last] at value
      exact Or.inr ⟨r, by omega, value⟩

/-- When the values are the same after a row took another one. -/
theorem lists_update_iff (hrow : row < n) (h : Lists keys f n) :
    Lists keys (Function.update f row v) n ↔ Retains f n row v := by
  have own : Function.update f row v row = v := Function.update_self _ _ _
  constructor
  · intro same
    refine ⟨(h v).mp ((same v).mpr ⟨row, hrow, own⟩), ?_⟩
    obtain ⟨r, hr, value⟩ := (same (f row)).mp ((h (f row)).mpr ⟨row, hrow, rfl⟩)
    by_cases edited : r = row
    · rw [edited, own] at value
      exact Or.inl value
    · rw [Function.update_of_ne edited] at value
      exact Or.inr ⟨r, hr, edited, value⟩
  · intro retains k
    obtain ⟨present, stays⟩ := retains
    rw [h k]
    constructor
    · intro stored
      obtain ⟨r, hr, value⟩ := stored
      by_cases edited : r = row
      · subst edited
        rcases stays with same | ⟨other, hother, ne, also⟩
        · exact ⟨r, hr, by rw [own, same, value]⟩
        · exact ⟨other, hother, by rw [Function.update_of_ne ne, also, value]⟩
      · exact ⟨r, hr, by rw [Function.update_of_ne edited, value]⟩
    · intro stored
      obtain ⟨r, hr, value⟩ := stored
      by_cases edited : r = row
      · rw [edited, own] at value
        exact value ▸ present
      · rw [Function.update_of_ne edited] at value
        exact ⟨r, hr, value⟩

end Values

/-- A column of the rows, one of which is another one. -/
theorem column_update {κ : Type} (column : ParsedEntry → κ) (row : Nat → ParsedEntry) (r : Nat)
    (e : ParsedEntry) : (fun i => column (Function.update row r e i)) =
      Function.update (fun i => column (row i)) r (column e) :=
  Function.comp_update column row r e

section Steps

variable {g : Image}

theorem append_listed (whole : g.nextIndex = g.header.writeCount) (h : g.Listed) (record : LogRecord) :
    (g.append record).Listed := by
  let entry := g.entryFor record
  have tables : (g.append record).index.tables =
    g.index.tables.appendRow g.header.writeCount entry := by
    rw [← whole]
    exact tables_write _ _
  have rows : (g.append record).row = Function.update g.row g.header.writeCount entry := by
    rw [← whole]
    rfl
  have count : (g.append record).header.writeCount = g.header.writeCount + 1 := by
    rw [append_writeCount, whole]
  refine ⟨?_, ?_⟩
  · rw [tables, rows, count, column_update (fun e => e.canId.toNat)]
    exact lists_append h.ids
  · rw [tables, rows, count, column_update (fun e => e.channelKey)]
    exact lists_append h.channels

theorem foldl_append_listed (entries : List LogRecord) (hm : g.Mirrored) (h : g.Listed) :
    (entries.foldl Image.append g).Listed := by
  induction entries generalizing g with
  | nil => exact h
  | cons record rest ih => exact ih (append_mirrored hm record) (append_listed hm.whole h record)

theorem appendAll_listed (entries : List LogRecord) (hm : g.Mirrored)
    (idle : g.index.transaction = none) (h : g.Listed) : (g.appendAll entries).Listed := by
  have same : g.begin.index.tables = g.index.tables := by
    simp [Image.begin, IndexDb.tables, idle]
  have looped := foldl_append_listed entries (begin_mirrored hm idle) ⟨same ▸ h.ids, same ▸ h.channels⟩
  exact ⟨looped.ids, looped.channels⟩

theorem retains_toNat {f : Nat → UInt32} {n row : Nat} {v : UInt32} :
    Retains (fun r => (f r).toNat) n row v.toNat ↔ Retains f n row v := by
  simp only [Retains, UInt32.toNat_inj]

/-- An edit writes nothing to the side tables, so they are right when no value comes or goes. -/
theorem edit_listed_iff (hl : g.Linked) (h : g.Listed) {row : Nat} (record : LogRecord)
    (counted : row < g.header.writeCount) :
    (g.edit row record).Listed ↔
      Retains (fun r => (g.row r).canId) g.header.writeCount row record.canId ∧
      Retains (fun r => (g.row r).channelKey) g.header.writeCount row record.channelKey := by
  let entry := g.recompute row record
  have tables : (g.put row entry).index.tables = g.index.tables.updateRow row entry.indexRow :=
    tables_write _ _
  have idTable : (g.put row entry).index.tables.logCanIds = g.index.tables.logCanIds := by
    rw [tables]
    rfl
  have channelTable : (g.put row entry).index.tables.logChannels = g.index.tables.logChannels := by
    rw [tables]
    rfl
  have ids : Lists (g.put row entry).index.tables.logCanIds.keys
      (fun r => ((g.put row entry).row r).canId.toNat) g.header.writeCount ↔
        Retains (fun r => (g.row r).canId) g.header.writeCount row record.canId := by
    rw [idTable, ← retains_toNat]
    have column := column_update (fun e => e.canId.toNat) g.row row entry
    exact (iff_of_eq (congrArg (Lists _ · _) column)).trans (lists_update_iff counted h.ids)
  have channels : Lists (g.put row entry).index.tables.logChannels.keys
      (fun r => ((g.put row entry).row r).channelKey) g.header.writeCount ↔
        Retains (fun r => (g.row r).channelKey) g.header.writeCount row record.channelKey := by
    rw [channelTable]
    have column := column_update (fun e => e.channelKey) g.row row entry
    exact (iff_of_eq (congrArg (Lists _ · _) column)).trans (lists_update_iff counted h.channels)
  rw [edit_eq_put hl counted, ← ids, ← channels]
  exact ⟨fun listed => ⟨listed.ids, listed.channels⟩, fun listed => ⟨listed.1, listed.2⟩⟩

end Steps

section Exact

variable {s : Session}

/-- Queries that each ask for one value of a column split the store. -/
theorem partitioned_of_exact {κ : Type} (column : LogRecord → κ) {query : κ → LogQuery}
    {values : List κ} (hs : s.Sound) (hm : s.image.Mirrored) (some : ∀ v, (query v).empty = false)
    (admits : ∀ v e, (query v).Admits e ↔ column e.toLogRecord = v)
    (keys : ∀ v ∈ values, ∀ c ∈ (query v).channels, IsChannelKey c)
    (exact : Lists values (fun r => column (s.rowAt r).toLogRecord) s.header.writeCount) :
    s.Partitioned query values := by
  have mem {v : κ} {r : Nat} : r ∈ s.matching (query v) ↔
      r < s.header.writeCount ∧ column (s.rowAt r).toLogRecord = v := by
    rw [Session.matching, List.mem_filter, List.mem_range, decide_eq_true_iff, admits]
  refine ⟨fun v => s.matching (query v), fun v hv => ?_, fun v _ w _ ne r hr hr' => ?_, fun r => ?_⟩
  · have path : browse (query v) s = browseRows (query v) s := by
      rw [browse, some v]
      rfl
    obtain ⟨r, hr, value⟩ := (exact v).mp hv
    exact ⟨_, _, path.trans (browseRows_returns (hs.browsable hm) (keys v hv)),
      ⟨rfl, fun h => Bool.noConfusion h, fun _ => rfl⟩, List.ne_nil_of_mem (mem.mpr ⟨hr, value⟩)⟩
  · exact ne ((mem.mp hr).2.symm.trans (mem.mp hr').2)
  · constructor
    · intro h
      obtain ⟨v, -, hr⟩ := h
      exact (mem.mp hr).1
    · intro hr
      exact ⟨_, (exact _).mpr ⟨r, hr, rfl⟩, mem.mpr ⟨hr, rfl⟩⟩

theorem forCanId_admits (id : UInt32) (e : ParsedEntry) : (LogQuery.forCanId id).Admits e ↔
    e.canId = id := by
  simp [LogQuery.forCanId, LogQuery.Admits]

theorem forChannel_admits (c : Text) (e : ParsedEntry) : (LogQuery.forChannel c).Admits e ↔
    e.channelKey = c := by
  simp [LogQuery.forChannel, LogQuery.Admits, LogRecord.channelKey]

theorem mem_map_ofNat {keys : List Nat} (small : ∀ k ∈ keys, k < 2 ^ 32) (id : UInt32) :
    id ∈ keys.map UInt32.ofNat ↔ id.toNat ∈ keys := by
  rw [List.mem_map]
  constructor
  · intro h
    obtain ⟨k, hk, rfl⟩ := h
    rwa [UInt32.toNat_ofNat_of_lt' (small k hk)]
  · exact fun h => ⟨id.toNat, h, UInt32.ofNat_toNat⟩

/-- A list of keys that fit is in order as a list of ids too. -/
theorem map_ofNat_sorted {keys : List Nat} (small : ∀ k ∈ keys, k < 2 ^ 32)
    (sorted : keys.Pairwise (· < ·)) : (keys.map UInt32.ofNat).Pairwise (· < ·) := by
  refine List.pairwise_map.mpr (List.Pairwise.imp_of_mem (fun {a b} ha hb lt => ?_) sorted)
  rw [UInt32.lt_iff_toNat_lt, UInt32.toNat_ofNat_of_lt' (small a ha),
    UInt32.toNat_ofNat_of_lt' (small b hb)]
  exact lt

/-- Keys of the side tables that have the types of the columns. -/
structure IndexTables.Typed (t : IndexTables) : Prop where
  ids : ∀ k ∈ t.logCanIds.keys, k < 2 ^ 32
  channels : ∀ c ∈ t.logChannels.keys, IsChannelKey c

theorem Image.Listed.typed {g : Image} (h : g.Listed) : g.index.tables.Typed := by
  refine ⟨fun k hk => ?_, fun c hc => ?_⟩
  · obtain ⟨r, -, rfl⟩ := (h.ids k).mp hk
    exact (g.row r).canId.toNat_lt
  · obtain ⟨r, -, rfl⟩ := (h.channels c).mp hc
    exact channelText_isChannelKey _

theorem typed_channels {t : IndexTables} (typed : t.Typed) :
    t.logChannels.keys.map (fun c => c.takeWhile (· ≠ nul)) = t.logChannels.keys := by
  rw [List.map_congr_left (fun c hc => takeWhile_key (typed.channels c hc)), List.map_id']

/-- Numbers list the ids as the ids do. -/
theorem lists_map_ofNat {keys : List Nat} (small : ∀ k ∈ keys, k < 2 ^ 32)
    {f : Nat → UInt32} {n : Nat} :
    Lists (keys.map UInt32.ofNat) f n ↔ Lists keys (fun r => (f r).toNat) n := by
  constructor
  · intro exact k
    by_cases hk : k < 2 ^ 32
    · have own := exact (UInt32.ofNat k)
      rw [mem_map_ofNat small, UInt32.toNat_ofNat_of_lt' hk] at own
      rw [own]
      simp only [← UInt32.toNat_inj, UInt32.toNat_ofNat_of_lt' hk]
    · refine ⟨fun mem => absurd (small k mem) hk, fun h => ?_⟩
      obtain ⟨r, -, rfl⟩ := h
      exact absurd (f r).toNat_lt hk
  · intro h id
    rw [mem_map_ofNat small, h]
    simp only [UInt32.toNat_inj]

/-- The lists are exact when the side tables are. -/
theorem metadataExact_iff (hs : s.Sound) (hm : s.image.Mirrored) (typed : s.index.tables.Typed) :
    s.MetadataExact ↔ s.image.Listed := by
  have ids := getMetadata_canIds hs.calm.noFault
  have channels := getMetadata_channels hs.calm.noFault
  rw [typed_channels typed] at channels
  have listed : Lists (s.index.tables.logCanIds.keys.map UInt32.ofNat) (fun r => (s.rowAt r).canId)
      s.header.writeCount ↔
      Lists s.index.tables.logCanIds.keys (fun r => (s.rowAt r).canId.toNat) s.header.writeCount :=
    lists_map_ofNat typed.ids
  constructor
  · intro exact
    obtain ⟨ids', t, answer, -, exactIds, -⟩ := exact.canIds
    obtain ⟨channels', u, answer', -, exactChannels, -⟩ := exact.channels
    rw [ids] at answer
    rw [channels] at answer'
    cases answer
    cases answer'
    exact ⟨listed.mp exactIds, exactChannels⟩
  · intro h
    refine ⟨⟨_, s, ids, map_ofNat_sorted typed.ids (Table.keys_sorted _), listed.mpr h.ids, ?_⟩,
      ⟨_, s, channels, Table.keys_sorted _, h.channels, ?_⟩⟩
    · exact partitioned_of_exact LogRecord.canId hs hm (fun _ => rfl) forCanId_admits
        (fun v _ c hc => by cases hc) (listed.mpr h.ids)
    · refine partitioned_of_exact LogRecord.channelKey hs hm (fun _ => rfl) forChannel_admits
        (fun v hv c hc => ?_) h.channels
      rw [List.mem_singleton.mp hc]
      exact typed.channels v hv

end Exact

theorem opened_listed :
    (Image.opened MmapHeader.zero (fun _ => ParsedEntry.zero) IndexTables.empty).Listed := by
  have count : MmapHeader.zero.opened.writeCount = 0 := opened_writeCount _
  have none (P : Nat → Prop) : ¬ ∃ r < MmapHeader.zero.opened.writeCount, P r := by
    intro h
    obtain ⟨r, hr, -⟩ := h
    omega
  exact ⟨fun k => iff_of_false (List.not_mem_nil) (none _), fun c =>
    iff_of_false (List.not_mem_nil) (none _)⟩

theorem Reached.listed {s : Session} (hs : Reached keepsValues s) : s.image.Mirrored ∧
    s.image.Listed := by
  refine (hs.image_induction (fun g => g.Mirrored ∧ g.Listed) ⟨opened_mirrored, opened_listed⟩ ?_).2
  intro s c sound h keeps accepts
  cases c with
  | writeEntries entries =>
    exact ⟨appendAll_mirrored h.1 sound.idle entries, appendAll_listed entries h.1 sound.idle h.2⟩
  | updateEntry row record =>
    exact ⟨edit_mirrored sound.linked h.1 record accepts.1,
      (edit_listed_iff sound.linked h.2 record accepts.1).mpr keeps⟩

/-- As long as no update makes a value come or go the lists are exact, and an update that does
makes them wrong. -/
theorem metadataExact_of_keepsValues {s : Session} (hs : Reached keepsValues s) :
    s.MetadataExact ∧ ∀ row record t, exec (.updateEntry row record) s = (.ok (), t) →
      (t.MetadataExact ↔ keepsValues s (.updateEntry row record)) := by
  obtain ⟨mirrored, listed⟩ := hs.listed
  have sound := hs.sound
  refine ⟨(metadataExact_iff sound mirrored listed.typed).mpr listed, fun row record t ht => ?_⟩
  obtain ⟨accepts, sound', image⟩ := exec_ok sound ht
  have mirrored' : t.image.Mirrored := image ▸ edit_mirrored sound.linked mirrored record accepts.1
  have tables : t.index.tables = (s.image.edit row record).index.tables :=
    congrArg (fun g : Image => g.index.tables) image
  have typed : t.index.tables.Typed := by
    have same : t.index.tables =
      s.index.tables.updateRow row (s.image.recompute row record).indexRow := by
      rw [tables, edit_eq_put sound.linked accepts.1]
      exact tables_write _ _
    rw [same]
    exact ⟨listed.typed.ids, listed.typed.channels⟩
  rw [metadataExact_iff sound' mirrored' typed, image]
  exact edit_listed_iff sound.linked listed record accepts.1

theorem metadataExact_of_keepsValues_sample :
    let s := (storeSession [.writeEntries [sampleRecord, sampleRecord]] Session.fresh).2
    s.MetadataExact ∧ ∀ row record t, exec (.updateEntry row record) s = (.ok (), t) →
      (t.MetadataExact ↔ keepsValues s (.updateEntry row record)) :=
  metadataExact_of_keepsValues
    (.returns (c := .writeEntries [sampleRecord, sampleRecord]) (.start rfl) trivial rfl)

/-- One message gets another id: the list keeps the id that is gone and lacks the new one. -/
theorem update_leaves_ids_stale : ¬ ∀ s, Reached (fun _ _ => True) s → s.MetadataExact := by
  intro exact
  let s := (storeSession [.writeEntries [sampleRecord], .updateEntry 0 { sampleRecord with canId := 7 }]
    Session.fresh).2
  have reached : Reached (fun _ _ => True) s :=
    @Reached.of_session [.writeEntries [sampleRecord],
      .updateEntry 0 { sampleRecord with canId := 7 }] _ rfl
  obtain ⟨ids, t, answer, -, listed, -⟩ := (exact s reached).canIds
  have stale : (getMetadata .canIds s).1 = .ok (.canIds [5]) := by decide +kernel
  rw [answer] at stale
  cases stale
  have new := (listed 7).mpr ⟨0, by decide +kernel, by decide +kernel⟩
  simp at new

end FsCore
