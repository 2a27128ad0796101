import FsCore.SessionRuns

namespace FsCore

/-- What a C string normalizes to. -/
def IsChannelKey (c : Text) : Prop := ∃ raw : Text, nul ∉ raw ∧ normalizeChannelKey raw = c

/-- A stored row satisfies a query. -/
def LogQuery.Admits (q : LogQuery) (e : ParsedEntry) : Prop :=
  (q.canIds ≠ [] → e.canId ∈ q.canIds) ∧
  (q.directions ≠ [] → e.direction ∈ q.directions) ∧
  (q.channels ≠ [] → normalizeChannelKey e.channelText ∈ q.channels) ∧
  (q.changedOnly = true → e.changed ≠ 0) ∧
  (q.hasTimeRange = true → q.firstTs.le e.timestamp = true ∧ e.timestamp.le q.lastTs = true)

instance (q : LogQuery) (e : ParsedEntry) : Decidable (q.Admits e) :=
  inferInstanceAs (Decidable (_ ∧ _ ∧ _ ∧ _ ∧ _))

/-- A row of the index satisfies a query; a channel is compared with what is bound of it. -/
def LogQuery.Selects (q : LogQuery) (r : IndexRow) : Prop :=
  (q.canIds ≠ [] → ∃ id ∈ q.canIds, id.toNat = r.canId) ∧
  (q.directions ≠ [] → ∃ d ∈ q.directions, d.toNat = r.direction) ∧
  (q.channels ≠ [] → ∃ c ∈ q.channels, c.takeWhile (· ≠ nul) = r.channel) ∧
  (q.changedOnly = true → r.changed = 1) ∧
  (q.hasTimeRange = true → q.firstTs.le r.timestamp = true ∧ r.timestamp.le q.lastTs = true)

instance (q : LogQuery) (r : IndexRow) : Decidable (q.Selects r) :=
  inferInstanceAs (Decidable (_ ∧ _ ∧ _ ∧ _ ∧ _))

/-- The plain filter of the store. -/
def Session.matching (s : Session) (q : LogQuery) : List Nat :=
  (List.range s.header.writeCount).filter (fun i => q.Admits (s.rowAt i))

theorem toLower_ne_nul {c : Char} (h : c ≠ nul) : c.toLower ≠ nul := by
  unfold Char.toLower
  split
  next upper =>
    intro eq
    have low := UInt32.le_iff_toNat_le.mp upper.1
    have high := UInt32.le_iff_toNat_le.mp upper.2
    have zero := congrArg (fun c : Char => c.val.toNat) eq
    simp [nul] at low high zero
    omega
  next => exact h

theorem normalizeChannelKey_nul_free {raw : Text} (h : nul ∉ raw) : nul ∉ normalizeChannelKey raw := by
  unfold normalizeChannelKey
  split
  next => decide
  next =>
    dsimp only
    split
    next => decide
    next =>
      intro hm
      obtain ⟨c, hc, eq⟩ := List.mem_map.mp hm
      have inRaw : c ∈ raw :=
        (List.rdropWhile_prefix _ _).subset (List.dropWhile_sublist _ |>.subset hc)
      exact toLower_ne_nul (fun eq => h (eq ▸ inRaw)) eq

/-- The index holds keys. -/
theorem channelText_isChannelKey (r : LogRecord) :
    IsChannelKey (normalizeChannelKey r.channelText) := by
  refine ⟨r.channelText, fun hm => ?_, rfl⟩
  simpa using List.mem_takeWhile_imp hm

theorem takeWhile_key {c : Text} (h : IsChannelKey c) : c.takeWhile (· ≠ nul) = c := by
  obtain ⟨raw, hraw, rfl⟩ := h
  apply List.takeWhile_eq_self_iff.mpr
  intro x hx
  have : x ≠ nul := fun eq => normalizeChannelKey_nul_free hraw (eq ▸ hx)
  simpa using this

theorem whereHolds_appendIn {row : IndexRow} {column : IndexRow → SqlValue} {own : List SqlValue}
    {cs : List (Conjunct IndexRow)} {rest : List SqlValue} {n : Nat} (h : own.length = n) :
    whereHolds row (appendIn column n ++ cs) (own ++ rest) = true ↔
      (own ≠ [] → ∃ p ∈ own, (column row).eq p = true) ∧ whereHolds row cs rest = true := by
  subst h
  cases own with
  | nil => simp [appendIn]
  | cons p ps =>
    have : appendIn column (p :: ps).length = [.among column (p :: ps).length] := by simp [appendIn]
    rw [this, List.singleton_append, whereHolds_cons row cs rest rfl]
    simp [Conjunct.holds]

/-- Values that are bound select the members of the list. -/
theorem among_selects {α : Type} (vals : List α) (f : α → SqlValue) (x : SqlValue) (P : α → Prop)
    (same : ∀ y, x.eq (f y) = true ↔ P y) :
    (vals.map f ≠ [] → ∃ p ∈ vals.map f, x.eq p = true) ↔ (vals ≠ [] → ∃ y ∈ vals, P y) := by
  have member : (∃ p ∈ vals.map f, x.eq p = true) ↔ ∃ y ∈ vals, P y := by
    constructor
    · intro h
      obtain ⟨p, hp, eq⟩ := h
      obtain ⟨y, hy, rfl⟩ := List.mem_map.mp hp
      exact ⟨y, hy, (same y).mp eq⟩
    · intro h
      obtain ⟨y, hy, hP⟩ := h
      exact ⟨f y, List.mem_map_of_mem hy, (same y).mpr hP⟩
  rw [member, Ne, List.map_eq_nil_iff]

theorem ofDouble_between (low high x : Binary64) :
    ((SqlValue.ofDouble low).le (.real x) && (SqlValue.real x).le (.ofDouble high)) = true ↔
      low.le x = true ∧ x.le high = true := by
  have below : (SqlValue.ofDouble low).le (.real x) = low.le x := by
    cases h : low.isNaN <;> simp [SqlValue.ofDouble, SqlValue.le, Binary64.le, h]
  have above : (SqlValue.real x).le (.ofDouble high) = x.le high := by
    cases h : high.isNaN <;> simp [SqlValue.ofDouble, SqlValue.le, Binary64.le, h]
  rw [below, above, Bool.and_eq_true]

/-- The conjuncts without a list of values. -/
theorem whereHolds_flags {q : LogQuery} {row : IndexRow} :
    whereHolds row
        ((if q.changedOnly then [.equals (fun r => .integer r.changed) (.integer 1)] else []) ++
          (if q.hasTimeRange then [.between (fun r => .real r.timestamp)] else []))
        (if q.hasTimeRange then [.ofDouble q.firstTs, .ofDouble q.lastTs] else []) = true ↔
      (q.changedOnly = true → row.changed = 1) ∧
      (q.hasTimeRange = true → q.firstTs.le row.timestamp = true ∧
        row.timestamp.le q.lastTs = true) := by
  have between := ofDouble_between q.firstTs q.lastTs row.timestamp
  by_cases hc : q.changedOnly = true <;> by_cases ht : q.hasTimeRange = true <;>
    simp [hc, ht, whereHolds, Conjunct.arity, Conjunct.holds, SqlValue.eq, ← between]

theorem whereHolds_iff_selects (q : LogQuery) (r : IndexRow) :
    whereHolds r q.conjuncts q.bindings = true ↔ q.Selects r := by
  have ids := among_selects q.canIds (fun id => .integer id.toNat) (.integer r.canId)
    (fun id => id.toNat = r.canId)
    (fun y => by simpa [SqlValue.eq] using eq_comm)
  have directions := among_selects q.directions (fun d => .integer d.toNat) (.integer r.direction)
    (fun d => d.toNat = r.direction) (fun y => by simpa [SqlValue.eq] using eq_comm)
  have channels := among_selects q.channels (fun c => .text (c.takeWhile (· ≠ nul))) (.text r.channel)
    (fun c => c.takeWhile (· ≠ nul) = r.channel) (fun y => by simpa [SqlValue.eq] using eq_comm)
  rw [LogQuery.conjuncts, LogQuery.bindings, whereHolds_appendIn (by simp),
    whereHolds_appendIn (by simp),
    whereHolds_appendIn (by simp), whereHolds_flags, ids, directions, channels, LogQuery.Selects]

/-- On the row of a stored frame the conditions are those of the store. -/
theorem selects_indexRow {q : LogQuery} (keys : ∀ c ∈ q.channels, IsChannelKey c) {e : ParsedEntry}
    (bit : e.changed = 0 ∨ e.changed = 1) : q.Selects e.indexRow ↔ q.Admits e := by
  have ids : (∃ id ∈ q.canIds, id.toNat = e.canId.toNat) ↔ e.canId ∈ q.canIds := by
    simp [UInt32.toNat_inj]
  have directions : (∃ d ∈ q.directions, d.toNat = e.direction.toNat) ↔ e.direction ∈ q.directions := by
    simp [UInt8.toNat_inj]
  have channels : (∃ c ∈ q.channels, c.takeWhile (· ≠ nul) = normalizeChannelKey e.channelText) ↔
      normalizeChannelKey e.channelText ∈ q.channels := by
    constructor
    · intro h
      obtain ⟨c, hc, eq⟩ := h
      rw [takeWhile_key (keys c hc)] at eq
      exact eq ▸ hc
    · exact fun hc => ⟨_, hc, takeWhile_key (keys _ hc)⟩
  have flag : e.changed.toNat = 1 ↔ e.changed ≠ 0 := by
    rcases bit with h | h <;> simp [h]
  rw [LogQuery.Selects, LogQuery.Admits]
  simp only [ParsedEntry.indexRow]
  rw [ids, directions, channels, flag]

/-- The generated SQL with its bindings is the filter, whatever the lists hold. -/
theorem whereHolds_query_iff {q : LogQuery} (keys : ∀ c ∈ q.channels, IsChannelKey c)
    {e : ParsedEntry} (bit : e.changed = 0 ∨ e.changed = 1) :
    whereHolds e.indexRow q.conjuncts q.bindings = true ↔ q.Admits e :=
  (whereHolds_iff_selects q e.indexRow).trans (selects_indexRow keys bit)

/-- Reads a list of rows through the view. -/
def viewRows : List Nat → StoreM (List ParsedEntry)
  | [] => pure []
  | i :: is => do
    let entry ← viewAt i
    let rest ← viewRows is
    pure (entry :: rest)

/-- A view answers as a list of row numbers when it has its length and finds its rows. -/
structure ViewBrowser.Shows (v : ViewBrowser) (rows : List Nat) : Prop where
  size : v.rowCount = rows.length
  full : v.fullView = true → rows = List.range v.rowCount
  picked : v.fullView = false → v.rows = rows

theorem viewAt_returns {s : Session} {rows : List Nat} (hc : s.Calm) (hs : s.Stored)
    (view : s.browser.Shows rows) (counted : ∀ r ∈ rows, r < s.header.writeCount) {i : Nat}
    (hi : i < rows.length) :
    ∃ t, viewAt i s = (.ok (s.rowAt (rows.getD i 0)), t) ∧ t.Calm ∧ Quiet s t := by
  have get : rows.getD i 0 = rows[i] := by simp [List.getD_eq_getElem?_getD, hi]
  have bound : rows.getD i 0 < s.header.writeCount := by
    rw [get]
    exact counted _ (List.getElem_mem hi)
  obtain ⟨e, t, hr, hcalm⟩ := readAt_returns hc (hs _ bound)
  obtain ⟨quiet, rfl⟩ := readAt_ok hr
  refine ⟨t, ?_, hcalm, quiet⟩
  simp only [viewAt, Effect.read_bind]
  rw [if_neg (by rw [view.size]; omega)]
  by_cases full : s.browser.fullView = true
  · have own : rows.getD i 0 = i := by
      have hi' : i < s.browser.rowCount := view.size ▸ hi
      rw [view.full full, List.getD_eq_getElem?_getD, List.getElem?_range hi', Option.getD_some]
    rw [if_pos full]
    rwa [own] at hr ⊢
  · rw [if_neg full, view.picked (by simpa using full)]
    exact hr

theorem viewRows_returns {s : Session} {rows : List Nat} (hc : s.Calm) (hs : s.Stored)
    (view : s.browser.Shows rows) (counted : ∀ r ∈ rows, r < s.header.writeCount) {is : List Nat}
    (his : ∀ i ∈ is, i < rows.length) :
    ∃ t, viewRows is s = (.ok (is.map (fun i => s.rowAt (rows.getD i 0))), t) := by
  induction is generalizing s with
  | nil => exact ⟨s, rfl⟩
  | cons i is ih =>
    obtain ⟨mid, hi, hcalm, quiet⟩ := viewAt_returns hc hs view counted (his i (by simp))
    have hheader : mid.header = s.header := congrArg Image.header quiet.image
    have hrow : mid.rowAt = s.rowAt := congrArg Image.row quiet.image
    have hview : mid.browser = s.browser := congrArg Image.browser quiet.image
    obtain ⟨t, hrest⟩ := ih hcalm (fun r hr => quiet.keeps _ (hs r (by rwa [hheader] at hr)))
      (by rwa [hview]) (by rwa [hheader]) (fun j hj => his j (by simp [hj]))
    refine ⟨t, ?_⟩
    rw [viewRows, Effect.bind_of_ok hi, Effect.bind_of_ok hrest, hrow]
    rfl

theorem matching_of_empty {s : Session} {q : LogQuery} (h : q.empty = true) :
    s.matching q = List.range s.header.writeCount := by
  have all (e : ParsedEntry) : q.Admits e := by
    simp only [LogQuery.empty, Bool.and_eq_true, List.isEmpty_iff, Bool.not_eq_true'] at h
    obtain ⟨⟨⟨⟨ids, channels⟩, directions⟩, changed⟩, range⟩ := h
    simp [LogQuery.Admits, ids, channels, directions, changed, range]
  simp [Session.matching, all]

theorem matching_counted {s : Session} {q : LogQuery} :
    ∀ r ∈ s.matching q, r < s.header.writeCount := by
  intro r hr
  exact List.mem_range.mp (List.mem_filter.mp hr).1

/-- What a query relies on: nothing fails any more, and the index has the row of every counted row. -/
structure Session.Browsable (s : Session) : Prop where
  calm : s.Calm
  stored : s.Stored
  bounded : s.header.writeCount < 2 ^ 31
  bit : ∀ i, i < s.header.writeCount → (s.rowAt i).changed = 0 ∨ (s.rowAt i).changed = 1
  index : s.index.tables.logIndex = Table.ofRange s.header.writeCount (fun i => (s.rowAt i).indexRow)

theorem Session.Sound.browsable {s : Session} (hs : s.Sound) (hm : s.image.Mirrored) : s.Browsable :=
  ⟨hs.calm, hs.stored, hs.linked.bounded, hm.bit, hm.index⟩

/-- A view over a session: the session itself does not change. -/
theorem browseRows_returns {s : Session} {q : LogQuery} (hs : s.Browsable)
    (keys : ∀ c ∈ q.channels, IsChannelKey c) :
    browseRows q s = (.ok ⟨s.matching q, (s.matching q).length, false⟩,
      { s with browser := ⟨s.matching q, (s.matching q).length, false⟩ }) := by
  have rows : (s.index.tables.logIndex.select
      (fun _ r => whereHolds r q.conjuncts q.bindings)).map Prod.fst = s.matching q := by
    rw [hs.index, Table.select_ofRange, Session.matching]
    apply List.filter_congr
    intro i hi
    have bit := hs.bit i (List.mem_range.mp hi)
    rw [Bool.eq_iff_iff, whereHolds_query_iff keys bit, decide_eq_true_iff]
  have query : queryRowIndices q s = (.ok (s.matching q), s) := by
    rw [queryRowIndices, Effect.bind_of_ok (call_calm _ hs.calm.noFault),
      Effect.bind_of_ok (call_calm _ hs.calm.noFault), Effect.read_bind, rows]
    rfl
  rw [browseRows, Effect.bind_of_ok query]
  rfl

theorem rowCount_returns {s : Session} (hc : s.Calm) :
    rowCount s = (.ok (s.index.tables.logIndex.count % 2 ^ 32), s) := by
  rw [rowCount, Effect.bind_of_ok (call_calm _ hc.noFault), Effect.bind_of_ok (call_calm _ hc.noFault)]
  rfl

theorem browseAll_returns {s : Session} (hs : s.Browsable) :
    browseAll s = (.ok ⟨[], s.header.writeCount, true⟩,
      { s with browser := ⟨[], s.header.writeCount, true⟩ }) := by
  have count : rowCount s = (.ok s.header.writeCount, s) := by
    have bounded := hs.bounded
    rw [rowCount_returns hs.calm, hs.index, Table.count_ofRange, Nat.mod_eq_of_lt (by omega)]
  rw [browseAll, Effect.bind_of_ok count]
  rfl

theorem browse_of_browsable {s : Session} (hs : s.Browsable) {q : LogQuery}
    (keys : ∀ c ∈ q.channels, IsChannelKey c) {run : StoreM ViewBrowser}
    (path : run = browse q ∨ run = browseRows q) :
    ∃ view t, run s = (.ok view, t) ∧ view.rowCount = (s.matching q).length ∧
      ∀ is : List Nat, (∀ i ∈ is, i < view.rowCount) →
        ∃ u, viewRows is t = (.ok (is.map (fun i => s.rowAt ((s.matching q).getD i 0))), u) := by
  have reads (view : ViewBrowser) (shows : view.Shows (s.matching q)) (is : List Nat)
      (his : ∀ i ∈ is, i < view.rowCount) : ∃ u, viewRows is { s with browser := view } =
        (.ok (is.map (fun i => s.rowAt ((s.matching q).getD i 0))), u) :=
    viewRows_returns (s := { s with browser := view })
      ⟨hs.calm.noFault, hs.calm.headerWhole, hs.calm.whole⟩ hs.stored shows matching_counted
      (fun i hi => by rw [← shows.size]; exact his i hi)
  have picked := browseRows_returns hs keys
  have rowsShown : (ViewBrowser.mk (s.matching q) (s.matching q).length false).Shows (s.matching q) :=
    ⟨rfl, fun h => Bool.noConfusion h, fun _ => rfl⟩
  rcases path with rfl | rfl
  · unfold browse
    split
    next empty =>
      have all := matching_of_empty (s := s) empty
      have shown : (ViewBrowser.mk [] s.header.writeCount true).Shows (s.matching q) := by
        rw [all]
        exact ⟨by simp, fun _ => rfl, fun h => Bool.noConfusion h⟩
      exact ⟨_, _, browseAll_returns hs, shown.size, reads _ shown⟩
    next => exact ⟨_, _, picked, rfl, reads _ rowsShown⟩
  · exact ⟨_, _, picked, rfl, reads _ rowsShown⟩

/-- Both paths of browse show the plain filter of the store. -/
theorem browse_shows_matching {s : Session} (hs : Reached (fun _ _ => True) s) {q : LogQuery}
    (keys : ∀ c ∈ q.channels, IsChannelKey c) {run : StoreM ViewBrowser}
    (path : run = browse q ∨ run = browseRows q) :
    ∃ view t, run s = (.ok view, t) ∧ view.rowCount = (s.matching q).length ∧
      ∀ is : List Nat, (∀ i ∈ is, i < view.rowCount) →
        ∃ u, viewRows is t = (.ok (is.map (fun i => s.rowAt ((s.matching q).getD i 0))), u) :=
  browse_of_browsable (hs.sound.browsable hs.mirrored) keys path

theorem browse_shows_matching_sample :
    let s := (storeSession [.writeEntries [sampleRecord, sampleRecord]] Session.fresh).2
    let q : LogQuery := ⟨[5], ["unknown".toList], [], false, false, .zero, .zero⟩
    ∃ view t, browse q s = (.ok view, t) ∧ view.rowCount = (s.matching q).length ∧
      ∀ is : List Nat, (∀ i ∈ is, i < view.rowCount) →
        ∃ u, viewRows is t = (.ok (is.map (fun i => s.rowAt ((s.matching q).getD i 0))), u) := by
  intro s q
  have keys : ∀ c ∈ q.channels, IsChannelKey c := by
    intro c hc
    rw [List.mem_singleton.mp hc]
    exact channelText_isChannelKey sampleRecord
  have run : storeSession [.writeEntries [sampleRecord, sampleRecord]] Session.fresh =
    (.ok (), s) := rfl
  exact browse_shows_matching (Reached.of_session run) keys (Or.inl rfl)

end FsCore
