import FsCore.SessionRuns

namespace FsCore

/-- What the outside sees of a store: its rows, their number and the index. -/
structure Image.Shows (g h : Image) : Prop where
  count : g.header.writeCount = h.header.writeCount
  rows : ∀ r, r < h.header.writeCount → g.row r = h.row r
  index : g.index.tables.logIndex = h.index.tables.logIndex

def StoreCall.records : StoreCall → List LogRecord
  | .writeEntries entries => entries
  | .updateEntry _ _ => []

/-- The records that some calls append. -/
def written (calls : List StoreCall) : List LogRecord := calls.flatMap StoreCall.records

/-- A new session can go on as the old one would have. It counts up from `next` while
it rewrites the rows of the old one; by its first record it must have come past all `rows`
of them, and no id in `ids` may come again. -/
def Resumable (rows : Nat) (ids : List UInt32) (next : Nat) : List StoreCall → Prop
  | [] => True
  | .updateEntry row _ :: calls =>
    row ≤ next ∧ Resumable rows ids (if row = next then next + 1 else next) calls
  | .writeEntries [] :: calls => Resumable rows ids next calls
  | .writeEntries (record :: rest) :: calls =>
    next = rows ∧ ∀ e ∈ written (.writeEntries (record :: rest) :: calls), e.canId ∉ ids

/-- What every call that is accepted keeps of an image. -/
structure Image.Regular (g : Image) : Prop where
  linked : g.Linked
  idle : g.index.transaction = none

theorem begin_linked {g : Image} (hl : g.Linked) : g.begin.Linked :=
  ⟨hl.counted, hl.bounded, hl.tracked, hl.backward, hl.ended⟩

theorem after_regular {g : Image} {c : StoreCall} (h : g.Regular) (accepts : g.Accepts c) :
    (g.after c).Regular := by
  cases c with
  | writeEntries entries =>
    have looped := foldl_append_linked entries (begin_linked h.linked) accepts.1
    exact ⟨⟨looped.counted, looped.bounded, looped.tracked, looped.backward, looped.ended⟩, rfl⟩
  | updateEntry row record =>
    refine ⟨edit_linked h.linked accepts.1 record, ?_⟩
    rw [Image.after, edit_eq_put h.linked accepts.1]
    exact (write_transaction_none _ _).mpr h.idle

theorem after_whole {g : Image} {c : StoreCall} (h : g.Regular) (accepts : g.Accepts c)
    (whole : g.nextIndex = g.header.writeCount) :
    (g.after c).nextIndex = (g.after c).header.writeCount := by
  cases c with
  | writeEntries entries => exact foldl_append_whole (g := g.begin) (Or.inr whole)
  | updateEntry row record =>
    have counted := accepts.1
    rw [Image.after, edit_nextIndex h.linked counted, edit_header h.linked counted, if_neg (by omega)]
    exact whole

/-- A session that has caught up counts every record from then on. -/
theorem final_count {calls : List StoreCall} {g : Image} (h : g.Regular)
    (whole : g.nextIndex = g.header.writeCount) (accepts : g.AcceptsAll calls) :
    (calls.foldl Image.after g).header.writeCount = g.nextIndex + (written calls).length := by
  induction calls generalizing g with
  | nil => simp [written, whole]
  | cons c cs ih =>
    have step : (g.after c).nextIndex = g.nextIndex + c.records.length := by
      cases c with
      | writeEntries entries => exact appendAll_nextIndex g entries
      | updateEntry row record =>
        have counted := accepts.1.1
        rw [Image.after, edit_nextIndex h.linked counted, if_neg (by omega)]
        rfl
    rw [List.foldl_cons, ih (after_regular h accepts.1) (after_whole h accepts.1 whole) accepts.2, step]
    simp only [written, List.flatMap_cons, List.length_append]
    omega

theorem after_prev {g : Image} {c : StoreCall} (h : g.Regular) (accepts : g.Accepts c) {r : Nat}
    (hr : r < g.nextIndex) : ((g.after c).row r).prevSameCan = (g.row r).prevSameCan := by
  cases c with
  | writeEntries entries =>
    exact congrArg ParsedEntry.prevSameCan (foldl_append_row entries (g := g.begin) hr)
  | updateEntry row record =>
    rw [Image.after, edit_row h.linked accepts.1, Function.update_apply]
    split
    next eq => rw [eq]; rfl
    next => rfl

theorem after_next_le {g : Image} {c : StoreCall} (h : g.Regular) (accepts : g.Accepts c) :
    g.nextIndex ≤ (g.after c).nextIndex := by
  cases c with
  | writeEntries entries =>
    rw [Image.after, appendAll_nextIndex]
    omega
  | updateEntry row record =>
    rw [Image.after, edit_nextIndex h.linked accepts.1]
    split <;> omega

theorem final_prev {calls : List StoreCall} {g : Image} (h : g.Regular) (accepts : g.AcceptsAll calls)
    {r : Nat} (hr : r < g.nextIndex) :
    ((calls.foldl Image.after g).row r).prevSameCan = (g.row r).prevSameCan := by
  induction calls generalizing g with
  | nil => rfl
  | cons c cs ih =>
    rw [List.foldl_cons, ih (after_regular h accepts.1) accepts.2
      (lt_of_lt_of_le hr (after_next_le h accepts.1)), after_prev h accepts.1 hr]

/-- The new session against the old one, once it has caught up: it has forgotten
the ids of the rows that it did not write. -/
structure Resumed (ids : List UInt32) (g h : Image) : Prop where
  count : h.header.writeCount = g.header.writeCount
  row : h.row = g.row
  next : h.nextIndex = g.nextIndex
  index : h.index = g.index
  forgotten : ∀ id, id ∈ ids → h.lastRow id = none ∧ g.lastRow id ≠ none
  kept : ∀ id, id ∉ ids → h.lastRow id = g.lastRow id

theorem Resumed.shows {ids : List UInt32} {g h : Image} (hr : Resumed ids g h) : h.Shows g :=
  ⟨hr.count, fun r _ => congrFun hr.row r, by rw [hr.index]⟩

theorem Resumed.accepts {ids : List UInt32} {g h : Image} (hr : Resumed ids g h) {c : StoreCall}
    (accepts : g.Accepts c) : h.Accepts c := by
  cases c with
  | writeEntries entries => exact ⟨hr.next ▸ accepts.1, accepts.2⟩
  | updateEntry row record =>
    exact ⟨hr.count ▸ accepts.1, hr.next ▸ accepts.2.1, hr.index ▸ accepts.2.2⟩

theorem Resumed.edit {ids : List UInt32} {g h : Image} (hr : Resumed ids g h) (hg : g.Regular)
    (hh : h.Regular) {row : Nat} (counted : row < g.header.writeCount) (record : LogRecord) :
    Resumed ids (g.edit row record) (h.edit row record) := by
  have counted' : row < h.header.writeCount := hr.count ▸ counted
  have entry : h.recompute row record = g.recompute row record := by
    simp only [Image.recompute, hr.row]
  rw [edit_eq_put hg.linked counted, edit_eq_put hh.linked counted', entry]
  refine ⟨hr.count, ?_, ?_, ?_, hr.forgotten, hr.kept⟩
  · simp only [Image.put, hr.row]
  · simp only [Image.put, hr.next]
  · simp only [Image.put, hr.index]

theorem Resumed.append {ids : List UInt32} {g h : Image} (hr : Resumed ids g h) {record : LogRecord}
    (new : record.canId ∉ ids) : Resumed ids (g.append record) (h.append record) := by
  have entry : h.entryFor record = g.entryFor record := by
    simp only [Image.entryFor, hr.row, hr.kept _ new]
  refine ⟨?_, ?_, ?_, ?_, ?_, ?_⟩
  · simp only [Image.append, Image.store, hr.next]
  · simp only [Image.append, Image.store, hr.row, hr.next, entry]
  · simp only [Image.append, Image.store, hr.next]
  · simp only [Image.append, hr.index, hr.next, entry]
  · intro id hid
    have ne : id ≠ record.canId := fun eq => new (eq ▸ hid)
    simp only [Image.append, Function.update_of_ne ne]
    exact hr.forgotten id hid
  · intro id hid
    simp only [Image.append, Function.update_apply, hr.next]
    split
    next => rfl
    next => exact hr.kept id hid

/-- A record whose id was forgotten gets another link. -/
theorem append_prev_ne {ids : List UInt32} {g h : Image} (hr : Resumed ids g h) (hl : g.Linked)
    {record : LogRecord} (old : record.canId ∈ ids) :
    ((h.append record).row g.nextIndex).prevSameCan ≠
      ((g.append record).row g.nextIndex).prevSameCan := by
  obtain ⟨none, some⟩ := hr.forgotten _ old
  obtain ⟨p, hp⟩ := Option.ne_none_iff_exists'.mp some
  have hlt := hl.tracked _ p hp
  have := hl.counted
  have := hl.bounded
  have hh : ((h.append record).row g.nextIndex).prevSameCan = kInvalidRow := by
    simp [Image.append, Image.store, ← hr.next, Image.entryFor, parsedEntry, none]
  have hg : ((g.append record).row g.nextIndex).prevSameCan = p := by
    simp [Image.append, Image.store, Image.entryFor, parsedEntry, hp]
  rw [hh, hg]
  rintro eq
  have bound : p.toNat < 2 ^ 31 := by omega
  rw [← eq] at bound
  exact absurd bound (by decide)

theorem Resumed.batch {ids : List UInt32} {entries : List LogRecord} {g h : Image}
    (hr : Resumed ids g h) (new : ∀ e ∈ entries, e.canId ∉ ids) :
    Resumed ids (entries.foldl Image.append g) (entries.foldl Image.append h) := by
  induction entries generalizing g h with
  | nil => exact hr
  | cons record rest ih =>
    exact ih (hr.append (new record (by simp))) (fun e he => new e (by simp [he]))

/-- Rows that end with the same links come from a batch without forgotten ids. -/
theorem Resumed.batch_new {ids : List UInt32} {entries : List LogRecord} {g h : Image}
    (hr : Resumed ids g h) (hl : g.Linked) (small : g.nextIndex + entries.length < 2 ^ 31)
    (same : ∀ r, r < g.nextIndex + entries.length →
      ((entries.foldl Image.append h).row r).prevSameCan =
        ((entries.foldl Image.append g).row r).prevSameCan) : ∀ e ∈ entries, e.canId ∉ ids := by
  induction entries generalizing g h with
  | nil => simp
  | cons record rest ih =>
    rw [List.length_cons] at small same
    have hg := append_nextIndex g record
    have hh : (h.append record).nextIndex = g.nextIndex + 1 := by
      rw [← hr.next]
      rfl
    have new : record.canId ∉ ids := by
      intro old
      apply append_prev_ne hr hl old
      have := same g.nextIndex (by omega)
      rwa [List.foldl_cons, List.foldl_cons, foldl_append_row rest (by omega),
        foldl_append_row rest (by omega)] at this
    have later := ih (hr.append new) (append_linked hl (by omega) record) (by omega)
      (fun r hlt => same r (by omega))
    intro e he
    rcases List.mem_cons.mp he with rfl | he
    · exact new
    · exact later e he

theorem Resumed.begin {ids : List UInt32} {g h : Image} (hr : Resumed ids g h) :
    Resumed ids g.begin h.begin :=
  ⟨hr.count, hr.row, hr.next, by simp only [Image.begin, hr.index], hr.forgotten, hr.kept⟩

theorem Resumed.appendAll {ids : List UInt32} {entries : List LogRecord} {g h : Image}
    (hr : Resumed ids g h) (new : ∀ e ∈ entries, e.canId ∉ ids) :
    Resumed ids (g.appendAll entries) (h.appendAll entries) := by
  have looped := hr.begin.batch new
  exact ⟨looped.count, looped.row,
    looped.next, by simp only [Image.appendAll, Image.commit, looped.index],
    looped.forgotten, looped.kept⟩

/-- Sessions that end with the same rows have written no forgotten id in a batch. -/
theorem Resumed.new_of_shows {ids : List UInt32} {entries : List LogRecord}
    {cs : List StoreCall} {g h : Image} (hr : Resumed ids g h) (hg : g.Regular) (hh : h.Regular)
    (whole : g.nextIndex = g.header.writeCount)
    (gAccepts : g.AcceptsAll (.writeEntries entries :: cs))
    (hAccepts : h.AcceptsAll (.writeEntries entries :: cs))
    (shows : (cs.foldl Image.after (h.appendAll entries)).Shows
      (cs.foldl Image.after (g.appendAll entries))) : ∀ e ∈ entries, e.canId ∉ ids := by
  apply hr.begin.batch_new (begin_linked hg.linked) gAccepts.1.1
  intro r hlt
  have hlt : r < g.nextIndex + entries.length := hlt
  have hgNext : r < (g.appendAll entries).nextIndex := by rwa [appendAll_nextIndex]
  have hhNext : r < (h.appendAll entries).nextIndex := by rwa [appendAll_nextIndex, hr.next]
  have count := final_count (after_regular hg gAccepts.1) (after_whole hg gAccepts.1 whole) gAccepts.2
  have hfinal := final_prev (after_regular hh hAccepts.1) hAccepts.2 hhNext
  have gfinal := final_prev (after_regular hg gAccepts.1) gAccepts.2 hgNext
  have same := shows.rows r (by rw [← Image.after, count]; exact Nat.lt_add_right _ hgNext)
  exact hfinal.symm.trans ((congrArg ParsedEntry.prevSameCan same).trans gfinal)

/-- Having caught up, the sessions stay together as long as no forgotten id comes again. -/
theorem resumed_iff {ids : List UInt32} {calls : List StoreCall} {g h : Image} (hr : Resumed ids g h)
    (hg : g.Regular) (hh : h.Regular) (whole : g.nextIndex = g.header.writeCount)
    (accepts : g.AcceptsAll calls) :
    (h.AcceptsAll calls ∧ (calls.foldl Image.after h).Shows (calls.foldl Image.after g)) ↔
      ∀ e ∈ written calls, e.canId ∉ ids := by
  induction calls generalizing g h with
  | nil => exact iff_of_true ⟨trivial, hr.shows⟩ (by simp [written])
  | cons c cs ih =>
    have first := hr.accepts accepts.1
    have wholeAfter := after_whole hg accepts.1 whole
    have later {g' h' : Image} (eqg : g' = g.after c) (eqh : h' = h.after c) (hr' : Resumed ids g' h') :
        (h.AcceptsAll (c :: cs) ∧ (cs.foldl Image.after h').Shows (cs.foldl Image.after g')) ↔
          ∀ e ∈ written cs, e.canId ∉ ids := by
      subst eqg eqh
      rw [← ih hr' (after_regular hg accepts.1) (after_regular hh first) wholeAfter accepts.2]
      exact ⟨fun both => ⟨both.1.2, both.2⟩, fun both => ⟨⟨first, both.1⟩, both.2⟩⟩
    cases c with
    | updateEntry row record => exact later rfl rfl (hr.edit hg hh accepts.1.1 record)
    | writeEntries entries =>
      have split : (∀ e ∈ written (.writeEntries entries :: cs), e.canId ∉ ids) ↔
          (∀ e ∈ entries, e.canId ∉ ids) ∧ ∀ e ∈ written cs, e.canId ∉ ids := by
        simp only [written, List.flatMap_cons, StoreCall.records, List.mem_append]
        exact ⟨fun h => ⟨fun e he => h e (Or.inl he), fun e he => h e (Or.inr he)⟩,
          fun h e he => he.elim (h.1 e) (h.2 e)⟩
      rw [split]
      constructor
      · intro h
        obtain ⟨hAccepts, shows⟩ := h
        have new := hr.new_of_shows hg hh whole accepts hAccepts shows
        exact ⟨new, (later rfl rfl (hr.appendAll new)).mp ⟨hAccepts, shows⟩⟩
      · intro h
        obtain ⟨new, rest⟩ := h
        exact (later rfl rfl (hr.appendAll new)).mpr rest

/-- The new session before its first record: it sees the store of the old one and
remembers none of it. -/
structure Rewriting (ids : List UInt32) (g h : Image) : Prop where
  count : h.header.writeCount = g.header.writeCount
  row : h.row = g.row
  index : h.index = g.index
  forgotten : ∀ id, h.lastRow id = none
  seen : ∀ id, id ∈ ids ↔ g.lastRow id ≠ none

theorem Rewriting.resumed {ids : List UInt32} {g h : Image} (hw : Rewriting ids g h)
    (caught : h.nextIndex = g.nextIndex) : Resumed ids g h := by
  refine ⟨hw.count, hw.row, caught, hw.index, fun id hid => ⟨hw.forgotten id, (hw.seen id).mp hid⟩, ?_⟩
  intro id hid
  have : g.lastRow id = none := by simpa [hid] using hw.seen id
  rw [hw.forgotten, this]

theorem Rewriting.edit {ids : List UInt32} {g h : Image} (hw : Rewriting ids g h) (hg : g.Regular)
    (hh : h.Regular) {row : Nat} (counted : row < g.header.writeCount) (record : LogRecord) :
    Rewriting ids (g.edit row record) (h.edit row record) := by
  have counted' : row < h.header.writeCount := hw.count ▸ counted
  have entry : h.recompute row record = g.recompute row record := by
    simp only [Image.recompute, hw.row]
  rw [edit_eq_put hg.linked counted, edit_eq_put hh.linked counted', entry]
  exact ⟨hw.count, by simp only [Image.put, hw.row], by simp only [Image.put, hw.index],
    hw.forgotten, hw.seen⟩

theorem appendAll_nil {g : Image} (idle : g.index.transaction = none) : g.appendAll [] = g := by
  obtain ⟨header, row, next, last, ⟨committed, transaction⟩, browser⟩ := g
  have : transaction = none := idle
  subst this
  rfl

/-- Sessions that end with the same count wrote their first record to the same row. -/
theorem caught_of_shows {entries : List LogRecord} (some' : entries ≠ [])
    {cs : List StoreCall} {g h : Image} (hg : g.Regular) (hh : h.Regular)
    (whole : g.nextIndex = g.header.writeCount)
    (gAccepts : g.AcceptsAll (.writeEntries entries :: cs))
    (hAccepts : h.AcceptsAll (.writeEntries entries :: cs))
    (shows : (cs.foldl Image.after (h.appendAll entries)).Shows
      (cs.foldl Image.after (g.appendAll entries))) : h.nextIndex = g.nextIndex := by
  have hWhole : (h.appendAll entries).nextIndex = (h.appendAll entries).header.writeCount :=
    foldl_append_whole (g := h.begin) (Or.inl some')
  have hCount := final_count (after_regular hh hAccepts.1) hWhole hAccepts.2
  have gCount := final_count (after_regular hg gAccepts.1) (after_whole hg gAccepts.1 whole) gAccepts.2
  have same := shows.count
  rw [← Image.after, ← Image.after, hCount, gCount, Image.after, Image.after, appendAll_nextIndex,
    appendAll_nextIndex] at same
  omega

theorem rewriting_iff {ids : List UInt32} {calls : List StoreCall} {g h : Image}
    (hw : Rewriting ids g h) (hg : g.Regular) (hh : h.Regular)
    (whole : g.nextIndex = g.header.writeCount) (accepts : g.AcceptsAll calls) :
    (h.AcceptsAll calls ∧ (calls.foldl Image.after h).Shows (calls.foldl Image.after g)) ↔
      Resumable g.nextIndex ids h.nextIndex calls := by
  induction calls generalizing g h with
  | nil =>
    have shows : h.Shows g := ⟨hw.count, fun r _ => congrFun hw.row r, by rw [hw.index]⟩
    exact iff_of_true ⟨trivial, shows⟩ trivial
  | cons c cs ih =>
    cases c with
    | updateEntry row record =>
      obtain ⟨counted, noGap, takes⟩ := accepts.1
      have counted' : row < h.header.writeCount := hw.count ▸ counted
      have step (allowed : row ≤ h.nextIndex) : h.Accepts (.updateEntry row record) :=
        ⟨counted', allowed, hw.index ▸ takes⟩
      have gNext : (g.edit row record).nextIndex = g.nextIndex := by
        rw [edit_nextIndex hg.linked counted, if_neg (by omega)]
      have rest (allowed : row ≤ h.nextIndex) := ih (hw.edit hg hh counted record)
        (after_regular hg accepts.1) (after_regular hh (step allowed)) (after_whole hg accepts.1 whole)
        accepts.2
      rw [gNext, edit_nextIndex hh.linked counted'] at rest
      constructor
      · intro h
        obtain ⟨hAccepts, shows⟩ := h
        exact ⟨hAccepts.1.2.1, (rest hAccepts.1.2.1).mp ⟨hAccepts.2, shows⟩⟩
      · intro h
        obtain ⟨allowed, later⟩ := h
        obtain ⟨hAccepts, shows⟩ := (rest allowed).mpr later
        exact ⟨⟨step allowed, hAccepts⟩, shows⟩
    | writeEntries entries =>
      cases entries with
      | nil =>
        have hgSame : g.after (.writeEntries []) = g := appendAll_nil hg.idle
        have hhSame : h.after (.writeEntries []) = h := appendAll_nil hh.idle
        have acceptsRest : g.AcceptsAll cs := by
          have := accepts.2
          rwa [hgSame] at this
        have first : h.Accepts (.writeEntries []) := by
          have := hh.linked.counted
          have := hh.linked.bounded
          exact ⟨by simp only [List.length_nil]; omega, by simp⟩
        rw [List.foldl_cons, List.foldl_cons, hgSame, hhSame, Resumable,
          ← ih hw hg hh whole acceptsRest, Image.AcceptsAll, hhSame]
        exact ⟨fun both => ⟨both.1.2, both.2⟩, fun both => ⟨⟨first, both.1⟩, both.2⟩⟩
      | cons record rest =>
        by_cases caught : h.nextIndex = g.nextIndex
        · rw [resumed_iff (hw.resumed caught) hg hh whole accepts, Resumable]
          exact ⟨fun new => ⟨caught, new⟩, fun both => both.2⟩
        · refine iff_of_false ?_ (fun both => caught both.1)
          intro h
          obtain ⟨hAccepts, shows⟩ := h
          exact caught (caught_of_shows (by simp) hg hh whole accepts hAccepts shows)

theorem foldl_append_lastRow {entries : List LogRecord} {g : Image} {id : UInt32} :
    (entries.foldl Image.append g).lastRow id ≠ none ↔
      g.lastRow id ≠ none ∨ id ∈ entries.map (·.canId) := by
  induction entries generalizing g with
  | nil => simp
  | cons record rest ih =>
    have step : (g.append record).lastRow id ≠ none ↔ g.lastRow id ≠ none ∨ id = record.canId := by
      simp only [Image.append, Function.update_apply]
      split
      next eq => simp [eq]
      next ne => simp [ne]
    rw [List.foldl_cons, ih, step, List.map_cons, List.mem_cons, or_assoc]

theorem edit_lastRow (g : Image) (row : Nat) (record : LogRecord) :
    (g.edit row record).lastRow = g.lastRow := by
  simp only [Image.edit]
  split <;> rfl

/-- The tracker knows the ids of the records that its session appended. -/
theorem foldl_after_lastRow {calls : List StoreCall} {g : Image} {id : UInt32} :
    (calls.foldl Image.after g).lastRow id ≠ none ↔
      g.lastRow id ≠ none ∨ id ∈ (written calls).map (·.canId) := by
  induction calls generalizing g with
  | nil => simp [written]
  | cons c cs ih =>
    have step : (g.after c).lastRow id ≠ none ↔ g.lastRow id ≠ none ∨ id ∈ c.records.map (·.canId) := by
      cases c with
      | writeEntries entries => exact foldl_append_lastRow (g := g.begin)
      | updateEntry row record =>
        rw [Image.after, edit_lastRow]
        simp [StoreCall.records]
    have both : written (c :: cs) = c.records ++ written cs := List.flatMap_cons
    rw [List.foldl_cons, ih, step, both, List.map_append, List.mem_append, or_assoc]

/-- What a session on a fresh token has written is counted and tracked. -/
theorem session_written {calls : List StoreCall} {s : Session}
    (h : storeSession calls Session.fresh = (.ok (), s)) :
    s.image.nextIndex = s.image.header.writeCount ∧ s.image.nextIndex = (written calls).length ∧
      ∀ id, s.image.lastRow id ≠ none ↔ id ∈ (written calls).map (·.canId) := by
  obtain ⟨s0, hs0, sound0, himage0⟩ := construct_fresh
  have whole : s.image.nextIndex = s.image.header.writeCount := (Reached.of_session h).mirrored.whole
  rw [storeSession, Effect.bind_of_ok hs0] at h
  obtain ⟨accepts, _, himage⟩ := execAll_ok sound0 h
  have start0 : Reached (fun _ _ => True) s0 := .start hs0
  have zero : s0.image.nextIndex = 0 := congrArg Image.nextIndex himage0
  refine ⟨whole, ?_, fun id => ?_⟩
  · have count := final_count ⟨sound0.linked, sound0.idle⟩ start0.mirrored.whole accepts
    rw [← himage, ← whole] at count
    omega
  · have none0 : s0.image.lastRow id = none := by
      rw [himage0]
      rfl
    rw [himage, foldl_after_lastRow]
    simp [none0]

theorem reopened_rewriting {calls : List StoreCall} {s : Session} (sound : s.Sound)
    (h : storeSession calls Session.fresh = (.ok (), s)) :
    Rewriting ((written calls).map (·.canId)) s.image
      (Image.opened s.header s.rowAt s.index.committed) := by
  refine ⟨opened_writeCount _, rfl, ?_, fun _ => rfl, fun id => ((session_written h).2.2 id).symm⟩
  have idle := sound.idle
  simp only [Image.opened, Session.image]
  rw [← idle]

/-- Closing and reopening between two parts of a session goes unnoticed exactly when
the second part is resumable. -/
theorem reopen_unnoticed_iff {s1 s2 : List StoreCall} {t : Session}
    (h : storeSession (s1 ++ s2) Session.fresh = (.ok (), t)) :
    (∃ u, storeSession s2 (storeSession s1 Session.fresh).2.reopen = (.ok (), u) ∧
      u.image.Shows t.image) ↔
      Resumable (written s1).length ((written s1).map (·.canId)) 0 s2 := by
  obtain ⟨s0, hs0, _⟩ := construct_fresh
  rw [storeSession, Effect.bind_of_ok hs0] at h
  obtain ⟨a, h1, h2⟩ := Effect.forEach_append_ok_iff.mp h
  have first : storeSession s1 Session.fresh = (.ok (), a) := (Effect.bind_of_ok hs0).trans h1
  have soundA := (Reached.of_session first).sound
  obtain ⟨accepts, _, himageT⟩ := execAll_ok soundA h2
  obtain ⟨u0, hu0, soundU, himageU⟩ := construct_reopen soundA
  obtain ⟨whole, rows, _⟩ := session_written first
  have key := rewriting_iff (himageU ▸ reopened_rewriting soundA first) ⟨soundA.linked, soundA.idle⟩
    ⟨soundU.linked, soundU.idle⟩ whole accepts
  rw [rows, show u0.image.nextIndex = 0 from congrArg Image.nextIndex himageU] at key
  have run : storeSession s2 a.reopen = execAll s2 u0 := Effect.bind_of_ok hu0
  rw [← key, first, himageT, run]
  constructor
  · intro h
    obtain ⟨u, hu, shows⟩ := h
    obtain ⟨uAccepts, _, himage⟩ := execAll_ok soundU hu
    exact ⟨uAccepts, himage ▸ shows⟩
  · intro h
    obtain ⟨uAccepts, shows⟩ := h
    obtain ⟨u, hu, _⟩ := execAll_sound soundU uAccepts
    obtain ⟨_, _, himage⟩ := execAll_ok soundU hu
    exact ⟨u, hu, himage ▸ shows⟩

theorem reopen_unnoticed_sample :
    let s1 := [StoreCall.writeEntries [sampleRecord]]
    let s2 := [StoreCall.updateEntry 0 sampleRecord]
    (∃ u, storeSession s2 (storeSession s1 Session.fresh).2.reopen = (.ok (), u) ∧
      u.image.Shows (storeSession (s1 ++ s2) Session.fresh).2.image) ↔
      Resumable (written s1).length ((written s1).map (·.canId)) 0 s2 :=
  reopen_unnoticed_iff rfl

/-- A second session that only appends starts at row 0 and overwrites the first one. -/
theorem reopen_overwrites : ¬ ∀ s1 s2 t, storeSession (s1 ++ s2) Session.fresh = (.ok (), t) →
    ∃ u, storeSession s2 (storeSession s1 Session.fresh).2.reopen = (.ok (), u) ∧
      u.image.Shows t.image := by
  intro unnoticed
  have both : storeSession ([.writeEntries [sampleRecord]] ++ [.writeEntries [sampleRecord]])
      Session.fresh = (.ok (), _) := rfl
  obtain ⟨u, hu, shows⟩ := unnoticed _ _ _ both
  have count := shows.count
  have last := congrArg (fun run => run.2.image.header.writeCount) hu
  simp only at last
  rw [← last] at count
  exact absurd count (by decide +kernel)

end FsCore
