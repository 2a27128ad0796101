import FsCore.BatchFailure

namespace FsCore

/-- The links of a row: back to a row before it, and not forward. -/
def ParsedEntry.Behind (e : ParsedEntry) (r : Nat) : Prop :=
  (e.prevSameCan = kInvalidRow ∨ e.prevSameCan.toNat < r) ∧ e.nextSameCan = kInvalidRow

/-- The rows that are counted or written are there, and their links lead back. -/
structure Session.Solid (s : Session) : Prop where
  next : s.writeNext < 2 ^ 31
  count : s.header.writeCount < 2 ^ 31
  rows : ∀ r, r < s.header.writeCount ∨ r < s.writeNext →
    s.HasSegment (r / kDataSegmentCapacity) ∧ (s.rowAt r).Behind r

def Session.Tracked (s : Session) : Prop := ∀ id p, s.lastRowByCanId id = some p → p.toNat < s.writeNext

/-- Between two calls the tracker leads to written rows, unless a batch has failed: then its
transaction is still open. -/
structure Session.Intact (s : Session) : Prop extends s.Solid where
  tracked : s.index.transaction = none → s.Tracked

/-- Steps that change nothing but the index, and lose no segment. -/
structure IndexOnly (s t : Session) : Prop where
  image : ∃ index, t.image = { s.image with index := index }
  keeps : ∀ i, s.HasSegment i → t.HasSegment i

theorem IndexOnly.trans {s t u : Session} (hst : IndexOnly s t) (htu : IndexOnly t u) :
    IndexOnly s u := by
  obtain ⟨⟨ix, h⟩, keeps⟩ := hst
  obtain ⟨⟨ix', h'⟩, keeps'⟩ := htu
  exact ⟨⟨ix', by rw [h', h]⟩, fun i hi => keeps' i (keeps i hi)⟩

theorem Quiet.indexOnly {s t : Session} (h : Quiet s t) : IndexOnly s t := ⟨⟨s.index, h.image⟩, h.keeps⟩

theorem write_indexOnly (s : Session) (index : IndexDb) : IndexOnly s { s with index := index } :=
  ⟨⟨index, rfl⟩, fun _ hi => hi⟩

theorem IndexOnly.solid {s t : Session} (h : IndexOnly s t) (solid : s.Solid) : t.Solid := by
  obtain ⟨⟨ix, image⟩, keeps⟩ := h
  have next : t.writeNext = s.writeNext := congrArg Image.nextIndex image
  have header : t.header = s.header := congrArg Image.header image
  have rows : t.rowAt = s.rowAt := congrArg Image.row image
  refine ⟨next ▸ solid.next, header ▸ solid.count, fun r hr => ?_⟩
  rw [header, next] at hr
  rw [rows]
  exact ⟨keeps _ (solid.rows r hr).1, (solid.rows r hr).2⟩

theorem IndexOnly.isTracked {s t : Session} (h : IndexOnly s t) (tracked : s.Tracked) : t.Tracked := by
  obtain ⟨⟨ix, image⟩, -⟩ := h
  have next : t.writeNext = s.writeNext := congrArg Image.nextIndex image
  have last : t.lastRowByCanId = s.lastRowByCanId := congrArg Image.lastRow image
  intro id p hp
  rw [last] at hp
  rw [next]
  exact tracked id p hp

theorem Quiet.intact {s t : Session} (h : Quiet s t) (intact : s.Intact) : t.Intact := by
  refine ⟨h.indexOnly.solid intact.toSolid, fun idle => h.indexOnly.isTracked (intact.tracked ?_)⟩
  rw [← show t.index = s.index from congrArg Image.index h.image]
  exact idle

theorem stepNotNull_indexOnly (timestamp : Binary64) (touches : IndexTables → Bool)
    (f : IndexTables → IndexTables) (s : Session) :
    IndexOnly s (stepNotNull timestamp touches f s).2 := by
  refine Effect.bind_frame (fun _ _ _ => IndexOnly.trans) (call_quiet _ s).indexOnly (fun _ t _ => ?_)
  rw [Effect.read_bind]
  split
  next => exact (Quiet.refl t).indexOnly
  next => exact write_indexOnly t _

theorem appendIndex_indexOnly (row : Nat) (entry : ParsedEntry) (s : Session) :
    IndexOnly s (appendIndex row entry s).2 := by
  have trans (a b c : Session) (hab : IndexOnly a b) (hbc : IndexOnly b c) := hab.trans hbc
  refine Effect.bind_frame trans (stepNotNull_indexOnly _ _ _ s) (fun _ a _ => ?_)
  refine Effect.bind_frame trans (call_quiet _ a).indexOnly (fun _ b _ => ?_)
  refine Effect.bind_frame trans (write_indexOnly b _) (fun _ c _ => ?_)
  exact Effect.bind_frame trans (call_quiet _ c).indexOnly (fun _ d _ => write_indexOnly d _)

theorem updateIndex_indexOnly (row : Nat) (entry : ParsedEntry) (s : Session) :
    IndexOnly s (updateIndex row entry s).2 :=
  Effect.bind_frame (fun _ _ _ => IndexOnly.trans) (call_quiet _ s).indexOnly
    (fun _ t _ => stepNotNull_indexOnly _ _ _ t)

theorem commitTransaction_indexOnly (s : Session) : IndexOnly s (commitTransaction s).2 := by
  refine Effect.bind_frame (fun _ _ _ => IndexOnly.trans) (call_quiet _ s).indexOnly (fun _ t _ => ?_)
  rw [Effect.read_bind]
  cases t.index.transaction with
  | none => exact (Quiet.refl t).indexOnly
  | some tables => exact write_indexOnly t _

theorem putRow_solid {s : Session} (h : s.Solid) {row : Nat} {entry : ParsedEntry}
    (behind : entry.Behind row) : (s.putRow row entry).Solid := by
  have header : (s.putRow row entry).header = s.header := rfl
  have next : (s.putRow row entry).writeNext = s.writeNext := rfl
  refine ⟨h.next, h.count, fun r hr => ?_⟩
  rw [header, next] at hr
  refine ⟨putRow_keeps s row entry _ (h.rows r hr).1, ?_⟩
  rw [putRow_rowAt]
  by_cases own : r = row
  · rw [own, Function.update_self]
    exact behind
  · rw [Function.update_of_ne own]
    exact (h.rows r hr).2

section Writes

variable {s : Session} {entry : ParsedEntry}

/-- The write of a new row, whether or not it gets through. -/
theorem appendEntry_solid (h : s.Solid) (behind : entry.Behind s.writeNext) :
    (appendEntry entry s).2.Solid := by
  obtain ⟨a, quiet, cases⟩ := appendEntry_cases entry s
  have solid := quiet.indexOnly.solid h
  have next : a.writeNext = s.writeNext := congrArg Image.nextIndex quiet.image
  have put := putRow_solid solid behind
  rcases cases with ⟨e, run⟩ | ⟨small, run⟩ | run
  · rw [run]
    exact solid
  · rw [run]
    refine ⟨small, small, fun r hr => ?_⟩
    have low : r < s.writeNext + 1 := hr.elim id id
    by_cases own : r = s.writeNext
    · subst own
      refine ⟨putRow_hasSegment a s.writeNext entry, ?_⟩
      change ((a.putRow s.writeNext entry).rowAt s.writeNext).Behind s.writeNext
      rw [putRow_rowAt, Function.update_self]
      exact behind
    · exact put.rows r (Or.inr (show r < a.writeNext by omega))
  · rw [run]
    exact put

/-- A row that is built from the tracker leads back. -/
theorem parsedEntry_behind (tracked : s.Tracked) (record previous : LogRecord) :
    (parsedEntry record ((s.lastRowByCanId record.canId).getD kInvalidRow) previous).Behind
      s.writeNext := by
  refine ⟨?_, rfl⟩
  cases hlast : s.lastRowByCanId record.canId with
  | none => exact Or.inl rfl
  | some p => exact Or.inr (tracked _ p hlast)

theorem writeEntry_solid (h : s.Solid) (tracked : s.Tracked) (record : LogRecord) :
    (writeEntry record s).2.Solid := by
  let prev := (s.lastRowByCanId record.canId).getD kInvalidRow
  let a : Session := { s with
    lastRowByCanId := Function.update s.lastRowByCanId record.canId (some (UInt32.ofNat s.writeNext)) }
  have solid : a.Solid := ⟨h.next, h.count, h.rows⟩
  have quiet := buildEntry_quiet a record prev
  rw [writeEntry, Effect.read_bind, Effect.bind_of_ok (trackerAppend_returns _ _ s)]
  cases hb : buildEntry record prev a with
  | mk result b =>
    rw [hb] at quiet
    have next : b.writeNext = s.writeNext := congrArg Image.nextIndex quiet.image
    have built := quiet.indexOnly.solid solid
    cases result with
    | error e =>
      rw [Effect.bind_of_error hb]
      exact built
    | ok parsed =>
      rw [Effect.bind_of_ok hb]
      have behind : parsed.Behind b.writeNext := by
        rw [(buildEntry_ok hb).1, next]
        exact parsedEntry_behind tracked record _
      have stored := appendEntry_solid built behind
      cases hc : appendEntry parsed b with
      | mk result c =>
        rw [hc] at stored
        cases result with
        | error e =>
          rw [Effect.bind_of_error hc]
          exact stored
        | ok row =>
          rw [Effect.bind_of_ok hc]
          exact (appendIndex_indexOnly _ _ c).solid stored

/-- A round that gets through keeps the tracker behind the next row. -/
theorem writeEntry_tracked {record : LogRecord} {t : Session} (tracked : s.Tracked)
    (h : writeEntry record s = (.ok (), t)) : t.Tracked := by
  obtain ⟨small, -, image, -⟩ := writeEntry_ok h
  have next : t.writeNext = s.writeNext + 1 := congrArg Image.nextIndex image
  have last : t.lastRowByCanId = (s.image.append record).lastRow := congrArg Image.lastRow image
  intro id p hp
  rw [last] at hp
  rw [next]
  by_cases same : id = record.canId
  · rw [same, append_lastRow_self] at hp
    rw [← Option.some.inj hp, show s.image.nextIndex = s.writeNext from rfl, toNat_ofNat_row (by omega)]
    omega
  · rw [append_lastRow_of_ne same] at hp
    have := tracked id p hp
    omega

theorem writeLoop_solid (entries : List LogRecord) (h : s.Solid) (tracked : s.Tracked) :
    (Effect.forEach writeEntry entries s).2.Solid ∧
      ((Effect.forEach writeEntry entries s).1 = .ok () →
        (Effect.forEach writeEntry entries s).2.Tracked) := by
  induction entries generalizing s with
  | nil => exact ⟨h, fun _ => tracked⟩
  | cons record rest ih =>
    have solid := writeEntry_solid h tracked record
    rw [Effect.forEach]
    cases hm : writeEntry record s with
    | mk result mid =>
      rw [hm] at solid
      cases result with
      | error e =>
        rw [Effect.bind_of_error hm]
        exact ⟨solid, fun ok => by cases ok⟩
      | ok _ =>
        rw [Effect.bind_of_ok hm]
        exact ih solid (writeEntry_tracked tracked hm)

/-- A batch, however it ends: if it fails its transaction is left open. -/
theorem writeEntries_intact (h : s.Intact) (entries : List LogRecord) :
    (writeEntries entries s).2.Intact := by
  cases hbegin : beginTransaction s with
  | mk result a =>
    cases result with
    | error e =>
      rw [writeEntries, Effect.bind_of_error hbegin]
      exact (beginTransaction_error_quiet hbegin).intact h
    | ok _ =>
      obtain ⟨idle, begun, keeps⟩ := beginTransaction_ok hbegin
      have opened : IndexOnly s a := ⟨⟨_, begun⟩, keeps⟩
      have loop := writeLoop_solid entries (opened.solid h.toSolid) (opened.isTracked (h.tracked idle))
      cases hloop : Effect.forEach writeEntry entries a with
      | mk result b =>
        rw [hloop] at loop
        cases result with
        | error e =>
          have run : writeEntries entries s = (.error e, b) := by
            rw [writeEntries, Effect.bind_of_ok hbegin]
            exact Effect.bind_of_error hloop
          rw [run]
          exact ⟨loop.1, fun closed => absurd closed (writeEntries_error_open hbegin run)⟩
        | ok _ =>
          have run : writeEntries entries s = commitTransaction b := by
            rw [writeEntries, Effect.bind_of_ok hbegin]
            exact Effect.bind_of_ok hloop
          have committed := commitTransaction_indexOnly b
          rw [run]
          exact ⟨committed.solid loop.1, fun _ => committed.isTracked (loop.2 rfl)⟩

end Writes

end FsCore
