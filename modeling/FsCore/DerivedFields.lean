import FsCore.LastBelow
import FsCore.Reopen

namespace FsCore

/-- The nearest earlier stored row that has the id of a row now. -/
def nearestRow (row : Nat → ParsedEntry) (r : Nat) : Option Nat :=
  lastBelow? (fun j => (row j).canId == (row r).canId) r

/-- The derived fields of a row agree with the contents of the rows. -/
def Derived (row : Nat → ParsedEntry) (r : Nat) : Prop :=
  match nearestRow row r with
  | none => (row r).changed = 0 ∧ (row r).lastTimestamp = (row r).timestamp
  | some p =>
    (row r).changed = (payloadChanged (row p).toLogRecord (row r).toLogRecord).toUInt8 ∧
      (row r).lastTimestamp = (row p).timestamp

/-- Every row agrees with the contents, and the index has its `changed`. -/
def Session.FieldsAgree (s : Session) : Prop :=
  ∀ r, r < s.header.writeCount → Derived s.rowAt r ∧
    (s.index.tables.logIndex.find? r).map (·.changed) = some (s.rowAt r).changed.toNat

/-- An update keeps the id of its row. -/
def keepsId (s : Session) : StoreCall → Prop
  | .writeEntries _ => True
  | .updateEntry row record => record.canId = (s.rowAt row).canId

/-- A row that is compared with the edited one compares as before. -/
def Undisturbed (row : Nat → ParsedEntry) (edited : Nat) (record : LogRecord) (r : Nat) : Prop :=
  nearestRow row r = some edited → record.timestamp = (row edited).timestamp ∧
    payloadChanged record (row r).toLogRecord =
      payloadChanged (row edited).toLogRecord (row r).toLogRecord

/-- No stored row is disturbed by an update. -/
def harmless (s : Session) : StoreCall → Prop
  | .writeEntries _ => True
  | .updateEntry row record => record.canId = (s.rowAt row).canId ∧
    ∀ r, r < s.header.writeCount → Undisturbed s.rowAt row record r

/-- Links and tracker lead to the nearest row of the id. -/
structure Image.Threaded (g : Image) : Prop where
  tracker : ∀ id, g.lastRow id =
    (lastBelow? (fun j => (g.row j).canId == id) g.header.writeCount).map UInt32.ofNat
  links : ∀ r, r < g.header.writeCount →
    (g.row r).prevSameCan = ((nearestRow g.row r).map UInt32.ofNat).getD kInvalidRow

theorem nearestRow_lt {row : Nat → ParsedEntry} {r p : Nat} (h : nearestRow row r = some p) : p < r :=
  lastBelow?_lt h

theorem nearestRow_congr {row row' : Nat → ParsedEntry} {r : Nat}
    (h : ∀ j, j ≤ r → (row' j).canId = (row j).canId) : nearestRow row' r = nearestRow row r := by
  apply lastBelow?_congr
  intro j hj
  rw [h j (by omega), h r le_rfl]

/-- A row's agreement depends on the row and on the one it is compared with. -/
theorem derived_congr {row row' : Nat → ParsedEntry} {r : Nat}
    (near : nearestRow row' r = nearestRow row r) (own : row' r = row r)
    (other : ∀ p, nearestRow row r = some p → row' p = row p) : Derived row' r ↔ Derived row r := by
  simp only [Derived, near, own]
  cases hn : nearestRow row r with
  | none => rfl
  | some p => simp only [other p hn]

/-- The first `n` rows are linked to the nearest earlier row of their id. -/
def LinksBack (row : Nat → ParsedEntry) (n : Nat) : Prop :=
  ∀ r, r < n → (row r).prevSameCan = ((nearestRow row r).map UInt32.ofNat).getD kInvalidRow

/-- The tracker has the last row that an id has now. -/
def Image.TracksId (g : Image) (id : UInt32) : Prop :=
  g.lastRow id = (lastBelow? (fun j => (g.row j).canId == id) g.header.writeCount).map UInt32.ofNat

section Append

variable {g : Image} {record : LogRecord}

theorem nearestRow_append {r : Nat} (hr : r < g.nextIndex) :
    nearestRow (g.append record).row r = nearestRow g.row r :=
  nearestRow_congr (fun j hj => by rw [append_row_of_ne (by omega)])

/-- A new row is compared with the last row of its id. -/
theorem nearestRow_append_last : nearestRow (g.append record).row g.nextIndex =
    lastBelow? (fun j => (g.row j).canId == record.canId) g.nextIndex := by
  apply lastBelow?_congr
  intro j hj
  rw [append_row_of_ne (by omega), append_row_last]
  rfl

theorem entryFor_link (hm : g.nextIndex = g.header.writeCount) (tracks : g.TracksId record.canId) :
    (g.entryFor record).prevSameCan =
      ((nearestRow (g.append record).row g.nextIndex).map UInt32.ofNat).getD kInvalidRow := by
  change (g.lastRow record.canId).getD kInvalidRow = _
  rw [tracks, nearestRow_append_last, hm]

theorem append_tracks_self : (g.append record).TracksId record.canId := by
  rw [Image.TracksId, append_writeCount, lastBelow?, append_row_last, append_lastRow_self]
  simp [Image.entryFor, parsedEntry]

theorem append_tracks_iff (hm : g.nextIndex = g.header.writeCount) {id : UInt32}
    (other : id ≠ record.canId) : (g.append record).TracksId id ↔ g.TracksId id := by
  have skip : lastBelow? (fun j => ((g.append record).row j).canId == id) (g.nextIndex + 1) =
      lastBelow? (fun j => (g.row j).canId == id) g.nextIndex := by
    rw [lastBelow?, append_row_last, show (g.entryFor record).canId = record.canId from rfl,
      if_neg (by simpa using Ne.symm other)]
    apply lastBelow?_congr
    intro j hj
    rw [append_row_of_ne (by omega)]
  rw [Image.TracksId, Image.TracksId, append_writeCount, append_lastRow_of_ne other, skip, hm]

theorem append_linksBack (hm : g.nextIndex = g.header.writeCount) (tracks : g.TracksId record.canId)
    (links : LinksBack g.row g.header.writeCount) :
    LinksBack (g.append record).row (g.append record).header.writeCount := by
  intro r hr
  rw [append_writeCount] at hr
  by_cases last : r = g.nextIndex
  · rw [last, ← entryFor_link hm tracks, append_row_last]
  · rw [append_row_of_ne last, nearestRow_append (by omega)]
    exact links r (by omega)

theorem append_threaded (hm : g.nextIndex = g.header.writeCount) (h : g.Threaded) :
    (g.append record).Threaded := by
  refine ⟨fun id => ?_, append_linksBack hm (h.tracker _) h.links⟩
  by_cases same : id = record.canId
  · rw [same]
    exact append_tracks_self
  · exact (append_tracks_iff hm same).mpr (h.tracker id)

theorem append_derived (hm : g.nextIndex = g.header.writeCount) (small : g.nextIndex < 2 ^ 31)
    (tracks : g.TracksId record.canId) (hd : ∀ r, r < g.header.writeCount → Derived g.row r) {r : Nat}
    (hr : r < (g.append record).header.writeCount) : Derived (g.append record).row r := by
  rw [append_writeCount] at hr
  by_cases last : r = g.nextIndex
  · have link : (g.lastRow record.canId).getD kInvalidRow = _ := entryFor_link hm tracks
    rw [last, Derived, append_row_last]
    cases hn : nearestRow (g.append record).row g.nextIndex with
    | none =>
      rw [hn] at link
      simp [Image.entryFor, parsedEntry, link]
    | some p =>
      have hp : p < g.nextIndex := nearestRow_lt hn
      rw [hn, Option.map_some, Option.getD_some] at link
      simp only [Image.entryFor, parsedEntry, link, toNat_ofNat_row (hp.trans small),
        if_neg (ofNat_row_ne_invalid (hp.trans small)), append_row_of_ne hp.ne, and_self]
  · refine (derived_congr (nearestRow_append (by omega)) (append_row_of_ne last record) ?_).mpr
      (hd r (by omega))
    intro p hp
    have := nearestRow_lt hp
    exact append_row_of_ne (by omega) record

end Append

theorem foldl_append_threaded {entries : List LogRecord} {g : Image} (hm : g.Mirrored)
    (small : g.nextIndex + entries.length < 2 ^ 31) (h : g.Threaded)
    (hd : ∀ r, r < g.header.writeCount → Derived g.row r) :
    (entries.foldl Image.append g).Threaded ∧
      ∀ r, r < (entries.foldl Image.append g).header.writeCount →
        Derived (entries.foldl Image.append g).row r := by
  induction entries generalizing g with
  | nil => exact ⟨h, hd⟩
  | cons record rest ih =>
    rw [List.length_cons] at small
    have next := append_nextIndex g record
    exact ih (append_mirrored hm record) (by omega) (append_threaded hm.whole h)
      fun r hr => append_derived hm.whole (by omega) (h.tracker _) hd hr

theorem toUInt8_inj {a b : Bool} : a.toUInt8 = b.toUInt8 ↔ a = b := by
  cases a <;> cases b <;> decide

section Edit

variable {g : Image} {edited : Nat} {record : LogRecord}
  (keeps : record.canId = (g.row edited).canId)

include keeps

theorem edited_ids (j : Nat) :
    (Function.update g.row edited (g.recompute edited record) j).canId = (g.row j).canId := by
  by_cases eq : j = edited
  · rw [eq, Function.update_self]
    exact keeps
  · rw [Function.update_of_ne eq]

theorem edited_near (r : Nat) :
    nearestRow (Function.update g.row edited (g.recompute edited record)) r =
    nearestRow g.row r := nearestRow_congr (fun j _ => edited_ids keeps j)

theorem edit_linksBack (hl : g.Linked) (counted : edited < g.header.writeCount)
    (links : LinksBack g.row g.header.writeCount) :
    LinksBack (g.edit edited record).row (g.edit edited record).header.writeCount := by
  intro r hr
  rw [edit_header hl counted] at hr
  rw [edit_row hl counted, edited_near keeps, ← links r hr]
  by_cases eq : r = edited
  · rw [eq, Function.update_self]
    rfl
  · rw [Function.update_of_ne eq]

theorem edit_threaded (hl : g.Linked) (counted : edited < g.header.writeCount) (h : g.Threaded) :
    (g.edit edited record).Threaded := by
  refine ⟨fun id => ?_, edit_linksBack keeps hl counted h.links⟩
  rw [edit_row hl counted, edit_header hl counted]
  simp only [edited_ids keeps]
  rw [edit_eq_put hl counted]
  exact h.tracker id

/-- The edited row itself always agrees. -/
theorem derived_edited (hl : g.Linked) (counted : edited < g.header.writeCount)
    (links : LinksBack g.row g.header.writeCount) :
    Derived (Function.update g.row edited (g.recompute edited record)) edited := by
  have link := links edited counted
  have := hl.bounded
  rw [Derived, edited_near keeps, Function.update_self]
  cases hp : nearestRow g.row edited with
  | none =>
    rw [hp] at link
    simp [Image.recompute, recomputed, link]
  | some p =>
    rw [hp, Option.map_some, Option.getD_some] at link
    have hlt : p < edited := nearestRow_lt hp
    simp only [Image.recompute, recomputed, link, toNat_ofNat_row (show p < 2 ^ 31 by omega),
      if_neg (ofNat_row_ne_invalid (show p < 2 ^ 31 by omega)),
        Function.update_of_ne (Nat.ne_of_lt hlt),
      and_self]

/-- Another row agrees after the edit exactly when it is not disturbed. -/
theorem derived_other_iff {r : Nat} (other : r ≠ edited) (hd : Derived g.row r) :
    Derived (Function.update g.row edited (g.recompute edited record)) r ↔
      Undisturbed g.row edited record r := by
  by_cases next : nearestRow g.row r = some edited
  · have hnew : (g.recompute edited record).toLogRecord = record := rfl
    rw [Derived, next] at hd
    rw [Derived, edited_near keeps, next]
    simp only [Function.update_self, Function.update_of_ne other, hd, Undisturbed, next, true_imp_iff]
    rw [hnew, toUInt8_inj]
    exact ⟨fun h => ⟨h.2.symm, h.1.symm⟩, fun h => ⟨h.2.symm, h.1.symm⟩⟩
  · refine (iff_of_true ?_ (fun h => absurd h next))
    refine (derived_congr (edited_near keeps r) (Function.update_of_ne other _ _) ?_).mpr hd
    intro p hp
    have ne : p ≠ edited := by
      rintro rfl
      exact next hp
    exact Function.update_of_ne ne _ _

/-- All rows agree after the edit exactly when it disturbs none. -/
theorem derived_edit_iff (hl : g.Linked) (counted : edited < g.header.writeCount)
    (links : LinksBack g.row g.header.writeCount)
    (hd : ∀ r, r < g.header.writeCount → Derived g.row r) :
    (∀ r, r < g.header.writeCount → Derived (g.edit edited record).row r) ↔
      ∀ r, r < g.header.writeCount → Undisturbed g.row edited record r := by
  rw [edit_row hl counted]
  constructor
  · intro agree r hr
    by_cases own : r = edited
    · exact fun hp => absurd (nearestRow_lt hp) (by omega)
    · exact (derived_other_iff keeps own (hd r hr)).mp (agree r hr)
  · intro calm r hr
    by_cases own : r = edited
    · rw [own]
      exact derived_edited keeps hl counted links
    · exact (derived_other_iff keeps own (hd r hr)).mpr (calm r hr)

end Edit

/-- What a session keeps as long as its updates are harmless. -/
structure Image.Agreeing (g : Image) : Prop where
  mirrored : g.Mirrored
  threaded : g.Threaded
  derived : ∀ r, r < g.header.writeCount → Derived g.row r

theorem appendAll_agreeing {g : Image} (h : g.Agreeing) (idle : g.index.transaction = none)
    {entries : List LogRecord} (small : g.nextIndex + entries.length < 2 ^ 31) :
    (g.appendAll entries).Agreeing := by
  have begun : g.begin.Mirrored := begin_mirrored h.mirrored idle
  have threaded : g.begin.Threaded := ⟨h.threaded.tracker, h.threaded.links⟩
  obtain ⟨looped, derived⟩ := foldl_append_threaded begun small threaded h.derived
  exact ⟨appendAll_mirrored h.mirrored idle entries, ⟨looped.tracker, looped.links⟩, derived⟩

theorem opened_agreeing :
    (Image.opened MmapHeader.zero (fun _ => ParsedEntry.zero) IndexTables.empty).Agreeing := by
  have count : MmapHeader.zero.opened.writeCount = 0 := opened_writeCount _
  have none (r : Nat) (hr : r < MmapHeader.zero.opened.writeCount) : False := by omega
  refine ⟨opened_mirrored, ⟨fun id => ?_, fun r hr => (none r hr).elim⟩, fun r hr => (none r hr).elim⟩
  change Option.none = (lastBelow? _ MmapHeader.zero.opened.writeCount).map UInt32.ofNat
  rw [count]
  rfl

theorem Reached.agreeing {s : Session} (hs : Reached harmless s) : s.image.Agreeing := by
  refine (hs.image_induction Image.Agreeing opened_agreeing ?_).2
  intro s c sound h allowed accepts
  cases c with
  | writeEntries entries => exact appendAll_agreeing h sound.idle accepts.1
  | updateEntry row record =>
    have derived := (derived_edit_iff allowed.1 sound.linked accepts.1 h.threaded.links
      h.derived).mpr allowed.2
    refine ⟨edit_mirrored sound.linked h.mirrored record accepts.1,
      edit_threaded allowed.1 sound.linked accepts.1 h.threaded, ?_⟩
    intro r hr
    rw [Image.after, edit_header sound.linked accepts.1] at hr
    exact derived r hr

theorem index_changed {s : Session} (hm : s.image.Mirrored) {r : Nat} (hr : r < s.header.writeCount) :
    (s.index.tables.logIndex.find? r).map (·.changed) = some (s.rowAt r).changed.toNat := by
  have hindex : s.index.tables.logIndex =
    Table.ofRange s.header.writeCount (fun i => (s.rowAt i).indexRow) :=
    hm.index
  rw [hindex, Table.find?_ofRange, if_pos hr]
  rfl

theorem fieldsAgree_iff {s : Session} (hm : s.image.Mirrored) :
    s.FieldsAgree ↔ ∀ r, r < s.header.writeCount → Derived s.rowAt r :=
  ⟨fun h r hr => (h r hr).1, fun h r hr => ⟨h r hr, index_changed hm hr⟩⟩

/-- As long as no update disturbs the row after it, the derived fields agree, and
an update makes them disagree exactly when it does disturb that row. -/
theorem fieldsAgree_of_harmless {s : Session} (hs : Reached harmless s) :
    s.FieldsAgree ∧ ∀ row record t, record.canId = (s.rowAt row).canId →
      exec (.updateEntry row record) s = (.ok (), t) →
      (t.FieldsAgree ↔ harmless s (.updateEntry row record)) := by
  have h := hs.agreeing
  refine ⟨(fieldsAgree_iff h.mirrored).mpr h.derived, ?_⟩
  intro row record t keeps ht
  obtain ⟨accepts, _, himage⟩ := exec_ok hs.sound ht
  have linked := hs.sound.linked
  have mirrored : t.image.Mirrored := himage ▸ edit_mirrored linked h.mirrored record accepts.1
  have rows : t.rowAt = (s.image.edit row record).row := congrArg Image.row himage
  have count : t.header = s.header :=
    (congrArg Image.header himage).trans (edit_header linked accepts.1 record)
  have exact' := derived_edit_iff (g := s.image) keeps linked accepts.1 h.threaded.links h.derived
  rw [fieldsAgree_iff mirrored, rows, count]
  exact exact'.trans ⟨fun calm => ⟨keeps, calm⟩, fun calm => calm.2⟩

theorem fieldsAgree_of_harmless_sample :
    let s := (storeSession [.writeEntries [sampleRecord, sampleRecord]] Session.fresh).2
    s.FieldsAgree ∧ ∀ row record t, record.canId = (s.rowAt row).canId →
      exec (.updateEntry row record) s = (.ok (), t) →
      (t.FieldsAgree ↔ harmless s (.updateEntry row record)) :=
  fieldsAgree_of_harmless
    (.returns (c := .writeEntries [sampleRecord, sampleRecord]) (.start rfl) trivial rfl)

/-- Two messages of one id, and then the first one gets another payload: the second
keeps the comparison with the payload that is gone. -/
theorem update_leaves_next_stale : ¬ ∀ s, Reached keepsId s → s.FieldsAgree := by
  intro agree
  let edited : LogRecord := { sampleRecord with dataLen := 2 }
  let written := (storeSession [.writeEntries [sampleRecord, sampleRecord]] Session.fresh).2
  let s := (exec (.updateEntry 0 edited) written).2
  have reached : Reached keepsId s :=
    .returns (c := .updateEntry 0 edited)
      (.returns (c := .writeEntries [sampleRecord, sampleRecord]) (.start rfl) trivial rfl)
      (show edited.canId = (written.rowAt 0).canId by decide +kernel) rfl
  have stale : ¬ Derived s.rowAt 1 := by
    have near : nearestRow s.rowAt 1 = some 0 := by decide +kernel
    rw [Derived, near]
    decide +kernel
  exact stale (agree s reached 1 (by decide +kernel)).1

end FsCore
