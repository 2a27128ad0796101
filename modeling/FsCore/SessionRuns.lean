import FsCore.StoreOpen

namespace FsCore

/-- The states of one session on a fresh token, under calls that a policy allows.
An update of a row that is not there is refused and the session goes on. -/
inductive Reached (allowed : Session → StoreCall → Prop) : Session → Prop
  | start {s : Session} (h : construct Session.fresh = (.ok (), s)) : Reached allowed s
  | returns {s t : Session} {c : StoreCall} (hs : Reached allowed s) (ha : allowed s c)
      (h : exec c s = (.ok (), t)) : Reached allowed t
  | refused {s t : Session} {row : Nat} {record : LogRecord} {e : StoreError}
      (hs : Reached allowed s) (hr : s.header.writeCount ≤ row)
      (h : exec (.updateEntry row record) s = (.error e, t)) : Reached allowed t

/-- Induction over a session, from the empty store through the images of its states. -/
theorem Reached.image_induction {allowed : Session → StoreCall → Prop} {s : Session}
    (hs : Reached allowed s) (inv : Image → Prop)
    (start : inv (Image.opened MmapHeader.zero (fun _ => ParsedEntry.zero) IndexTables.empty))
    (step : ∀ s c, s.Sound → inv s.image → allowed s c → s.image.Accepts c → inv (s.image.after c)) :
    s.Sound ∧ inv s.image := by
  induction hs with
  | start h =>
    obtain ⟨u, hu, sound, himage⟩ := construct_fresh
    have same := congrArg Prod.snd (h.symm.trans hu)
    dsimp only at same
    rw [same, himage]
    exact ⟨sound, start⟩
  | returns _ ha h ih =>
    obtain ⟨accepts, sound, himage⟩ := exec_ok ih.1 h
    rw [himage]
    exact ⟨sound, step _ _ ih.1 ih.2 ha accepts⟩
  | refused _ hr h ih =>
    have same := congrArg Prod.snd (h.symm.trans (updateEntry_refused hr))
    dsimp only at same
    rw [same]
    exact ih

/-- A session whose calls all return is reached. -/
theorem Reached.of_calls {calls : List StoreCall} {s t : Session} (hs : Reached (fun _ _ => True) s)
    (h : execAll calls s = (.ok (), t)) : Reached (fun _ _ => True) t := by
  induction calls generalizing s with
  | nil =>
    cases h
    exact hs
  | cons c cs ih =>
    obtain ⟨_, mid, hc, h⟩ := Effect.bind_eq_ok_iff.mp h
    exact ih (.returns hs trivial hc) h

theorem Reached.of_session {calls : List StoreCall} {t : Session}
    (h : storeSession calls Session.fresh = (.ok (), t)) : Reached (fun _ _ => True) t := by
  obtain ⟨_, s, hs, h⟩ := Effect.bind_eq_ok_iff.mp h
  exact .of_calls (.start hs) h

theorem Reached.sound {allowed : Session → StoreCall → Prop} {s : Session} (hs : Reached allowed s) :
    s.Sound :=
  (hs.image_induction (fun _ => True) trivial (fun _ _ _ _ _ _ => trivial)).1

/-- The index holds the projection of every stored row and nothing else. -/
structure Image.Mirrored (g : Image) : Prop where
  whole : g.nextIndex = g.header.writeCount
  bit : ∀ i, i < g.header.writeCount → (g.row i).changed = 0 ∨ (g.row i).changed = 1
  index : g.index.tables.logIndex =
    Table.ofRange g.header.writeCount (fun i => (g.row i).indexRow)

theorem tables_write (db : IndexDb) (f : IndexTables → IndexTables) :
    (db.write f).tables = f db.tables := by
  cases htx : db.transaction <;> simp [IndexDb.write, IndexDb.tables, htx]

theorem appendedRow_eq {e : ParsedEntry} (bit : e.changed = 0 ∨ e.changed = 1) :
    e.appendedRow = e.indexRow := by
  rcases bit with h | h <;> simp [ParsedEntry.appendedRow, ParsedEntry.indexRow, h]

theorem toUInt8_bit (b : Bool) : b.toUInt8 = 0 ∨ b.toUInt8 = 1 := by cases b <;> decide

theorem parsedEntry_bit (record : LogRecord) (prev : UInt32) (previous : LogRecord) :
    (parsedEntry record prev previous).changed =
      0 ∨ (parsedEntry record prev previous).changed = 1 := by
  simp only [parsedEntry]
  split
  next => exact Or.inl rfl
  next => exact toUInt8_bit _

theorem recomputed_bit (old : ParsedEntry) (record previous : LogRecord) :
    (recomputed old record previous).changed = 0 ∨ (recomputed old record previous).changed = 1 := by
  simp only [recomputed]
  split
  next => exact Or.inl rfl
  next => exact toUInt8_bit _

theorem indexRow_update (row : Nat → ParsedEntry) (r : Nat) (e : ParsedEntry) :
    (fun i => (Function.update row r e i).indexRow) =
      Function.update (fun i => (row i).indexRow) r e.indexRow := by
  funext i
  by_cases h : i = r
  · simp [h]
  · simp [h]

theorem append_mirrored {g : Image} (h : g.Mirrored) (record : LogRecord) :
    (g.append record).Mirrored := by
  have bit : (g.entryFor record).changed = 0 ∨ (g.entryFor record).changed = 1 := parsedEntry_bit _ _ _
  refine ⟨rfl, ?_, ?_⟩
  · intro i hi
    rw [append_writeCount] at hi
    by_cases last : i = g.nextIndex
    · rw [last, append_row_last]
      exact bit
    · rw [append_row_of_ne last]
      exact h.bit i (by have := h.whole; omega)
  · calc
      _ = (g.index.tables.appendRow g.nextIndex (g.entryFor record)).logIndex :=
        congrArg IndexTables.logIndex (tables_write _ _)
      _ = g.index.tables.logIndex.upsert g.nextIndex (fun _ => (g.entryFor record).indexRow) := by
        rw [← appendedRow_eq bit]
        rfl
      _ = Table.ofRange (g.nextIndex + 1) _ := by
        rw [h.index, ← h.whole, Table.upsert_ofRange]
      _ = _ := by rw [← indexRow_update]; rfl

theorem foldl_append_mirrored (entries : List LogRecord) {g : Image} (h : g.Mirrored) :
    (entries.foldl Image.append g).Mirrored := by
  induction entries generalizing g with
  | nil => exact h
  | cons record rest ih => exact ih (append_mirrored h record)

theorem begin_mirrored {g : Image} (h : g.Mirrored) (idle : g.index.transaction = none) :
    g.begin.Mirrored := by
  have same : g.begin.index.tables = g.index.tables := by
    simp [Image.begin, IndexDb.tables, idle]
  exact ⟨h.whole, h.bit, same ▸ h.index⟩

theorem appendAll_mirrored {g : Image} (h : g.Mirrored) (idle : g.index.transaction = none)
    (entries : List LogRecord) : (g.appendAll entries).Mirrored := by
  have looped := foldl_append_mirrored entries (begin_mirrored h idle)
  exact ⟨looped.whole, looped.bit, looped.index⟩

theorem edit_mirrored {g : Image} (hl : g.Linked) (h : g.Mirrored) {row : Nat} (record : LogRecord)
    (counted : row < g.header.writeCount) : (g.edit row record).Mirrored := by
  rw [edit_eq_put hl counted]
  refine ⟨?_, ?_, ?_⟩
  · have := h.whole
    simp only [Image.put]
    rw [if_neg (by omega)]
    exact this
  · intro i hi
    simp only [Image.put, Function.update_apply]
    split
    next => exact recomputed_bit _ _ _
    next => exact h.bit i hi
  · calc
      _ = (g.index.tables.updateRow row (g.recompute row record).indexRow).logIndex :=
        congrArg IndexTables.logIndex (tables_write _ _)
      _ = Table.ofRange g.header.writeCount _ := by
        simp only [IndexTables.updateRow]
        rw [h.index, Table.update_ofRange]
      _ = _ := by rw [← indexRow_update]; rfl

theorem opened_mirrored :
    (Image.opened MmapHeader.zero (fun _ => ParsedEntry.zero) IndexTables.empty).Mirrored := by
  have count : MmapHeader.zero.opened.writeCount = 0 := opened_writeCount _
  refine ⟨count.symm, fun i hi => ?_, ?_⟩
  · exact absurd (lt_of_lt_of_eq hi count) (Nat.not_lt_zero i)
  · change IndexTables.empty.logIndex = Table.ofRange MmapHeader.zero.opened.writeCount _
    rw [count]
    rfl

theorem Reached.mirrored {allowed : Session → StoreCall → Prop} {s : Session}
    (hs : Reached allowed s) : s.image.Mirrored := by
  refine (hs.image_induction Image.Mirrored opened_mirrored ?_).2
  intro s c sound h _ accepts
  cases c with
  | writeEntries entries => exact appendAll_mirrored h sound.idle entries
  | updateEntry row record => exact edit_mirrored sound.linked h record accepts.1

end FsCore
