import FsCore.StoreProgress

namespace FsCore

/-- When a call returns. -/
def Image.Accepts (g : Image) : StoreCall → Prop
  | .writeEntries entries =>
    g.nextIndex + entries.length < 2 ^ 31 ∧ ∀ record ∈ entries, record.timestamp.isNaN = false
  | .updateEntry row record =>
    row < g.header.writeCount ∧ row ≤ g.nextIndex ∧ g.index.tables.Takes row record.timestamp

/-- What a call that returns leaves. -/
def Image.after (g : Image) : StoreCall → Image
  | .writeEntries entries => g.appendAll entries
  | .updateEntry row record => g.edit row record

def Image.AcceptsAll (g : Image) : List StoreCall → Prop
  | [] => True
  | c :: cs => g.Accepts c ∧ (g.after c).AcceptsAll cs

theorem foldl_append_nextIndex (entries : List LogRecord) (g : Image) :
    (entries.foldl Image.append g).nextIndex = g.nextIndex + entries.length := by
  induction entries generalizing g with
  | nil => rfl
  | cons record rest ih =>
    rw [List.foldl_cons, ih, List.length_cons, append_nextIndex]
    omega

theorem write_transaction_none (db : IndexDb) (f : IndexTables → IndexTables) :
    (db.write f).transaction = none ↔ db.transaction = none := by
  cases htx : db.transaction <;> simp [IndexDb.write, htx]

theorem foldl_append_transaction (entries : List LogRecord) (g : Image) :
    (entries.foldl Image.append g).index.transaction = none ↔ g.index.transaction = none := by
  induction entries generalizing g with
  | nil => rfl
  | cons record rest ih =>
    rw [List.foldl_cons, ih]
    exact write_transaction_none _ _

theorem appendAll_nextIndex (g : Image) (entries : List LogRecord) :
    (g.appendAll entries).nextIndex = g.nextIndex + entries.length :=
  foldl_append_nextIndex entries g.begin

theorem foldl_append_whole {entries : List LogRecord} {g : Image}
    (h : entries ≠ [] ∨ g.nextIndex = g.header.writeCount) :
    (entries.foldl Image.append g).nextIndex = (entries.foldl Image.append g).header.writeCount := by
  induction entries generalizing g with
  | nil => exact h.resolve_left (fun h => h rfl)
  | cons record rest ih => exact ih (Or.inr rfl)

/-- A batch leaves the rows before it. -/
theorem foldl_append_row (entries : List LogRecord) {g : Image} {r : Nat} (hr : r < g.nextIndex) :
    (entries.foldl Image.append g).row r = g.row r := by
  induction entries generalizing g with
  | nil => rfl
  | cons record rest ih =>
    rw [List.foldl_cons, ih (by rw [append_nextIndex]; omega), append_row_of_ne (by omega)]

/-- Row by row what a batch stores. -/
theorem foldl_append_records (entries : List LogRecord) {g : Image} {i : Nat}
    (hi : i < entries.length) :
    ((entries.foldl Image.append g).row (g.nextIndex + i)).toLogRecord = entries[i] := by
  induction entries generalizing g i with
  | nil => cases hi
  | cons record rest ih =>
    have next := append_nextIndex g record
    cases i with
    | zero =>
      rw [List.foldl_cons, foldl_append_row rest (by omega), Nat.add_zero, append_row_last]
      rfl
    | succ i =>
      rw [List.foldl_cons, show g.nextIndex + (i + 1) = (g.append record).nextIndex + i by omega]
      exact ih (Nat.lt_of_succ_lt_succ hi)

/-- The link of a new row leads back. -/
theorem entryFor_backward {g : Image} (hl : g.Linked) (record : LogRecord) :
    (g.entryFor record).prevSameCan = kInvalidRow ∨ (g.entryFor record).prevSameCan.toNat <
      g.nextIndex := by
  cases hlast : g.lastRow record.canId with
  | none => exact Or.inl (by simp [Image.entryFor, parsedEntry, hlast])
  | some p => exact Or.inr (by simpa [Image.entryFor, parsedEntry, hlast] using hl.tracked _ p hlast)

theorem append_linked {g : Image} (hl : g.Linked) (small : g.nextIndex + 1 < 2 ^ 31)
    (record : LogRecord) : (g.append record).Linked := by
  have old {r : Nat} (hr : r < (g.append record).header.writeCount) (ne : r ≠ g.nextIndex) :
      r < g.header.writeCount := by
    rw [append_writeCount] at hr
    have := hl.counted
    omega
  refine ⟨le_refl _, small, ?_, ?_, ?_⟩
  · intro id p hp
    rw [append_nextIndex]
    by_cases same : id = record.canId
    · rw [same, append_lastRow_self] at hp
      rw [← Option.some.inj hp, toNat_ofNat_row (by omega)]
      omega
    · rw [append_lastRow_of_ne same] at hp
      have := hl.tracked id p hp
      omega
  · intro r hr
    by_cases last : r = g.nextIndex
    · rw [last, append_row_last]
      exact entryFor_backward hl record
    · rw [append_row_of_ne last]
      exact hl.backward r (old hr last)
  · intro r hr
    by_cases last : r = g.nextIndex
    · rw [last, append_row_last]
      rfl
    · rw [append_row_of_ne last]
      exact hl.ended r (old hr last)

theorem foldl_append_linked (entries : List LogRecord) {g : Image} (hl : g.Linked)
    (small : g.nextIndex + entries.length < 2 ^ 31) : (entries.foldl Image.append g).Linked := by
  induction entries generalizing g with
  | nil => exact hl
  | cons record rest ih =>
    rw [List.length_cons] at small
    have next := append_nextIndex g record
    exact ih (append_linked hl (by omega) record) (by omega)

theorem edit_eq_put {g : Image} (hl : g.Linked) {row : Nat} (counted : row < g.header.writeCount)
    (record : LogRecord) : g.edit row record = g.put row (g.recompute row record) := by
  have ended : (g.recompute row record).nextSameCan = kInvalidRow := hl.ended row counted
  simp only [Image.edit, if_pos ended]

theorem edit_nextIndex {g : Image} (hl : g.Linked) {row : Nat} (counted : row < g.header.writeCount)
    (record : LogRecord) : (g.edit row record).nextIndex =
      if row = g.nextIndex then g.nextIndex + 1 else g.nextIndex := by
  rw [edit_eq_put hl counted]
  rfl

theorem edit_header {g : Image} (hl : g.Linked) {row : Nat} (counted : row < g.header.writeCount)
    (record : LogRecord) : (g.edit row record).header = g.header := by
  rw [edit_eq_put hl counted]
  rfl

theorem edit_row {g : Image} (hl : g.Linked) {row : Nat} (counted : row < g.header.writeCount)
    (record : LogRecord) :
    (g.edit row record).row = Function.update g.row row (g.recompute row record) := by
  rw [edit_eq_put hl counted]
  rfl

theorem edit_linked {g : Image} (hl : g.Linked) {row : Nat} (counted : row < g.header.writeCount)
    (record : LogRecord) : (g.edit row record).Linked := by
  rw [edit_eq_put hl counted]
  have prev (r : Nat) :
      ((g.put row (g.recompute row record)).row r).prevSameCan = (g.row r).prevSameCan := by
    simp only [Image.put, Function.update_apply]
    split
    next eq => subst eq; rfl
    next => rfl
  have next (r : Nat) :
      ((g.put row (g.recompute row record)).row r).nextSameCan = (g.row r).nextSameCan := by
    simp only [Image.put, Function.update_apply]
    split
    next eq => subst eq; rfl
    next => rfl
  refine ⟨?_, hl.bounded, ?_, ?_, ?_⟩
  · have := hl.counted
    simp only [Image.put]
    split <;> omega
  · intro id p hp
    have : p.toNat < g.nextIndex := hl.tracked id p hp
    simp only [Image.put]
    split <;> omega
  · intro r hr
    rw [prev]
    exact hl.backward r hr
  · intro r hr
    rw [next]
    exact hl.ended r hr

/-- One round of write_entries, when nothing fails. -/
theorem writeEntry_steady {record : LogRecord} {s : Session} (h : s.Steady)
    (small : s.writeNext + 1 < 2 ^ 31) (number : record.timestamp.isNaN = false) :
    ∃ t, writeEntry record s = (.ok (), t) ∧ t.Steady ∧ t.image = s.image.append record := by
  have previous : ∀ p, s.lastRowByCanId record.canId = some p →
      s.HasSegment (p.toNat / kDataSegmentCapacity) := by
    intro p hp
    have : p.toNat < s.writeNext := h.linked.tracked _ p hp
    have : s.writeNext ≤ s.header.writeCount := h.linked.counted
    exact h.stored _ (by omega)
  obtain ⟨t, ht, hcalm⟩ := writeEntry_returns h.calm small number previous
  obtain ⟨_, _, himage, keeps, own⟩ := writeEntry_ok ht
  refine ⟨t, ht, ⟨hcalm, ?_, himage ▸ append_linked h.linked small record⟩, himage⟩
  intro r hr
  have hcount : t.header.writeCount = s.writeNext + 1 :=
    congrArg (fun g : Image => g.header.writeCount) himage
  have hcounted : s.writeNext ≤ s.header.writeCount := h.linked.counted
  by_cases last : r = s.writeNext
  · rw [last]
    exact own
  · exact keeps _ (h.stored r (by omega))

theorem writeLoop_steady {entries : List LogRecord} {s : Session} (h : s.Steady)
    (small : s.writeNext + entries.length < 2 ^ 31)
    (number : ∀ record ∈ entries, record.timestamp.isNaN = false) :
    ∃ t, Effect.forEach writeEntry entries s = (.ok (), t) ∧ t.Steady ∧
      t.image = entries.foldl Image.append s.image := by
  induction entries generalizing s with
  | nil => exact ⟨s, rfl, h, rfl⟩
  | cons record rest ih =>
    rw [List.length_cons] at small
    obtain ⟨mid, hm, hsteady, himage⟩ := writeEntry_steady h (by omega) (number record (by simp))
    have hnext : mid.writeNext = s.writeNext + 1 := congrArg Image.nextIndex himage
    obtain ⟨t, ht, hfinal, hrest⟩ := ih hsteady (by omega) (fun r hr => number r (by simp [hr]))
    exact ⟨t, (Effect.bind_of_ok hm).trans ht, hfinal, by rw [hrest, himage]; rfl⟩

/-- What a loop of write_entries that returns has done, from any state. -/
theorem writeLoop_ok {entries : List LogRecord} {s t : Session} (start : s.writeNext < 2 ^ 31)
    (h : Effect.forEach writeEntry entries s = (.ok (), t)) :
    s.writeNext + entries.length < 2 ^ 31 ∧ (∀ record ∈ entries, record.timestamp.isNaN = false) ∧
      t.image = entries.foldl Image.append s.image ∧ ∀ i, s.HasSegment i → t.HasSegment i := by
  refine Effect.forEach_ok (fun done u =>
      s.writeNext + done.length < 2 ^ 31 ∧ (∀ record ∈ done, record.timestamp.isNaN = false) ∧
        u.image = done.foldl Image.append s.image ∧ ∀ i, s.HasSegment i → u.HasSegment i)
    ?_ ⟨start, by simp, rfl, fun _ hi => hi⟩ h
  · rintro done record u v ⟨_, numbers, himage, keeps⟩ hv
    obtain ⟨small, number, hstep, keepsStep, _⟩ := writeEntry_ok hv
    have hnext : u.writeNext = s.writeNext + done.length :=
      (congrArg Image.nextIndex himage).trans (foldl_append_nextIndex done s.image)
    refine ⟨?_, ?_, ?_, fun i hi => keepsStep i (keeps i hi)⟩
    · rw [List.length_append, List.length_singleton]
      omega
    · intro r hr
      rcases List.mem_append.mp hr with hr | hr
      · exact numbers r hr
      · rw [List.mem_singleton.mp hr]
        exact number
    · rw [hstep, himage, List.foldl_append]
      rfl

theorem writeEntries_ok {entries : List LogRecord} {s t : Session} (start : s.writeNext < 2 ^ 31)
    (h : writeEntries entries s = (.ok (), t)) :
    s.index.transaction = none ∧ s.writeNext + entries.length < 2 ^ 31 ∧
      (∀ record ∈ entries, record.timestamp.isNaN = false) ∧ t.image = s.image.appendAll entries ∧
      ∀ i, s.HasSegment i → t.HasSegment i := by
  obtain ⟨_, a, hbegin, h⟩ := Effect.bind_eq_ok_iff.mp h
  obtain ⟨_, b, hloop, hcommit⟩ := Effect.bind_eq_ok_iff.mp h
  obtain ⟨idle, ha, keepsBegin⟩ := beginTransaction_ok hbegin
  have hnext : a.writeNext = s.writeNext := congrArg Image.nextIndex ha
  obtain ⟨small, numbers, hb, keepsLoop⟩ := writeLoop_ok (by omega) hloop
  obtain ⟨ht, keepsCommit⟩ := commitTransaction_ok hcommit
  refine ⟨idle, by omega, numbers, ?_, fun i hi => keepsCommit i (keepsLoop i (keepsBegin i hi))⟩
  rw [ht, hb, ha]
  rfl

theorem begin_steady {s t : Session} (h : s.Sound) (hcalm : t.Calm) (himage : t.image = s.image.begin)
    (keeps : ∀ i, s.HasSegment i → t.HasSegment i) : t.Steady := by
  have hheader : t.header = s.header := congrArg Image.header himage
  refine ⟨hcalm, fun r hr => keeps _ (h.stored r (by rw [← hheader]; exact hr)), ?_⟩
  rw [himage]
  exact ⟨h.linked.counted, h.linked.bounded, h.linked.tracked, h.linked.backward, h.linked.ended⟩

theorem beginTransaction_steady {s t : Session} (h : s.Sound)
    (ht : beginTransaction s = (.ok (), t)) : t.Steady := by
  obtain ⟨u, hu, hcalm⟩ := beginTransaction_returns h.calm h.idle
  have same : t = u := congrArg Prod.snd (ht.symm.trans hu)
  obtain ⟨_, himage, keeps⟩ := beginTransaction_ok ht
  exact begin_steady h (same ▸ hcalm) himage keeps

theorem writeLoop_ok_steady {entries : List LogRecord} {s t : Session} (h : s.Steady)
    (ht : Effect.forEach writeEntry entries s = (.ok (), t)) : t.Steady := by
  have start : s.writeNext < 2 ^ 31 := lt_of_le_of_lt h.linked.counted h.linked.bounded
  obtain ⟨small, numbers, _⟩ := writeLoop_ok start ht
  obtain ⟨u, hu, steady, _⟩ := writeLoop_steady h small numbers
  have same : t = u := congrArg Prod.snd (ht.symm.trans hu)
  exact same ▸ steady

theorem commit_sound {s t : Session} (h : s.Steady) (hcalm : t.Calm) (himage : t.image = s.image.commit)
    (keeps : ∀ i, s.HasSegment i → t.HasSegment i) : t.Sound := by
  have hheader : t.header = s.header := congrArg Image.header himage
  refine ⟨⟨hcalm, fun r hr => keeps _ (h.stored r (by rw [← hheader]; exact hr)), ?_⟩, ?_⟩
  · rw [himage]
    exact ⟨h.linked.counted, h.linked.bounded, h.linked.tracked, h.linked.backward, h.linked.ended⟩
  · have : t.image.index.transaction = none := by rw [himage]; rfl
    exact this

theorem writeEntries_sound {entries : List LogRecord} {s : Session} (h : s.Sound)
    (small : s.writeNext + entries.length < 2 ^ 31)
    (numbers : ∀ record ∈ entries, record.timestamp.isNaN = false) :
    ∃ t, writeEntries entries s = (.ok (), t) ∧ t.Sound := by
  obtain ⟨a, hbegin, hca⟩ := beginTransaction_returns h.calm h.idle
  obtain ⟨_, ha, keepsBegin⟩ := beginTransaction_ok hbegin
  have hnext : a.writeNext = s.writeNext := congrArg Image.nextIndex ha
  have hsteady := begin_steady h hca ha keepsBegin
  obtain ⟨b, hloop, hb, himage⟩ := writeLoop_steady hsteady (by rw [hnext]; exact small) numbers
  have open' : b.index.transaction ≠ none := by
    have : b.image.index.transaction = none ↔ a.image.index.transaction = none := by
      rw [himage]
      exact foldl_append_transaction entries a.image
    rw [ha] at this
    simpa [Image.begin, Session.image] using this
  obtain ⟨tables, active⟩ := Option.ne_none_iff_exists'.mp open'
  obtain ⟨t, hcommit, hct⟩ := commitTransaction_returns hb.calm active
  obtain ⟨ht, keepsCommit⟩ := commitTransaction_ok hcommit
  exact ⟨t, (Effect.bind_of_ok hbegin).trans ((Effect.bind_of_ok hloop).trans hcommit),
    commit_sound hb hct ht keepsCommit⟩

theorem updateEntry_sound {row : Nat} {record : LogRecord} {s : Session} (h : s.Sound)
    (counted : row < s.header.writeCount) (noGap : row ≤ s.writeNext)
    (takes : s.index.tables.Takes row record.timestamp) :
    ∃ t, updateEntry row record s = (.ok (), t) ∧ t.Sound := by
  obtain ⟨t, ht, hcalm⟩ := updateEntry_returns h.calm h.stored h.linked counted noGap takes
  obtain ⟨_, _, _, himage, keeps⟩ := updateEntry_ok ht
  have hput := edit_eq_put h.linked counted record
  have hheader : t.header = s.header := by
    have := congrArg Image.header himage
    rw [hput] at this
    exact this
  have idle : t.index.transaction = none := by
    have : t.image.index.transaction = none := by
      rw [himage, hput]
      exact (write_transaction_none _ _).mpr h.idle
    exact this
  refine ⟨t, ht, ⟨⟨hcalm, fun r hr => keeps _ (h.stored r (by rw [← hheader]; exact hr)), ?_⟩, idle⟩⟩
  rw [himage]
  exact edit_linked h.linked counted record

/-- A call from a sound session returns exactly when the image accepts it, and
it does to the image what `Image.after` says. -/
theorem exec_sound {c : StoreCall} {s : Session} (h : s.Sound) (accepts : s.image.Accepts c) :
    ∃ t, exec c s = (.ok (), t) ∧ t.Sound := by
  cases c with
  | writeEntries entries => exact writeEntries_sound h accepts.1 accepts.2
  | updateEntry row record => exact updateEntry_sound h accepts.1 accepts.2.1 accepts.2.2

theorem exec_ok {c : StoreCall} {s t : Session} (h : s.Sound) (hc : exec c s = (.ok (), t)) :
    s.image.Accepts c ∧ t.Sound ∧ t.image = s.image.after c := by
  have start : s.writeNext < 2 ^ 31 := lt_of_le_of_lt h.linked.counted h.linked.bounded
  have both : s.image.Accepts c ∧ t.image = s.image.after c := by
    cases c with
    | writeEntries entries =>
      obtain ⟨_, small, numbers, himage, _⟩ := writeEntries_ok start hc
      exact ⟨⟨small, numbers⟩, himage⟩
    | updateEntry row record =>
      obtain ⟨counted, noGap, takes, himage, _⟩ := updateEntry_ok hc
      exact ⟨⟨counted, noGap, takes⟩, himage⟩
  obtain ⟨u, hu, sound⟩ := exec_sound h both.1
  have same : t = u := congrArg Prod.snd (hc.symm.trans hu)
  exact ⟨both.1, same ▸ sound, both.2⟩

theorem execAll_ok {calls : List StoreCall} {s t : Session} (h : s.Sound)
    (hc : execAll calls s = (.ok (), t)) :
    s.image.AcceptsAll calls ∧ t.Sound ∧ t.image = calls.foldl Image.after s.image := by
  induction calls generalizing s with
  | nil =>
    cases hc
    exact ⟨trivial, h, rfl⟩
  | cons c cs ih =>
    obtain ⟨_, mid, hm, hc⟩ := Effect.bind_eq_ok_iff.mp hc
    obtain ⟨accepts, sound, himage⟩ := exec_ok h hm
    obtain ⟨rest, final, hrest⟩ := ih sound hc
    rw [himage] at rest hrest
    exact ⟨⟨accepts, rest⟩, final, hrest⟩

theorem execAll_sound {calls : List StoreCall} {s : Session} (h : s.Sound)
    (accepts : s.image.AcceptsAll calls) : ∃ t, execAll calls s = (.ok (), t) ∧ t.Sound := by
  induction calls generalizing s with
  | nil => exact ⟨s, rfl, h⟩
  | cons c cs ih =>
    obtain ⟨mid, hm, sound⟩ := exec_sound h accepts.1
    obtain ⟨_, _, himage⟩ := exec_ok h hm
    obtain ⟨t, ht, final⟩ := ih sound (himage ▸ accepts.2)
    exact ⟨t, (Effect.bind_of_ok hm).trans ht, final⟩

end FsCore
