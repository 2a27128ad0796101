import FsCore.Chains

namespace FsCore

/-- Every row is linked to the nearest earlier row of its id and compared with that row. -/
structure Image.Chained (g : Image) : Prop where
  links : LinksBack g.row g.header.writeCount
  derived : ∀ r, r < g.header.writeCount → Derived g.row r

def Session.Chained (s : Session) : Prop := s.image.Chained

/-- No other stored row has the id of a row or the id that the row is to get. -/
def Alone (row : Nat → ParsedEntry) (n edited : Nat) (record : LogRecord) : Prop :=
  ∀ j, j < n → j ≠ edited → (row j).canId ≠ (row edited).canId ∧ (row j).canId ≠ record.canId

/-- The tracker is right about the ids of a batch; an update disturbs no row, and if it changes
the id no other row has the old or the new one. -/
def keepsChains (s : Session) : StoreCall → Prop
  | .writeEntries entries => ∀ record ∈ entries, s.image.TracksId record.canId
  | .updateEntry row record =>
    if record.canId = (s.rowAt row).canId then
      ∀ r, r < s.header.writeCount → Undisturbed s.rowAt row record r
    else Alone s.rowAt s.header.writeCount row record

theorem linkTo_inj {n : Nat} {a b : Option Nat} (small : n ≤ 2 ^ 31) (ha : ∀ p, a = some p → p < n)
    (hb : ∀ p, b = some p → p < n) (h : linkTo a = linkTo b) : a = b := by
  have valid {p : Nat} (hp : p < n) : UInt32.ofNat p ≠ kInvalidRow := ofNat_row_ne_invalid (by omega)
  cases a with
  | none =>
    cases b with
    | none => rfl
    | some q => exact absurd h.symm (valid (hb q rfl))
  | some p =>
    cases b with
    | none => exact absurd h (valid (ha p rfl))
    | some q =>
      have same := congrArg UInt32.toNat (show UInt32.ofNat p = UInt32.ofNat q from h)
      have hp := ha p rfl
      have hq := hb q rfl
      rw [toNat_ofNat_row (by omega), toNat_ofNat_row (by omega)] at same
      rw [same]

section Batch

variable {g : Image} {record : LogRecord}

/-- A row that is appended is chained exactly when the tracker is right about its id. -/
theorem append_chained_iff (hm : g.nextIndex = g.header.writeCount) (hl : g.Linked) (h : g.Chained) :
    (g.append record).Chained ↔ g.TracksId record.canId := by
  have small : g.nextIndex < 2 ^ 31 := hm ▸ hl.bounded
  constructor
  · intro chained
    have link := chained.links g.nextIndex (by rw [append_writeCount]; omega)
    rw [append_row_last, nearestRow_append_last, hm] at link
    change (g.lastRow record.canId).getD kInvalidRow = _ at link
    rw [Image.TracksId]
    cases hb : lastBelow? (fun j => (g.row j).canId == record.canId) g.header.writeCount with
    | none =>
      rw [hb] at link
      cases hlast : g.lastRow record.canId with
      | none => rfl
      | some p =>
        have tracked := hl.tracked _ p hlast
        rw [hlast] at link
        rw [show p = kInvalidRow from link] at tracked
        exact absurd (tracked.trans small) (by decide)
    | some q =>
      have bound := lastBelow?_lt hb
      rw [hb] at link
      cases hlast : g.lastRow record.canId with
      | none =>
        rw [hlast] at link
        exact absurd link.symm (ofNat_row_ne_invalid (show q < 2 ^ 31 by omega))
      | some p =>
        rw [hlast] at link
        exact congrArg some link
  · intro tracks
    exact ⟨append_linksBack hm tracks h.links, fun r hr => append_derived hm small tracks h.derived hr⟩

theorem append_tracks_all (hm : g.nextIndex = g.header.writeCount) (tracks : g.TracksId record.canId)
    (id : UInt32) : (g.append record).TracksId id ↔ g.TracksId id := by
  by_cases same : id = record.canId
  · rw [same]
    exact iff_of_true append_tracks_self tracks
  · exact append_tracks_iff hm same

/-- Rows that are appended later change nothing about the rows before. -/
theorem chained_of_foldl_append {entries : List LogRecord} (hm : g.nextIndex = g.header.writeCount)
    (counted : g.header.writeCount ≤ (entries.foldl Image.append g).header.writeCount)
    (h : (entries.foldl Image.append g).Chained) : g.Chained := by
  have rows (j : Nat) (hj : j < g.header.writeCount) : (entries.foldl Image.append g).row j = g.row j :=
    foldl_append_row entries (by omega)
  have near (r : Nat) (hr : r < g.header.writeCount) :
      nearestRow (entries.foldl Image.append g).row r = nearestRow g.row r :=
    nearestRow_congr (fun j hj => by rw [rows j (by omega)])
  refine ⟨fun r hr => ?_, fun r hr => ?_⟩
  · rw [← near r hr, ← rows r hr]
    exact h.links r (by omega)
  · refine (derived_congr (near r hr) (rows r hr) ?_).mp (h.derived r (by omega))
    intro p hp
    exact rows p (by have := nearestRow_lt hp; omega)

end Batch

theorem foldl_chained_iff {entries : List LogRecord} {g : Image}
    (hm : g.nextIndex = g.header.writeCount) (hl : g.Linked)
    (small : g.nextIndex + entries.length < 2 ^ 31) (h : g.Chained) :
    (entries.foldl Image.append g).Chained ↔ ∀ record ∈ entries, g.TracksId record.canId := by
  induction entries generalizing g with
  | nil => exact iff_of_true h (fun _ hr => by cases hr)
  | cons record rest ih =>
    rw [List.length_cons] at small
    have next := append_nextIndex g record
    have linked : (g.append record).Linked := append_linked hl (by omega) record
    have whole : (g.append record).nextIndex = (g.append record).header.writeCount := rfl
    have final := foldl_append_linked rest linked (by omega)
    have count := foldl_append_nextIndex rest (g.append record)
    rw [List.foldl_cons, List.forall_mem_cons]
    constructor
    · intro chained
      have first : (g.append record).Chained :=
        chained_of_foldl_append whole (by have := final.counted; omega) chained
      have tracks := (append_chained_iff hm hl h).mp first
      refine ⟨tracks, fun r hr => (append_tracks_all hm tracks r.canId).mp ?_⟩
      exact (ih whole linked (by omega) first).mp chained r hr
    · intro both
      obtain ⟨tracks, later⟩ := both
      have first := (append_chained_iff hm hl h).mpr tracks
      exact (ih whole linked (by omega) first).mpr
        (fun r hr => (append_tracks_all hm tracks r.canId).mpr (later r hr))

theorem appendAll_chained_iff {g : Image} (hm : g.nextIndex = g.header.writeCount) (hl : g.Linked)
    {entries : List LogRecord} (small : g.nextIndex + entries.length < 2 ^ 31) (h : g.Chained) :
    (g.appendAll entries).Chained ↔ ∀ record ∈ entries, g.TracksId record.canId := by
  have begun : g.begin.Linked := ⟨hl.counted, hl.bounded, hl.tracked, hl.backward, hl.ended⟩
  have chained : g.begin.Chained := ⟨h.links, h.derived⟩
  rw [← show (g.begin.TracksId = g.TracksId) from rfl,
    ← foldl_chained_iff (g := g.begin) hm begun small chained]
  exact ⟨fun h => ⟨h.links, h.derived⟩, fun h => ⟨h.links, h.derived⟩⟩

theorem nearestRow_eq_some_iff {row : Nat → ParsedEntry} {r p : Nat} : nearestRow row r = some p ↔
    p < r ∧ (row p).canId = (row r).canId ∧ ∀ k, p < k → k < r → (row k).canId ≠ (row r).canId := by
  simp [nearestRow, lastBelow?_eq_some_iff]

/-- Rows that differ in one row, which keeps its link but not its id: both are linked only if no
other row has the id of that row. -/
theorem alone_of_linksBack {row row' : Nat → ParsedEntry} {n edited : Nat} (small : n ≤ 2 ^ 31)
    (counted : edited < n) (others : ∀ j, j ≠ edited → row' j = row j)
    (prev : (row' edited).prevSameCan = (row edited).prevSameCan)
    (differ : (row' edited).canId ≠ (row edited).canId) (links : LinksBack row n)
    (links' : LinksBack row' n) {j : Nat} (hj : j < n) (other : j ≠ edited) :
    (row j).canId ≠ (row edited).canId := by
  have bound (row : Nat → ParsedEntry) {r : Nat} (hr : r < n) (p : Nat) (hp : nearestRow row r =
    some p) : p < n :=
    (nearestRow_lt hp).trans hr
  have same {r : Nat} (hr : r < n) (prev : (row' r).prevSameCan = (row r).prevSameCan) :
      nearestRow row' r = nearestRow row r := by
    refine linkTo_inj small (bound row' hr) (bound row hr) ?_
    exact (links' r hr).symm.trans (prev.trans (links r hr))
  rcases Nat.lt_or_gt_of_ne other with before | after
  · have first : nearestRow row edited = none := by
      cases hp : nearestRow row edited with
      | none => rfl
      | some p =>
        obtain ⟨lt, old, -⟩ := nearestRow_eq_some_iff.mp hp
        obtain ⟨-, new, -⟩ := nearestRow_eq_some_iff.mp ((same counted prev).trans hp)
        rw [others p (by omega)] at new
        exact absurd (new.symm.trans old) differ
    exact nearestRow_eq_none_iff.mp first j before
  · -- the first later row of the id would be linked to the edited row on both sides
    induction j using Nat.strong_induction_on with
    | _ j ih =>
      intro old
      have near : nearestRow row j = some edited :=
        nearestRow_eq_some_iff.mpr ⟨after, old.symm, fun k hk hkj => by
          rw [old]
          exact ih k hkj (by omega) (by omega) hk⟩
      have near' := (same hj (by rw [others j other])).trans near
      obtain ⟨-, new, -⟩ := nearestRow_eq_some_iff.mp near'
      rw [others j other] at new
      exact differ (new.trans old)

section Edit

variable {g : Image} {edited : Nat} {record : LogRecord}

theorem edit_same_id_iff (hl : g.Linked) (counted : edited < g.header.writeCount) (h : g.Chained)
    (keeps : record.canId = (g.row edited).canId) : (g.edit edited record).Chained ↔
      ∀ r, r < g.header.writeCount → Undisturbed g.row edited record r := by
  rw [← derived_edit_iff keeps hl counted h.links h.derived]
  constructor
  · intro chained r hr
    exact chained.derived r (by rw [edit_header hl counted]; exact hr)
  · intro derived
    refine ⟨edit_linksBack keeps hl counted h.links, fun r hr => derived r ?_⟩
    rwa [edit_header hl counted] at hr

theorem edit_near (alone : Alone g.row g.header.writeCount edited record) {r : Nat}
    (hr : r < g.header.writeCount) (other : r ≠ edited) :
    nearestRow (Function.update g.row edited (g.recompute edited record)) r = nearestRow g.row r := by
  obtain ⟨old, new⟩ := alone r hr other
  apply lastBelow?_congr
  intro k hk
  rw [Function.update_of_ne other]
  by_cases own : k = edited
  · rw [own, Function.update_self, beq_eq_false_iff_ne.mpr (Ne.symm old)]
    exact beq_eq_false_iff_ne.mpr (Ne.symm new)
  · rw [Function.update_of_ne own]

theorem edit_chained_iff (hl : g.Linked) (counted : edited < g.header.writeCount) :
    (g.edit edited record).Chained ↔
      LinksBack (Function.update g.row edited (g.recompute edited record)) g.header.writeCount ∧
        ∀ r, r < g.header.writeCount →
          Derived (Function.update g.row edited (g.recompute edited record)) r := by
  have row := edit_row hl counted record
  have header := edit_header hl counted record
  exact ⟨fun c => ⟨row ▸ header ▸ c.links, row ▸ header ▸ c.derived⟩,
    fun c => ⟨row ▸ header ▸ c.1, row ▸ header ▸ c.2⟩⟩

/-- A row that is alone is the first of its id, before the update and after it. -/
theorem nearestRow_alone (counted : edited < g.header.writeCount)
    (alone : Alone g.row g.header.writeCount edited record) : nearestRow g.row edited = none ∧
      nearestRow (Function.update g.row edited (g.recompute edited record)) edited = none := by
  refine ⟨nearestRow_eq_none_iff.mpr fun k hk => (alone k (by omega) (by omega)).1,
    nearestRow_eq_none_iff.mpr fun k hk => ?_⟩
  rw [Function.update_of_ne (by omega), Function.update_self]
  exact (alone k (by omega) (by omega)).2

theorem alone_of_edit_linksBack (hl : g.Linked) (changes : record.canId ≠ (g.row edited).canId)
    (counted : edited < g.header.writeCount) (links : LinksBack g.row g.header.writeCount)
    (links' : LinksBack (Function.update g.row edited (g.recompute edited record))
      g.header.writeCount) : Alone g.row g.header.writeCount edited record := by
  intro j hj other
  have own : Function.update g.row edited (g.recompute edited record) edited =
    g.recompute edited record :=
    Function.update_self _ _ _
  have others (j : Nat) (hj : j ≠ edited) :
      Function.update g.row edited (g.recompute edited record) j = g.row j :=
        Function.update_of_ne hj _ _
  have small : g.header.writeCount ≤ 2 ^ 31 := by
    have := hl.bounded
    omega
  have old := alone_of_linksBack small counted others (by rw [own]; rfl)
    (by rw [own]; exact changes) links links'
    hj other
  have new := alone_of_linksBack small counted (fun j hj => (others j hj).symm) (by rw [own]; rfl)
    (by rw [own]; exact Ne.symm changes) links' links hj other
  rw [others j other, own] at new
  exact ⟨old, new⟩

theorem edit_new_id_iff (hl : g.Linked) (counted : edited < g.header.writeCount) (h : g.Chained)
    (changes : record.canId ≠ (g.row edited).canId) :
    (g.edit edited record).Chained ↔ Alone g.row g.header.writeCount edited record := by
  rw [edit_chained_iff hl counted]
  constructor
  · intro both
    exact alone_of_edit_linksBack hl changes counted h.links both.1
  · intro alone
    obtain ⟨first, first'⟩ := nearestRow_alone counted alone
    have unlinked : (g.row edited).prevSameCan = kInvalidRow := by
      rw [h.links edited counted, first]
      rfl
    refine ⟨fun r hr => ?_, fun r hr => ?_⟩
    · by_cases same : r = edited
      · rw [same, first', Function.update_self]
        exact unlinked
      · rw [edit_near alone hr same, Function.update_of_ne same]
        exact h.links r hr
    · by_cases same : r = edited
      · rw [same, Derived, first', Function.update_self]
        simp [Image.recompute, recomputed, unlinked]
      · refine (derived_congr (edit_near alone hr same) (Function.update_of_ne same _ _) ?_).mpr
          (h.derived r hr)
        intro p hp
        refine Function.update_of_ne ?_ _ _
        rintro rfl
        exact (alone r hr same).1 (nearestRow_eq_some_iff.mp hp).2.1.symm

end Edit

/-- A call keeps the chains exactly when it is one of those that `keepsChains` allows. -/
theorem after_chained_iff {s : Session} {c : StoreCall} (sound : s.Sound)
    (whole : s.writeNext = s.header.writeCount) (h : s.Chained) (accepts : s.image.Accepts c) :
    (s.image.after c).Chained ↔ keepsChains s c := by
  cases c with
  | writeEntries entries => exact appendAll_chained_iff whole sound.linked accepts.1 h
  | updateEntry row record =>
    rw [keepsChains]
    split
    next keeps => exact edit_same_id_iff sound.linked accepts.1 h keeps
    next changes => exact edit_new_id_iff sound.linked accepts.1 h changes

theorem Reached.chained {s : Session} (hs : Reached keepsChains s) : s.Chained := by
  induction hs with
  | start h =>
    obtain ⟨u, hu, -, himage⟩ := construct_fresh
    cases h.symm.trans hu
    rw [Session.Chained, himage]
    exact ⟨opened_agreeing.threaded.links, opened_agreeing.derived⟩
  | returns hs ha h ih =>
    obtain ⟨accepts, -, himage⟩ := exec_ok hs.sound h
    rw [Session.Chained, himage]
    exact (after_chained_iff hs.sound hs.mirrored.whole ih accepts).mpr ha
  | refused hs hr h ih =>
    cases h.symm.trans (updateEntry_refused hr)
    exact ih

/-- In a session whose calls all keep the chains every row is chained, and the next call leaves
every row chained exactly when it is such a call too. -/
theorem chained_of_keepsChains {s : Session} (hs : Reached keepsChains s) :
    s.Chained ∧ ∀ c t, exec c s = (.ok (), t) → (t.Chained ↔ keepsChains s c) := by
  refine ⟨hs.chained, fun c t ht => ?_⟩
  obtain ⟨accepts, -, himage⟩ := exec_ok hs.sound ht
  rw [Session.Chained, himage]
  exact after_chained_iff hs.sound hs.mirrored.whole hs.chained accepts

theorem chained_of_keepsChains_sample :
    let moved : LogRecord := { sampleRecord with canId := 6 }
    let s := (exec (.updateEntry 0 moved)
      (storeSession [.writeEntries [sampleRecord]] Session.fresh).2).2
    s.Chained ∧ ∀ c t, exec c s = (.ok (), t) → (t.Chained ↔ keepsChains s c) := by
  intro moved s
  let written := (storeSession [.writeEntries [sampleRecord]] Session.fresh).2
  have first : Reached keepsChains written :=
    .returns (c := .writeEntries [sampleRecord]) (.start rfl) (fun record hr => by
      rw [List.mem_singleton.mp hr, Image.TracksId]
      decide +kernel) rfl
  have changes : moved.canId ≠ (written.rowAt 0).canId := by decide +kernel
  have one : written.header.writeCount = 1 := by decide +kernel
  refine chained_of_keepsChains (.returns (c := .updateEntry 0 moved) first ?_ rfl)
  rw [keepsChains, if_neg changes]
  intro j hj other
  omega

/-- Two messages of one id, and then the first one gets another id: the second stays linked to it. -/
theorem moved_row_stays_linked : ¬ ∀ s row record t, Reached (fun _ _ => True) s →
    record.canId ≠ (s.rowAt row).canId →
      exec (.updateEntry row record) s = (.ok (), t) → t.Chained := by
  intro all
  let moved : LogRecord := { sampleRecord with canId := 6 }
  let s := (storeSession [.writeEntries [sampleRecord, sampleRecord]] Session.fresh).2
  let t := (exec (.updateEntry 0 moved) s).2
  have written : storeSession [.writeEntries [sampleRecord, sampleRecord]] Session.fresh =
    (.ok (), s) := rfl
  have chained := all s 0 moved t (.of_session written) (by decide +kernel) rfl
  have link := chained.links 1 (by decide +kernel)
  have linked : (t.image.row 1).prevSameCan = 0 := by decide +kernel
  have near : nearestRow t.image.row 1 = none := by decide +kernel
  rw [linked, near] at link
  exact absurd link (by decide)

end FsCore
