import FsCore.Browse
import FsCore.DataStore

namespace FsCore

/-- The rows that a query asks for: without a condition, as many as the index has. -/
def Session.selected (s : Session) (q : LogQuery) : List Nat :=
  if q.empty then List.range (s.index.tables.logIndex.count % 2 ^ 32)
  else (s.index.tables.logIndex.rows.filter (fun r => q.Selects r.2)).map Prod.fst

/-- The query of browse_all. -/
def LogQuery.any : LogQuery := ⟨[], [], [], false, false, .zero, .zero⟩

example : browse LogQuery.any = browseAll := rfl

/-- The row that a logical index of the view leads to. -/
def ViewBrowser.row (v : ViewBrowser) (i : Nat) : Nat := if v.fullView then i else v.rows.getD i 0

/-- browse returns a reference to the object's own browser: what the caller sees through it. -/
def Session.shown (s : Session) : List ParsedEntry :=
  (List.range s.browser.rowCount).map fun i => s.rowAt (s.browser.row i)

/-- What may happen after a view was returned, without a write. Of the calls of browse and
browse_all, the query of the last one that returned is kept. -/
inductive Browsed (s : Session) : Option LogQuery → Session → Prop
  | start : Browsed s none s
  | browsed {last : Option LogQuery} {t u : Session} {view : ViewBrowser}
      (hs : Browsed s last t) (q : LogQuery) (h : browse q t = (.ok view, u)) : Browsed s (some q) u
  | browsedAll {last : Option LogQuery} {t u : Session} {view : ViewBrowser} (hs : Browsed s last t)
      (h : browseAll t = (.ok view, u)) : Browsed s (some LogQuery.any) u
  | threw {last : Option LogQuery} {t u : Session} {e : StoreError}
      (hs : Browsed s last t) (q : LogQuery) (h : browse q t = (.error e, u)) : Browsed s last u
  | threwAll {last : Option LogQuery} {t u : Session} {e : StoreError} (hs : Browsed s last t)
      (h : browseAll t = (.error e, u)) : Browsed s last u
  | read {last : Option LogQuery} {t : Session} (hs : Browsed s last t) (mapped : List Nat)
      (faults : List Bool) :
      Browsed s last { t with readMapped := mapped, faults := faults }

section Queries

variable {s t : Session} {q : LogQuery}

/-- The view that a query makes. -/
def Session.viewOf (s : Session) (q : LogQuery) : ViewBrowser :=
  if q.empty then ⟨[], (s.selected q).length, true⟩ else ⟨s.selected q, (s.selected q).length, false⟩

theorem rowCount_ok {n : Nat} (h : rowCount s = (.ok n, t)) :
    n = s.index.tables.logIndex.count % 2 ^ 32 ∧ ∃ faults, t = { s with faults := faults } := by
  obtain ⟨_, a, ha, h⟩ := Effect.bind_eq_ok_iff.mp h
  obtain ⟨_, rfl⟩ := call_ok ha
  obtain ⟨_, b, hb, h⟩ := Effect.bind_eq_ok_iff.mp h
  obtain ⟨faults, rfl⟩ := call_ok hb
  cases h
  exact ⟨rfl, faults, rfl⟩

theorem queryRowIndices_ok {rows : List Nat} (some : q.empty = false)
    (h : queryRowIndices q s = (.ok rows, t)) :
    rows = s.selected q ∧ ∃ faults, t = { s with faults := faults } := by
  obtain ⟨_, a, ha, h⟩ := Effect.bind_eq_ok_iff.mp h
  obtain ⟨_, rfl⟩ := call_ok ha
  obtain ⟨_, b, hb, h⟩ := Effect.bind_eq_ok_iff.mp h
  obtain ⟨faults, rfl⟩ := call_ok hb
  cases h
  refine ⟨?_, faults, rfl⟩
  have same (r : Nat × IndexRow) : whereHolds r.2 q.conjuncts q.bindings = decide (q.Selects r.2) := by
    rw [Bool.eq_iff_iff, whereHolds_iff_selects, decide_eq_true_iff]
  rw [Session.selected, some]
  exact congrArg (List.map Prod.fst) (List.filter_congr fun r _ => same r)

theorem browseAll_ok {view : ViewBrowser} (h : browseAll s = (.ok view, t)) :
    ∃ faults, t = { s with browser := s.viewOf LogQuery.any, faults := faults } := by
  obtain ⟨n, a, hn, h⟩ := Effect.bind_eq_ok_iff.mp h
  obtain ⟨rfl, faults, rfl⟩ := rowCount_ok hn
  cases h
  have length : (s.selected LogQuery.any).length = s.index.tables.logIndex.count % 2 ^ 32 :=
    List.length_range
  rw [Session.viewOf, length]
  exact ⟨faults, rfl⟩

theorem browse_ok {view : ViewBrowser} (h : browse q s = (.ok view, t)) :
    ∃ faults, t = { s with browser := s.viewOf q, faults := faults } := by
  rw [browse] at h
  split at h
  next empty =>
    obtain ⟨faults, rfl⟩ := browseAll_ok h
    have all : s.selected q = s.selected LogQuery.any := by
      rw [Session.selected, if_pos empty]
      rfl
    refine ⟨faults, ?_⟩
    rw [show s.viewOf q = s.viewOf LogQuery.any by rw [Session.viewOf, if_pos empty, all]; rfl]
  next some =>
    have some : q.empty = false := by simpa using some
    obtain ⟨rows, a, hrows, h⟩ := Effect.bind_eq_ok_iff.mp h
    obtain ⟨rfl, faults, rfl⟩ := queryRowIndices_ok some hrows
    cases h
    refine ⟨faults, ?_⟩
    rw [Session.viewOf, some]
    rfl

/-- The calls of a query change nothing but which failures are still to come. -/
def SameButFaults (s t : Session) : Prop := ∃ faults, t = { s with faults := faults }

theorem SameButFaults.trans (s t u : Session) (hst : SameButFaults s t) (htu : SameButFaults t u) :
    SameButFaults s u := by
  obtain ⟨_, rfl⟩ := hst
  obtain ⟨faults, rfl⟩ := htu
  exact ⟨faults, rfl⟩

theorem call_sameButFaults (name : String) (s : Session) : SameButFaults s (call name s).2 := by
  unfold call
  split <;> exact ⟨_, rfl⟩

theorem rowCount_sameButFaults (s : Session) : SameButFaults s (rowCount s).2 :=
  Effect.bind_frame SameButFaults.trans (call_sameButFaults _ s) fun _ t _ =>
    Effect.bind_frame SameButFaults.trans (call_sameButFaults _ t) fun _ u _ => ⟨u.faults, rfl⟩

theorem queryRowIndices_sameButFaults (q : LogQuery) (s : Session) :
    SameButFaults s (queryRowIndices q s).2 :=
  Effect.bind_frame SameButFaults.trans (call_sameButFaults _ s) fun _ t _ =>
    Effect.bind_frame SameButFaults.trans (call_sameButFaults _ t) fun _ u _ => ⟨u.faults, rfl⟩

theorem browseAll_error {e : StoreError} (h : browseAll s = (.error e, t)) : SameButFaults s t := by
  have same := rowCount_sameButFaults s
  rcases Effect.bind_eq_error_iff.mp h with h | ⟨n, a, -, h⟩
  · rwa [h] at same
  · cases h

/-- A view that is not made leaves the one before. -/
theorem browse_error {e : StoreError} (h : browse q s = (.error e, t)) : SameButFaults s t := by
  rw [browse] at h
  split at h
  next => exact browseAll_error h
  next =>
    have same := queryRowIndices_sameButFaults q s
    rcases Effect.bind_eq_error_iff.mp h with h | ⟨rows, a, -, h⟩
    · rwa [h] at same
    · cases h

theorem rowAt_of_files {u : Session} (files : u.files = s.files) : u.rowAt = s.rowAt := by
  funext r
  rw [Session.rowAt, Session.rowAt, files]

/-- A view shows the rows that its query asked for. -/
theorem shown_viewOf {u : Session} (files : u.files = s.files) (view : u.browser = s.viewOf q) :
    u.shown = (s.selected q).map s.rowAt := by
  rw [Session.shown, rowAt_of_files files, view]
  by_cases empty : q.empty = true
  · have all : s.selected q = List.range (s.selected q).length := by
      rw [Session.selected, if_pos empty, List.length_range]
    have made : s.viewOf q = ⟨[], (s.selected q).length, true⟩ := if_pos empty
    rw [made]
    conv => rhs; rw [all]
    rfl
  · have made : s.viewOf q = ⟨s.selected q, (s.selected q).length, false⟩ := if_neg empty
    rw [made]
    refine List.ext_getElem (by simp) (fun i hi _ => ?_)
    have bound : i < (s.selected q).length := by simpa using hi
    simp [ViewBrowser.row, List.getD_eq_getElem?_getD, bound]

theorem selected_congr {u : Session} (index : u.index = s.index) : u.selected q = s.selected q := by
  rw [Session.selected, Session.selected, index]

theorem viewOf_congr {u : Session} (index : u.index = s.index) : u.viewOf q = s.viewOf q := by
  rw [Session.viewOf, Session.viewOf, selected_congr index]

end Queries

/-- What a reader of the view finds, given the query of the last call that returned. -/
def Session.shownAfter (s : Session) : Option LogQuery → List ParsedEntry
  | none => s.shown
  | some q => (s.selected q).map s.rowAt

theorem Browsed.shown {s t : Session} {last : Option LogQuery} (h : Browsed s last t) :
    t.files = s.files ∧ t.index = s.index ∧ t.shown = s.shownAfter last := by
  induction h with
  | start => exact ⟨rfl, rfl, rfl⟩
  | browsed hs q run ih =>
    obtain ⟨faults, rfl⟩ := browse_ok run
    exact ⟨ih.1, ih.2.1, shown_viewOf ih.1 (viewOf_congr ih.2.1)⟩
  | @browsedAll last t u view hs run ih =>
    obtain ⟨faults, rfl⟩ := browseAll_ok run
    have same : t.viewOf LogQuery.any = s.viewOf LogQuery.any := viewOf_congr ih.2.1
    exact ⟨ih.1, ih.2.1, shown_viewOf ih.1 same⟩
  | threw hs q run ih =>
    obtain ⟨faults, rfl⟩ := browse_error run
    exact ⟨ih.1, ih.2.1, ih.2.2⟩
  | threwAll hs run ih =>
    obtain ⟨faults, rfl⟩ := browseAll_error run
    exact ⟨ih.1, ih.2.1, ih.2.2⟩
  | read hs mapped faults ih => exact ih

/-- What is read through the view are the rows that it shows. -/
theorem viewAt_shown {t u : Session} {i : Nat} {e : ParsedEntry} (h : viewAt i t = (.ok e, u)) :
    t.shown[i]? = some e := by
  simp only [viewAt, Effect.read_bind] at h
  split at h
  next => cases h
  next bound =>
    have row : e = t.rowAt (t.browser.row i) := by
      split at h
      next full =>
        rw [ViewBrowser.row, if_pos full]
        exact (readAt_ok h).2
      next picked =>
        rw [ViewBrowser.row, if_neg picked]
        exact (readAt_ok h).2
    have within : i < t.browser.rowCount := not_le.mp bound
    rw [Session.shown, List.getElem?_map, List.getElem?_range within, row]
    rfl

/-- When a view still has its size and its rows: only the last later call that returned matters. -/
theorem view_keeps_iff {s s' t : Session} {q : LogQuery} {view : ViewBrowser} {last : Option LogQuery}
    (made : browse q s = (.ok view, s')) (later : Browsed s' last t) :
    (t.shown = s'.shown ↔ ∀ q', last = some q' →
      (s.selected q').map s.rowAt = (s.selected q).map s.rowAt) ∧
      t.browser.rowCount = t.shown.length ∧
      ∀ i e u, viewAt i t = (.ok e, u) → t.shown[i]? = some e := by
  obtain ⟨faults, rfl⟩ := browse_ok made
  have first : ({ s with browser := s.viewOf q, faults := faults } : Session).shown =
    (s.selected q).map s.rowAt :=
    shown_viewOf rfl rfl
  refine ⟨?_, by simp [Session.shown], fun i e u h => viewAt_shown h⟩
  rw [later.shown.2.2]
  cases last with
  | none =>
    refine ⟨fun _ q' none => ?_, fun _ => rfl⟩
    cases none
  | some q' =>
    rw [first]
    constructor
    · intro same q'' eq
      cases eq
      exact same
    · exact fun same => same q' rfl

/-- Two messages of different ids. -/
def twoIds : Session :=
  (storeSession [.writeEntries [sampleRecord, { sampleRecord with canId := 7 }]] Session.fresh).2

def fiveOnly : LogQuery := ⟨[5], [], [], false, false, .zero, .zero⟩

theorem view_keeps_iff_sample :
    let s' := (browse fiveOnly twoIds).2
    let t := (browse fiveOnly s').2
    (t.shown = s'.shown ↔ ∀ q', some fiveOnly = some q' →
      (twoIds.selected q').map twoIds.rowAt = (twoIds.selected fiveOnly).map twoIds.rowAt) ∧
      t.browser.rowCount = t.shown.length ∧ ∀ i e u, viewAt i t = (.ok e, u) →
        t.shown[i]? = some e := by
  intro s' t
  have first : (browse fiveOnly twoIds).1 = .ok ⟨[0], 1, false⟩ := by decide +kernel
  have second : (browse fiveOnly s').1 = .ok ⟨[0], 1, false⟩ := by decide +kernel
  exact view_keeps_iff (pair_of_fst first) (.browsed .start fiveOnly (pair_of_fst second))

/-- The view of one id, and then browse_all: the view has the rows of both. -/
theorem view_changes : ¬ ∀ s, Reached (fun _ _ => True) s → ∀ q view s', browse q s = (.ok view, s') →
    ∀ last t, Browsed s' last t → t.shown = s'.shown := by
  intro keeps
  have reached : Reached (fun _ _ => True) twoIds :=
    @Reached.of_session [.writeEntries [sampleRecord, { sampleRecord with canId := 7 }]] _ rfl
  have first : (browse fiveOnly twoIds).1 = .ok ⟨[0], 1, false⟩ := by decide +kernel
  have second : (browseAll (browse fiveOnly twoIds).2).1 = .ok ⟨[], 2, true⟩ := by decide +kernel
  have same := keeps twoIds reached fiveOnly _ _ (pair_of_fst first) _ _
    (.browsedAll .start (pair_of_fst second))
  have one : (browse fiveOnly twoIds).2.browser.rowCount = 1 := by decide +kernel
  have two : (browseAll (browse fiveOnly twoIds).2).2.browser.rowCount = 2 := by decide +kernel
  have length := congrArg List.length same
  rw [Session.shown, Session.shown, List.length_map, List.length_map, List.length_range,
    List.length_range, one, two] at length
  omega

end FsCore
