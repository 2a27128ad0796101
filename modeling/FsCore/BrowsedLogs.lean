import FsCore.OpenRace
import FsCore.Recovery

namespace FsCore

/-- The plain filter of the rows that a log determines. -/
def referenceMatching (log : List LogRecord) (q : LogQuery) : List Nat :=
  (List.range log.length).filter (fun i => q.Admits (referenceRow log i))

theorem referenceRow_bit (log : List LogRecord) (i : Nat) :
    (referenceRow log i).changed = 0 ∨ (referenceRow log i).changed = 1 := by
  simp only [referenceRow]
  cases previousRow log i with
  | none => exact .inl rfl
  | some j =>
    dsimp only
    split
    next => exact .inl rfl
    next => exact .inr rfl

section Left

variable {entries records : List LogRecord} {store left : TokenStore} {filePath tokenId text : Text}
  {faults : List Bool} {s t : Session}

/-- A round of write_entries ends with the counter in a header of full size. -/
theorem writeEntry_header {record : LogRecord} (h : writeEntry record s = (.ok (), t)) :
    ∃ header, t.files.header = .bytes header := by
  simp only [writeEntry, Effect.read_bind] at h
  obtain ⟨_, a, -, h⟩ := Effect.bind_eq_ok_iff.mp h
  obtain ⟨_, b, -, h⟩ := Effect.bind_eq_ok_iff.mp h
  obtain ⟨_, c, happend, h⟩ := Effect.bind_eq_ok_iff.mp h
  obtain ⟨-, rest, rfl⟩ := appendIndex_ok h
  obtain ⟨_, d, -, happend⟩ := Effect.bind_eq_ok_iff.mp happend
  cases happend
  exact ⟨_, rfl⟩

theorem writeEntries_header (h : writeEntries entries s = (.ok (), t))
    (sized : ∃ header, s.files.header = .bytes header) : ∃ header, t.files.header = .bytes header := by
  obtain ⟨_, a, hbegin, h⟩ := Effect.bind_eq_ok_iff.mp h
  obtain ⟨_, b, hloop, hcommit⟩ := Effect.bind_eq_ok_iff.mp h
  have begun : a.files = s.files := by
    obtain ⟨_, mid, hcall, hbegin⟩ := Effect.bind_eq_ok_iff.mp hbegin
    obtain ⟨rest, rfl⟩ := call_ok hcall
    simp only [Effect.read_bind] at hbegin
    cases idle : s.index.transaction with
    | none =>
      rw [idle] at hbegin
      cases hbegin
      rfl
    | some tables =>
      rw [idle] at hbegin
      cases hbegin
  have committed : t.files = b.files := by
    obtain ⟨_, mid, hcall, hcommit⟩ := Effect.bind_eq_ok_iff.mp hcommit
    obtain ⟨rest, rfl⟩ := call_ok hcall
    simp only [Effect.read_bind] at hcommit
    cases active : b.index.transaction with
    | none =>
      rw [active] at hcommit
      cases hcommit
    | some tables =>
      rw [active] at hcommit
      cases hcommit
      rfl
  rw [committed]
  exact Effect.forEach_ok (fun _ u => ∃ header, u.files.header = .bytes header)
    (fun _ _ _ _ _ hx => writeEntry_header hx) (begun ▸ sized) hloop

/-- The constructor leaves the first segment in full size. -/
theorem construct_first (h : construct (store.start faults) = (.ok (), s)) : s.HasSegment 0 := by
  obtain ⟨_, a, ha, h⟩ := Effect.bind_eq_ok_iff.mp h
  obtain ⟨_, b, hb, h⟩ := Effect.bind_eq_ok_iff.mp h
  refine (openReaders_ok h).keeps 0 ?_
  have unmapped : a.writeMapped = [] := openHeaderRw_writeMapped ha
  simp only [openOrCreateSegmentForWrite, Effect.read_bind, unmapped, List.not_mem_nil, if_false] at hb
  obtain ⟨_, c, hc, hb⟩ := Effect.bind_eq_ok_iff.mp hb
  cases hb
  rcases mmapOpenOrCreate_ok (by intros; rfl) hc with ⟨rows, rest, there, rfl⟩ | ⟨-, rest, rfl⟩
  · exact ⟨rows, there⟩
  · exact ⟨Segment.zero, by simp [Session.setSegment]⟩

/-- A run that reports success leaves no file in the middle of its creation. -/
theorem workerStore_whole (earlier : Attempts records .empty store)
    (hs : workerStore filePath records (store.start faults) = (.ok (), s)) :
    (s.left.start []).Calm := by
  have within : WithinRows records.length s.files.segments [] :=
    Attempts.within (earlier.tail (workerStore_attempt hs))
  have stored (r : Nat) (hr : r < records.length) := workerStore_stored hs hr
  obtain ⟨_, a, ha, hs⟩ := Effect.bind_eq_ok_iff.mp hs
  obtain ⟨_, b, hb, hs⟩ := Effect.bind_eq_ok_iff.mp hs
  obtain rfl : (setSourceFilePath filePath a).2 = b := congrArg Prod.snd hb
  obtain ⟨next, -, -, -⟩ := @named_image store filePath faults a ha
  have next : (setSourceFilePath filePath a).2.writeNext = 0 := next
  obtain ⟨header, sized⟩ := writeEntries_header hs ⟨_, rfl⟩
  have keeps := (writeEntries_ok (by omega) hs).2.2.2.2
  have first : a.HasSegment 0 := construct_first ha
  refine ⟨rfl, ?_, fun i empty => ?_⟩
  · change s.files.header ≠ .empty
    simp [sized]
  · have empty : s.files.segments i = .empty := empty
    have whole : s.HasSegment i := by
      rcases within i (by simp [empty]) with rfl | reached
      · exact keeps 0 first
      · have own := stored _ reached
        rwa [Nat.mul_div_cancel i (by decide)] at own
    obtain ⟨rows, hrows⟩ := whole
    rw [hrows] at empty
    cases empty

/-- The object that opens the token next has the rows of the log, indexed, before it. -/
theorem opened_browsable (earlier : Attempts records .empty store)
    (hs : workerStore filePath records (store.start faults) = (.ok (), s)) :
    ∃ a, construct (s.left.start []) = (.ok (), a) ∧ a.Browsable ∧
      a.header.writeCount = records.length ∧
      ∀ i, i < records.length → a.rowAt i = referenceRow records i := by
  obtain ⟨holds, tables, rows⟩ := workerStore_after earlier hs
  obtain ⟨a, ha, calm⟩ := construct_returns (workerStore_whole earlier hs)
  obtain ⟨image, keeps⟩ := construct_ok ha
  have count : a.header.writeCount = records.length := by
    have opened : a.header = (s.left.start []).header.opened := congrArg Image.header image
    rw [opened, opened_writeCount]
    exact holds.2.1
  have row (i : Nat) (hi : i < records.length) : a.rowAt i = referenceRow records i :=
    (congrFun (congrArg Image.row image) i).trans (rows i hi)
  have index : a.index.tables = referenceTables records := by
    have opened : a.index = ⟨s.left.tables, none⟩ := congrArg Image.index image
    rw [opened]
    exact tables
  refine ⟨a, ha, ⟨calm, fun r hr => keeps _ ?_, ?_, fun i hi => ?_, ?_⟩, count, row⟩
  · exact workerStore_stored hs (count ▸ hr)
  · rw [count]
    exact (workerStore_ok hs).small
  · rw [row i (count ▸ hi)]
    exact referenceRow_bit records i
  · rw [index, count]
    exact Table.ofRange_congr fun i hi => by rw [row i hi]

/-- From the text of a log to the rows of a view: once a run on the file has reported success,
after however many that were killed or failed, a query shows the records of the file that
satisfy it, once each and in their order. -/
theorem worker_log_browsed (earlier : Attempts records .empty store)
    (read : workerReader.readAll text = .ok records)
    (run : runWorkerSegmented filePath tokenId (some text) faults store = (some 0, left))
    {q : LogQuery} (keys : ∀ c ∈ q.channels, IsChannelKey c) {query : StoreM ViewBrowser}
    (path : query = browse q ∨ query = browseRows q) :
    ∃ a view t, construct (left.start []) = (.ok (), a) ∧ query a = (.ok view, t) ∧
      view.rowCount = (referenceMatching records q).length ∧
      ∀ is : List Nat, (∀ i ∈ is, i < view.rowCount) → ∃ u, viewRows is t =
        (.ok (is.map fun i => referenceRow records ((referenceMatching records q).getD i 0)), u) := by
  obtain ⟨s, hs, rfl⟩ := successful_run read run
  obtain ⟨a, ha, browsable, count, row⟩ := opened_browsable earlier hs
  obtain ⟨view, t, hview, size, reads⟩ := browse_of_browsable browsable keys path
  have matching : a.matching q = referenceMatching records q := by
    rw [Session.matching, referenceMatching, count]
    refine List.filter_congr fun i hi => ?_
    rw [row i (List.mem_range.mp hi)]
  rw [matching] at size reads
  refine ⟨a, view, t, ha, hview, size, fun is his => ?_⟩
  obtain ⟨u, hu⟩ := reads is his
  refine ⟨u, hu.trans (congrArg (fun rows => (Except.ok rows, u)) (List.map_congr_left fun i hi => ?_))⟩
  have inside : i < (referenceMatching records q).length := size ▸ his i hi
  have picked : (referenceMatching records q).getD i 0 ∈ referenceMatching records q := by
    simp [List.getD_eq_getElem?_getD, inside]
  exact row _ (List.mem_range.mp (List.mem_filter.mp picked).1)

theorem worker_log_browsed_sample :
    let q : LogQuery := ⟨[], ["1".toList], [], false, false, .zero, .zero⟩
    ∃ records, workerReader.readAll twoLines = .ok records ∧ ∃ a view t,
      construct ((workerRun twoLines (brokenRun 24 twoLines .empty).2).2.start []) = (.ok (), a) ∧
      browse q a = (.ok view, t) ∧ view.rowCount = (referenceMatching records q).length ∧
      ∀ is : List Nat, (∀ i ∈ is, i < view.rowCount) → ∃ u, viewRows is t =
        (.ok (is.map fun i => referenceRow records ((referenceMatching records q).getD i 0)), u) := by
  intro q
  have reads : (workerReader.readAll twoLines).isOk = true := by decide +kernel
  cases read : workerReader.readAll twoLines with
  | error i =>
    rw [read] at reads
    cases reads
  | ok records =>
    have earlier : Attempts records .empty (brokenRun 24 twoLines .empty).2 := by
      rcases worker_attempt read (Prod.eta (brokenRun 24 twoLines .empty)).symm with same | attempt
      · rw [same]
      · exact .single attempt
    have keys : ∀ c ∈ q.channels, IsChannelKey c := by
      intro c hc
      rw [List.mem_singleton.mp hc]
      exact ⟨"1".toList, by decide, by decide⟩
    exact ⟨records, rfl,
      worker_log_browsed earlier read (pair_of_fst (by decide +kernel)) keys (.inl rfl)⟩

end Left

end FsCore
