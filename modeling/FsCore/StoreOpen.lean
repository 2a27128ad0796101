import FsCore.StoreRuns

namespace FsCore

/-- The header as the constructor leaves it. -/
def MmapHeader.opened (h : MmapHeader) : MmapHeader :=
  if h.capacity = 0 then { h with capacity := kDataSegmentCapacity } else h

theorem initCapacity_image (s : Session) :
    s.initCapacity.image = { s.image with header := s.header.opened } := by
  unfold Session.initCapacity MmapHeader.opened
  split <;> rfl

theorem initCapacity_segments (s : Session) : s.initCapacity.files.segments = s.files.segments := by
  unfold Session.initCapacity
  split <;> rfl

theorem openHeaderRw_ok {s t : Session} (h : openHeaderRw s = (.ok (), t)) :
    t.image = { s.image with header := s.header.opened } ∧ t.files.segments = s.files.segments := by
  simp only [openHeaderRw, Effect.read_bind] at h
  obtain ⟨_, mid, ho, h⟩ := Effect.bind_eq_ok_iff.mp h
  cases h
  rw [initCapacity_image, initCapacity_segments]
  rcases mmapOpenOrCreate_ok (by intros; rfl) ho with ⟨_, _, _, rfl⟩ | ⟨missing, _, rfl⟩
  · exact ⟨rfl, rfl⟩
  · have zero : s.header = MmapHeader.zero := by simp [Session.header, missing, File.content]
    rw [zero]
    exact ⟨rfl, rfl⟩

theorem openHeaderRo_ok {s t : Session} (h : openHeaderRo s = (.ok (), t)) : Quiet s t := by
  simp only [openHeaderRo, Effect.read_bind] at h
  obtain ⟨⟨_, rfl⟩, _⟩ := mmapOpen_ok h
  exact ⟨rfl, rfl, fun _ hi => hi⟩

theorem openIndex_ok {s t : Session} (h : openIndex s = (.ok (), t)) : Quiet s t := by
  refine Effect.forEach_ok (fun _ u => Quiet s u) ?_ (Quiet.refl s) h
  intro _ name u v quiet hv
  obtain ⟨_, rfl⟩ := call_ok hv
  exact quiet.trans ⟨rfl, rfl, fun _ hi => hi⟩

theorem openReaders_ok {s t : Session} (h : openReaders s = (.ok (), t)) : Quiet s t := by
  obtain ⟨_, a, ha, h⟩ := Effect.bind_eq_ok_iff.mp h
  have qa := openHeaderRo_ok ha
  rw [Effect.read_bind] at h
  cases hseg : a.files.segments 0 with
  | missing =>
    rw [hseg] at h
    exact qa.trans (openIndex_ok h)
  | empty | bytes =>
    rw [hseg] at h
    obtain ⟨_, b, hb, h⟩ := Effect.bind_eq_ok_iff.mp h
    exact qa.trans ((openSegment_ok hb).trans (openIndex_ok h))

/-- The constructor leaves the store as it finds it, but for the capacity field. -/
theorem construct_ok {s t : Session} (h : construct s = (.ok (), t)) :
    t.image = { s.image with header := s.header.opened } ∧
      ∀ i, s.HasSegment i → t.HasSegment i := by
  obtain ⟨_, a, ha, h⟩ := Effect.bind_eq_ok_iff.mp h
  obtain ⟨himage, hsegments⟩ := openHeaderRw_ok ha
  obtain ⟨_, b, hb, h⟩ := Effect.bind_eq_ok_iff.mp h
  have quiet := (openOrCreateSegmentForWrite_ok hb).trans (openReaders_ok h)
  refine ⟨quiet.image.trans himage, fun i hi => quiet.keeps i ?_⟩
  obtain ⟨rows, hrows⟩ := hi
  exact ⟨rows, by rw [hsegments]; exact hrows⟩

theorem initCapacity_calm {s : Session} (hc : s.Calm) {header : MmapHeader}
    (hf : s.files.header = .bytes header) :
    s.initCapacity.Calm ∧ ∃ header, s.initCapacity.files.header = .bytes header := by
  unfold Session.initCapacity
  split
  next => exact ⟨setHeader_calm hc _, _, rfl⟩
  next => exact ⟨hc, header, hf⟩

theorem openHeaderRw_returns {s : Session} (hc : s.Calm) :
    ∃ t header, openHeaderRw s = (.ok (), t) ∧ t.Calm ∧ t.files.header = .bytes header := by
  simp only [openHeaderRw, Effect.read_bind]
  cases hf : s.files.header with
  | empty => exact absurd hf hc.headerWhole
  | bytes header =>
    obtain ⟨hcalm, header', hheader⟩ := initCapacity_calm hc hf
    have opened := mmapOpen_calm hc.noFault (show File.bytes header = .bytes header from rfl)
    exact ⟨_, header', Effect.bind_of_ok opened, hcalm, hheader⟩
  | missing =>
    have created := mmapCreateRw_calm MmapHeader.zero Session.setHeader (fun _ _ => rfl) hc.noFault
    have written : ((s.setHeader .empty).setHeader (.bytes MmapHeader.zero)).Calm :=
      ⟨hc.noFault, by simp [Session.setHeader], hc.whole⟩
    obtain ⟨hcalm, header', hheader⟩ := initCapacity_calm written rfl
    exact ⟨_, header', Effect.bind_of_ok created, hcalm, hheader⟩

theorem openIndex_returns {s : Session} (hc : s.Calm) : ∃ t, openIndex s = (.ok (), t) ∧ t.Calm :=
  Effect.forEach_returns (fun name _ u hu => ⟨u, call_calm name hu.noFault, hu⟩) hc

theorem openReaders_returns {s : Session} (hc : s.Calm) {header : MmapHeader}
    (hf : s.files.header = .bytes header) : ∃ t, openReaders s = (.ok (), t) ∧ t.Calm := by
  have hro : openHeaderRo s = (.ok (), s) := mmapOpen_calm hc.noFault hf
  rw [openReaders, Effect.bind_of_ok hro, Effect.read_bind]
  cases hseg : s.files.segments 0 with
  | missing => exact openIndex_returns hc
  | empty => exact absurd hseg (hc.whole 0)
  | bytes rows =>
    obtain ⟨c, hs, hcc⟩ := openSegment_returns hc ⟨rows, hseg⟩
    obtain ⟨d, hd, hcd⟩ := openIndex_returns hcc
    exact ⟨d, (Effect.bind_of_ok hs).trans hd, hcd⟩

theorem construct_returns {s : Session} (hc : s.Calm) :
    ∃ t, construct s = (.ok (), t) ∧ t.Calm := by
  obtain ⟨a, header, ha, hca, hheader⟩ := openHeaderRw_returns hc
  obtain ⟨b, hb, hcb⟩ := openOrCreateSegmentForWrite_returns (i := 0) hca
  obtain ⟨t, ht, hct⟩ :=
    openReaders_returns hcb ((openOrCreateSegmentForWrite_ok hb).headerFile.trans hheader)
  exact ⟨t, (Effect.bind_of_ok ha).trans ((Effect.bind_of_ok hb).trans ht), hct⟩

/-- The image of a session whose constructor has run: what the disk holds, and
no memory of earlier rows. -/
def Image.opened (header : MmapHeader) (row : Nat → ParsedEntry) (tables : IndexTables) : Image where
  header := header.opened
  row := row
  nextIndex := 0
  lastRow := fun _ => none
  index := ⟨tables, none⟩
  browser := ⟨[], 0, true⟩

theorem opened_writeCount (h : MmapHeader) : h.opened.writeCount = h.writeCount := by
  unfold MmapHeader.opened
  split <;> rfl

theorem construct_fresh : ∃ s, construct Session.fresh = (.ok (), s) ∧ s.Sound ∧
    s.image = Image.opened MmapHeader.zero (fun _ => ParsedEntry.zero) IndexTables.empty := by
  have hc : Session.fresh.Calm :=
    ⟨rfl, by simp [Session.fresh, Session.start], by simp [Session.fresh, Session.start]⟩
  obtain ⟨s, hs, hcalm⟩ := construct_returns hc
  obtain ⟨himage, _⟩ := construct_ok hs
  have count : s.header.writeCount = 0 := by
    have : s.header = MmapHeader.zero.opened := congrArg Image.header himage
    rw [this, opened_writeCount]
    rfl
  refine ⟨s, hs, ⟨⟨hcalm, fun r hr => by omega, ?_⟩, ?_⟩, himage⟩
  · have bound : s.image.header.writeCount = 0 := count
    have hnext : s.image.nextIndex = 0 := congrArg Image.nextIndex himage
    have hlast : s.image.lastRow = fun _ => none := congrArg Image.lastRow himage
    refine ⟨by omega, by omega, fun id p hp => ?_, fun r hr => by omega, fun r hr => by omega⟩
    rw [hlast] at hp
    cases hp
  · have : s.image.index.transaction = none := by rw [himage]; rfl
    exact this

/-- Reopening a sound session gives a sound session over the same rows and tables,
which does not remember where to write next. -/
theorem construct_reopen {s : Session} (h : s.Sound) :
    ∃ t, construct s.reopen = (.ok (), t) ∧ t.Sound ∧
      t.image = Image.opened s.header s.rowAt s.index.committed := by
  have hc : s.reopen.Calm := ⟨h.calm.noFault, h.calm.headerWhole, h.calm.whole⟩
  obtain ⟨t, ht, hcalm⟩ := construct_returns hc
  obtain ⟨himage, keeps⟩ := construct_ok ht
  have himage : t.image = Image.opened s.header s.rowAt s.index.committed := himage
  have count : t.header.writeCount = s.header.writeCount := by
    have : t.header = s.header.opened := congrArg Image.header himage
    rw [this, opened_writeCount]
  refine ⟨t, ht, ⟨⟨hcalm, fun r hr => keeps _ (h.stored r (by omega)), ?_⟩, ?_⟩, himage⟩
  · have hcount : t.image.header.writeCount = s.header.writeCount := count
    have hrow : t.image.row = s.rowAt := congrArg Image.row himage
    have hnext : t.image.nextIndex = 0 := congrArg Image.nextIndex himage
    have hlast : t.image.lastRow = fun _ => none := congrArg Image.lastRow himage
    refine ⟨by omega, ?_, fun id p hp => ?_, ?_, ?_⟩
    · rw [hcount]
      exact h.linked.bounded
    · rw [hlast] at hp
      cases hp
    · rw [hcount, hrow]
      exact h.linked.backward
    · rw [hcount, hrow]
      exact h.linked.ended
  · have : t.image.index.transaction = none := by rw [himage]; rfl
    exact this

end FsCore
