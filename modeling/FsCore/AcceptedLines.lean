import FsCore.PayloadStores
import FsCore.ReadForms

namespace FsCore

/-- The numerals that the frame needs are there: the id as a whole token, the DLC and the
length at the beginning of theirs, and the bytes that are stored. -/
def FrameText.Readable (base : Base) : FrameText → Prop
  | .errorFrame => True
  | .remote _ canId dlc => CanIdToken base canId ∧ ∀ dlcStr ∈ dlc, (stoi base.radix dlcStr).isSome
  | .data _ canId dlcStr bytes => CanIdToken base canId ∧ ∃ n, classicCount base dlcStr bytes = some n ∧
      ∀ t ∈ (splitWhitespace bytes).take n.toNat, ByteToken base t
  | .fd _ canId fields => CanIdToken base canId ∧ (stoi base.radix fields.dlcStr).isSome ∧
      ∃ n, stoi 10 fields.dataLengthStr = some n ∧ fdCount fields n ≤ 64 ∧
        ∀ t ∈ (splitWhitespace fields.data).take (fdCount fields n).toNat, ByteToken base t

/-- The lines that `next` makes a record of. -/
def Accepted (base : Base) (raw : Text) : Prop :=
  IsRecordLine raw ∧ ∃ t, recordText (trimCopy raw) = some t ∧ (stod t.time).isSome ∧
    t.frame.Readable base

section Readable

variable {base : Base} {msg : LogRecord} {startTime : Binary64}

theorem storeBytes_isOk_iff {tokens : List Text} {i : Nat} {data : Vector UInt8 64} (hi : i ≤ 64) :
    (∃ v, storeBytes base tokens i data = .ok v) ↔ i + tokens.length ≤ 64 ∧
      ∀ t ∈ tokens, ByteToken base t := by
  induction tokens generalizing i data with
  | nil => exact iff_of_true ⟨data, rfl⟩ ⟨hi, fun t ht => by cases ht⟩
  | cons token tokens ih =>
    simp only [storeBytes, parse_bind_ok, List.forall_mem_cons, List.length_cons, ← dataByte_ok]
    by_cases inside : i < 64
    · simp only [dif_pos inside]
      constructor
      · intro h
        obtain ⟨v, b, hb, hv⟩ := h
        obtain ⟨fits, rest⟩ := (ih (by omega)).mp ⟨v, hv⟩
        exact ⟨by omega, ⟨b, hb⟩, fun t ht => dataByte_ok.mpr (rest t ht)⟩
      · intro h
        obtain ⟨fits, ⟨b, hb⟩, rest⟩ := h
        have next : i + 1 + tokens.length ≤ 64 ∧ ∀ t ∈ tokens, ByteToken base t :=
          ⟨by omega, fun t ht => dataByte_ok.mp (rest t ht)⟩
        obtain ⟨v, hv⟩ : ∃ v, storeBytes base tokens (i + 1) (data.set i b) = .ok v :=
          (ih (by omega)).mpr next
        exact ⟨v, b, hb, hv⟩
    · simp only [dif_neg inside]
      constructor
      · intro h
        obtain ⟨_, _, _, h⟩ := h
        cases h
      · intro h
        obtain ⟨fits, -, -⟩ := h
        omega

theorem classicCount_le {dlcStr bytes : Text} {n : Int}
    (h : classicCount base dlcStr bytes = some n) : n ≤ 8 := by
  obtain ⟨raw, -, rfl⟩ := Option.map_eq_some_iff.mp h
  omega

theorem length_take_fdCount (fields : FdFields) (n : Int) :
    ((splitWhitespace fields.data).take (fdCount fields n).toNat).length =
      (fdCount fields n).toNat := by
  have size := intOfSize_le (splitWhitespace fields.data).length
  rw [List.length_take, fdCount]
  omega

/-- A payload that is stored has no more than 64 bytes. -/
theorem fdCount_le {fields : FdFields} {n : Int} {v : Vector UInt8 64}
    (stored : storeBytes base ((splitWhitespace fields.data).take (fdCount fields n).toNat) 0
      (Vector.replicate 64 0) = .ok v) : fdCount fields n ≤ 64 := by
  obtain ⟨fits, -⟩ := (storeBytes_isOk_iff (by omega)).mp ⟨v, stored⟩
  rw [length_take_fdCount] at fits
  omega

theorem read_isOk_iff {t : FrameText} : (∃ r, t.read base msg = .ok r) ↔ t.Readable base := by
  cases t with
  | errorFrame => exact iff_of_true ⟨_, rfl⟩ trivial
  | remote direction canId dlc =>
    simp only [read_remote_iff, FrameText.Readable, ← canIdOf_isSome_iff]
    constructor
    · intro h
      obtain ⟨_, id, len, hid, hlen, _⟩ := h
      refine ⟨⟨id, hid⟩, fun dlcStr mem => ?_⟩
      rw [Option.mem_def.mp mem] at hlen
      obtain ⟨raw, hraw, _⟩ := Option.map_eq_some_iff.mp hlen
      exact Option.isSome_of_mem hraw
    · intro h
      obtain ⟨⟨id, hid⟩, some⟩ := h
      suffices len : ∃ len, remoteCount base dlc msg.dataLen = Option.some len by
        obtain ⟨len, hlen⟩ := len
        exact ⟨_, id, len, hid, hlen, rfl⟩
      cases dlc with
      | none => exact ⟨_, rfl⟩
      | some dlcStr =>
        obtain ⟨raw, hraw⟩ := Option.isSome_iff_exists.mp (some dlcStr rfl)
        exact ⟨_, Option.map_eq_some_iff.mpr ⟨raw, hraw, rfl⟩⟩
  | data direction canId dlcStr bytes =>
    simp only [read_data_iff, FrameText.Readable, ← canIdOf_isSome_iff]
    have stored {n : Int} (hn : classicCount base dlcStr bytes = some n) :
        (∃ v, storeBytes base ((splitWhitespace bytes).take n.toNat) 0
          (Vector.replicate 64 0) = .ok v) ↔
          ∀ t ∈ (splitWhitespace bytes).take n.toNat, ByteToken base t := by
      have small := classicCount_le hn
      rw [storeBytes_isOk_iff (by omega), and_iff_right]
      rw [List.length_take]
      omega
    constructor
    · intro h
      obtain ⟨_, id, n, v, hid, hn, hv, _⟩ := h
      exact ⟨⟨id, hid⟩, n, hn, (stored hn).mp ⟨v, hv⟩⟩
    · intro h
      obtain ⟨⟨id, hid⟩, n, hn, bytes⟩ := h
      obtain ⟨v, hv⟩ := (stored hn).mpr bytes
      exact ⟨_, id, n, v, hid, hn, hv, rfl⟩
  | fd direction canId fields =>
    simp only [read_fd_iff, FrameText.Readable, ← canIdOf_isSome_iff]
    have stored (n : Int) :
      (∃ v, storeBytes base ((splitWhitespace fields.data).take (fdCount fields n).toNat) 0
          (Vector.replicate 64 0) = .ok v) ↔
        fdCount fields n ≤ 64 ∧ ∀ t ∈ (splitWhitespace fields.data).take (fdCount fields n).toNat,
          ByteToken base t := by
      rw [storeBytes_isOk_iff (by omega), length_take_fdCount]
      refine and_congr_left fun _ => ?_
      omega
    constructor
    · intro h
      obtain ⟨_, id, dlc, n, v, hid, hdlc, hn, hv, _⟩ := h
      exact ⟨⟨id, hid⟩, Option.isSome_of_mem hdlc, n, hn, (stored n).mp ⟨v, hv⟩⟩
    · intro h
      obtain ⟨⟨id, hid⟩, dlc, n, hn, bytes⟩ := h
      obtain ⟨dlc, hdlc⟩ := Option.isSome_iff_exists.mp dlc
      obtain ⟨v, hv⟩ := (stored n).mpr bytes
      exact ⟨_, id, dlc, n, v, hid, hdlc, hn, hv, rfl⟩

theorem recordText_isOk_iff {t : RecordText} :
    (∃ r, t.read base startTime = .ok r) ↔ (stod t.time).isSome ∧ t.frame.Readable base := by
  simp only [RecordText.read, parse_bind_ok, convert_ok_iff]
  constructor
  · intro h
    obtain ⟨r, ts, hts, hr⟩ := h
    exact ⟨Option.isSome_of_mem hts, read_isOk_iff.mp ⟨r, hr⟩⟩
  · intro h
    obtain ⟨time, frame⟩ := h
    obtain ⟨ts, hts⟩ := Option.isSome_iff_exists.mp time
    obtain ⟨r, hr⟩ := read_isOk_iff.mpr frame
    exact ⟨r, ts, hts, hr⟩

/-- A record is read from the frame of its line, and starts from a cleared one. -/
theorem record_frame {reader : AscReader} {raw : Text} {r : LogRecord}
    (h : reader.parseLine startTime raw = .record r) : ∃ t ts, recordText (trimCopy raw) = some t ∧
      stod t.time = some ts ∧ t.frame.read reader.base { LogRecord.zero with
        timestamp := ts.add startTime, isFd := t.isFd, channel := channelOf t.channel } = .ok r := by
  obtain ⟨-, t, ht, hr⟩ := parseLine_record_iff.mp h
  obtain ⟨ts, hts, hr⟩ := parse_bind_ok.mp hr
  exact ⟨t, ts, ht, convert_ok_iff.mp hts, hr⟩

theorem record_frame_of {reader : AscReader} {raw : Text} {r : LogRecord} {t : RecordText}
    (h : reader.parseLine startTime raw = .record r) (ht : recordText (trimCopy raw) = some t) :
    ∃ ts : Binary64, t.frame.read reader.base { LogRecord.zero with
      timestamp := ts.add startTime, isFd := t.isFd, channel := channelOf t.channel } = .ok r := by
  obtain ⟨_, ts, same, -, hr⟩ := record_frame h
  cases Option.some.inj (ht.symm.trans same)
  exact ⟨ts, hr⟩

theorem parseLine_isRecord_iff {reader : AscReader} {raw : Text} :
    (∃ r, reader.parseLine startTime raw = .record r) ↔ Accepted reader.base raw := by
  simp only [parseLine_record_iff, Accepted, ← @recordText_isOk_iff reader.base startTime]
  constructor
  · intro h
    obtain ⟨r, line, t, ht, hr⟩ := h
    exact ⟨line, t, ht, r, hr⟩
  · intro h
    obtain ⟨line, t, ht, r, hr⟩ := h
    exact ⟨r, line, t, ht, hr⟩

end Readable

def Skips (outcome : LineOutcome) : Prop := outcome = .skipped ∨ ∃ t, outcome = .startTime t

section Outcomes

variable {reader : AscReader} {startTime : Binary64} {raw : Text} {r : LogRecord}

theorem skips_of (inside : ¬ Overlong reader.base raw) (none : ¬ Accepted reader.base raw) :
    Skips (reader.parseLine startTime raw) := by
  cases h : reader.parseLine startTime raw with
  | startTime t => exact Or.inr ⟨t, rfl⟩
  | skipped => exact Or.inl rfl
  | record r => exact absurd (parseLine_isRecord_iff.mp ⟨r, h⟩) none
  | outOfBounds i => exact absurd (parseLine_iff.mp h).2 inside

theorem Skips.not_accepted (h : Skips (reader.parseLine startTime raw)) :
    ¬ Accepted reader.base raw := by
  intro accepted
  obtain ⟨r, read⟩ := (@parseLine_isRecord_iff startTime reader raw).mpr accepted
  rw [read] at h
  rcases h with h | ⟨_, h⟩ <;> cases h

theorem Skips.not_overlong (h : Skips (reader.parseLine startTime raw)) :
    ¬ Overlong reader.base raw := by
  intro overlong
  have stop : reader.parseLine startTime raw = .outOfBounds 64 := parseLine_iff.mpr ⟨rfl, overlong⟩
  rw [stop] at h
  rcases h with h | ⟨_, h⟩ <;> cases h

theorem record_not_overlong (h : reader.parseLine startTime raw = .record r) :
    ¬ Overlong reader.base raw := by
  intro overlong
  have stop : reader.parseLine startTime raw = .outOfBounds 64 := parseLine_iff.mpr ⟨rfl, overlong⟩
  rw [h] at stop
  cases stop

end Outcomes

section Runs

variable {reader : AscReader}

/-- The records of a run are those of its accepted lines, each read with some start time. -/
theorem nextLoop_records {fuel : Nat} {startTime : Binary64} {lines : List Text}
    {records : List LogRecord} (enough : lines.length < fuel)
    (h : reader.nextLoop fuel startTime lines = .ok records) :
    (∀ r ∈ records, ∃ raw ∈ lines, ∃ t, reader.parseLine t raw = .record r) ∧
      ∀ raw ∈ lines, Accepted reader.base raw →
        ∃ r ∈ records, ∃ t, reader.parseLine t raw = .record r := by
  induction lines generalizing fuel startTime records with
  | nil =>
    cases fuel with
    | zero => cases enough
    | succ fuel =>
      cases h
      exact ⟨fun r hr => (List.not_mem_nil hr).elim, fun raw hraw => (List.not_mem_nil hraw).elim⟩
  | cons raw lines ih =>
    rw [List.length_cons] at enough
    cases fuel with
    | zero => cases enough
    | succ fuel =>
      rw [AscReader.nextLoop_cons] at h
      have later {records : List LogRecord} {r : LogRecord} (all : ∀ r ∈ records, ∃ raw ∈ lines, ∃ t,
          reader.parseLine t raw = .record r) (hr : r ∈ records) :
          ∃ raw' ∈ raw :: lines, ∃ t, reader.parseLine t raw' = .record r := by
        obtain ⟨raw', mem, read⟩ := all r hr
        exact ⟨raw', List.mem_cons_of_mem _ mem, read⟩
      have skip (none : ¬ ∃ r, reader.parseLine startTime raw = .record r) {t : Binary64}
          (h : reader.nextLoop (fuel + 1) t lines = .ok records) :
          (∀ r ∈ records, ∃ raw' ∈ raw :: lines, ∃ t, reader.parseLine t raw' = .record r) ∧
            ∀ raw' ∈ raw :: lines, Accepted reader.base raw' →
              ∃ r ∈ records, ∃ t, reader.parseLine t raw' = .record r := by
        obtain ⟨all, every⟩ := ih (by omega) h
        refine ⟨fun r hr => later all hr, List.forall_mem_cons.mpr ⟨fun accepted => ?_, every⟩⟩
        exact absurd (parseLine_isRecord_iff.mpr accepted) none
      cases hl : reader.parseLine startTime raw with
      | startTime t =>
        rw [hl] at h
        exact skip (by simp [hl]) h
      | skipped =>
        rw [hl] at h
        exact skip (by simp [hl]) h
      | record r =>
        rw [hl] at h
        obtain ⟨rest, hrest, h⟩ : ∃ rest, reader.nextLoop fuel startTime lines = .ok rest ∧
          records = r :: rest := by
          dsimp only at h
          cases hn : reader.nextLoop fuel startTime lines with
          | ok rest =>
            rw [hn] at h
            cases h
            exact ⟨rest, rfl, rfl⟩
          | error i =>
            rw [hn] at h
            cases h
        subst h
        obtain ⟨all, every⟩ := ih (by omega) hrest
        refine ⟨List.forall_mem_cons.mpr ⟨⟨raw, List.mem_cons_self, startTime, hl⟩,
          fun r hr => later all hr⟩,
          List.forall_mem_cons.mpr ⟨fun _ => ⟨r, List.mem_cons_self, startTime, hl⟩,
            fun raw' mem accepted => ?_⟩⟩
        obtain ⟨r', hr', read⟩ := every raw' mem accepted
        exact ⟨r', List.mem_cons_of_mem _ hr', read⟩
      | outOfBounds i =>
        rw [hl] at h
        cases h

theorem readAll_records {text : Text} {records : List LogRecord}
    (h : reader.readAll text = .ok records) :
    (∀ r ∈ records, ∃ raw ∈ getLines text, ∃ t, reader.parseLine t raw = .record r) ∧
      ∀ raw ∈ getLines text, Accepted reader.base raw →
        ∃ r ∈ records, ∃ t, reader.parseLine t raw = .record r :=
  nextLoop_records (Nat.lt_succ_self _) h

end Runs

end FsCore
