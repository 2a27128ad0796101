import FsCore.AcceptedLines
import FsCore.RenderedFrames
import FsCore.WellFormedRecords

namespace FsCore

section Direction

variable {base : Base} {msg r : LogRecord}

theorem read_direction {t : FrameText} {direction : Text} (h : t.read base msg = .ok r)
    (hd : t.direction = some direction) : r.direction = if direction = "Tx".toList then 1 else 0 := by
  cases t with
  | errorFrame => cases hd
  | remote d canId dlc =>
    obtain ⟨_, _, _, _, rfl⟩ := read_remote_iff.mp h
    cases hd
    rfl
  | data d canId dlcStr bytes =>
    obtain ⟨_, _, _, _, _, _, rfl⟩ := read_data_iff.mp h
    cases hd
    rfl
  | fd d canId fields =>
    obtain ⟨_, _, _, _, _, _, _, _, rfl⟩ := read_fd_iff.mp h
    cases hd
    rfl

/-- The frames without a direction are recorded as error frames. -/
theorem read_isErrorFrame_iff {t : FrameText} (h : t.read base msg = .ok r)
    (clean : msg.isErrorFrame = false) :
    r.isErrorFrame = false ↔ ∃ direction, t.direction = some direction := by
  cases t with
  | errorFrame =>
    cases h
    exact iff_of_false (fun h => by cases h) (fun h => by obtain ⟨_, h⟩ := h; cases h)
  | remote direction canId dlc =>
    obtain ⟨_, _, _, _, rfl⟩ := read_remote_iff.mp h
    exact iff_of_true clean ⟨direction, rfl⟩
  | data direction canId dlcStr bytes =>
    obtain ⟨_, _, _, _, _, _, rfl⟩ := read_data_iff.mp h
    exact iff_of_true clean ⟨direction, rfl⟩
  | fd direction canId fields =>
    obtain ⟨_, _, _, _, _, _, _, _, rfl⟩ := read_fd_iff.mp h
    exact iff_of_true clean ⟨direction, rfl⟩

/-- The token in the direction position has the code that the tests fix: 0 for Tx and 1 for Rx. -/
def DirectionAgrees (raw : Text) (r : LogRecord) : Prop :=
  (splitWhitespace raw)[3]? = some "Tx".toList ∧ r.direction = 0 ∨
    (splitWhitespace raw)[3]? = some "Rx".toList ∧ r.direction = 1

/-- A line that `next` makes a record of, other than an error frame. -/
def AcceptedFrame (base : Base) (raw : Text) : Prop :=
  Accepted base raw ∧ ∃ t, recordText (trimCopy raw) = some t ∧ ∃ direction,
    t.frame.direction = some direction

variable {reader : AscReader} {startTime : Binary64} {raw : Text}

theorem record_direction {t : RecordText} {direction : Text}
    (h : reader.parseLine startTime raw = .record r) (ht : recordText (trimCopy raw) = some t)
    (hd : t.frame.direction = some direction) : (splitWhitespace raw)[3]? = some direction ∧
      r.direction = if direction = "Tx".toList then 1 else 0 := by
  obtain ⟨ts, hr⟩ := record_frame_of h ht
  refine ⟨?_, read_direction hr hd⟩
  rw [← splitWhitespace_trimCopy]
  exact recordText_direction ht hd

/-- The reader gives Tx the code of Rx, and every other token that of Tx. -/
theorem record_not_directionAgrees {t : RecordText} {direction : Text}
    (h : reader.parseLine startTime raw = .record r) (ht : recordText (trimCopy raw) = some t)
    (hd : t.frame.direction = some direction) : ¬ DirectionAgrees raw r := by
  obtain ⟨token, code⟩ := record_direction h ht hd
  rintro (⟨tx, zero⟩ | ⟨rx, one⟩)
  · rw [token] at tx
    rw [Option.some.inj tx, if_pos rfl] at code
    rw [code] at zero
    exact absurd zero (by decide)
  · rw [token] at rx
    rw [Option.some.inj rx, if_neg (by decide)] at code
    rw [code] at one
    exact absurd one (by decide)

/-- No line that is accepted as a frame with a direction has the code of its token. -/
theorem frameDirection_iff : (∀ r, reader.parseLine startTime raw = .record r → r.isErrorFrame = false →
    DirectionAgrees raw r) ↔ ¬ AcceptedFrame reader.base raw := by
  constructor
  · rintro all ⟨accepted, t, ht, direction, hd⟩
    obtain ⟨r, read⟩ := (@parseLine_isRecord_iff startTime reader raw).mpr accepted
    obtain ⟨ts, hr⟩ := record_frame_of read ht
    exact record_not_directionAgrees read ht hd
      (all r read ((read_isErrorFrame_iff hr rfl).mpr ⟨direction, hd⟩))
  · intro none r read frame
    obtain ⟨t, ts, ht, -, hr⟩ := record_frame read
    obtain ⟨direction, hd⟩ := (read_isErrorFrame_iff hr rfl).mp frame
    exact absurd ⟨parseLine_isRecord_iff.mp ⟨r, read⟩, t, ht, direction, hd⟩ none

/-- The token in the direction position is one of the two directions. -/
def HasDirection (raw : Text) : Prop :=
  (splitWhitespace raw)[3]? = some "Tx".toList ∨ (splitWhitespace raw)[3]? = some "Rx".toList

/-- A frame has the code of its token, and a line with another token there that is no record is
skipped. -/
def DirectionChecked (reader : AscReader) (startTime : Binary64) (raw : Text) : Prop :=
  (∀ r, reader.parseLine startTime raw = .record r → r.isErrorFrame = false → DirectionAgrees raw r) ∧
    (¬ HasDirection raw → (∀ r, reader.parseLine startTime raw ≠ .record r) →
      Skips (reader.parseLine startTime raw))

/-- The direction is right on the lines that are not accepted as a frame with one, but for those
with another token that make the parser leave the payload. -/
theorem directionAgrees_iff : DirectionChecked reader startTime raw ↔
    ¬ AcceptedFrame reader.base raw ∧ (Overlong reader.base raw → HasDirection raw) := by
  refine and_congr frameDirection_iff ⟨fun skips overlong => ?_, fun inside other none => ?_⟩
  · by_contra other
    exact (skips other fun r read => record_not_overlong read overlong).not_overlong overlong
  · refine skips_of (fun overlong => other (inside overlong)) fun accepted => ?_
    obtain ⟨r, read⟩ := (@parseLine_isRecord_iff startTime reader raw).mpr accepted
    exact none r read

end Direction

def txLine : Text := "0.000000 1 1A5 Tx d 8 01 02 03 04 05 06 07 08".toList

/-- The first of the lines that the tests give. -/
theorem tx_read_as_rx : ¬ ∀ (reader : AscReader) (startTime : Binary64) (raw : Text) (r : LogRecord),
    reader.parseLine startTime raw = .record r → r.isErrorFrame = false → DirectionAgrees raw r := by
  intro all
  obtain ⟨r, read, code⟩ : ∃ r,
    AscReader.parseLine ⟨.hex, true, fun _ => none⟩ .zero txLine = .record r ∧
      (r.isErrorFrame, r.direction) = (false, 1) :=
    LineOutcome.exists_record (by decide +kernel)
  have token : (splitWhitespace txLine)[3]? = some "Tx".toList := by decide +kernel
  obtain ⟨frame, one⟩ := Prod.mk.inj code
  rcases all _ _ _ _ read frame with ⟨-, zero⟩ | ⟨rx, -⟩
  · rw [one] at zero
    exact absurd zero (by decide)
  · rw [token] at rx
    exact absurd rx (by decide)

section RemoteLength

/-- The token that declares the length; a remote frame may have none. -/
def FrameText.dlc : FrameText → Option Text
  | .errorFrame => none
  | .remote _ _ dlc => dlc
  | .data _ _ dlcStr _ => some dlcStr
  | .fd _ _ fields => some fields.dlcStr

/-- The length of a remote frame with this DLC is kept: in a CAN FD frame the data tokens are
counted in its place, and only a count that wraps to a negative int is not zero. -/
def FrameText.KeepsRemoteLength (v : Nat) : FrameText → Prop
  | .fd _ _ fields =>
    0 ≤ intOfSize (splitWhitespace fields.data).length ∧ v = 0 ∨
      intOfSize (splitWhitespace fields.data).length < 0 ∧
        (intOfSize (splitWhitespace fields.data).length - dlc2lenCompat v) % 2 ^ 8 = 0
  | _ => True

theorem dlc2lenCompat_range {v : Nat} (h : v ≤ 15) :
    0 ≤ dlc2lenCompat v ∧ dlc2lenCompat v ≤ 64 ∧ (dlc2lenCompat v = 0 ↔ v = 0) := by
  have all : ∀ v : Fin 16, 0 ≤ dlc2lenCompat v.val ∧
    dlc2lenCompat v.val ≤ 64 ∧ (dlc2lenCompat v.val = 0 ↔ v.val = 0) := by
    decide
  exact all ⟨v, by omega⟩

variable {base : Base} {msg r : LogRecord} {dlcStr : Text} {v : Nat}

theorem read_remote_length_iff {t : FrameText} (h : t.read base msg = .ok r)
    (clean : msg.isRemoteFrame = false) (remote : r.isRemoteFrame = true)
    (hdlc : t.dlc = some dlcStr) (dlc : IsNumeral base.radix dlcStr v) (small : v ≤ 15) :
    (r.dataLen.toNat : Int) = dlc2lenCompat v ↔ t.KeepsRemoteLength v := by
  obtain ⟨positive, bound, zero⟩ := dlc2lenCompat_range small
  have read : stoi base.radix dlcStr = some (v : Int) := stoi_numeral dlc base.small (by omega)
  cases t with
  | errorFrame => cases hdlc
  | remote direction canId token =>
    obtain ⟨id, len, -, hlen, rfl⟩ := read_remote_iff.mp h
    cases hdlc
    rw [remoteCount, read] at hlen
    cases hlen
    refine iff_of_true ?_ trivial
    rw [toNat_ofInt]
    omega
  | data direction canId token bytes =>
    obtain ⟨id, n, w, -, -, -, rfl⟩ := read_data_iff.mp h
    have classic : msg.isRemoteFrame = true := remote
    rw [clean] at classic
    cases classic
  | fd direction canId fields =>
    obtain ⟨id, raw, n, w, -, -, hn, hw, rfl⟩ := read_fd_iff.mp h
    have none : n = 0 := by
      by_contra other
      have data : msg.isRemoteFrame = true := by simpa [other] using remote
      rw [clean] at data
      cases data
    subst none
    simp only [FrameText.KeepsRemoteLength, fdCount, toNat_ofInt]
    omega

/-- A remote frame has the length that its DLC denotes if it is a classic one or its DLC is 0. -/
theorem remote_length_iff {reader : AscReader} {startTime : Binary64} {raw : Text} {t : RecordText}
    (h : reader.parseLine startTime raw = .record r) (ht : recordText (trimCopy raw) = some t)
    (remote : r.isRemoteFrame = true) (hdlc : t.frame.dlc = some dlcStr)
    (dlc : IsNumeral reader.base.radix dlcStr v) (small : v ≤ 15) :
    (r.dataLen.toNat : Int) = dlc2lenCompat v ↔ t.frame.KeepsRemoteLength v := by
  obtain ⟨ts, hr⟩ := record_frame_of h ht
  exact read_remote_length_iff hr rfl remote hdlc dlc small

end RemoteLength

def fdRemoteLine : Text := "0.014000 CANFD 1 Rx 123 0 0 8 0".toList

theorem fdRemoteLine_record :
    ∃ r, AscReader.parseLine ⟨.hex, true, fun _ => none⟩ .zero fdRemoteLine = .record r ∧
    (r.isRemoteFrame, r.dataLen) = (true, 0) :=
  LineOutcome.exists_record (by decide +kernel)

theorem fdRemoteLine_dlc : ∃ t, recordText (trimCopy fdRemoteLine) = some t ∧
    t.frame.dlc = some "8".toList :=
  Option.bind_eq_some_iff.mp (by decide +kernel)

theorem remote_length_iff_sample : ∃ (r : LogRecord) (t : RecordText),
    AscReader.parseLine ⟨.hex, true, fun _ => none⟩ .zero fdRemoteLine = .record r ∧
      ((r.dataLen.toNat : Int) = dlc2lenCompat 8 ↔ t.frame.KeepsRemoteLength 8) := by
  obtain ⟨r, read, fields⟩ := fdRemoteLine_record
  obtain ⟨t, ht, hdlc⟩ := fdRemoteLine_dlc
  have eight : IsNumeral Base.hex.radix "8".toList 8 := by decide
  exact ⟨r, t, read, remote_length_iff read ht (Prod.mk.inj fields).1 hdlc eight (by decide)⟩

/-- Storing the empty payload overwrites the length. -/
theorem fd_remote_length_lost :
    ¬ ∀ (reader : AscReader) (startTime : Binary64) (raw : Text) (r : LogRecord)
    (t : RecordText) (dlcStr : Text) (v : Nat), reader.parseLine startTime raw = .record r →
    recordText (trimCopy raw) = some t → r.isRemoteFrame = true → t.frame.dlc = some dlcStr →
    IsNumeral reader.base.radix dlcStr v → v ≤ 15 → (r.dataLen.toNat : Int) = dlc2lenCompat v := by
  intro all
  obtain ⟨r, read, fields⟩ := fdRemoteLine_record
  obtain ⟨remote, none⟩ := Prod.mk.inj fields
  obtain ⟨t, ht, hdlc⟩ := fdRemoteLine_dlc
  have eight := all _ _ _ r t _ 8 read ht remote hdlc (by decide) (by decide)
  rw [none] at eight
  exact absurd eight (by decide)

end FsCore
