import FsCore.RecordText

namespace FsCore

/-- How many bytes a classic frame carries by its DLC and its tokens. -/
def classicCount (base : Base) (dlcStr bytes : Text) : Option Int :=
  (stoi base.radix dlcStr).map fun dlcRaw =>
    min (min 8 (dlc2lenCompat dlcRaw)) (intOfSize (splitWhitespace bytes).length)

/-- The length of a remote frame: without a DLC it stays as it was. -/
def remoteCount (base : Base) (dlc : Option Text) (len : UInt8) : Option UInt8 :=
  match dlc with
  | none => some len
  | some dlcStr => (stoi base.radix dlcStr).map fun dlcRaw => UInt8.ofInt (dlc2lenCompat dlcRaw)

def fdCount (fields : FdFields) (dataLength : Int) : Int :=
  min dataLength (intOfSize (splitWhitespace fields.data).length)

theorem dlc2lenCompat_of_neg {raw : Int} (h : raw < 0) : dlc2lenCompat raw = raw := if_pos (Or.inl h)

theorem dlc2lenCompat_sign {raw : Int} :
    (raw ≤ 0 → dlc2lenCompat raw ≤ 0) ∧ (0 ≤ raw → 0 ≤ dlc2lenCompat raw) := by
  unfold dlc2lenCompat
  split
  next => exact ⟨id, id⟩
  next inside =>
    refine ⟨fun low => ?_, fun _ => ?_⟩
    · have zero : raw = 0 := by omega
      rw [zero]
      decide
    · have all : ∀ n < 16, 0 ≤ kDlcMap.getD n 0 := by decide
      refine all _ ?_
      simp only [kDlcMap, List.length_cons, List.length_nil] at inside
      omega

section Forms

variable {base : Base} {msg r : LogRecord}

theorem processDataString_ok_iff {dataStr : Text} {n : Int} :
    processDataString base dataStr n msg = .ok r ↔
    ∃ v, storeBytes base
      ((splitWhitespace dataStr).take (min n (intOfSize (splitWhitespace dataStr).length)).toNat) 0
        (Vector.replicate 64 0) = .ok v ∧
      r = { msg with
        data := v, dataLen :=
  UInt8.ofInt (min (min n (intOfSize (splitWhitespace dataStr).length)) 64) } := by
  rw [processDataString, parse_bind_ok]
  refine exists_congr fun v => and_congr_right fun _ => ?_
  exact ⟨fun h => by cases h; rfl, fun h => by rw [h]; rfl⟩

theorem classicData_ok_iff {dlcStr bytes : Text} : classicData base dlcStr bytes msg = .ok r ↔
    ∃ n v, classicCount base dlcStr bytes = some n ∧
      storeBytes base ((splitWhitespace bytes).take n.toNat) 0 (Vector.replicate 64 0) = .ok v ∧
      r = { msg with data := v, dataLen := UInt8.ofInt n } := by
  have cut (raw : Int) :
    min (min (min 8 (dlc2lenCompat raw)) (intOfSize (splitWhitespace bytes).length)) 64 =
      min (min 8 (dlc2lenCompat raw)) (intOfSize (splitWhitespace bytes).length) := by
    omega
  rw [classicData, parse_bind_ok]
  simp only [convert_ok_iff, processDataString_ok_iff, classicCount, Option.map_eq_some_iff, cut]
  constructor
  · intro h
    obtain ⟨raw, hraw, v, hv, hr⟩ := h
    exact ⟨_, v, ⟨raw, hraw, rfl⟩, hv, hr⟩
  · intro h
    obtain ⟨_, v, ⟨raw, hraw, rfl⟩, hv, hr⟩ := h
    exact ⟨raw, hraw, v, hv, hr⟩

/-- The direction that both forms of a line give to the record. -/
def LogRecord.directed (msg : LogRecord) (direction : Text) : LogRecord :=
  { msg with direction := if direction = "Tx".toList then 1 else 0 }

theorem read_data_iff {direction canId dlcStr bytes : Text} :
    (FrameText.data direction canId dlcStr bytes).read base msg = .ok r ↔
      ∃ id n v, canIdOf base canId = some id ∧ classicCount base dlcStr bytes = some n ∧
        storeBytes base ((splitWhitespace bytes).take n.toNat) 0 (Vector.replicate 64 0) = .ok v ∧
        r = { msg.directed direction with
          isExtendedId := hasX canId, canId := id, data := v, dataLen := UInt8.ofInt n } := by
  rw [FrameText.read, parse_bind_ok]
  simp only [extractCanId_ok_iff, classicData_ok_iff]
  constructor
  · intro h
    obtain ⟨_, ⟨id, hid, rfl⟩, n, v, hn, hv, hr⟩ := h
    exact ⟨id, n, v, hid, hn, hv, hr⟩
  · intro h
    obtain ⟨id, n, v, hid, hn, hv, hr⟩ := h
    exact ⟨_, ⟨id, hid, rfl⟩, n, v, hn, hv, hr⟩

theorem read_remote_iff {direction canId : Text} {dlc : Option Text} :
    (FrameText.remote direction canId dlc).read base msg = .ok r ↔
      ∃ id len, canIdOf base canId = some id ∧ remoteCount base dlc msg.dataLen = some len ∧
        r = { msg.directed direction with
          isExtendedId := hasX canId, canId := id, isRemoteFrame := true, dataLen := len } := by
  rw [FrameText.read, parse_bind_ok]
  simp only [extractCanId_ok_iff]
  constructor
  · intro h
    obtain ⟨_, ⟨id, hid, rfl⟩, h⟩ := h
    cases dlc with
    | none =>
      cases h
      exact ⟨id, _, hid, rfl, rfl⟩
    | some dlcStr =>
      obtain ⟨raw, hraw, h⟩ := parse_bind_ok.mp h
      cases h
      exact ⟨id, _, hid, Option.map_eq_some_iff.mpr ⟨raw, convert_ok_iff.mp hraw, rfl⟩, rfl⟩
  · intro h
    obtain ⟨id, len, hid, hlen, rfl⟩ := h
    refine ⟨_, ⟨id, hid, rfl⟩, ?_⟩
    cases dlc with
    | none =>
      cases hlen
      rfl
    | some dlcStr =>
      obtain ⟨raw, hraw, rfl⟩ := Option.map_eq_some_iff.mp hlen
      exact parse_bind_ok.mpr ⟨raw, convert_ok_iff.mpr hraw, rfl⟩

theorem read_fd_iff {direction canId : Text} {f : FdFields} :
    (FrameText.fd direction canId f).read base msg = .ok r ↔
      ∃ id dlc n v, canIdOf base canId = some id ∧ stoi base.radix f.dlcStr = some dlc ∧
        stoi 10 f.dataLengthStr = some n ∧
        storeBytes base ((splitWhitespace f.data).take (fdCount f n).toNat) 0
          (Vector.replicate 64 0) = .ok v ∧
        r = { msg.directed direction with
          isExtendedId := hasX canId
          canId := id
          bitrateSwitch := f.brs = "1".toList
          errorStateIndicator := f.esi = "1".toList
          isRemoteFrame := if n = 0 then true else msg.isRemoteFrame
          data := v
          dataLen := UInt8.ofInt (min (fdCount f n) 64) } := by
  rw [FrameText.read, fdPayload, parse_bind_ok]
  simp only [extractCanId_ok_iff, parse_bind_ok, convert_ok_iff, processDataString_ok_iff]
  constructor
  · intro h
    obtain ⟨_, ⟨id, hid, rfl⟩, dlc, hdlc, n, hn, v, hv, rfl⟩ := h
    refine ⟨id, dlc, n, v, hid, hdlc, hn, hv, ?_⟩
    split <;> rfl
  · intro h
    obtain ⟨id, dlc, n, v, hid, hdlc, hn, hv, rfl⟩ := h
    refine ⟨_, ⟨id, hid, rfl⟩, dlc, hdlc, n, hn, v, hv, ?_⟩
    split <;> rfl

theorem read_channel {t : FrameText} (h : t.read base msg = .ok r) : r.channel = msg.channel := by
  cases t with
  | errorFrame =>
    cases h
    rfl
  | remote direction canId dlc =>
    obtain ⟨_, _, _, _, rfl⟩ := read_remote_iff.mp h
    rfl
  | data direction canId dlcStr bytes =>
    obtain ⟨_, _, _, _, _, _, rfl⟩ := read_data_iff.mp h
    rfl
  | fd direction canId f =>
    obtain ⟨_, _, _, _, _, _, _, _, rfl⟩ := read_fd_iff.mp h
    rfl

end Forms

end FsCore
