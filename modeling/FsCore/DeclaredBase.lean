import FsCore.AscHeader
import FsCore.EntryPoints
import FsCore.NumeralBases

namespace FsCore

/-- A decimal numeral below ten. -/
def OneDigit (token : Text) : Prop := ∃ n, integerPrefix 10 token = some n ∧ n.magnitude < 10

/-- Hexadecimal digits do not change what the decimal numerals of the frame say: the id
is the same, the bytes that count are below ten, and the DLC does not change the length. -/
def FrameText.SameInHex : FrameText → Prop
  | .errorFrame => True
  | .remote _ canId dlc => canIdOf .hex canId = canIdOf .dec canId ∧
      remoteCount .hex dlc 0 = remoteCount .dec dlc 0
  | .data _ canId dlcStr bytes => canIdOf .hex canId = canIdOf .dec canId ∧
      (classicCount .hex dlcStr bytes).map UInt8.ofInt =
        (classicCount .dec dlcStr bytes).map UInt8.ofInt ∧
      ∀ n ∈ classicCount .dec dlcStr bytes, ∀ t ∈ (splitWhitespace bytes).take n.toNat, OneDigit t
  | .fd _ canId fields => canIdOf .hex canId = canIdOf .dec canId ∧ (stoi 16 fields.dlcStr).isSome ∧
      ∀ n ∈ stoi 10 fields.dataLengthStr,
        ∀ t ∈ (splitWhitespace fields.data).take (fdCount fields n).toNat, OneDigit t

def SameInHex (raw : Text) : Prop := ∀ t ∈ recordText (trimCopy raw), t.frame.SameInHex

section Bases

variable {msg r : LogRecord}

theorem dataByte_hex_iff {token : Text} {b : UInt8} (dec : dataByte .dec token = .ok b) :
    dataByte .hex token = .ok b ↔ OneDigit token := by
  obtain ⟨value, hdec, small, rfl⟩ := dataByte_ok_iff.mp dec
  rw [OneDigit, ← stoul_hex_iff hdec, dataByte_ok_iff]
  constructor
  · intro h
    obtain ⟨value', hhex, small', eq⟩ := h
    have same := congrArg UInt8.toNat eq
    rw [UInt8.toNat_ofNat_of_lt' (by simp [UInt8.size]; omega),
      UInt8.toNat_ofNat_of_lt' (by simp [UInt8.size]; omega)] at same
    rw [← same]
    exact hhex
  · exact fun hhex => ⟨value, hhex, small, rfl⟩

theorem storeBytes_hex_iff {tokens : List Text} {v data : Vector UInt8 64}
    (dec : storeBytes .dec tokens 0 data = .ok v) :
    storeBytes .hex tokens 0 data = .ok v ↔ ∀ t ∈ tokens, OneDigit t := by
  obtain ⟨fits, bytes, same⟩ := (storeBytes_ok_iff (Nat.zero_le 64)).mp dec
  rw [storeBytes_ok_iff (Nat.zero_le 64), and_iff_right fits, and_iff_left same,
    List.forall_mem_iff_forall_getElem]
  constructor
  · intro h k hk
    exact (dataByte_hex_iff (bytes k hk (by omega))).mp (h k hk (by omega))
  · intro h k hk inside
    exact (dataByte_hex_iff (bytes k hk inside)).mpr (h k hk)

theorem remoteCount_congr {dlc : Option Text} {a b : UInt8}
    (h : remoteCount .hex dlc a = remoteCount .dec dlc a) :
    remoteCount .hex dlc b = remoteCount .dec dlc b := by
  cases dlc with
  | none => rfl
  | some dlcStr => exact h

/-- Both bases agree on the sign, so equal lengths take equally many tokens. -/
theorem classicCount_toNat {dlcStr bytes : Text} {n n' : Int}
    (hex : classicCount .hex dlcStr bytes = some n') (dec : classicCount .dec dlcStr bytes = some n)
    (same : UInt8.ofInt n' = UInt8.ofInt n) : n'.toNat = n.toNat := by
  obtain ⟨raw', hraw', rfl⟩ := Option.map_eq_some_iff.mp hex
  obtain ⟨raw, hraw, rfl⟩ := Option.map_eq_some_iff.mp dec
  have sign' := stoi_sign hraw'
  have sign := stoi_sign hraw
  have len' := @dlc2lenCompat_sign raw'
  have len := @dlc2lenCompat_sign raw
  generalize intOfSize (splitWhitespace bytes).length = tokens at *
  have bytes := congrArg UInt8.toNat same
  simp only [UInt8.ofInt, UInt8.toNat_ofNat'] at bytes
  cases negative : isNegative dlcStr with
  | true =>
    rw [negative, if_pos rfl] at sign sign'
    have := len'.1 sign'
    have := len.1 sign
    omega
  | false =>
    rw [negative, if_neg Bool.false_ne_true] at sign sign'
    have := len'.2 sign'
    have := len.2 sign
    omega

theorem read_remote_hex_iff {direction canId : Text} {dlc : Option Text}
    (dec : (FrameText.remote direction canId dlc).read .dec msg = .ok r) :
    (FrameText.remote direction canId dlc).read .hex msg = .ok r ↔
      (FrameText.remote direction canId dlc).SameInHex := by
  obtain ⟨id, len, hid, hlen, rfl⟩ := read_remote_iff.mp dec
  rw [read_remote_iff, FrameText.SameInHex, hid]
  constructor
  · intro h
    obtain ⟨id', len', hid', hlen', eq⟩ := h
    have sameId : id = id' := congrArg LogRecord.canId eq
    have sameLen : len = len' := congrArg LogRecord.dataLen eq
    subst sameId sameLen
    exact ⟨hid', remoteCount_congr (hlen'.trans hlen.symm)⟩
  · intro h
    obtain ⟨hid', count⟩ := h
    exact ⟨id, len, hid', (remoteCount_congr count).trans hlen, rfl⟩

theorem read_data_hex_iff {direction canId dlcStr bytes : Text}
    (dec : (FrameText.data direction canId dlcStr bytes).read .dec msg = .ok r) :
    (FrameText.data direction canId dlcStr bytes).read .hex msg = .ok r ↔
      (FrameText.data direction canId dlcStr bytes).SameInHex := by
  obtain ⟨id, n, v, hid, hn, hv, rfl⟩ := read_data_iff.mp dec
  rw [read_data_iff, FrameText.SameInHex, hid, hn, Option.map_some]
  constructor
  · intro h
    obtain ⟨id', n', v', hid', hn', hv', eq⟩ := h
    have sameId : id = id' := congrArg LogRecord.canId eq
    have sameData : v = v' := congrArg LogRecord.data eq
    have sameLen : UInt8.ofInt n = UInt8.ofInt n' := congrArg LogRecord.dataLen eq
    subst sameId sameData
    rw [classicCount_toNat hn' hn sameLen.symm, storeBytes_hex_iff hv] at hv'
    refine ⟨hid', by rw [hn', Option.map_some, sameLen], fun m hm => ?_⟩
    cases hm
    exact hv'
  · intro h
    obtain ⟨hid', hn', small⟩ := h
    obtain ⟨n', hn', same⟩ := Option.map_eq_some_iff.mp hn'
    refine ⟨id, n', v, hid', hn', ?_, by rw [same]⟩
    rw [classicCount_toNat hn' hn same, storeBytes_hex_iff hv]
    exact small n rfl

theorem read_fd_hex_iff {direction canId : Text} {f : FdFields}
    (dec : (FrameText.fd direction canId f).read .dec msg = .ok r) :
    (FrameText.fd direction canId f).read .hex msg =
      .ok r ↔ (FrameText.fd direction canId f).SameInHex := by
  obtain ⟨id, dlc, n, v, hid, hdlc, hn, hv, rfl⟩ := read_fd_iff.mp dec
  rw [read_fd_iff, FrameText.SameInHex, hid, hn]
  constructor
  · intro h
    obtain ⟨id', dlc', n', v', hid', hdlc', hn', hv', eq⟩ := h
    cases hn'
    have sameId : id = id' := congrArg LogRecord.canId eq
    have sameData : v = v' := congrArg LogRecord.data eq
    subst sameId sameData
    refine ⟨hid', Option.isSome_of_eq_some hdlc', fun m hm => ?_⟩
    cases hm
    exact (storeBytes_hex_iff hv).mp hv'
  · intro h
    obtain ⟨hid', hdlc', small⟩ := h
    obtain ⟨dlc', hdlc'⟩ := Option.isSome_iff_exists.mp hdlc'
    exact ⟨id, dlc', n, v, hid', hdlc', rfl, (storeBytes_hex_iff hv).mpr (small n rfl), rfl⟩

/-- What the frame is in decimal numbers it is in hexadecimal ones exactly when they say the same. -/
theorem read_hex_iff {t : FrameText} (dec : t.read .dec msg = .ok r) :
    t.read .hex msg = .ok r ↔ t.SameInHex := by
  cases t with
  | errorFrame => exact iff_of_true dec trivial
  | remote direction canId dlc => exact read_remote_hex_iff dec
  | data direction canId dlcStr bytes => exact read_data_hex_iff dec
  | fd direction canId f => exact read_fd_hex_iff dec

theorem parseLine_hex_iff {reader : AscReader} (decimal : reader.base = .dec) {raw : Text}
    (dec : reader.parseLine Binary64.zero raw = .record r) :
    workerReader.parseLine Binary64.zero raw = .record r ↔ SameInHex raw := by
  obtain ⟨line, t, text, read⟩ := parseLine_record_iff.mp dec
  rw [decimal] at read
  obtain ⟨ts, hts, read⟩ := parse_bind_ok.mp read
  have frame := read_hex_iff read
  rw [parseLine_record_iff, and_iff_right line, SameInHex, text]
  constructor
  · intro h t' mem
    obtain ⟨_, h, hex⟩ := h
    cases h
    cases mem
    obtain ⟨ts', hts', hex⟩ := parse_bind_ok.mp hex
    cases hts.symm.trans hts'
    exact frame.mp hex
  · intro h
    exact ⟨t, rfl, parse_bind_ok.mpr ⟨ts, hts, frame.mpr (h t rfl)⟩⟩

end Bases

/-- The records in the base that the header declares are what is obtained when that base
is hexadecimal, or when it does not matter on any line. -/
theorem records_in_declared_base_iff {src : Text} {header lines : List Text} {records : List LogRecord}
    {datetimeToTimestamp : Text → Option Binary64} (begins : IsHeader header)
    (text : getLines src = header ++ lines)
    (record : List.Forall₂ (fun raw r =>
      (⟨declaredBase header, true, datetimeToTimestamp⟩ : AscReader).parseLine Binary64.zero raw =
        .record r) lines records) :
    (parseLines src = .ok records ∧ workerReader.readAll src = .ok records) ↔
      declaredBase header = .hex ∨ ∀ raw ∈ lines, SameInHex raw := by
  have read : workerReader.readAll src = workerReader.lineRecords lines := by
    rw [AscReader.readAll_relative rfl, text, AscReader.lineRecords_header begins]
  rw [parseLines_eq, and_self, read, AscReader.lineRecords_eq_iff record.length_eq]
  cases declared : declaredBase header with
  | hex =>
    rw [declared] at record
    exact iff_of_true (record.imp fun raw r h => h) (Or.inl rfl)
  | dec =>
    have each : ∀ raw r,
        (⟨declaredBase header, true, datetimeToTimestamp⟩ : AscReader).parseLine Binary64.zero raw =
          .record r →
        (workerReader.parseLine Binary64.zero raw = .record r ↔ SameInHex raw) :=
      fun raw r h => parseLine_hex_iff declared h
    rw [or_iff_right (fun h => by cases h)]
    clear read text begins
    induction record with
    | nil => exact iff_of_true .nil fun raw mem => by cases mem
    | cons first _ ih =>
      rw [List.forall₂_cons, List.forall_mem_cons]
      exact and_congr (each _ _ first) ih

def decimalHeader : Text := "base dec timestamps absolute".toList

def decimalLine : Text := "0.5 1 10 Rx d 1 7".toList

def decimalLog : Text := decimalHeader ++ '\n' :: decimalLine

theorem isHeader_decimalHeader : IsHeader [decimalHeader] :=
  ⟨[decimalHeader], [], rfl, by decide +kernel, by decide, fun raw mem => by cases mem⟩

theorem decimalLine_record :
    ∃ r, (⟨declaredBase [decimalHeader], true, fun _ => none⟩ : AscReader).parseLine
    Binary64.zero decimalLine = .record r ∧ r.canId = 10 := by
  have read : ((⟨declaredBase [decimalHeader], true, fun _ => none⟩ : AscReader).parseLine
      Binary64.zero decimalLine).toRecord.map LogRecord.canId = some 10 := by
    decide +kernel
  exact LineOutcome.exists_record read

theorem records_in_declared_base_iff_sample : ∃ r,
    (parseLines decimalLog = .ok [r] ∧ workerReader.readAll decimalLog = .ok [r]) ↔
      declaredBase [decimalHeader] = .hex ∨ ∀ raw ∈ [decimalLine], SameInHex raw := by
  obtain ⟨r, read, _⟩ := decimalLine_record
  exact ⟨r, records_in_declared_base_iff isHeader_decimalHeader (by decide) (.cons read .nil)⟩

/-- The id 10 of a log in decimal numbers is read as 16. -/
theorem decimal_log_read_in_hex :
    ¬ ∀ (src : Text) (header lines : List Text) (records : List LogRecord),
    IsHeader header → getLines src = header ++ lines →
    List.Forall₂ (fun raw r => (⟨declaredBase header, true, fun _ => none⟩ : AscReader).parseLine
      Binary64.zero raw = .record r) lines records →
    parseLines src = .ok records ∧ workerReader.readAll src = .ok records := by
  intro h
  obtain ⟨r, read, id⟩ := decimalLine_record
  obtain ⟨parsed, _⟩ :=
    h decimalLog [decimalHeader] [decimalLine] [r] isHeader_decimalHeader (by decide)
    (.cons read .nil)
  have hex : (parseLines decimalLog).toOption.map (List.map LogRecord.canId) = some [16] := by
    decide +kernel
  rw [parsed] at hex
  have ids : [r.canId] = [16] := Option.some.inj hex
  rw [id] at ids
  exact absurd ids (by decide)

end FsCore
