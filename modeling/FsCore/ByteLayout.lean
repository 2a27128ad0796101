import FsCore.Codec
import FsCore.Mmap

namespace FsCore

namespace Codec

def char : Codec Char where
  width := 1
  encode c := [UInt8.ofNat c.toNat]
  decode bytes := Char.ofNat (bytes.headD 0).toNat
  Fits c := c.toNat < 256
  encode_length _ := rfl
  decode_encode c fits := by
    rw [List.headD_cons, UInt8.toNat_ofNat_of_lt' fits, Char.ofNat_toNat]

def bool : Codec Bool := byte.along Bool.toUInt8 (· != 0) (by decide)

def uint16 : Codec UInt16 := (word 2).along UInt16.toNat UInt16.ofNat fun _ => UInt16.ofNat_toNat

def uint32 : Codec UInt32 := (word 4).along UInt32.toNat UInt32.ofNat fun _ => UInt32.ofNat_toNat

def int32 : Codec Int32 := uint32.along Int32.toUInt32 UInt32.toInt32 fun _ => rfl

def double : Codec Binary64 :=
  (word 8).along (fun x => x.bits.toNat) (fun v => ⟨BitVec.ofNat 64 v⟩)
    fun x => by rw [BitVec.ofNat_toNat, BitVec.setWidth_eq]

end Codec

/-- The members of a `LogRecord` in the order in which they are stored. -/
def LogRecord.members (r : LogRecord) : Binary64 × UInt32 × UInt8 × UInt8 × Vector UInt8 64 ×
    Bool × Bool × Bool × Bool × Bool × Bool × Vector Char 16 :=
  (r.timestamp, r.canId, r.direction, r.dataLen, r.data, r.isExtendedId, r.isErrorFrame,
    r.isRemoteFrame, r.bitrateSwitch, r.errorStateIndicator, r.isFd, r.channel)

open Codec in
/-- `LogRecord` under `#pragma pack(push, 1)`. -/
def logRecordCodec : Codec LogRecord :=
  (double.pair (uint32.pair (byte.pair (byte.pair ((byte.vector 64).pair (bool.pair (bool.pair
    (bool.pair (bool.pair (bool.pair (bool.pair (char.vector 16)))))))))))).along LogRecord.members
    (fun (timestamp, canId, direction, dataLen, data, isExtendedId, isErrorFrame,
      isRemoteFrame, bitrateSwitch, errorStateIndicator, isFd, channel) =>
      { timestamp, canId, direction, dataLen, data, isExtendedId, isErrorFrame,
        isRemoteFrame, bitrateSwitch, errorStateIndicator, isFd, channel })
    fun _ => rfl

open Codec in
/-- `ParsedEntry` under `#pragma pack(push, 1)`: its base comes first. -/
def parsedEntryCodec : Codec ParsedEntry :=
  (logRecordCodec.pair (uint32.pair (double.pair (byte.pair (uint32.pair uint32))))).along
    (fun e => (e.toLogRecord, e.lineNumber, e.lastTimestamp, e.changed, e.prevSameCan, e.nextSameCan))
    (fun (toLogRecord, lineNumber, lastTimestamp, changed, prevSameCan, nextSameCan) =>
      { toLogRecord, lineNumber, lastTimestamp, changed, prevSameCan, nextSameCan })
    fun _ => rfl

structure MmapHeaderConstract where
  writeCount : Int32
  capacity : UInt32
  segmentCount : UInt32
  reserved : Vector UInt8 12
  sourceFilePathLen : UInt16
  sourceFilePath : Vector Char kMmapSourceFilePathCapacity
deriving DecidableEq

open Codec in
def headerCodec : Codec MmapHeaderConstract :=
  (int32.pair (uint32.pair (uint32.pair ((byte.vector 12).pair
    (uint16.pair (char.vector kMmapSourceFilePathCapacity)))))).along
    (fun h => (h.writeCount, h.capacity, h.segmentCount, h.reserved, h.sourceFilePathLen,
      h.sourceFilePath))
    (fun (writeCount, capacity, segmentCount, reserved, sourceFilePathLen, sourceFilePath) =>
      { writeCount, capacity, segmentCount, reserved, sourceFilePathLen, sourceFilePath })
    fun _ => rfl

example : logRecordCodec.width = 100 ∧ parsedEntryCodec.width = 121 ∧
    headerCodec.width = 538 := ⟨rfl, rfl, rfl⟩

theorem parsedEntryCodec_zero : parsedEntryCodec.encode ParsedEntry.zero =
    List.replicate parsedEntryCodec.width 0 := by
  decide

/-- Only a channel could hold what is no byte. -/
theorem logRecordCodec_fits_iff {r : LogRecord} : logRecordCodec.Fits r ↔
    ∀ c ∈ r.channel.toList, c.toNat < 256 := by
  constructor
  · exact fun fits => fits.2.2.2.2.2.2.2.2.2.2.2
  · exact fun chars => ⟨r.timestamp.bits.isLt, r.canId.toNat_lt, trivial, trivial, fun _ _ =>
      trivial, trivial, trivial, trivial, trivial, trivial, trivial, chars⟩

theorem parsedEntryCodec_fits_iff {e : ParsedEntry} : parsedEntryCodec.Fits e ↔
    ∀ c ∈ e.channel.toList, c.toNat < 256 := by
  rw [← logRecordCodec_fits_iff]
  constructor
  · exact fun fits => fits.1
  · exact fun fits =>
      ⟨fits, e.lineNumber.toNat_lt, e.lastTimestamp.bits.isLt, trivial, e.prevSameCan.toNat_lt,
      e.nextSameCan.toNat_lt⟩

theorem parsedEntryCodec_zero_fits : parsedEntryCodec.Fits ParsedEntry.zero := by
  refine parsedEntryCodec_fits_iff.mpr fun c hc => ?_
  have null : c = nul := by simpa [ParsedEntry.zero, LogRecord.zero] using hc
  rw [null]
  decide

end FsCore
