import FsCore.Binary64

namespace FsCore

/-- Bytes of text: a C `char` is a `Char` below 256. -/
abbrev Text := List Char

def nul : Char := Char.ofNat 0

/-- The packed record of one CAN frame. -/
structure LogRecord where
  timestamp : Binary64
  canId : UInt32
  direction : UInt8
  dataLen : UInt8
  data : Vector UInt8 64
  isExtendedId : Bool
  isErrorFrame : Bool
  isRemoteFrame : Bool
  bitrateSwitch : Bool
  errorStateIndicator : Bool
  isFd : Bool
  channel : Vector Char 16
deriving DecidableEq

/-- What `LogRecord msg{}` starts from. -/
def LogRecord.zero : LogRecord where
  timestamp := Binary64.zero
  canId := 0
  direction := 0
  dataLen := 0
  data := Vector.replicate 64 0
  isExtendedId := false
  isErrorFrame := false
  isRemoteFrame := false
  bitrateSwitch := false
  errorStateIndicator := false
  isFd := false
  channel := Vector.replicate 16 nul

def sampleRecord : LogRecord := { LogRecord.zero with canId := 5, dataLen := 1 }

def kInvalidRow : UInt32 := 0xffffffff

theorem toNat_ofNat_row {j : Nat} (h : j < 2 ^ 31) : (UInt32.ofNat j).toNat = j :=
  UInt32.toNat_ofNat_of_lt' (by simp [UInt32.size]; omega)

theorem ofNat_row_ne_invalid {j : Nat} (h : j < 2 ^ 31) : UInt32.ofNat j ≠ kInvalidRow := by
  intro eq
  have := congrArg UInt32.toNat eq
  rw [toNat_ofNat_row h] at this
  simp [kInvalidRow] at this
  omega

/-- A stored row: the frame and what is derived from the rows before it. -/
structure ParsedEntry extends LogRecord where
  lineNumber : UInt32
  lastTimestamp : Binary64
  changed : UInt8
  prevSameCan : UInt32
  nextSameCan : UInt32
deriving DecidableEq

/-- The bytes of a new segment file are all zero. -/
def ParsedEntry.zero : ParsedEntry where
  toLogRecord := LogRecord.zero
  lineNumber := 0
  lastTimestamp := Binary64.zero
  changed := 0
  prevSameCan := 0
  nextSameCan := 0

/-- The channel as a C string. A full array is read on into `line_number`,
whose bytes are zero. -/
def LogRecord.channelText (r : LogRecord) : Text := r.channel.toList.takeWhile (· ≠ nul)

def payloadChanged (prev cur : LogRecord) : Bool :=
  let prevLen := min prev.dataLen 64
  let curLen := min cur.dataLen 64
  if prevLen ≠ curLen then true
  else decide (0 < curLen) &&
    decide (prev.data.toList.take curLen.toNat ≠ cur.data.toList.take curLen.toNat)

end FsCore
