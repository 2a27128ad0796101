import FsCore.CText
import FsCore.Layout
import FsCore.Regex
import FsCore.Words

namespace FsCore

/-- Why the parsing of a line stops: an exception, or a store past the payload,
after which the code has no defined behaviour. -/
inductive ParseStop where
  | exception (what : Text)
  | outOfBounds (index : Nat)
deriving DecidableEq

abbrev Parse := Except ParseStop

def throwText {α : Type} (what : Text) : Parse α := .error (.exception what)

/-- A standard conversion, which throws where it has no value. -/
def convert {α : Type} (name : String) : Option α → Parse α
  | none => throwText name.toList
  | some value => .ok value

inductive Base where
  | hex
  | dec
deriving DecidableEq

def Base.radix : Base → Nat
  | .hex => 16
  | .dec => 10

def splitWhitespace (s : Text) : List Text := words isSpace s

def splitWhitespaceLimit (s : Text) (maxSplits : Nat) : List Text := splitLimit isSpace s maxSplits

theorem splitWhitespaceLimit_of_le {s : Text} {ws : List Text} {k : Nat} (h : splitWhitespace s = ws)
    (hk : ws.length ≤ k) : splitWhitespaceLimit s k = ws := by
  subst h
  exact splitLimit_of_le hk

theorem splitWhitespaceLimit_of_lt {s : Text} {ws : List Text} {k : Nat} (h : splitWhitespace s = ws)
    (hk : k < ws.length) : ∃ rest, splitWhitespaceLimit s k = ws.take k ++ [rest] ∧
      splitWhitespace rest = ws.drop k ∧ rest.dropWhile isSpace = rest := by
  subst h
  exact splitLimit_of_lt hk

def trimCopy (s : Text) : Text := (s.dropWhile isSpace).rdropWhile isSpace

def toLowerAscii (s : Text) : Text := s.map Char.toLower

def isDigits (s : Text) : Bool := !s.isEmpty && s.all Char.isDigit

def kDlcMap : List Int := [0, 1, 2, 3, 4, 5, 6, 7, 8, 12, 16, 20, 24, 32, 48, 64]

def dlc2lenCompat (dlc : Int) : Int :=
  if dlc < 0 ∨ (kDlcMap.length : Int) ≤ dlc then dlc else kDlcMap.getD dlc.toNat 0

namespace Regex

def digit : Regex Char := one Char.isDigit

def space : Regex Char := one isSpace

def wordChar : Regex Char := one fun c => c.isAlphanum || c = '_'

/-- `.` of ECMAScript -/
def dot : Regex Char := one fun c => !(c = '\n' || c = '\r')

def exactly (s : String) : Regex Char := word (fun a c => a = c) s.toList

def icase (s : String) : Regex Char := word (fun a c => a.toLower = c.toLower) s.toList

def sequence (parts : List (Regex Char)) : Regex Char := parts.foldr seq empty

end Regex

open Regex in
def kAscTriggerRegex : Regex Char :=
  sequence [icase "begin", plus space, icase "triggerblock", plus space, plus wordChar,
    plus space, plus dot]

open Regex in
/-- What follows the match of the search is arbitrary. -/
def kLogRecordRegex : Regex Char :=
  sequence [plus digit, exactly ".", plus digit, plus space,
    alt (sequence [plus digit, plus space,
        alt (sequence [plus wordChar, plus space, alt (icase "Tx") (icase "Rx")]) (icase "ErrorFrame")])
      (icase "CANFD"),
    star (one fun _ => true)]

open Regex in
def kStartOfMeasurementRegex : Regex Char :=
  sequence [plus digit, exactly ".", plus digit, plus space, exactly "Start of measurement"]

/-- `strncpy` of 15 characters and the terminator. -/
def channelOf (s : Text) : Vector Char 16 :=
  Vector.ofFn fun i => if i.val < 15 then (s.takeWhile (· ≠ nul)).getD i.val nul else nul

theorem channelOf_toList (s : Text) : (channelOf s).toList =
    (s.takeWhile (· ≠ nul)).take 15 ++
      List.replicate (16 - ((s.takeWhile (· ≠ nul)).take 15).length) nul := by
  unfold channelOf
  generalize s.takeWhile (· ≠ nul) = w
  have short : (w.take 15).length ≤ 15 := List.length_take_le 15 w
  refine List.ext_getElem (by simp) fun i hi hi' => ?_
  rw [Vector.getElem_toList, Vector.getElem_ofFn, List.getD_eq_getElem?_getD]
  dsimp only
  rcases Nat.lt_or_ge i (w.take 15).length with inside | past
  · have both : i < 15 ∧ i < w.length := by
      rw [List.length_take] at inside
      omega
    rw [List.getElem_append_left inside, List.getElem_take, if_pos both.1,
      List.getElem?_eq_getElem both.2, Option.getD_some]
  · rw [List.getElem_append_right past, List.getElem_replicate]
    split
    next low =>
      rw [List.length_take] at past
      rw [List.getElem?_eq_none (by omega), Option.getD_none]
    next => rfl

theorem nul_mem_channelOf (s : Text) : nul ∈ (channelOf s).toList := by
  have last : (channelOf s)[15] = nul := by
    simp [channelOf]
  exact Vector.mem_toList_iff.mpr (last ▸ Vector.getElem_mem (by omega))

theorem takeWhile_channelOf (s : Text) :
    (channelOf s).toList.takeWhile (· ≠ nul) = (s.takeWhile (· ≠ nul)).take 15 := by
  have plain : ∀ c ∈ (s.takeWhile (· ≠ nul)).take 15, decide (c ≠ nul) = true := fun c hc => by
    simpa using List.mem_takeWhile_imp (List.mem_of_mem_take hc)
  have stop (n : Nat) : (List.replicate n nul).takeWhile (· ≠ nul) = [] := by
    cases n <;> rfl
  rw [channelOf_toList, List.takeWhile_append_of_pos plain, stop, List.append_nil]

/-- The error frame test looks at the first ten characters. -/
def isErrorFrame (s : Text) : Bool := toLowerAscii ((trimCopy s).take 10) = "errorframe".toList

/-- The x that marks an extended id. -/
def hasX (strCanId : Text) : Bool := strCanId.getLast?.any fun c => c = 'x' || c = 'X'

def withoutX (strCanId : Text) : Text := if hasX strCanId then strCanId.dropLast else strCanId

def extractCanId (base : Base) (strCanId : Text) (msg : LogRecord) : Parse LogRecord :=
  let token := withoutX strCanId
  match stoul base.radix token with
  | none => throwText "stoul".toList
  | some (parsed, pos) =>
    if pos ≠ token.length then throwText ("Invalid CAN ID token: ".toList ++ strCanId)
    else pure { msg with isExtendedId := hasX strCanId, canId := UInt32.ofNat parsed }

def dataByte (base : Base) (token : Text) : Parse UInt8 :=
  match stoul base.radix token with
  | none => throwText "stoul".toList
  | some (value, pos) =>
    if pos ≠ token.length ∨ 0xff < value then throwText ("Invalid data byte token: ".toList ++ token)
    else pure (UInt8.ofNat value)

/-- The loop of process_data_string, from index `i` on. -/
def storeBytes (base : Base) : List Text → Nat → Vector UInt8 64 → Parse (Vector UInt8 64)
  | [], _, data => pure data
  | token :: tokens, i, data => do
    let value ← dataByte base token
    if h : i < 64 then storeBytes base tokens (i + 1) (data.set i value)
    else .error (.outOfBounds i)

def processDataString (base : Base) (dataStr : Text) (dataLength : Int) (msg : LogRecord) :
    Parse LogRecord := do
  let tokens := splitWhitespace dataStr
  let count := min dataLength (intOfSize tokens.length)
  let data ← storeBytes base (tokens.take count.toNat) 0 (Vector.replicate 64 0)
  pure { msg with data := data, dataLen := UInt8.ofInt (min count 64) }

def classicRemote (base : Base) (rest : Text) (msg : LogRecord) : Parse LogRecord :=
  match splitWhitespace rest with
  | _ :: dlcStr :: _ =>
    if isDigits dlcStr then do
      let dlcRaw ← convert "stoi" (stoi base.radix dlcStr)
      pure { msg with dataLen := UInt8.ofInt (dlc2lenCompat dlcRaw) }
    else pure msg
  | _ => pure msg

def classicData (base : Base) (dlcStr data : Text) (msg : LogRecord) : Parse LogRecord := do
  let dlcRaw ← convert "stoi" (stoi base.radix dlcStr)
  let dlc := dlc2lenCompat dlcRaw
  processDataString base data (min 8 dlc) { msg with dataLen := UInt8.ofInt dlc }

def processClassicCanFrame (base : Base) (line : Text) (msg : LogRecord) : Parse LogRecord :=
  if isErrorFrame line then pure { msg with isErrorFrame := true }
  else
    match splitWhitespaceLimit line 2 with
    | [abrIdStr, direction, rest] => do
      let msg ← extractCanId base abrIdStr
        { msg with direction := if direction = "Tx".toList then 1 else 0 }
      if rest.head?.map Char.toLower = some 'r' then
        classicRemote base rest { msg with isRemoteFrame := true }
      else
        match splitWhitespaceLimit rest 2 with
        | [_, dlcStr, data] => classicData base dlcStr data msg
        | [_, dlcStr] => classicData base dlcStr [] msg
        | _ => throwText "Invalid classic CAN payload".toList
    | _ => throwText "Invalid classic CAN frame".toList

/-- The fields between the frame name and the end of a CAN FD line. -/
structure FdFields where
  brs : Text
  esi : Text
  dlcStr : Text
  dataLengthStr : Text
  data : Text

/-- The data field may be omitted from a frame of length zero. -/
def fdLayout (brs : Text) : List Text → Parse FdFields
  | [esi, dlcStr, len] =>
    if len = "0".toList then pure ⟨brs, esi, dlcStr, len, []⟩
    else throwText "Invalid CAN FD payload layout".toList
  | [esi, dlcStr, len, data] => pure ⟨brs, esi, dlcStr, len, data⟩
  | _ => throwText "Invalid CAN FD payload layout".toList

/-- A name of digits is the brs field of a frame without a name. -/
def fdFields (name frameRest : Text) : Parse FdFields :=
  if isDigits name then fdLayout name (splitWhitespaceLimit frameRest 3)
  else
    match splitWhitespaceLimit frameRest 4 with
    | brs :: fdParts => fdLayout brs fdParts
    | [] => throwText "Invalid CAN FD payload layout".toList

def fdPayload (base : Base) (canIdStr : Text) (f : FdFields) (msg : LogRecord) : Parse LogRecord := do
  let msg ← extractCanId base canIdStr msg
  let dlc ← convert "stoi" (stoi base.radix f.dlcStr)
  let dataLength ← convert "stoi" (stoi 10 f.dataLengthStr)
  let msg := { msg with
    bitrateSwitch := f.brs = "1".toList
    errorStateIndicator := f.esi = "1".toList }
  let msg :=
    if dataLength = 0 then
      { msg with isRemoteFrame := true, dataLen := UInt8.ofInt (dlc2lenCompat dlc) }
    else { msg with dataLen := UInt8.ofInt dataLength }
  processDataString base f.data dataLength msg

def fdMessage (base : Base) (rest : Text) (msg : LogRecord) : Parse LogRecord :=
  match splitWhitespaceLimit rest 2 with
  | [canIdStr, name, frameRest] => do
    let f ← fdFields name frameRest
    fdPayload base canIdStr f msg
  | _ => throwText "Invalid CAN FD payload".toList

def fdFrame (base : Base) (frame : Text) (msg : LogRecord) : Parse LogRecord :=
  if isErrorFrame frame then pure { msg with isErrorFrame := true }
  else
    match splitWhitespaceLimit frame 1 with
    | [direction, rest] =>
      fdMessage base rest { msg with direction := if direction = "Tx".toList then 1 else 0 }
    | _ => throwText "Invalid CAN FD frame".toList

def processFdCanFrame (base : Base) (line : Text) (msg : LogRecord) : Parse LogRecord :=
  match splitWhitespaceLimit line 1 with
  | [channel, frame] => fdFrame base frame { msg with channel := channelOf channel }
  | _ => throwText "Invalid CAN FD frame".toList

/-- The object without its stream. The header is never read, so the base is the
constructor's; the platform's calendar gives dates a time. -/
structure AscReader where
  base : Base
  relativeTimestamp : Bool
  datetimeToTimestamp : Text → Option Binary64

/-- What a line does to the loop of `next`. -/
inductive LineOutcome where
  | startTime (t : Binary64)
  | skipped
  | record (r : LogRecord)
  | outOfBounds (index : Nat)
deriving DecidableEq

namespace AscReader

variable (reader : AscReader)

/-- A record line: none where the loop continues without an exception. -/
def recordLine (startTime : Binary64) (line : Text) : Parse (Option LogRecord) :=
  match splitWhitespaceLimit line 2 with
  | [time, kind, rest] => do
    let ts ← convert "stod" (stod time)
    let msg := { LogRecord.zero with timestamp := ts.add startTime }
    if kind = "CANFD".toList then
      Option.some <$> processFdCanFrame reader.base rest { msg with isFd := true }
    else if isDigits kind then
      Option.some <$> processClassicCanFrame reader.base rest { msg with channel := channelOf kind }
    else pure none
  | _ => throwText "Line does not contain enough fields".toList

/-- The time that a trigger line sets: its date is all that follows three words. -/
def triggerTime (line : Text) : Binary64 :=
  if reader.relativeTimestamp then Binary64.zero
  else ((splitWhitespaceLimit line 3)[3]?.bind reader.datetimeToTimestamp).getD Binary64.zero

def parseLine (startTime : Binary64) (raw : Text) : LineOutcome :=
  let line := trimCopy raw
  if line ∈ kAscTriggerRegex.language then .startTime (reader.triggerTime line)
  else if line ∈ kStartOfMeasurementRegex.language then .skipped
  else if line ∈ kLogRecordRegex.language then
    match reader.recordLine startTime line with
    | .ok (some r) => .record r
    | .ok none => .skipped
    | .error (.exception _) => .skipped
    | .error (.outOfBounds index) => .outOfBounds index
  else .skipped

/-- The record, the start time and the lines left; none at the end of the stream. -/
def next (startTime : Binary64) : List Text → Except Nat (Option (LogRecord × Binary64 × List Text))
  | [] => .ok none
  | raw :: lines =>
    match reader.parseLine startTime raw with
    | .startTime t => next t lines
    | .skipped => next startTime lines
    | .record r => .ok (some (r, startTime, lines))
    | .outOfBounds index => .error index

/-- `while (reader.next(rec)) …push_back(rec)`; every record takes a line. -/
def nextLoop : Nat → Binary64 → List Text → Except Nat (List LogRecord)
  | 0, _, _ => .ok []
  | fuel + 1, startTime, lines => do
    match ← reader.next startTime lines with
    | none => pure []
    | some (r, t, rest) =>
      let records ← nextLoop fuel t rest
      pure (r :: records)

def readAll (text : Text) : Except Nat (List LogRecord) :=
  reader.nextLoop ((getLines text).length + 1) Binary64.zero (getLines text)

end AscReader

end FsCore
