import FsCore.AcceptedLines
import FsCore.RenderedFrames

namespace FsCore

/-- The tokens of a classic data frame, all but its name. -/
structure DataTokens (base : Base) (time channel canId direction dlcStr : Text)
    (bytes : List Text) : Prop where
  stamp : IsTimestamp time
  value : (stod time).isSome
  channel : isDigits channel = true
  id : ∃ n < 2 ^ 64, IsNumeral base.radix (withoutX canId) n
  direction : IsDirection direction
  dlc : ∃ n ≤ 8, IsNumeral base.radix dlcStr n
  bytes : ∀ b ∈ bytes, ∃ n < 256, IsNumeral base.radix b n

section Tokens

variable {base : Base}

theorem canIdToken_of_numeral {canId : Text} {n : Nat} (h : IsNumeral base.radix (withoutX canId) n)
    (bound : n < 2 ^ 64) : CanIdToken base canId :=
  ⟨n, stoul_numeral h base.small bound⟩

theorem byteToken_of_numeral {token : Text} {n : Nat} (h : IsNumeral base.radix token n)
    (small : n < 256) : ByteToken base token :=
  ⟨n, stoul_numeral h base.small (by omega), by omega⟩

/-- The bytes of a data frame count by their tokens only. -/
theorem read_data_congr {direction canId dlcStr bytes bytes' : Text} {msg : LogRecord}
    (h : splitWhitespace bytes = splitWhitespace bytes') :
    (FrameText.data direction canId dlcStr bytes).read base msg =
      (FrameText.data direction canId dlcStr bytes').read base msg := by
  simp only [FrameText.read, classicData, processDataString, h]

end Tokens

section Lines

variable {reader : AscReader} {startTime : Binary64}
  {time channel canId direction name dlcStr raw : Text}
  {bytes : List Text}

theorem DataTokens.isRecordLine (h : DataTokens reader.base time channel canId direction dlcStr bytes)
    (line : splitWhitespace raw = time :: channel :: canId :: direction :: name :: dlcStr :: bytes) :
    IsRecordLine raw := by
  obtain ⟨n, -, id⟩ := h.id
  have other : channel ≠ "Start".toList := by
    rintro rfl
    cases h.channel
  refine isRecordLine_of h.stamp other line fun rest tight hrest => ?_
  exact hasForm_classic h.channel tight hrest fun frame tight' hframe =>
    directed_form (idChars_of_numeral id) h.direction tight' hframe

/-- A name that does not begin with r is skipped, whatever it is. -/
theorem DataTokens.data (h : DataTokens reader.base time channel canId direction dlcStr bytes)
    (line : splitWhitespace raw = time :: channel :: canId :: direction :: name :: dlcStr :: bytes)
    (other : name.head?.map Char.toLower ≠ some 'r') :
    ∃ data, recordText (trimCopy raw) = some ⟨time, false, channel, .data direction canId dlcStr data⟩ ∧
      splitWhitespace data = bytes := by
  obtain ⟨n, -, id⟩ := h.id
  obtain ⟨rest, tight, hrest, text⟩ :=
    recordText_classic h.channel ((splitWhitespace_trimCopy raw).trans line)
  obtain ⟨data, frame, hdata⟩ :=
    classicText_data tight hrest other (idChars_of_numeral id).not_errorFrame
  rw [frame] at text
  exact ⟨data, text, hdata⟩

theorem DataTokens.remote (h : DataTokens reader.base time channel canId direction dlcStr bytes)
    (line : splitWhitespace raw = time :: channel :: canId :: direction :: name :: dlcStr :: bytes)
    (mark : name.head?.map Char.toLower = some 'r') :
    ∃ dlc, recordText (trimCopy raw) = some ⟨time, false, channel, .remote direction canId dlc⟩ := by
  obtain ⟨n, -, id⟩ := h.id
  obtain ⟨rest, tight, hrest, text⟩ :=
    recordText_classic h.channel ((splitWhitespace_trimCopy raw).trans line)
  obtain ⟨dlc, frame⟩ := classicText_remoteName tight hrest mark (idChars_of_numeral id).not_errorFrame
  rw [frame] at text
  exact ⟨dlc, text⟩

theorem DataTokens.readable (h : DataTokens reader.base time channel canId direction dlcStr bytes)
    {data : Text} (hdata : splitWhitespace data = bytes) :
    (FrameText.data direction canId dlcStr data).Readable reader.base := by
  obtain ⟨n, bound, id⟩ := h.id
  obtain ⟨v, small, dlc⟩ := h.dlc
  have count : classicCount reader.base dlcStr data =
      some (min (min 8 (dlc2lenCompat v)) (intOfSize (splitWhitespace data).length)) := by
    rw [classicCount, stoi_numeral dlc reader.base.small (by omega)]
    rfl
  refine ⟨canIdToken_of_numeral id bound, _, count, fun t ht => ?_⟩
  rw [hdata] at ht
  obtain ⟨b, small, numeral⟩ := h.bytes t (List.mem_of_mem_take ht)
  exact byteToken_of_numeral numeral small

theorem DataTokens.accepted (h : DataTokens reader.base time channel canId direction dlcStr bytes)
    (line : splitWhitespace raw = time :: channel :: canId :: direction :: name :: dlcStr :: bytes)
    (other : name.head?.map Char.toLower ≠ some 'r') :
    ∃ r, reader.parseLine startTime raw = .record r := by
  obtain ⟨data, text, hdata⟩ := h.data line other
  exact parseLine_isRecord_iff.mpr ⟨h.isRecordLine line, _, text, h.value, h.readable hdata⟩

/-- The name of a data frame is ignored exactly when it does not begin with an r. -/
theorem frameName_ignored_iff {raw' : Text}
    (h : DataTokens reader.base time channel canId direction dlcStr bytes)
    (line : splitWhitespace raw = time :: channel :: canId :: direction :: name :: dlcStr :: bytes)
    (line' : splitWhitespace raw' = time :: channel :: canId :: direction :: "d".toList ::
      dlcStr :: bytes) :
    (∃ r, reader.parseLine startTime raw = .record r ∧ reader.parseLine startTime raw' = .record r) ↔
      name.head?.map Char.toLower ≠ some 'r' := by
  obtain ⟨data', text', hdata'⟩ := h.data line' (by decide)
  constructor
  · rintro ⟨r, read, read'⟩ mark
    obtain ⟨dlc, text⟩ := h.remote line mark
    obtain ⟨ts, hr⟩ := record_frame_of read text
    obtain ⟨ts', hr'⟩ := record_frame_of read' text'
    obtain ⟨_, _, _, _, rfl⟩ := read_remote_iff.mp hr
    obtain ⟨_, _, _, _, _, _, same⟩ := read_data_iff.mp hr'
    have remote : true = false := congrArg LogRecord.isRemoteFrame same
    cases remote
  · intro other
    obtain ⟨data, text, hdata⟩ := h.data line other
    obtain ⟨r, read⟩ : ∃ r, reader.parseLine startTime raw = .record r := h.accepted line other
    refine ⟨r, read, parseLine_record_iff.mpr ⟨h.isRecordLine line', _, text', ?_⟩⟩
    obtain ⟨-, t, ht, hr⟩ := parseLine_record_iff.mp read
    cases Option.some.inj (text.symm.trans ht)
    have same : splitWhitespace data' = splitWhitespace data := hdata'.trans hdata.symm
    simp only [RecordText.read, read_data_congr same]
    exact hr

end Lines

def namedLine (name : String) : Text := "0.019000 2 654 Rx ".toList ++ name.toList ++ " 2 AA BB".toList

theorem namedLine_tokens :
    DataTokens .hex "0.019000".toList "2".toList "654".toList "Rx".toList "2".toList ["AA".toList,
      "BB".toList] where
  stamp := ⟨"0".toList, "019000".toList, by decide, by decide, by decide⟩
  value := by decide +kernel
  channel := by decide
  id := ⟨0x654, by decide, by decide⟩
  direction := Or.inr rfl
  dlc := ⟨2, by decide, by decide⟩
  bytes := by
    rw [List.forall_mem_cons, List.forall_mem_singleton]
    exact ⟨⟨0xaa, by decide, by decide⟩, ⟨0xbb, by decide, by decide⟩⟩

theorem frameName_ignored_iff_sample : ∃ r,
    AscReader.parseLine ⟨.hex, true, fun _ => none⟩ .zero (namedLine "VehicleSpeed") = .record r ∧
      AscReader.parseLine ⟨.hex, true, fun _ => none⟩ .zero (namedLine "d") = .record r := by
  have line : splitWhitespace (namedLine "VehicleSpeed") =
    ["0.019000".toList, "2".toList, "654".toList, "Rx".toList,
      "VehicleSpeed".toList, "2".toList, "AA".toList, "BB".toList] := by
    decide
  have line' : splitWhitespace (namedLine "d") =
    ["0.019000".toList, "2".toList, "654".toList, "Rx".toList,
      "d".toList, "2".toList, "AA".toList, "BB".toList] := by
    decide
  exact (@frameName_ignored_iff ⟨.hex, true, fun _ => none⟩ _ _ _ _ _ _ _ _ _ _ namedLine_tokens
    line line').mpr (by decide)

/-- The name rpm makes a data frame a remote one. -/
theorem rpm_read_as_remote : ¬ ∀ (reader : AscReader) (startTime : Binary64)
    (time channel canId direction name dlcStr raw raw' : Text) (bytes : List Text),
    DataTokens reader.base time channel canId direction dlcStr bytes → name ≠ "r".toList →
      name ≠ "R".toList →
    splitWhitespace raw = time :: channel :: canId :: direction :: name :: dlcStr :: bytes →
    splitWhitespace raw' = time :: channel :: canId :: direction :: "d".toList :: dlcStr :: bytes →
    ∃ r, reader.parseLine startTime raw = .record r ∧ reader.parseLine startTime raw' = .record r := by
  intro all
  obtain ⟨r, read, read'⟩ := all ⟨.hex, true, fun _ => none⟩ .zero _ _ _ _ "rpm".toList _
    (namedLine "rpm")
    (namedLine "d") _ namedLine_tokens (by decide) (by decide) (by decide) (by decide)
  have remote : (AscReader.parseLine ⟨.hex, true, fun _ => none⟩ .zero (namedLine "rpm")).toRecord.map
      LogRecord.isRemoteFrame = some true := by
    decide +kernel
  have data : (AscReader.parseLine ⟨.hex, true, fun _ => none⟩ .zero (namedLine "d")).toRecord.map
      LogRecord.isRemoteFrame = some false := by
    decide +kernel
  rw [read] at remote
  rw [read'] at data
  cases remote.symm.trans data

end FsCore
