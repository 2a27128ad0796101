import FsCore.AcceptedLines
import FsCore.RecordTokens

namespace FsCore

/-- What the store, the bit decoder and the worker take for granted. -/
structure LogRecord.WellFormed (r : LogRecord) : Prop where
  fits : r.dataLen.toNat ≤ 64
  classic : r.isFd = false → r.dataLen.toNat ≤ 8
  zero : ∀ i (_ : i < 64), r.dataLen.toNat ≤ i → r.data[i] = 0
  terminated : nul ∈ r.channel.toList

/-- What a declared length and the number of data tokens leave behind in a byte if one of them
is negative as an int. -/
def CountFits (declared : Int) (data : Text) (cap : Int) : Prop :=
  min declared (intOfSize (splitWhitespace data).length) < 0 →
    min declared (intOfSize (splitWhitespace data).length) % 2 ^ 8 ≤ cap

/-- The length survives the cast to a byte: a remote length is small, and the length of a payload
is negative only if the byte that remains of it is small. -/
def FrameText.LengthFits (base : Base) : FrameText → Prop
  | .errorFrame => True
  | .remote _ _ dlc => ∀ dlcStr ∈ dlc, ∀ raw ∈ stoi base.radix dlcStr, dlc2lenCompat raw % 2 ^ 8 ≤ 8
  | .data _ _ dlcStr bytes => ∀ raw ∈ stoi base.radix dlcStr, CountFits raw bytes 8
  | .fd _ _ fields => ∀ n ∈ stoi 10 fields.dataLengthStr, CountFits n fields.data 64

def LengthFits (base : Base) (raw : Text) : Prop := ∀ t ∈ recordText (trimCopy raw),
    t.frame.LengthFits base

section Lengths

theorem toNat_ofInt (n : Int) : (UInt8.ofInt n).toNat = (n % 2 ^ 8).toNat := by
  rw [UInt8.ofInt, UInt8.toNat_ofNat']
  omega

theorem ofInt_le_iff {n : Int} {cap : Nat} (h : n ≤ cap) (small : cap < 2 ^ 8) :
    (UInt8.ofInt n).toNat ≤ cap ↔ (n < 0 → n % 2 ^ 8 ≤ cap) := by
  rw [toNat_ofInt]
  omega

variable {base : Base}

/-- Behind the stored bytes the payload is zero, also when a negative length stores none. -/
theorem stored_zero {tokens : List Text} {n : Int} {v : Vector UInt8 64} (h : n < 2 ^ 8)
    (stored : storeBytes base (tokens.take n.toNat) 0 (Vector.replicate 64 0) = .ok v)
    {i : Nat} (hi : i < 64) (beyond : (UInt8.ofInt n).toNat ≤ i) : v[i] = 0 := by
  obtain ⟨-, -, same⟩ := (storeBytes_ok_iff (by omega)).mp stored
  have later : 0 + (tokens.take n.toNat).length ≤ i := by
    rw [toNat_ofInt] at beyond
    rw [List.length_take]
    omega
  rw [same i hi (Or.inr later)]
  exact Vector.getElem_replicate hi

end Lengths

section Frames

variable {base : Base} {msg r : LogRecord}

theorem wellFormed_classic_iff (channel : nul ∈ r.channel.toList)
    (zero : ∀ i (_ : i < 64), r.dataLen.toNat ≤ i → r.data[i] = 0) (classic : r.isFd = false) :
    r.WellFormed ↔ r.dataLen.toNat ≤ 8 :=
  ⟨fun h => h.classic classic, fun h => ⟨by omega, fun _ => h, zero, channel⟩⟩

theorem wellFormed_fd_iff (channel : nul ∈ r.channel.toList)
    (zero : ∀ i (_ : i < 64), r.dataLen.toNat ≤ i → r.data[i] = 0) (fd : r.isFd = true) :
    r.WellFormed ↔ r.dataLen.toNat ≤ 64 :=
  ⟨fun h => h.fits, fun h => ⟨h, fun classic => by simp [fd] at classic, zero, channel⟩⟩

theorem read_wellFormed_iff {t : FrameText} (h : t.read base msg = .ok r) (kind : t.HasKind msg.isFd)
    (len : msg.dataLen = 0) (data : msg.data = Vector.replicate 64 0)
    (channel : nul ∈ msg.channel.toList) : r.WellFormed ↔ t.LengthFits base := by
  have terminated : nul ∈ r.channel.toList := (read_channel h).symm ▸ channel
  cases t with
  | errorFrame =>
    cases h
    refine iff_of_true ⟨?_, fun _ => ?_, fun i hi _ => ?_, channel⟩ trivial
    · simp [len]
    · simp [len]
    · simp [data]
  | remote direction canId dlc =>
    obtain ⟨id, count, -, hcount, rfl⟩ := read_remote_iff.mp h
    have zero : ∀ i (_ : i < 64), count.toNat ≤ i → msg.data[i] = 0 := fun i hi _ => by simp [data]
    refine (wellFormed_classic_iff terminated zero kind).trans ?_
    cases dlc with
    | none =>
      cases hcount
      exact iff_of_true (by simp [len]) (fun _ h => by cases h)
    | some dlcStr =>
      obtain ⟨raw, hraw, rfl⟩ := Option.map_eq_some_iff.mp hcount
      simp only [FrameText.LengthFits, Option.mem_def, Option.some.injEq, forall_eq', hraw, toNat_ofInt]
      omega
  | data direction canId dlcStr bytes =>
    obtain ⟨id, n, v, -, hn, hv, rfl⟩ := read_data_iff.mp h
    have small := classicCount_le hn
    have zero : ∀ i (_ : i < 64), (UInt8.ofInt n).toNat ≤ i → v[i] = 0 :=
      fun i hi beyond => stored_zero (by omega) hv hi beyond
    refine (wellFormed_classic_iff terminated zero kind).trans
      ((ofInt_le_iff small (by decide)).trans ?_)
    obtain ⟨raw, hraw, rfl⟩ := Option.map_eq_some_iff.mp hn
    simp only [FrameText.LengthFits, CountFits, Option.mem_def, hraw, Option.some.injEq, forall_eq']
    -- the table leaves a negative DLC as it is
    rcases lt_or_ge raw 0 with negative | positive
    · rw [dlc2lenCompat_of_neg negative]
      omega
    · have := dlc2lenCompat_sign.2 positive
      omega
  | fd direction canId fields =>
    obtain ⟨id, dlc, n, v, -, -, hn, hv, rfl⟩ := read_fd_iff.mp h
    have small := fdCount_le hv
    have capped : min (fdCount fields n) 64 = fdCount fields n := by omega
    have zero : ∀ i (_ : i < 64), (UInt8.ofInt (min (fdCount fields n) 64)).toNat ≤ i → v[i] = 0 := by
      rw [capped]
      exact fun i hi beyond => stored_zero (by omega) hv hi beyond
    refine (wellFormed_fd_iff terminated zero kind).trans ?_
    simp only [FrameText.LengthFits, Option.mem_def, hn, Option.some.injEq, forall_eq', capped]
    exact ofInt_le_iff small (by omega)

end Frames

section Lines

variable {reader : AscReader} {startTime : Binary64}

theorem record_wellFormed_iff {raw : Text} {r : LogRecord}
    (h : reader.parseLine startTime raw = .record r) :
    r.WellFormed ↔ LengthFits reader.base raw := by
  obtain ⟨t, ts, ht, -, hr⟩ := record_frame h
  have frame : r.WellFormed ↔ t.frame.LengthFits reader.base :=
    read_wellFormed_iff hr (recordText_kind ht) rfl rfl (nul_mem_channelOf t.channel)
  rw [frame, LengthFits, ht]
  simp

/-- Reading a text gives well-formed records only, exactly when no line leaves the payload and
the length of every accepted line fits. -/
theorem wellFormed_records_iff {text : Text} :
    (∃ records, reader.readAll text = .ok records ∧ ∀ r ∈ records, r.WellFormed) ↔
      ∀ raw ∈ getLines text, ¬ Overlong reader.base raw ∧ (Accepted reader.base raw →
        LengthFits reader.base raw) := by
  have outside : (∃ i, reader.readAll text = .error i) ↔
    ∃ raw ∈ getLines text, Overlong reader.base raw :=
    nextLoop_iff (Nat.lt_succ_self _)
  constructor
  · rintro ⟨records, h, all⟩ raw mem
    constructor
    · intro overlong
      obtain ⟨i, stop⟩ := outside.mpr ⟨raw, mem, overlong⟩
      rw [h] at stop
      cases stop
    · intro accepted
      obtain ⟨r, hr, t, read⟩ := (readAll_records h).2 raw mem accepted
      exact (record_wellFormed_iff read).mp (all r hr)
  · intro good
    cases h : reader.readAll text with
    | error i =>
      obtain ⟨raw, mem, overlong⟩ := outside.mp ⟨i, h⟩
      exact absurd overlong (good raw mem).1
    | ok records =>
      refine ⟨records, rfl, fun r hr => ?_⟩
      obtain ⟨raw, mem, t, read⟩ := (readAll_records h).1 r hr
      exact (record_wellFormed_iff read).mpr ((good raw mem).2 (parseLine_isRecord_iff.mp ⟨r, read⟩))

end Lines

def remoteNine : Text := "0.5 1 10 Rx r 9".toList

/-- The DLC table gives a classic remote frame more than eight bytes. -/
theorem remote_length_twelve : ¬ ∀ (reader : AscReader) (text : Text) (records : List LogRecord),
    reader.readAll text = .ok records → ∀ r ∈ records, r.WellFormed := by
  intro all
  have long : ∃ r, AscReader.readAll ⟨.hex, true, fun _ => none⟩ remoteNine = .ok [r] ∧
      r.isFd = false ∧ r.dataLen = 12 := by
    refine ⟨{ LogRecord.zero with
      timestamp := (stod "0.5".toList).getD .zero, canId := 16, dataLen := 12, isRemoteFrame := true
      channel := channelOf "1".toList }, ?_⟩
    decide +kernel
  obtain ⟨r, read, classic, twelve⟩ := long
  have short := (all _ _ _ read r (by simp)).classic classic
  rw [twelve] at short
  exact absurd short (by decide)

end FsCore
