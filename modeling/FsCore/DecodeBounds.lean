import FsCore.ExtractSignal

namespace FsCore

/-- Byte index and shift amount of the payload bit that a round of a bit loop takes. -/
def touch (dataLen bp i : Nat) : List (Nat × Nat) := if bp / 8 < dataLen then [(bp / 8, i)] else []

def touchedLe (dataLen startBit bitLength : Nat) : List (Nat × Nat) :=
  (List.range bitLength).flatMap fun i => touch dataLen (startBit + i) i

def touchedBe (dataLen : Nat) : Nat → Nat → List (Nat × Nat)
  | 0, _ => []
  | i + 1, bp => touch dataLen bp i ++ touchedBe dataLen i (if bp % 8 = 0 then bp + 15 else bp - 1)

/-- Everything that `extract_signal` touches of the payload. -/
def SignalDef.touched (sig : SignalDef) (dataLen : Nat) : List (Nat × Nat) :=
  if sig.byteOrder = 0 then touchedLe dataLen sig.startBit.toNat sig.bitLength.toNat
  else touchedBe dataLen sig.bitLength.toNat sig.startBit.toNat

/-- The number of signals of a message that `decode_entry` decodes. -/
def MessageDef.decodeCount (msg : MessageDef) (maxSignals : Nat) : Nat :=
  if maxSignals = 0 then msg.signalCount.toNat else min msg.signalCount.toNat maxSignals

/-- `decode_entry` reads no message, signal or payload byte out of range, wraps no index
and shifts by less than 64. -/
structure StaysInRange (model : CanDatabaseModel) (entry : LogRecord) (maxSignals : Nat) : Prop where
  message : ∀ index, model.canidToMsg.find? entry.canId.toNat = some index →
    index.toNat < model.messages.length
  signal : ∀ msg, model.messageOf entry.canId.toNat = some msg → ∀ si < msg.decodeCount maxSignals,
    msg.signalOffset.toNat + si < 2 ^ 32 ∧ msg.signalOffset.toNat + si < model.signals.length
  payload : ∀ msg, model.messageOf entry.canId.toNat = some msg → ∀ si < msg.decodeCount maxSignals,
    ∀ sig, model.signals[msg.signalIndex si]? = some sig →
      ∀ t ∈ sig.touched entry.dataLen.toNat, t.1 < 64 ∧ t.2 < 64

section Touched

variable {data : Vector UInt8 64} {dataLen : Nat}

theorem orBit_isSome_iff (bp i : Nat) (raw : BitVec 64) :
    (orBit data dataLen bp i raw).isSome ↔ ∀ t ∈ touch dataLen bp i, t.1 < 64 ∧ t.2 < 64 := by
  unfold orBit touch
  by_cases inside : bp / 8 < dataLen
  · rw [if_pos inside, if_pos inside]
    by_cases byte : bp / 8 < 64
    · by_cases shift : i < 64 <;> simp [byte, shift]
    · simp [byte]
  · simp [if_neg inside]

theorem bind_isSome_iff {α β : Type} {x : Option α} {f : α → Option β} {p : Prop}
    (h : ∀ a, (f a).isSome ↔ p) : (x.bind f).isSome ↔ x.isSome ∧ p := by
  cases x with
  | none => simp
  | some a => simp [h a]

theorem extractSignalLe_isSome_iff (startBit n : Nat) :
    (extractSignalLe data dataLen startBit n).isSome ↔
    ∀ t ∈ touchedLe dataLen startBit n, t.1 < 64 ∧ t.2 < 64 := by
  induction n with
  | zero => simp [extractSignalLe, touchedLe]
  | succ n ih =>
    have last : extractSignalLe data dataLen startBit (n + 1) =
        (extractSignalLe data dataLen startBit n).bind (orBit data dataLen (startBit + n) n) := by
      rw [extractSignalLe, List.range_succ, List.foldlM_append]
      show (extractSignalLe data dataLen startBit n).bind _ = _
      congr 1
      funext raw
      exact bind_pure _
    have touched : touchedLe dataLen startBit (n + 1) =
        touchedLe dataLen startBit n ++ touch dataLen (startBit + n) n := by
      rw [touchedLe, List.range_succ, List.flatMap_append, List.flatMap_singleton]
      rfl
    rw [last, bind_isSome_iff (orBit_isSome_iff _ _), ih, touched, List.forall_mem_append]

theorem extractBeLoop_isSome_iff (n bp : Nat) (raw : BitVec 64) :
    (extractBeLoop data dataLen n bp raw).isSome ↔
      ∀ t ∈ touchedBe dataLen n bp, t.1 < 64 ∧ t.2 < 64 := by
  induction n generalizing bp raw with
  | zero => simp [extractBeLoop, touchedBe]
  | succ n ih =>
    show ((orBit data dataLen bp n raw).bind _).isSome ↔ _
    rw [bind_isSome_iff (ih _), orBit_isSome_iff, touchedBe, List.forall_mem_append]

/-- The model's extraction is defined exactly when what it touches is in range. -/
theorem extractSignal_isSome_iff (sig : SignalDef) : (extractSignal data dataLen sig).isSome ↔
    ∀ t ∈ sig.touched dataLen, t.1 < 64 ∧ t.2 < 64 := by
  rw [extractSignal_eq_map, Option.isSome_map, SignalDef.touched]
  split
  · exact extractSignalLe_isSome_iff _ _
  · exact extractBeLoop_isSome_iff _ _ _

end Touched

theorem MessageDef.signalIndex_of_lt {msg : MessageDef} {si : Nat}
    (h : msg.signalOffset.toNat + si < 2 ^ 32) :
    msg.signalIndex si = msg.signalOffset.toNat + si := by
  rw [MessageDef.signalIndex, UInt32.toNat_add, UInt32.toNat_ofNat']
  omega

section Entry

variable {model : CanDatabaseModel} {entry : LogRecord} {maxSignals : Nat}

theorem decodeSignal_isSome_iff {msg : MessageDef} {si : Nat} :
    (decodeSignal model msg entry si).isSome ↔
    msg.signalIndex si < model.signals.length ∧ ∀ sig, model.signals[msg.signalIndex si]? = some sig →
      ∀ t ∈ sig.touched entry.dataLen.toNat, t.1 < 64 ∧ t.2 < 64 := by
  unfold decodeSignal
  cases hs : model.signals[msg.signalIndex si]? with
  | none => simpa using List.getElem?_eq_none_iff.mp hs
  | some sig =>
    have inside : msg.signalIndex si < model.signals.length := (List.getElem?_eq_some_iff.mp hs).1
    rw [Option.bind_eq_bind, Option.bind_some]
    constructor
    · intro h
      refine ⟨inside, fun sig' same => ?_⟩
      obtain rfl := Option.some.inj same
      exact (extractSignal_isSome_iff sig).mp ((bind_isSome_iff (p := True) fun _ => by simp).mp h).1
    · intro h
      exact (bind_isSome_iff fun _ => by simp).mpr
        ⟨(extractSignal_isSome_iff sig).mpr (h.2 sig rfl), trivial⟩

/-- The model's `decode_entry` has a result exactly in range, where no index wraps. -/
theorem staysInRange_iff_decodeEntry : StaysInRange model entry maxSignals ↔
    (decodeEntry model entry maxSignals).isSome ∧
      ∀ msg, model.messageOf entry.canId.toNat = some msg → ∀ si < msg.decodeCount maxSignals,
        msg.signalOffset.toNat + si < 2 ^ 32 := by
  have run : (decodeEntry model entry maxSignals).isSome ↔
      (∀ index, model.canidToMsg.find? entry.canId.toNat = some index →
        index.toNat < model.messages.length) ∧
      ∀ msg, model.messageOf entry.canId.toNat = some msg → ∀ si < msg.decodeCount maxSignals,
        (decodeSignal model msg entry si).isSome := by
    unfold decodeEntry CanDatabaseModel.messageOf
    cases hi : model.canidToMsg.find? entry.canId.toNat with
    | none => simp
    | some index =>
      by_cases low : index.toNat < model.messages.length
      · have found := List.getElem?_eq_getElem low
        simp only [Option.bind_eq_bind, Option.bind_some, found, isSome_mapM_iff, List.mem_range,
          Option.some.injEq, forall_eq', low, true_and]
        rfl
      · simp [low]
  rw [run]
  constructor
  · intro h
    refine ⟨⟨h.message, fun msg hm si hsi => ?_⟩, fun msg hm si hsi => (h.signal msg hm si hsi).1⟩
    have index := MessageDef.signalIndex_of_lt (h.signal msg hm si hsi).1
    exact decodeSignal_isSome_iff.mpr ⟨index ▸ (h.signal msg hm si hsi).2, h.payload msg hm si hsi⟩
  · intro h
    obtain ⟨⟨message, decodes⟩, unwrapped⟩ := h
    refine ⟨message, fun msg hm si hsi => ?_, fun msg hm si hsi => ?_⟩
    · have low := unwrapped msg hm si hsi
      have inside := (decodeSignal_isSome_iff.mp (decodes msg hm si hsi)).1
      rw [MessageDef.signalIndex_of_lt low] at inside
      exact ⟨low, inside⟩
    · exact (decodeSignal_isSome_iff.mp (decodes msg hm si hsi)).2

end Entry

/-- The place of a signal's first bit, in the order in which its loop reads the payload. -/
def SignalDef.firstPlace (sig : SignalDef) : Nat :=
  if sig.byteOrder = 0 then sig.startBit.toNat else bigEndianPosition sig.startBit.toNat

/-- One past the last place read of a payload with a given length. -/
def SignalDef.endPlace (sig : SignalDef) (dataLen : Nat) : Nat :=
  min (sig.firstPlace + sig.bitLength.toNat) (8 * dataLen)

/-- What a signal reads of a payload ends inside the 64 bytes, and it is not too long. -/
def SignalDef.Fits (sig : SignalDef) (dataLen : Nat) : Prop :=
  sig.firstPlace < sig.endPlace dataLen → sig.endPlace dataLen ≤ 512 ∧
    (if sig.byteOrder = 0 then sig.endPlace dataLen - sig.firstPlace else sig.bitLength.toNat) ≤ 64

theorem mem_touch {dataLen bp i : Nat} {t : Nat × Nat} :
    t ∈ touch dataLen bp i ↔ bp < 8 * dataLen ∧ t = (bp / 8, i) := by
  unfold touch
  by_cases h : bp / 8 < dataLen
  · rw [if_pos h]
    simp [show bp < 8 * dataLen by omega]
  · rw [if_neg h]
    simp [show ¬ bp < 8 * dataLen by omega]

theorem mem_touchedLe {dataLen startBit n : Nat} {t : Nat × Nat} : t ∈ touchedLe dataLen startBit n ↔
    ∃ k < n, startBit + k < 8 * dataLen ∧ t = ((startBit + k) / 8, k) := by
  simp only [touchedLe, List.mem_flatMap, List.mem_range, mem_touch]

theorem mem_touchedBe {dataLen p n : Nat} {t : Nat × Nat} : t ∈ touchedBe dataLen n (sawtooth p) ↔
    ∃ k < n, p + k < 8 * dataLen ∧ t = ((p + k) / 8, n - 1 - k) := by
  induction n generalizing p with
  | zero => simp [touchedBe]
  | succ n ih =>
    have byte : sawtooth p / 8 = p / 8 := by
      unfold sawtooth
      omega
    have inside : sawtooth p < 8 * dataLen ↔ p < 8 * dataLen := by
      unfold sawtooth
      omega
    rw [touchedBe, List.mem_append, mem_touch, sawtooth_step, ih, byte, inside]
    constructor
    · intro h
      rcases h with ⟨low, rfl⟩ | ⟨k, hk, low, rfl⟩
      · exact ⟨0, by omega, by omega, rfl⟩
      · refine ⟨k + 1, by omega, by omega, ?_⟩
        rw [show p + 1 + k = p + (k + 1) by omega, show n - 1 - k = n + 1 - 1 - (k + 1) by omega]
    · intro h
      obtain ⟨k, hk, low, rfl⟩ := h
      cases k with
      | zero => exact Or.inl ⟨low, rfl⟩
      | succ k =>
        refine Or.inr ⟨k, by omega, by omega, ?_⟩
        rw [show p + 1 + k = p + (k + 1) by omega, show n - 1 - k = n + 1 - 1 - (k + 1) by omega]

theorem SignalDef.fits_iff_touched (sig : SignalDef) (dataLen : Nat) :
    sig.Fits dataLen ↔ ∀ t ∈ sig.touched dataLen, t.1 < 64 ∧ t.2 < 64 := by
  unfold SignalDef.Fits SignalDef.touched SignalDef.endPlace
  by_cases order : sig.byteOrder = 0
  · have first : sig.firstPlace = sig.startBit.toNat := if_pos order
    rw [if_pos order, if_pos order, first]
    constructor
    · intro fits t ht
      obtain ⟨k, hk, low, rfl⟩ := mem_touchedLe.mp ht
      have bounds := fits (by omega)
      exact ⟨by show (_ + k) / 8 < 64; omega, by show k < 64; omega⟩
    · intro inside some
      have last := inside _ (mem_touchedLe.mpr
        ⟨min (sig.startBit.toNat + sig.bitLength.toNat) (8 * dataLen) - 1 - sig.startBit.toNat,
          by omega, by omega, rfl⟩)
      dsimp only at last
      omega
  · have first : sig.firstPlace = bigEndianPosition sig.startBit.toNat := if_neg order
    have start := sawtooth_bigEndianPosition sig.startBit.toNat
    rw [if_neg order, if_neg order, first]
    generalize bigEndianPosition sig.startBit.toNat = p at *
    rw [← start]
    constructor
    · intro fits t ht
      obtain ⟨k, hk, low, rfl⟩ := mem_touchedBe.mp ht
      have bounds := fits (by omega)
      exact ⟨by show (p + k) / 8 < 64; omega, by show _ - 1 - k < 64; omega⟩
    · intro inside some
      have highest := inside _ (mem_touchedBe.mpr ⟨0, by omega, by omega, rfl⟩)
      have last := inside _ (mem_touchedBe.mpr
        ⟨min (p + sig.bitLength.toNat) (8 * dataLen) - 1 - p, by omega, by omega, rfl⟩)
      dsimp only at highest last
      omega

@[simp] theorem loadDb_messages (model : CanDatabaseModel) :
    (loadDb model).messages = model.messages := by
  unfold loadDb
  split <;> rfl

@[simp] theorem loadDb_signals (model : CanDatabaseModel) : (loadDb model).signals = model.signals := by
  unfold loadDb
  split <;> rfl

/-- In range exactly when the message exists, its signals lie inside the table, and what they
read of a payload of the entry's length fits. -/
theorem staysInRange_iff {model : CanDatabaseModel} {entry : LogRecord} {maxSignals : Nat} :
    StaysInRange (loadDb model) entry maxSignals ↔
      ∀ index, (loadDb model).canidToMsg.find? entry.canId.toNat = some index →
        ∃ msg, model.messages[index.toNat]? = some msg ∧ (msg.decodeCount maxSignals = 0 ∨
          msg.signalOffset.toNat + msg.decodeCount maxSignals ≤ min (2 ^ 32) model.signals.length) ∧
        ∀ si < msg.decodeCount maxSignals, ∀ sig,
          model.signals[msg.signalOffset.toNat + si]? = some sig →
          sig.Fits entry.dataLen.toNat := by
  have follow (index : UInt32) (hi : (loadDb model).canidToMsg.find? entry.canId.toNat = some index) :
      (loadDb model).messageOf entry.canId.toNat = model.messages[index.toNat]? := by
    rw [CanDatabaseModel.messageOf, hi, loadDb_messages]
    rfl
  constructor
  · intro h index hi
    have low := h.message index hi
    rw [loadDb_messages] at low
    have found : model.messages[index.toNat]? = some model.messages[index.toNat] :=
      List.getElem?_eq_getElem low
    have msgOf := (follow index hi).trans found
    have signals := h.signal _ msgOf
    rw [loadDb_signals] at signals
    refine ⟨model.messages[index.toNat], found, ?_, fun si hsi sig hsig => ?_⟩
    · by_cases none : model.messages[index.toNat].decodeCount maxSignals = 0
      · exact Or.inl none
      · have last := signals (model.messages[index.toNat].decodeCount maxSignals - 1) (by omega)
        omega
    · rw [SignalDef.fits_iff_touched]
      apply h.payload _ msgOf si hsi
      rw [MessageDef.signalIndex_of_lt (signals si hsi).1, loadDb_signals]
      exact hsig
  · intro h
    have inTable : ∀ msg, (loadDb model).messageOf entry.canId.toNat = some msg →
        (∀ si < msg.decodeCount maxSignals,
          msg.signalOffset.toNat + si < 2 ^ 32 ∧ msg.signalOffset.toNat + si < model.signals.length) ∧
        ∀ si < msg.decodeCount maxSignals, ∀ sig,
          model.signals[msg.signalOffset.toNat + si]? = some sig →
          sig.Fits entry.dataLen.toNat := by
      intro msg msgOf
      cases hi : (loadDb model).canidToMsg.find? entry.canId.toNat with
      | none => simp [CanDatabaseModel.messageOf, hi] at msgOf
      | some index =>
        obtain ⟨msg', found, table, fits⟩ := h index hi
        obtain rfl : msg' = msg :=
          Option.some.inj (found.symm.trans ((follow index hi).symm.trans msgOf))
        exact ⟨fun si hsi => by omega, fits⟩
    refine ⟨fun index hi => ?_, fun msg msgOf si hsi => ?_, fun msg msgOf si hsi sig hsig => ?_⟩
    · obtain ⟨msg, found, -⟩ := h index hi
      rw [loadDb_messages]
      exact (List.getElem?_eq_some_iff.mp found).1
    · rw [loadDb_signals]
      exact (inTable msg msgOf).1 si hsi
    · rw [MessageDef.signalIndex_of_lt ((inTable msg msgOf).1 si hsi).1, loadDb_signals] at hsig
      exact (SignalDef.fits_iff_touched sig _).mp ((inTable msg msgOf).2 si hsi sig hsig)

/-- One message with one signal of 65 bits. -/
def longSignalModel : CanDatabaseModel := ⟨[⟨5, 1, 0⟩], [⟨0, 65, 0, 0, .zero, .zero⟩], Table.empty⟩

/-- `load_db` accepts the model; on a full payload its loop shifts by 64. -/
theorem longSignalModel_leaves_range :
    ¬ StaysInRange (loadDb longSignalModel) { sampleRecord with dataLen := 64 } 0 := by
  intro h
  have result := (staysInRange_iff_decodeEntry.mp h).1
  have undefined : decodeEntry (loadDb longSignalModel) { sampleRecord with dataLen := 64 } 0 =
    none := by
    decide +kernel
  rw [undefined] at result
  cases result

/-- A signal is never read, or it is at most 64 bits long and ends inside the payload array. -/
def SignalDef.Safe (sig : SignalDef) : Prop :=
  sig.bitLength = 0 ∨ 2040 ≤ sig.startBit.toNat ∨
    sig.bitLength.toNat ≤ 64 ∧ sig.firstPlace + sig.bitLength.toNat ≤ 512

/-- A length field of one byte counts at most 255 bytes, so 2040 bits. -/
theorem SignalDef.safe_iff_fits (sig : SignalDef) : sig.Safe ↔ ∀ dataLen < 256, sig.Fits dataLen := by
  have first : 2040 ≤ sig.firstPlace ↔ 2040 ≤ sig.startBit.toNat := by
    unfold SignalDef.firstPlace bigEndianPosition
    split <;> omega
  have none : sig.bitLength = 0 ↔ sig.bitLength.toNat = 0 := UInt16.toNat_inj.symm
  unfold SignalDef.Safe SignalDef.Fits SignalDef.endPlace
  rw [none, ← first]
  constructor
  · intro safe dataLen hd read
    refine ⟨by omega, ?_⟩
    split <;> omega
  · intro fits
    have longest := fits 255 (by decide)
    by_contra unsafeSignal
    split at longest <;> omega

/-- A model is in range for every record exactly when each message found through the map exists
and has its signals in the table, and each of these is safe. -/
theorem staysInRange_all_iff (model : CanDatabaseModel) :
    (∀ entry maxSignals, StaysInRange (loadDb model) entry maxSignals) ↔
      ∀ id < 2 ^ 32, ∀ index, (loadDb model).canidToMsg.find? id = some index →
        ∃ msg, model.messages[index.toNat]? = some msg ∧ (msg.signalCount.toNat = 0 ∨
          msg.signalOffset.toNat + msg.signalCount.toNat ≤ min (2 ^ 32) model.signals.length) ∧
        ∀ si < msg.signalCount.toNat, ∀ sig, model.signals[msg.signalOffset.toNat + si]? = some sig →
          sig.Safe := by
  constructor
  · intro h id hid index hi
    have readable (dataLen : Nat) : ∃ msg, model.messages[index.toNat]? = some msg ∧
        (msg.signalCount.toNat = 0 ∨
          msg.signalOffset.toNat + msg.signalCount.toNat ≤ min (2 ^ 32) model.signals.length) ∧
        ∀ si < msg.signalCount.toNat, ∀ sig, model.signals[msg.signalOffset.toNat + si]? = some sig →
          sig.Fits (UInt8.ofNat dataLen).toNat := by
      exact staysInRange_iff.mp
        (h { LogRecord.zero with canId := UInt32.ofNat id, dataLen := UInt8.ofNat dataLen } 0) index
        (by rw [UInt32.toNat_ofNat_of_lt' hid]; exact hi)
    obtain ⟨msg, found, table, -⟩ := readable 0
    refine ⟨msg, found, table, fun si hsi sig hsig =>
      (SignalDef.safe_iff_fits sig).mpr fun dataLen hd => ?_⟩
    obtain ⟨msg', found', -, fits⟩ := readable dataLen
    obtain rfl := Option.some.inj (found.symm.trans found')
    have fit := fits si hsi sig hsig
    rwa [UInt8.toNat_ofNat_of_lt' hd] at fit
  · intro h entry maxSignals
    rw [staysInRange_iff]
    intro index hi
    obtain ⟨msg, found, table, safe⟩ := h _ entry.canId.toNat_lt index hi
    have fewer : msg.decodeCount maxSignals ≤ msg.signalCount.toNat := by
      unfold MessageDef.decodeCount
      split <;> omega
    refine ⟨msg, found, ?_, fun si hsi sig hsig =>
      (SignalDef.safe_iff_fits sig).mp (safe si (by omega) sig hsig) _ entry.dataLen.toNat_lt⟩
    omega

end FsCore
