import FsCore.Layout
import FsCore.Table
import Mathlib.Data.List.Basic

namespace FsCore

structure MessageDef where
  canId : UInt32
  signalCount : UInt16
  signalOffset : UInt32
deriving DecidableEq

structure SignalDef where
  startBit : UInt16
  bitLength : UInt16
  byteOrder : UInt8
  isSigned : UInt8
  scale : Binary64
  offset : Binary64
deriving DecidableEq

structure DecodedSignal where
  signalName : Text
  rawValue : BitVec 64
  physValue : Binary64
deriving DecidableEq

structure CanDatabaseModel where
  messages : List MessageDef
  signals : List SignalDef
  canidToMsg : Table Nat UInt32

/-- Sets bit `i` of the value to a bit of the payload; none where the code has no
defined behaviour, past the payload and on a shift by 64 or more. -/
def orBit (data : Vector UInt8 64) (dataLen bp i : Nat) (raw : BitVec 64) : Option (BitVec 64) :=
  if bp / 8 < dataLen then
    if h : bp / 8 < 64 then
      if i < 64 then
        some (raw ||| BitVec.ofNat 64 (data[bp / 8].toNat / 2 ^ (bp % 8) % 2) <<< i)
      else none
    else none
  else some raw

def extractSignalLe (data : Vector UInt8 64) (dataLen startBit bitLength : Nat) : Option (BitVec 64) :=
  (List.range bitLength).foldlM (fun raw i => orBit data dataLen (startBit + i) i raw) 0

/-- The loop from bit `i - 1` of the value down to bit 0. -/
def extractBeLoop (data : Vector UInt8 64) (dataLen : Nat) : Nat → Nat → BitVec 64 → Option (BitVec 64)
  | 0, _, raw => some raw
  | i + 1, bp, raw => do
    let raw ← orBit data dataLen bp i raw
    extractBeLoop data dataLen i (if bp % 8 = 0 then bp + 15 else bp - 1) raw

def extractSignalBe (data : Vector UInt8 64) (dataLen startBit bitLength : Nat) : Option (BitVec 64) :=
  extractBeLoop data dataLen bitLength startBit 0

def signExtend (raw : BitVec 64) (bitLength : Nat) : BitVec 64 :=
  if 0 < bitLength ∧ bitLength < 64 then
    if raw &&& (1#64 <<< (bitLength - 1)) ≠ 0 then raw ||| ~~~((1#64 <<< bitLength) - 1) else raw
  else raw

def extractSignal (data : Vector UInt8 64) (dataLen : Nat) (sig : SignalDef) : Option (BitVec 64) := do
  let raw ←
    if sig.byteOrder = 0 then extractSignalLe data dataLen sig.startBit.toNat sig.bitLength.toNat
    else extractSignalBe data dataLen sig.startBit.toNat sig.bitLength.toNat
  some (if sig.isSigned ≠ 0 then signExtend raw sig.bitLength.toNat else raw)

/-- An empty map is filled from the messages, the last one of an id winning. -/
def loadDb (model : CanDatabaseModel) : CanDatabaseModel :=
  if model.canidToMsg.rows = [] then
    { model with
      canidToMsg := model.messages.zipIdx.foldl
        (fun map m => map.upsert m.1.canId.toNat (fun _ => UInt32.ofNat m.2)) Table.empty }
  else model

def signalName (si : Nat) : Text := "signal_".toList ++ Nat.toDigits 10 si

/-- The index of a signal of a message, in 32-bit unsigned arithmetic. -/
def MessageDef.signalIndex (msg : MessageDef) (si : Nat) : Nat :=
  (msg.signalOffset + UInt32.ofNat si).toNat

def decodeSignal (model : CanDatabaseModel) (msg : MessageDef) (entry : LogRecord) (si : Nat) :
    Option DecodedSignal := do
  let sig ← model.signals[msg.signalIndex si]?
  let raw ← extractSignal entry.data entry.dataLen.toNat sig
  some ⟨signalName si, raw, ((Binary64.ofInt raw.toInt).mul sig.scale).add sig.offset⟩

/-- All signals of the entry's message; none where the code has no defined behaviour. -/
def decodeEntry (model : CanDatabaseModel) (entry : LogRecord) (maxSignals : Nat) :
    Option (List DecodedSignal) :=
  match model.canidToMsg.find? entry.canId.toNat with
  | none => some []
  | some index => do
    let msg ← model.messages[index.toNat]?
    let n := if maxSignals = 0 then msg.signalCount.toNat else min msg.signalCount.toNat maxSignals
    (List.range n).mapM (decodeSignal model msg entry)

namespace CanDatabaseModel

variable (model : CanDatabaseModel)

def messageOf (id : Nat) : Option MessageDef := do
  let index ← model.canidToMsg.find? id
  model.messages[index.toNat]?

def signalCountOf (id : Nat) : Nat := ((model.messageOf id).map fun msg => msg.signalCount.toNat).getD 0

/-- Signal number `si` of an id's message. -/
def signalOf (id si : Nat) : Option SignalDef := do
  let msg ← model.messageOf id
  if si < msg.signalCount.toNat then model.signals[msg.signalIndex si]? else none

/-- The indexes that decoding follows lead to messages and signals. -/
structure InRange : Prop where
  message : ∀ id index, model.canidToMsg.find? id = some index → index.toNat < model.messages.length
  signal : ∀ id msg, model.messageOf id = some msg → ∀ si, si < msg.signalCount.toNat →
    msg.signalIndex si < model.signals.length

/-- Extracting the signals of an entry's id has defined behaviour. -/
def Extracts (entry : LogRecord) : Prop :=
  ∀ si sig, model.signalOf entry.canId.toNat si = some sig →
    (extractSignal entry.data entry.dataLen.toNat sig).isSome

/-- Decoding an entry has defined behaviour. -/
def Decodes (entry : LogRecord) : Prop := (decodeEntry model entry 0).isSome

/-- The value of a signal where it can be extracted. -/
def decoded (entry : LogRecord) (si : Nat) : DecodedSignal :=
  let sig := (model.signalOf entry.canId.toNat si).getD ⟨0, 0, 0, 0, .zero, .zero⟩
  let raw := (extractSignal entry.data entry.dataLen.toNat sig).getD 0
  ⟨signalName si, raw, ((Binary64.ofInt raw.toInt).mul sig.scale).add sig.offset⟩

end CanDatabaseModel

theorem mapM_eq_some_map {α β : Type} {f : α → Option β} {g : α → β} {l : List α}
    (h : ∀ a ∈ l, f a = some (g a)) : l.mapM f = some (l.map g) := by
  induction l with
  | nil => rfl
  | cons a l ih =>
    rw [List.mapM_cons, h a (by simp), ih fun b hb => h b (by simp [hb])]
    rfl

theorem mapM_eq_none {α β : Type} {f : α → Option β} {l : List α} {a : α} (ha : a ∈ l)
    (h : f a = none) : l.mapM f = none := by
  induction l with
  | nil => cases ha
  | cons b l ih =>
    rw [List.mapM_cons]
    rcases List.mem_cons.mp ha with rfl | ha
    · rw [h]
      rfl
    · rw [ih ha]
      cases f b <;> rfl

theorem isSome_mapM_iff {α β : Type} {f : α → Option β} {l : List α} :
    (l.mapM f).isSome ↔ ∀ a ∈ l, (f a).isSome := by
  constructor
  · intro all a ha
    by_contra missing
    rw [mapM_eq_none ha (by simpa using missing)] at all
    cases all
  · intro all
    induction l with
    | nil => rfl
    | cons a l ih =>
      obtain ⟨b, hb⟩ := Option.isSome_iff_exists.mp (all a (by simp))
      obtain ⟨bs, hbs⟩ := Option.isSome_iff_exists.mp (ih fun c hc => all c (by simp [hc]))
      rw [List.mapM_cons, hb, hbs]
      rfl

section Decoding

variable {model : CanDatabaseModel} {entry : LogRecord}

theorem CanDatabaseModel.InRange.signalOf_isSome_iff (h : model.InRange) {id si : Nat} :
    (model.signalOf id si).isSome ↔ si < model.signalCountOf id := by
  unfold CanDatabaseModel.signalOf CanDatabaseModel.signalCountOf
  cases hm : model.messageOf id with
  | none => simp
  | some msg =>
    by_cases hsi : si < msg.signalCount.toNat
    · simp [hsi, h.signal id msg hm si hsi]
    · simp [hsi]

theorem decodeSignal_eq {msg : MessageDef}
    (hm : model.messageOf entry.canId.toNat = some msg) {si : Nat}
    (hsi : si < msg.signalCount.toNat) : decodeSignal model msg entry si =
      (model.signalOf entry.canId.toNat si).bind fun sig =>
        (extractSignal entry.data entry.dataLen.toNat sig).map fun raw =>
          ⟨signalName si, raw, ((Binary64.ofInt raw.toInt).mul sig.scale).add sig.offset⟩ := by
  have same : model.signalOf entry.canId.toNat si = model.signals[msg.signalIndex si]? := by
    simp [CanDatabaseModel.signalOf, hm, hsi]
  rw [same, decodeSignal]
  cases model.signals[msg.signalIndex si]? with
  | none => rfl
  | some sig => cases hx : extractSignal entry.data entry.dataLen.toNat sig <;> simp [hx]

theorem decodeEntry_eq (h : model.InRange) : decodeEntry model entry 0 =
    match model.messageOf entry.canId.toNat with
    | none => some []
    | some msg => (List.range msg.signalCount.toNat).mapM (decodeSignal model msg entry) := by
  unfold decodeEntry CanDatabaseModel.messageOf
  cases hi : model.canidToMsg.find? entry.canId.toNat with
  | none => rfl
  | some index =>
    have hmsg := List.getElem?_eq_getElem (h.message _ index hi)
    simp [hmsg]

theorem decodeEntry_some (h : model.InRange) (hx : model.Extracts entry) : decodeEntry model entry 0 =
    some ((List.range (model.signalCountOf entry.canId.toNat)).map (model.decoded entry)) := by
  rw [decodeEntry_eq h, CanDatabaseModel.signalCountOf]
  cases hm : model.messageOf entry.canId.toNat with
  | none => rfl
  | some msg =>
    refine mapM_eq_some_map fun si hsi => ?_
    have low : si < msg.signalCount.toNat := List.mem_range.mp hsi
    have count : model.signalCountOf entry.canId.toNat = msg.signalCount.toNat := by
      simp [CanDatabaseModel.signalCountOf, hm]
    obtain ⟨sig, hsig⟩ := Option.isSome_iff_exists.mp (h.signalOf_isSome_iff.mpr (count ▸ low))
    obtain ⟨raw, hraw⟩ := Option.isSome_iff_exists.mp (hx si sig hsig)
    rw [decodeSignal_eq hm low, CanDatabaseModel.decoded, hsig, Option.bind_some,
      Option.getD_some, hraw]
    rfl

theorem decodeEntry_none (h : model.InRange) (hx : ¬ model.Extracts entry) :
    decodeEntry model entry 0 = none := by
  obtain ⟨si, sig, hsig, fails⟩ : ∃ si sig, model.signalOf entry.canId.toNat si = some sig ∧
      extractSignal entry.data entry.dataLen.toNat sig = none := by
    simpa [CanDatabaseModel.Extracts] using hx
  have low := h.signalOf_isSome_iff.mp (Option.isSome_of_eq_some hsig)
  rw [decodeEntry_eq h]
  cases hm : model.messageOf entry.canId.toNat with
  | none => simp [CanDatabaseModel.signalCountOf, hm] at low
  | some msg =>
    have low : si < msg.signalCount.toNat := by simpa [CanDatabaseModel.signalCountOf, hm] using low
    refine mapM_eq_none (List.mem_range.mpr low) ?_
    rw [decodeSignal_eq hm low, hsig, Option.bind_some, fails]
    rfl

theorem CanDatabaseModel.InRange.decodes_iff (h : model.InRange) : model.Decodes entry ↔
    model.Extracts entry := by
  constructor
  · intro decodes
    by_contra fails
    rw [CanDatabaseModel.Decodes, decodeEntry_none h fails] at decodes
    cases decodes
  · intro extracts
    rw [CanDatabaseModel.Decodes, decodeEntry_some h extracts]
    rfl

theorem decodeSignal_of_isSome {msg : MessageDef}
    (hm : model.messageOf entry.canId.toNat = some msg) {si : Nat}
    (hsi : si < msg.signalCount.toNat) (h : (decodeSignal model msg entry si).isSome) :
    decodeSignal model msg entry si = some (model.decoded entry si) ∧
      ∃ sig, model.signalOf entry.canId.toNat si = some sig ∧
        (extractSignal entry.data entry.dataLen.toNat sig).isSome := by
  rw [decodeSignal_eq hm hsi] at h ⊢
  cases hs : model.signalOf entry.canId.toNat si with
  | none => simp [hs] at h
  | some sig =>
    rw [hs, Option.bind_some, Option.isSome_map] at h
    obtain ⟨raw, hraw⟩ := Option.isSome_iff_exists.mp h
    exact ⟨by simp [CanDatabaseModel.decoded, hs, hraw], sig, rfl, h⟩

/-- What decoding has given is one value for every signal of the entry's message. -/
theorem decodeEntry_of_some {signals : List DecodedSignal}
    (h : decodeEntry model entry 0 = some signals) :
    signals = (List.range (model.signalCountOf entry.canId.toNat)).map (model.decoded entry) ∧
      ∀ si < model.signalCountOf entry.canId.toNat, ∃ sig,
        model.signalOf entry.canId.toNat si = some sig ∧
        (extractSignal entry.data entry.dataLen.toNat sig).isSome := by
  unfold decodeEntry at h
  unfold CanDatabaseModel.signalCountOf
  cases hi : model.canidToMsg.find? entry.canId.toNat with
  | none =>
    have nothing : model.messageOf entry.canId.toNat = none := by simp [CanDatabaseModel.messageOf, hi]
    rw [hi] at h
    cases h
    exact ⟨by simp [nothing], fun si low => by simp [nothing] at low⟩
  | some index =>
    rw [hi] at h
    obtain ⟨msg, found, h⟩ := Option.bind_eq_some_iff.mp h
    have hm : model.messageOf entry.canId.toNat = some msg := by
      rw [CanDatabaseModel.messageOf, hi]
      exact found
    have each : ∀ si ∈ List.range msg.signalCount.toNat, (decodeSignal model msg entry si).isSome :=
      isSome_mapM_iff.mp (Option.isSome_of_eq_some h)
    have values := mapM_eq_some_map fun si hsi =>
      (decodeSignal_of_isSome hm (List.mem_range.mp hsi) (each si hsi)).1
    rw [hm]
    exact ⟨Option.some.inj (h.symm.trans values), fun si low =>
      (decodeSignal_of_isSome hm low (each si (List.mem_range.mpr low))).2⟩

theorem decodeEntry_of_decodes (h : model.Decodes entry) : decodeEntry model entry 0 =
    some ((List.range (model.signalCountOf entry.canId.toNat)).map (model.decoded entry)) := by
  obtain ⟨signals, run⟩ := Option.isSome_iff_exists.mp h
  rw [run, (decodeEntry_of_some run).1]

/-- Every signal of a decoded entry is in the table and has been extracted. -/
theorem CanDatabaseModel.Decodes.signal (h : model.Decodes entry) {si : Nat}
    (low : si < model.signalCountOf entry.canId.toNat) :
    ∃ sig, model.signalOf entry.canId.toNat si = some sig ∧
      (extractSignal entry.data entry.dataLen.toNat sig).isSome := by
  obtain ⟨signals, run⟩ := Option.isSome_iff_exists.mp h
  exact (decodeEntry_of_some run).2 si low

theorem CanDatabaseModel.signalOf_lt {id si : Nat} {sig : SignalDef}
    (h : model.signalOf id si = some sig) : si < model.signalCountOf id := by
  obtain ⟨msg, hm, h⟩ := Option.bind_eq_some_iff.mp h
  split at h
  next low => simpa [CanDatabaseModel.signalCountOf, hm] using low
  next => cases h

theorem CanDatabaseModel.Decodes.extracts (h : model.Decodes entry) : model.Extracts entry := by
  intro si sig hsig
  obtain ⟨sig', found, extracted⟩ := h.signal (CanDatabaseModel.signalOf_lt hsig)
  cases Option.some.inj (hsig.symm.trans found)
  exact extracted

end Decoding

end FsCore
