import FsCore.RecordText

namespace FsCore

/-- The token in the direction position; an error frame has none. -/
def FrameText.direction : FrameText → Option Text
  | .errorFrame => none
  | .remote direction _ _ => some direction
  | .data direction _ _ _ => some direction
  | .fd direction _ _ => some direction

/-- An error frame has either form, every other frame its own. -/
def FrameText.HasKind (isFd : Bool) : FrameText → Prop
  | .errorFrame => True
  | .remote _ _ _ => isFd = false
  | .data _ _ _ _ => isFd = false
  | .fd _ _ _ => isFd = true

section Cases

variable {line frame : Text} {f : FrameText} {t : RecordText}

theorem classicText_cases (h : classicText line = some f) : f = .errorFrame ∨
    ∃ canId direction rest, splitWhitespaceLimit line 2 = [canId, direction, rest] ∧
      (f = .remote direction canId (remoteDlc rest) ∨
        ∃ dlcStr bytes, f = .data direction canId dlcStr bytes) := by
  unfold classicText at h
  split at h
  next => exact Or.inl (Option.some.inj h).symm
  next =>
    split at h
    next canId direction rest split =>
      refine Or.inr ⟨canId, direction, rest, split, ?_⟩
      split at h
      next => exact Or.inl (Option.some.inj h).symm
      next =>
        split at h
        next => exact Or.inr ⟨_, _, (Option.some.inj h).symm⟩
        next => exact Or.inr ⟨_, _, (Option.some.inj h).symm⟩
        next => cases h
    next => cases h

theorem fdText_cases (h : fdText frame = some f) : f = .errorFrame ∨
    ∃ direction message canId name rest fields, splitWhitespaceLimit frame 1 = [direction, message] ∧
      splitWhitespaceLimit message 2 = [canId, name, rest] ∧ fdFields name rest = .ok fields ∧
      f = .fd direction canId fields := by
  unfold fdText at h
  split at h
  next => exact Or.inl (Option.some.inj h).symm
  next =>
    split at h
    next direction message split =>
      split at h
      next canId name rest split' =>
        obtain ⟨fields, hf, rfl⟩ := Option.map_eq_some_iff.mp h
        refine Or.inr ⟨direction, message, canId, name, rest, fields, split, split', ?_, rfl⟩
        cases hr : fdFields name rest with
        | ok g =>
          rw [hr] at hf
          exact congrArg Except.ok (Option.some.inj hf)
        | error e =>
          rw [hr] at hf
          cases hf
      next => cases h
    next => cases h

theorem recordText_cases (h : recordText line = some t) :
    (∃ time kind rest f, splitWhitespaceLimit line 2 = [time, kind, rest] ∧ isDigits kind = true ∧
      classicText rest = some f ∧ t = ⟨time, false, kind, f⟩) ∨
    ∃ time rest channel frame f, splitWhitespaceLimit line 2 = [time, "CANFD".toList, rest] ∧
      splitWhitespaceLimit rest 1 = [channel, frame] ∧ fdText frame = some f ∧
        t = ⟨time, true, channel, f⟩ := by
  unfold recordText at h
  split at h
  next time kind rest split =>
    split at h
    next canfd =>
      subst canfd
      split at h
      next channel frame split' =>
        obtain ⟨f, hf, rfl⟩ := Option.map_eq_some_iff.mp h
        exact Or.inr ⟨time, rest, channel, frame, f, split, split', hf, rfl⟩
      next => cases h
    next =>
      split at h
      next digits =>
        obtain ⟨f, hf, rfl⟩ := Option.map_eq_some_iff.mp h
        exact Or.inl ⟨time, kind, rest, f, split, digits, hf, rfl⟩
      next => cases h
  next => cases h

theorem recordText_kind (h : recordText line = some t) : t.frame.HasKind t.isFd := by
  rcases recordText_cases h with ⟨_, _, rest, f, _, _, hf, rfl⟩ | ⟨_, _, _, frame, f, _, _, hf, rfl⟩
  · rcases classicText_cases hf with rfl | ⟨_, _, _, _, rfl | ⟨_, _, rfl⟩⟩
    · trivial
    · rfl
    · rfl
  · rcases fdText_cases hf with rfl | ⟨_, _, _, _, _, _, _, _, _, rfl⟩
    · trivial
    · rfl

/-- The reader takes the DLC of a remote frame only from a token of digits. -/
theorem recordText_remote_digits {direction canId dlcStr : Text} (h : recordText line = some t)
    (hf : t.frame = .remote direction canId (some dlcStr)) : isDigits dlcStr = true := by
  rcases recordText_cases h with ⟨_, _, rest, f, _, _, hc, rfl⟩ | ⟨_, _, _, frame, f, _, _, hc, rfl⟩
  · rcases classicText_cases hc with rfl | ⟨_, _, tail, _, rfl | ⟨_, _, rfl⟩⟩
    · cases hf
    · obtain ⟨-, -, dlc⟩ := FrameText.remote.inj hf
      unfold remoteDlc at dlc
      split at dlc
      next =>
        rw [Option.ite_none_right_eq_some] at dlc
        obtain ⟨digits, same⟩ := dlc
        exact Option.some.inj same ▸ digits
      next => cases dlc
    · cases hf
  · rcases fdText_cases hc with rfl | ⟨_, _, _, _, _, _, _, _, _, rfl⟩
    · cases hf
    · cases hf

theorem splitWhitespaceLimit_one {s a rest : Text} (h : splitWhitespaceLimit s 1 = [a, rest]) :
    splitWhitespace s = a :: splitWhitespace rest :=
  (splitLimit_eq [a] h rfl).1

theorem splitWhitespaceLimit_two {s a b rest : Text} (h : splitWhitespaceLimit s 2 = [a, b, rest]) :
    splitWhitespace s = a :: b :: splitWhitespace rest :=
  (splitLimit_eq [a, b] h rfl).1

/-- The direction is the fourth token of a line of either form. -/
theorem recordText_direction {direction : Text} (h : recordText line = some t)
    (hd : t.frame.direction = some direction) : (splitWhitespace line)[3]? = some direction := by
  rcases recordText_cases h with ⟨_, _, rest, f, split, _, hf, rfl⟩ |
    ⟨_, _, _, frame, f, split, split', hf, rfl⟩
  · rw [splitWhitespaceLimit_two split]
    rcases classicText_cases hf with rfl | ⟨_, _, _, words, rfl | ⟨_, _, rfl⟩⟩
    · cases hd
    · rw [splitWhitespaceLimit_two words]
      exact hd
    · rw [splitWhitespaceLimit_two words]
      exact hd
  · rw [splitWhitespaceLimit_two split, splitWhitespaceLimit_one split']
    rcases fdText_cases hf with rfl | ⟨_, _, _, _, _, _, words, _, _, rfl⟩
    · cases hd
    · rw [splitWhitespaceLimit_one words]
      exact hd

end Cases

end FsCore
