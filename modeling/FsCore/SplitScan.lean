import FsCore.AscReader
import Mathlib.Logic.Function.Iterate

namespace FsCore

/-- Where split_whitespace_limit is: at the condition of one of its loops, or behind the last. -/
inductive SplitPhase where
  | outer
  | blanks
  | word (start : Nat)
  | tail
  | done
deriving DecidableEq

structure SplitScan where
  phase : SplitPhase
  i : Nat
  out : List Text
deriving DecidableEq

namespace SplitScan

def start : SplitScan := ⟨.outer, 0, []⟩

/-- `i < n && isspace(s[i])` -/
def spaceAt (s : Text) (i : Nat) : Bool := s[i]?.any isSpace

/-- `i < n && !isspace(s[i])` -/
def wordAt (s : Text) (i : Nat) : Bool := s[i]?.any fun c => !isSpace c

/-- `s.substr(pos, count)` -/
def substr (s : Text) (pos count : Nat) : Text := (s.drop pos).take count

/-- From one test of a loop condition to the next. -/
def step (s : Text) (maxSplits : Nat) (x : SplitScan) : SplitScan :=
  match x.phase with
  | .outer =>
    if x.i < s.length ∧ x.out.length < maxSplits then
      { x with phase := .blanks }
    else
      { x with phase := .tail }
  | .blanks =>
    if spaceAt s x.i then { x with i := x.i + 1 }
    else if s.length ≤ x.i then { x with phase := .tail }
    else { x with phase := .word x.i }
  | .word start =>
    if wordAt s x.i then { x with i := x.i + 1 }
    else { x with phase := .outer, out := x.out ++ [substr s start (x.i - start)] }
  | .tail =>
    if spaceAt s x.i then { x with i := x.i + 1 }
    else if x.i < s.length then { x with phase := .done, out := x.out ++ [s.drop x.i] }
    else { x with phase := .done }
  | .done => x

/-- The index is not past the end, and a word does not begin behind it. -/
structure Within (s : Text) (x : SplitScan) : Prop where
  index : x.i ≤ s.length
  word : ∀ b, x.phase = .word b → b ≤ x.i

section Steps

variable {s : Text} {k i : Nat} {out : List Text}

theorem step_outer : step s k ⟨.outer, i, out⟩ =
    if i < s.length ∧ out.length < k then ⟨.blanks, i, out⟩ else ⟨.tail, i, out⟩ := rfl

theorem step_blanks : step s k ⟨.blanks, i, out⟩ =
    if spaceAt s i then ⟨.blanks, i + 1, out⟩
    else if s.length ≤ i then ⟨.tail, i, out⟩ else ⟨.word i, i, out⟩ := rfl

theorem step_word {b : Nat} : step s k ⟨.word b, i, out⟩ =
    if wordAt s i then ⟨.word b, i + 1, out⟩ else ⟨.outer, i, out ++ [substr s b (i - b)]⟩ := rfl

theorem step_tail : step s k ⟨.tail, i, out⟩ =
    if spaceAt s i then ⟨.tail, i + 1, out⟩
    else if i < s.length then ⟨.done, i, out ++ [s.drop i]⟩ else ⟨.done, i, out⟩ := rfl

theorem lt_of_any {q : Char → Bool} (h : s[i]?.any q = true) : i < s.length := by
  obtain ⟨c, hc, -⟩ := (Option.any_eq_true q s[i]?).mp h
  exact (List.getElem?_eq_some_iff.mp hc).1

theorem Within.step {x : SplitScan} (h : x.Within s) : (x.step s k).Within s := by
  obtain ⟨phase, i, out⟩ := x
  have index : i ≤ s.length := h.index
  cases phase with
  | outer =>
    rw [step_outer]
    split <;> exact ⟨index, nofun⟩
  | blanks =>
    rw [step_blanks]
    split
    next more => exact ⟨lt_of_any more, nofun⟩
    next =>
      split
      next => exact ⟨index, nofun⟩
      next =>
        refine ⟨index, fun b hb => ?_⟩
        cases hb
        exact le_rfl
  | word b =>
    rw [step_word]
    split
    next more => exact ⟨lt_of_any more, fun b' hb => (h.word b' hb).trans (Nat.le_succ i)⟩
    next => exact ⟨index, nofun⟩
  | tail =>
    rw [step_tail]
    split
    next more => exact ⟨lt_of_any more, nofun⟩
    next => split <;> exact ⟨index, nofun⟩
  | done => exact h

theorem start_within (s : Text) : start.Within s := ⟨Nat.zero_le _, nofun⟩

theorem run_within (s : Text) (k m : Nat) : ((step s k)^[m] start).Within s :=
  Function.Iterate.rec _ (start_within s) (fun _ h => Within.step h) m

end Steps

section Runs

variable {s : Text} {k : Nat} {out : List Text}

/-- Some number of steps leads from one point to the other. -/
def Reaches (s : Text) (k : Nat) (x y : SplitScan) : Prop := ∃ m, (step s k)^[m] x = y

theorem Reaches.refl (x : SplitScan) : Reaches s k x x := ⟨0, rfl⟩

theorem Reaches.trans {x y z : SplitScan} (first : Reaches s k x y) (second : Reaches s k y z) :
    Reaches s k x z := by
  obtain ⟨m, rfl⟩ := first
  obtain ⟨n, rfl⟩ := second
  exact ⟨n + m, Function.iterate_add_apply _ n m x⟩

theorem Reaches.head {x y z : SplitScan} (h : x.step s k = y) (rest : Reaches s k y z) :
    Reaches s k x z :=
  .trans ⟨1, h⟩ rest

theorem drop_takeWhile (q : Char → Bool) (t : Text) : t.drop (t.takeWhile q).length = t.dropWhile q :=
  calc t.drop (t.takeWhile q).length
      = (t.takeWhile q ++ t.dropWhile q).drop (t.takeWhile q).length := by
        rw [List.takeWhile_append_dropWhile]
    _ = t.dropWhile q := List.drop_left

theorem take_takeWhile (q : Char → Bool) (t : Text) : t.take (t.takeWhile q).length = t.takeWhile q :=
  (List.prefix_iff_eq_take.mp (List.takeWhile_prefix q)).symm

theorem any_drop (q : Char → Bool) (i : Nat) : s[i]?.any q = (s.drop i).head?.any q := by
  rw [List.head?_drop]

/-- An inner loop runs over all that its condition holds for. -/
theorem loop_run {q : Char → Bool} {phase : SplitPhase}
    (more : ∀ i, s[i]?.any q = true → step s k ⟨phase, i, out⟩ = ⟨phase, i + 1, out⟩) (i : Nat) :
    Reaches s k ⟨phase, i, out⟩ ⟨phase, i + ((s.drop i).takeWhile q).length, out⟩ := by
  induction h : s.drop i generalizing i with
  | nil => exact .refl _
  | cons c t ih =>
    have next : s.drop (i + 1) = t := by rw [← List.drop_drop, h]; rfl
    cases hc : q c with
    | true =>
      have now : s[i]?.any q = true := by rw [any_drop, h]; exact hc
      have rest := ih (i + 1) next
      rw [Nat.add_assoc, Nat.add_comm 1] at rest
      rw [List.takeWhile_cons_of_pos hc]
      exact .head (more i now) rest
    | false =>
      rw [List.takeWhile_cons_of_neg (by simp [hc])]
      exact .refl _

theorem drop_run (q : Char → Bool) (i : Nat) :
    s.drop (i + ((s.drop i).takeWhile q).length) = (s.drop i).dropWhile q := by
  rw [← List.drop_drop, drop_takeWhile]

theorem run_blanks (out : List Text) (i : Nat) : Reaches s k ⟨.blanks, i, out⟩
    ⟨.blanks, i + ((s.drop i).takeWhile isSpace).length, out⟩ :=
  loop_run (fun _ now => by rw [step_blanks]; exact if_pos now) i

theorem run_word (out : List Text) (b i : Nat) : Reaches s k ⟨.word b, i, out⟩
    ⟨.word b, i + ((s.drop i).takeWhile fun c => !isSpace c).length, out⟩ :=
  loop_run (fun _ now => by rw [step_word]; exact if_pos now) i

theorem run_tail (out : List Text) (i : Nat) : Reaches s k ⟨.tail, i, out⟩
    ⟨.tail, i + ((s.drop i).takeWhile isSpace).length, out⟩ :=
  loop_run (fun _ now => by rw [step_tail]; exact if_pos now) i

/-- Where a run has ended the condition does not hold. -/
theorem run_stops {q : Char → Bool} {t : Text} {j : Nat} (h : s.drop j = t.dropWhile q) :
    s[j]?.any q = false := by
  have := List.head?_dropWhile_not q t
  rw [any_drop, h]
  cases hc : (t.dropWhile q).head? with
  | none => rfl
  | some c => simpa [hc] using this

theorem outer_ends {i : Nat} (h : s.length ≤ i ∨ k ≤ out.length) :
    Reaches s k ⟨.outer, i, out⟩ ⟨.tail, i, out⟩ := by
  have ends : step s k ⟨.outer, i, out⟩ = ⟨.tail, i, out⟩ := by
    rw [step_outer, if_neg (by omega)]
  exact .head ends (.refl _)

theorem outer_enters {i : Nat} (inside : i < s.length) (more : out.length < k) :
    ∃ j, Reaches s k ⟨.outer, i, out⟩ ⟨.blanks, j, out⟩ ∧ s.drop j = (s.drop i).dropWhile isSpace := by
  have enter : step s k ⟨.outer, i, out⟩ = ⟨.blanks, i, out⟩ := by
    rw [step_outer, if_pos ⟨inside, more⟩]
  exact ⟨_, .head enter (run_blanks out i), drop_run isSpace i⟩

/-- Nothing but blanks: the break. -/
theorem outer_breaks {i : Nat} (inside : i < s.length) (more : out.length < k)
    (h : (s.drop i).dropWhile isSpace = []) :
    ∃ j, Reaches s k ⟨.outer, i, out⟩ ⟨.tail, j, out⟩ ∧ s.drop j = [] := by
  obtain ⟨j, blanks, behind⟩ := outer_enters inside more
  have stop : spaceAt s j = false := run_stops behind
  rw [h] at behind
  have leave : step s k ⟨.blanks, j, out⟩ = ⟨.tail, j, out⟩ := by
    rw [step_blanks, stop, if_neg Bool.false_ne_true, if_pos (List.drop_eq_nil_iff.mp behind)]
  exact ⟨j, blanks.trans (.head leave (.refl _)), behind⟩

/-- One round: the next word. -/
theorem outer_round {i : Nat} (more : out.length < k) {a : Char} {t : Text}
    (h : (s.drop i).dropWhile isSpace = a :: t) :
    ∃ j, Reaches s k ⟨.outer, i, out⟩ ⟨.outer, j, out ++ [(a :: t).takeWhile fun c => !isSpace c]⟩ ∧
      s.drop j = (a :: t).dropWhile fun c => !isSpace c := by
  have inside : i < s.length := by
    by_contra past
    rw [List.drop_eq_nil_of_le (Nat.not_lt.mp past)] at h
    cases h
  obtain ⟨b, blanks, behind⟩ := outer_enters inside more
  have stop : spaceAt s b = false := run_stops behind
  rw [h] at behind
  have before : ¬s.length ≤ b := fun past => by
    rw [List.drop_eq_nil_of_le past] at behind
    cases behind
  have enter : step s k ⟨.blanks, b, out⟩ = ⟨.word b, b, out⟩ := by
    rw [step_blanks, stop, if_neg Bool.false_ne_true, if_neg before]
  have word : Reaches s k _ _ := run_word out b b
  have ends := @drop_run s (fun c => !isSpace c) b
  rw [behind] at word ends
  have stop' : wordAt s (b + ((a :: t).takeWhile fun c => !isSpace c).length) = false := run_stops ends
  have push : step s k ⟨.word b, b + ((a :: t).takeWhile fun c => !isSpace c).length, out⟩ =
      ⟨.outer, b + ((a :: t).takeWhile fun c => !isSpace c).length,
        out ++ [(a :: t).takeWhile fun c => !isSpace c]⟩ := by
    rw [step_word, stop', if_neg Bool.false_ne_true, substr, behind,
      Nat.add_sub_cancel_left, take_takeWhile]
  exact ⟨_, blanks.trans (.head enter (word.trans (.head push (.refl _)))), ends⟩

/-- The outer loop takes off the words that `splitLoop` does, and stands where the rest begins. -/
theorem run_outer (i : Nat) (out : List Text) : ∃ j,
    Reaches s k ⟨.outer, i, out⟩ ⟨.tail, j, out ++ (splitLoop isSpace (k - out.length) (s.drop i)).1⟩ ∧
      s.drop j = (splitLoop isSpace (k - out.length) (s.drop i)).2 := by
  induction left : k - out.length generalizing i out with
  | zero =>
    refine ⟨i, ?_, rfl⟩
    rw [splitLoop, List.append_nil]
    exact outer_ends (.inr (by omega))
  | succ d ih =>
    have more : out.length < k := by omega
    cases h : (s.drop i).dropWhile isSpace with
    | nil =>
      rw [splitLoop_succ_nil h, List.append_nil]
      rcases Nat.lt_or_ge i s.length with inside | past
      · exact outer_breaks inside more h
      · exact ⟨i, outer_ends (.inl past), List.drop_eq_nil_of_le past⟩
    | cons a t =>
      obtain ⟨j, round, behind⟩ := outer_round more h
      obtain ⟨e, rest, ends⟩ := ih j (out ++ [(a :: t).takeWhile fun c => !isSpace c])
        (by rw [List.length_append, List.length_singleton]; omega)
      rw [behind] at rest ends
      rw [List.append_assoc] at rest
      rw [splitLoop_succ_cons h]
      exact ⟨e, round.trans rest, ends⟩

/-- The scan ends, with the pieces of the reader. -/
theorem run_ends (s : Text) (k : Nat) :
    ∃ m last, (step s k)^[m] start = ⟨.done, last, splitWhitespaceLimit s k⟩ := by
  obtain ⟨j, outer, behind⟩ := @run_outer s k 0 []
  rw [List.nil_append, List.length_nil, Nat.sub_zero, List.drop_zero] at outer
  rw [List.length_nil, Nat.sub_zero, List.drop_zero] at behind
  have tail : Reaches s k _ _ := run_tail (splitLoop isSpace k s).1 j
  have ends := @drop_run s isSpace j
  generalize j + ((s.drop j).takeWhile isSpace).length = last at tail ends
  have stop : spaceAt s last = false := run_stops ends
  have final : step s k ⟨.tail, last, (splitLoop isSpace k s).1⟩ =
    ⟨.done, last, splitWhitespaceLimit s k⟩ := by
    rw [step_tail, stop, if_neg Bool.false_ne_true, splitWhitespaceLimit, splitLimit, ends, behind]
    rw [behind] at ends
    cases h : (splitLoop isSpace k s).2.dropWhile isSpace with
    | nil =>
      rw [h] at ends
      rw [if_neg (Nat.not_lt.mpr (List.drop_eq_nil_iff.mp ends))]
    | cons a t =>
      have inside : last < s.length := by
        by_contra past
        rw [List.drop_eq_nil_of_le (Nat.not_lt.mp past), h] at ends
        cases ends
      rw [if_pos inside]
  obtain ⟨m, run⟩ := outer.trans (tail.trans (.head final (.refl _)))
  exact ⟨m, last, run⟩

end Runs

end SplitScan

/-- The first tokens and, where there are more, the text from the next one on. -/
theorem splitWhitespaceLimit_spec (s : Text) (k : Nat) :
    let ws := splitWhitespace s
    let out := splitWhitespaceLimit s k
    (∃ m last, (SplitScan.step s k)^[m] SplitScan.start = ⟨.done, last, out⟩) ∧
      (∀ m, ((SplitScan.step s k)^[m] SplitScan.start).Within s) ∧
      out.take (min k ws.length) = ws.take (min k ws.length) ∧
      out.length = min k ws.length + (if k < ws.length then 1 else 0) ∧
      (k < ws.length → ∃ before rest, s = before ++ rest ∧ splitWhitespace before = ws.take k ∧
        out[k]? = some rest ∧ ws[k]? = some (rest.takeWhile fun c => !isSpace c) ∧
        splitWhitespace rest = ws.drop k) := by
  intro ws out
  refine ⟨SplitScan.run_ends s k, SplitScan.run_within s k, ?_⟩
  rcases Nat.lt_or_ge k ws.length with more | few
  · obtain ⟨before, rest, whole, first, split, others, tight⟩ := splitLimit_suffix more
    have split : out = ws.take k ++ [rest] := split
    have size : (ws.take k).length = k := List.length_take_of_le more.le
    have head : (ws.drop k).head? = ws[k]? := List.head?_drop
    rw [min_eq_left more.le, if_pos more]
    refine ⟨?_, ?_, fun _ => ⟨before, rest, whole, first, ?_, ?_, others⟩⟩
    · rw [split, List.take_left' size]
    · rw [split, List.length_append, size, List.length_singleton]
    · rw [split, List.getElem?_append_right size.le, size, Nat.sub_self]
      rfl
    · cases hw : ws.drop k with
      | nil =>
        have := List.drop_eq_nil_iff.mp hw
        omega
      | cons w more' =>
        rw [← head, hw, words_eq_cons tight (others.trans hw)]
        rfl
  · have same : out = ws := splitLimit_of_le few
    rw [same, min_eq_right few, if_neg (Nat.not_lt.mpr few)]
    exact ⟨rfl, rfl, fun more => absurd more (Nat.not_lt.mpr few)⟩

end FsCore
