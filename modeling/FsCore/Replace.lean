import Mathlib.Data.List.Basic
import Mathlib.Data.List.Infix

namespace FsCore

variable {α : Type} [DecidableEq α]

/-- Where `old` stands first at or after a position. -/
def findFrom (old text : List α) (pos : Nat) : Option Nat :=
  (List.range' pos (text.length + 1 - pos)).find? fun i => old.isPrefixOf (text.drop i)

/-- Every occurrence that is found is overwritten, and the search goes on behind what
was put there. -/
def replaceLoop (old new : List α) : Nat → List α → Nat → List α
  | 0, text, _ => text
  | fuel + 1, text, pos =>
    match findFrom old text pos with
    | none => text
    | some p =>
      replaceLoop old new fuel (text.take p ++ new ++ text.drop (p + old.length)) (p + new.length)

/-- The same in one pass; the count is of characters that a match has still to skip. -/
def substitute (old new : List α) : Nat → List α → List α
  | _, [] => []
  | k + 1, _ :: rest => substitute old new k rest
  | 0, a :: rest =>
    if old.isPrefixOf (a :: rest) then new ++ substitute old new (old.length - 1) rest
    else a :: substitute old new 0 rest

variable {old new : List α}

theorem substitute_skip (k : Nat) (text : List α) :
    substitute old new k text = substitute old new 0 (text.drop k) := by
  induction text generalizing k with
  | nil => cases k <;> simp [substitute]
  | cons a rest ih =>
    cases k with
    | zero => rfl
    | succ k => exact ih k

theorem substitute_here (ne : old ≠ []) (rest : List α) :
    substitute old new 0 (old ++ rest) = new ++ substitute old new 0 rest := by
  cases old with
  | nil => exact absurd rfl ne
  | cons a as =>
    have here : (a :: as).isPrefixOf (a :: (as ++ rest)) = true :=
      List.isPrefixOf_iff_prefix.mpr (List.prefix_append _ _)
    rw [List.cons_append, substitute, if_pos here, substitute_skip]
    simp

theorem substitute_past {a : α} {rest : List α} (other : ¬ old <+: a :: rest) :
    substitute old new 0 (a :: rest) = a :: substitute old new 0 rest := by
  rw [substitute, if_neg (by rwa [List.isPrefixOf_iff_prefix])]

/-- Text in front of the first match stays. -/
theorem substitute_before {gap rest : List α}
    (none : ∀ i, i < gap.length → ¬ old <+: (gap ++ rest).drop i) :
    substitute old new 0 (gap ++ rest) = gap ++ substitute old new 0 rest := by
  induction gap with
  | nil => rfl
  | cons a gap ih =>
    have first : ¬ old <+: a :: (gap ++ rest) := none 0 (by simp)
    rw [List.cons_append, substitute_past first, ih fun i hi => none (i + 1) (by simpa using hi),
      List.cons_append]

theorem substitute_none {text : List α} (none : ∀ i, i < text.length → ¬ old <+: text.drop i) :
    substitute old new 0 text = text := by
  have whole := @substitute_before α _ old new text [] (by simpa using none)
  simpa [substitute] using whole

section Search

variable {text : List α} {pos p : Nat}

omit [DecidableEq α] in
theorem length_of_prefix_drop (ne : old ≠ []) {i : Nat} (h : old <+: text.drop i) :
    i + old.length ≤ text.length := by
  have := h.length_le
  rw [List.length_drop] at this
  have := List.length_pos_iff.mpr ne
  omega

theorem findFrom_some (h : findFrom old text pos = some p) :
    pos ≤ p ∧ old <+: text.drop p ∧ ∀ i, pos ≤ i → i < p → ¬ old <+: text.drop i := by
  simp only [findFrom, List.find?_range'_eq_some, List.mem_range'_1, List.isPrefixOf_iff_prefix] at h
  obtain ⟨here, ⟨low, _⟩, earlier⟩ := h
  refine ⟨low, here, fun i hi hip there => ?_⟩
  have := earlier i hi hip
  rw [List.isPrefixOf_iff_prefix.mpr there] at this
  cases this

theorem findFrom_none (ne : old ≠ []) (h : findFrom old text pos = none) {i : Nat} (hi : pos ≤ i) :
    ¬ old <+: text.drop i := by
  intro here
  have inside := length_of_prefix_drop ne here
  simp only [findFrom, List.find?_range'_eq_none] at h
  have := h i hi (by omega)
  rw [List.isPrefixOf_iff_prefix.mpr here] at this
  cases this

/-- The loop, with enough fuel for the text behind the position, is the one pass over it. -/
theorem replaceLoop_eq (ne : old ≠ []) {fuel : Nat} (within : pos ≤ text.length)
    (enough : text.length - pos < fuel) :
    replaceLoop old new fuel text pos = text.take pos ++ substitute old new 0 (text.drop pos) := by
  induction fuel generalizing text pos with
  | zero => omega
  | succ fuel ih =>
    rw [replaceLoop]
    cases hf : findFrom old text pos with
    | none =>
      have stays : substitute old new 0 (text.drop pos) = text.drop pos := substitute_none fun i _ => by
        rw [List.drop_drop]
        exact findFrom_none ne hf (by omega)
      rw [stays, List.take_append_drop]
    | some p =>
      obtain ⟨low, here, earlier⟩ := findFrom_some hf
      have inside := length_of_prefix_drop ne here
      have positive := List.length_pos_iff.mpr ne
      let next := text.take p ++ new ++ text.drop (p + old.length)
      have front : (text.take p ++ new).length = p + new.length := by simp; omega
      have taken : next.take (p + new.length) = text.take p ++ new := List.take_left' front
      have rest : next.drop (p + new.length) = text.drop (p + old.length) := List.drop_left' front
      have size : next.length - (p + new.length) = text.length - (p + old.length) := by
        simp only [next, List.length_append, front, List.length_drop]
        omega
      have room : p + new.length ≤ next.length := by
        simp only [next, List.length_append, front]
        omega
      have step := @ih next (p + new.length) room (by omega)
      obtain ⟨tail, htail⟩ := here
      have gap : text.drop pos = (text.drop pos).take (p - pos) ++ (old ++ tail) := by
        rw [htail, ← Nat.add_sub_cancel' low, ← List.drop_drop, Nat.add_sub_cancel_left,
          List.take_append_drop]
      have behind : tail = text.drop (p + old.length) := by
        rw [← List.drop_drop, ← htail, List.drop_left]
      have untouched : ∀ i, i < ((text.drop pos).take (p - pos)).length →
          ¬ old <+: ((text.drop pos).take (p - pos) ++ (old ++ tail)).drop i := by
        intro i hi
        rw [← gap, List.drop_drop]
        rw [List.length_take] at hi
        exact earlier (pos + i) (by omega) (by omega)
      have front' : text.take pos ++ (text.drop pos).take (p - pos) = text.take p := by
        rw [← List.take_add, Nat.add_sub_cancel' low]
      change replaceLoop old new fuel next (p + new.length) = _
      rw [step, taken, rest, gap, substitute_before untouched, substitute_here ne, behind,
        ← List.append_assoc, front', List.append_assoc]

end Search

section Remains

/-- What begins in the result begins in the text, if it shares no character with what
was put in. -/
theorem prefix_of_prefix_substitute {w text : List α} (ne : new ≠ []) (apart : ∀ a ∈ w, a ∉ new)
    (h : w <+: substitute old new 0 text) : w <+: text := by
  induction w generalizing text with
  | nil => exact List.nil_prefix
  | cons a w ih =>
    cases text with
    | nil => simp [substitute] at h
    | cons b rest =>
      rw [substitute] at h
      split at h
      next =>
        obtain ⟨c, cs, rfl⟩ := List.exists_cons_of_ne_nil ne
        obtain ⟨rfl, _⟩ := List.cons_prefix_cons.mp h
        exact absurd List.mem_cons_self (apart a List.mem_cons_self)
      next =>
        obtain ⟨rfl, later⟩ := List.cons_prefix_cons.mp h
        exact List.cons_prefix_cons.mpr ⟨rfl,
          ih (fun c hc => apart c (List.mem_cons_of_mem _ hc)) later⟩

omit [DecidableEq α] in
theorem infix_of_infix_append {u v w : List α} (word : w ≠ []) (apart : ∀ a ∈ w, a ∉ u)
    (h : w <:+: u ++ v) : w <:+: v := by
  induction u with
  | nil => exact h
  | cons b u ih =>
    rcases List.infix_cons_iff.mp h with start | later
    · obtain ⟨a, w, rfl⟩ := List.exists_cons_of_ne_nil word
      obtain ⟨rfl, _⟩ := List.cons_prefix_cons.mp start
      exact absurd List.mem_cons_self (apart a List.mem_cons_self)
    · exact ih (fun a ha hu => apart a ha (List.mem_cons_of_mem _ hu)) later

/-- Such a word is nowhere in the result unless it was in the text. -/
theorem infix_of_infix_substitute {w text : List α} {k : Nat} (ne : new ≠ []) (word : w ≠ [])
    (apart : ∀ a ∈ w, a ∉ new) (h : w <:+: substitute old new k text) : w <:+: text := by
  induction text generalizing k with
  | nil =>
    rw [substitute, List.infix_nil] at h
    exact absurd h word
  | cons b rest ih =>
    cases k with
    | succ k => exact (ih h).trans (List.suffix_cons b rest).isInfix
    | zero =>
      rw [substitute] at h
      split at h
      next => exact (ih (infix_of_infix_append word apart h)).trans (List.suffix_cons b rest).isInfix
      next =>
        rcases List.infix_cons_iff.mp h with start | later
        · obtain ⟨a, w, rfl⟩ := List.exists_cons_of_ne_nil word
          obtain ⟨rfl, tail⟩ := List.cons_prefix_cons.mp start
          have inside := prefix_of_prefix_substitute ne
            (fun c hc => apart c (List.mem_cons_of_mem _ hc)) tail
          exact (List.cons_prefix_cons.mpr ⟨rfl, inside⟩).isInfix
        · exact (ih later).trans (List.suffix_cons b rest).isInfix

/-- No occurrence is left, and putting in the new text makes none. -/
theorem not_infix_substitute {text : List α} {k : Nat} (ne : new ≠ []) (word : old ≠ [])
    (apart : ∀ a ∈ old, a ∉ new) : ¬ old <:+: substitute old new k text := by
  induction text generalizing k with
  | nil =>
    rw [substitute, List.infix_nil]
    exact word
  | cons b rest ih =>
    cases k with
    | succ k => exact ih
    | zero =>
      rw [substitute]
      split
      next => exact fun h => ih (infix_of_infix_append word apart h)
      next other =>
        intro h
        rcases List.infix_cons_iff.mp h with start | later
        · obtain ⟨a, w, rfl⟩ := List.exists_cons_of_ne_nil word
          obtain ⟨rfl, tail⟩ := List.cons_prefix_cons.mp start
          have inside := prefix_of_prefix_substitute ne
            (fun c hc => apart c (List.mem_cons_of_mem _ hc)) tail
          exact other (List.isPrefixOf_iff_prefix.mpr (List.cons_prefix_cons.mpr ⟨rfl, inside⟩))
        · exact ih later

end Remains

end FsCore
