import Mathlib.Data.List.Chain
import Mathlib.Data.List.Forall2
import Mathlib.Data.List.TakeWhile

namespace FsCore

/-- A class of characters, and how many of them the text has to have there. -/
structure Piece (α : Type) where
  accepts : α → Bool
  least : Nat
  most : Option Nat

namespace Piece

variable {α : Type}

/-- The words that a piece may stand for. -/
structure Fits (p : Piece α) (w : List α) : Prop where
  all : ∀ a ∈ w, p.accepts a = true
  least : p.least ≤ w.length
  most : ∀ n ∈ p.most, w.length ≤ n

instance (p : Piece α) (w : List α) : Decidable (p.Fits w) :=
  decidable_of_iff (w.all p.accepts = true ∧ p.least ≤ w.length ∧ ∀ n ∈ p.most, w.length ≤ n) <| by
    rw [List.all_eq_true]
    exact ⟨fun ⟨all, least, most⟩ => ⟨all, least, most⟩, fun h => ⟨h.all, h.least, h.most⟩⟩

/-- How far a piece can reach into a text. -/
def reach (p : Piece α) (text : List α) : Nat :=
  let run := (text.takeWhile p.accepts).length
  match p.most with
  | none => run
  | some most => min run most

/-- Two pieces whose classes share no character. -/
def Apart (p q : Piece α) : Prop := ∀ a, p.accepts a = true → q.accepts a = false

theorem Fits.length_le {p : Piece α} {w rest : List α} (h : p.Fits w) :
    w.length ≤ p.reach (w ++ rest) := by
  have run : w.length ≤ ((w ++ rest).takeWhile p.accepts).length := by
    rw [List.takeWhile_append_of_pos h.all, List.length_append]
    omega
  unfold reach
  cases hm : p.most with
  | none => exact run
  | some most => exact le_min run (h.most most hm)

theorem fits_take {p : Piece α} {text : List α} {k : Nat} (low : p.least ≤ k)
    (high : k ≤ p.reach text) : p.Fits (text.take k) := by
  have run : k ≤ (text.takeWhile p.accepts).length := by
    unfold reach at high
    cases hm : p.most with
    | none => rwa [hm] at high
    | some most =>
      rw [hm] at high
      exact high.trans (min_le_left _ _)
  have prefixed : text.take k = (text.takeWhile p.accepts).take k := by
    conv => lhs; rw [← List.takeWhile_append_dropWhile (p := p.accepts) (l := text)]
    exact List.take_append_of_le_length run
  have size : (text.take k).length = k := by
    rw [prefixed, List.length_take]
    omega
  refine ⟨fun a ha => ?_, by omega, fun n hn => ?_⟩
  · rw [prefixed] at ha
    exact List.mem_takeWhile_imp (List.mem_of_mem_take ha)
  · rw [Option.mem_def] at hn
    unfold reach at high
    rw [hn] at high
    rw [size]
    exact high.trans (min_le_right _ _)

end Piece

variable {α : Type}

/-- Backtracking match of a whole text: each piece takes as much as it can, and gives
characters back when the pieces after it do not match. The result has one word for each piece. -/
def matchPieces : List (Piece α) → List α → Option (List (List α))
  | [], text => if text.isEmpty then some [] else none
  | p :: ps, text =>
    (List.range' p.least (p.reach text + 1 - p.least)).reverse.findSome? fun k =>
      (matchPieces ps (text.drop k)).map (text.take k :: ·)

/-- Every word of a match has characters, and none that the piece before it could take. -/
def Separate (ps : List (Piece α)) : Prop :=
  (∀ p ∈ ps, 0 < p.least) ∧ ps.IsChain Piece.Apart

theorem matchPieces_sound {ps : List (Piece α)} {text : List α} {ws : List (List α)}
    (h : matchPieces ps text = some ws) : List.Forall₂ Piece.Fits ps ws ∧ ws.flatten = text := by
  induction ps generalizing text ws with
  | nil =>
    rw [matchPieces, Option.ite_none_right_eq_some] at h
    obtain ⟨empty, h⟩ := h
    cases h
    exact ⟨.nil, (List.isEmpty_iff.mp empty).symm⟩
  | cons p ps ih =>
    obtain ⟨k, hk, h⟩ := List.exists_of_findSome?_eq_some h
    obtain ⟨rest, hrest, rfl⟩ := Option.map_eq_some_iff.mp h
    obtain ⟨fits, flat⟩ := ih hrest
    rw [List.mem_reverse, List.mem_range'_1] at hk
    refine ⟨.cons (Piece.fits_take hk.1 (by omega)) fits, ?_⟩
    rw [List.flatten_cons, flat, List.take_append_drop]

theorem matchPieces_complete {ps : List (Piece α)} {ws : List (List α)}
    (fits : List.Forall₂ Piece.Fits ps ws) : (matchPieces ps ws.flatten).isSome := by
  induction fits with
  | nil => rfl
  | @cons p w ps ws first rest ih =>
    rw [matchPieces, List.findSome?_isSome_iff]
    refine ⟨w.length, ?_, ?_⟩
    · have := first.least
      have := @Piece.Fits.length_le α p w ws.flatten first
      rw [List.mem_reverse, List.mem_range'_1, List.flatten_cons]
      omega
    · rw [List.flatten_cons, List.drop_left, Option.isSome_map]
      exact ih

theorem fits_flatten {ps : List (Piece α)} {ws : List (List α)} {q : α → Prop}
    (classes : ∀ p ∈ ps, ∀ a, p.accepts a = true → q a) (fits : List.Forall₂ Piece.Fits ps ws) :
    ∀ a ∈ ws.flatten, q a := by
  induction fits with
  | nil => exact fun a ha => (List.not_mem_nil ha).elim
  | cons first _ ih =>
    intro a ha
    rcases List.mem_append.mp ha with ha | ha
    · exact classes _ List.mem_cons_self a (first.all a ha)
    · exact ih (fun p hp => classes p (List.mem_cons_of_mem _ hp)) a ha

theorem Separate.tail {p : Piece α} {ps : List (Piece α)} (h : Separate (p :: ps)) : Separate ps :=
  ⟨fun q hq => h.1 q (List.mem_cons_of_mem _ hq), h.2.tail⟩

/-- The first word ends where its class ends: the next one begins with another character. -/
theorem takeWhile_flatten {p : Piece α} {ps : List (Piece α)} {w : List α} {ws : List (List α)}
    (separate : Separate (p :: ps)) (first : p.Fits w) (rest : List.Forall₂ Piece.Fits ps ws) :
    (w :: ws).flatten.takeWhile p.accepts = w := by
  have stop : ws.flatten.takeWhile p.accepts = [] := by
    cases rest with
    | nil => rfl
    | @cons q u qs us head tail =>
      have apart : p.Apart q := (List.isChain_cons_cons.mp separate.2).1
      have filled := (separate.1 q (by simp)).trans_le head.least
      cases u with
      | nil => cases filled
      | cons a u =>
        have mem := head.all a (by simp)
        refine List.takeWhile_cons_of_neg fun taken => ?_
        rw [apart a taken] at mem
        cases mem
  rw [List.flatten_cons, List.takeWhile_append_of_pos first.all, stop, List.append_nil]

theorem flatten_cons_inj {p : Piece α} {ps qs : List (Piece α)} {w v : List α} {ws vs : List (List α)}
    (hps : Separate (p :: ps)) (hqs : Separate (p :: qs)) (hw : p.Fits w) (hv : p.Fits v)
    (hws : List.Forall₂ Piece.Fits ps ws) (hvs : List.Forall₂ Piece.Fits qs vs)
    (same : (w :: ws).flatten = (v :: vs).flatten) : w = v ∧ ws.flatten = vs.flatten := by
  obtain rfl : w = v := by
    rw [← takeWhile_flatten hps hw hws, same, takeWhile_flatten hqs hv hvs]
  exact ⟨rfl, List.append_cancel_left same⟩

/-- The words of separate pieces can be put together in one way only. -/
theorem fits_unique {ps : List (Piece α)} {ws vs : List (List α)} (separate : Separate ps)
    (hw : List.Forall₂ Piece.Fits ps ws) (hv : List.Forall₂ Piece.Fits ps vs)
    (same : ws.flatten = vs.flatten) : ws = vs := by
  induction hw generalizing vs with
  | nil =>
    cases hv
    rfl
  | cons first rest ih =>
    cases hv with
    | cons first' rest' =>
      obtain ⟨rfl, later⟩ := flatten_cons_inj separate separate first first' rest rest' same
      rw [ih separate.tail rest' later]

/-- Lists of pieces that part at classes without a common character match no text both. -/
theorem fits_apart {front : List (Piece α)} {p q : Piece α} {ps qs : List (Piece α)}
    {ws vs : List (List α)} (hps : Separate (front ++ p :: ps)) (hqs : Separate (front ++ q :: qs))
    (apart : p.Apart q) (hw : List.Forall₂ Piece.Fits (front ++ p :: ps) ws)
    (hv : List.Forall₂ Piece.Fits (front ++ q :: qs) vs) : ws.flatten ≠ vs.flatten := by
  intro same
  induction front generalizing ws vs with
  | nil =>
    cases hw with
    | @cons _ w _ _ first _ =>
      cases hv with
      | @cons _ v _ _ first' _ =>
        have filled := (hps.1 p (by simp)).trans_le first.least
        have filled' := (hqs.1 q (by simp)).trans_le first'.least
        cases w with
        | nil => cases filled
        | cons a w =>
          cases v with
          | nil => cases filled'
          | cons b v =>
            obtain rfl : a = b := (List.cons.inj same).1
            have taken := first'.all a (by simp)
            rw [apart a (first.all a (by simp))] at taken
            cases taken
  | cons r front ih =>
    cases hw with
    | cons first rest =>
      cases hv with
      | cons first' rest' =>
        exact ih hps.tail hqs.tail rest rest' (flatten_cons_inj hps hqs first first' rest rest' same).2

/-- A match of separate pieces is the decomposition of the text into their words. -/
theorem matchPieces_eq_some_iff {ps : List (Piece α)} {text : List α} {ws : List (List α)}
    (separate : Separate ps) :
    matchPieces ps text = some ws ↔ List.Forall₂ Piece.Fits ps ws ∧ ws.flatten = text := by
  refine ⟨matchPieces_sound, fun h => ?_⟩
  obtain ⟨fits, rfl⟩ := h
  obtain ⟨vs, found⟩ := Option.isSome_iff_exists.mp (matchPieces_complete fits)
  obtain ⟨fits', flat⟩ := matchPieces_sound found
  rw [found, fits_unique separate fits fits' flat.symm]

end FsCore
