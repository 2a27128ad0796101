import FsCore.Effect
import Mathlib.Data.Finset.Basic
import Mathlib.Data.Finset.Disjoint
import Mathlib.Data.Finset.Lattice.Lemmas
import Mathlib.Data.Finset.SDiff
import Mathlib.Logic.Function.Basic

namespace FsCore

variable {ι ρ : Type}

/-- The holder of some resources of a pool now holds others: the rest of the pool is as before. -/
structure Exchanged [DecidableEq ρ] (pool r pool' r' : Finset ρ) : Prop where
  fresh : Disjoint (pool \ r) r'
  eq : pool' = (pool \ r) ∪ r'

namespace Exchanged

variable [DecidableEq ρ] {pool r pool' r' pool'' r'' others : Finset ρ}

theorem refl (h : r ⊆ pool) : Exchanged pool r pool r :=
  ⟨Finset.sdiff_disjoint, (Finset.sdiff_union_of_subset h).symm⟩

theorem drop : Exchanged pool r (pool \ r) ∅ :=
  ⟨Finset.disjoint_empty_right _, (Finset.union_empty _).symm⟩

theorem take (h : Disjoint pool r) : Exchanged pool ∅ (pool ∪ r) r := by
  refine ⟨?_, ?_⟩ <;> rw [Finset.sdiff_empty]
  exact h

theorem back (h : r ⊆ pool) : Exchanged (pool \ r) ∅ pool r := by
  have taken := take (Finset.sdiff_disjoint (s := r) (t := pool))
  rwa [Finset.sdiff_union_of_subset h] at taken

theorem inside (h : Exchanged pool r pool' r') : r' ⊆ pool' := by
  rw [h.eq]
  exact Finset.subset_union_right

theorem rest (h : Exchanged pool r pool' r') : pool' \ r' = pool \ r := by
  rw [h.eq, Finset.union_sdiff_cancel_right h.fresh]

theorem trans (h : Exchanged pool r pool' r') (g : Exchanged pool' r' pool'' r'') :
    Exchanged pool r pool'' r'' := by
  obtain ⟨fresh, eq⟩ := g
  rw [h.rest] at fresh eq
  exact ⟨fresh, eq⟩

/-- What the holder keeps beside. -/
theorem frame (h : Exchanged pool r pool' r') (inside : others ⊆ pool) (apart : Disjoint r others) :
    Exchanged pool (r ∪ others) pool' (r' ∪ others) ∧ Disjoint r' others := by
  have kept : others ⊆ pool \ r := Finset.subset_sdiff.mpr ⟨inside, apart.symm⟩
  have new : Disjoint r' others := (Finset.disjoint_of_subset_left kept h.fresh).symm
  have less : pool \ (r ∪ others) ⊆ pool \ r :=
    Finset.sdiff_subset_sdiff (Finset.Subset.refl _) Finset.subset_union_left
  refine ⟨⟨?_, ?_⟩, new⟩
  · refine Finset.disjoint_union_right.mpr ⟨Finset.disjoint_of_subset_left less h.fresh, ?_⟩
    exact Finset.disjoint_of_subset_left
      (Finset.sdiff_subset_sdiff (Finset.Subset.refl _) Finset.subset_union_right)
      Finset.sdiff_disjoint
  · rw [h.eq]
    have split : pool \ r = pool \ (r ∪ others) ∪ others := by
      have parts := Finset.sdiff_union_of_subset kept
      rwa [sdiff_sdiff_left, Finset.sup_eq_union, eq_comm] at parts
    rw [split, Finset.union_assoc, Finset.union_comm others]

end Exchanged

/-- The owners hold the resources of a pool, every resource by one owner, and nothing else. -/
structure Owned (pool : Finset ρ) (held : ι → Finset ρ) : Prop where
  inside : ∀ i, held i ⊆ pool
  apart : ∀ i j, i ≠ j → Disjoint (held i) (held j)
  covered : ∀ r ∈ pool, ∃ i, r ∈ held i

namespace Owned

variable {pool pool' s : Finset ρ} {held held' : ι → Finset ρ} {i j : ι}

theorem congr (h : Owned pool held) (same : ∀ k, held' k = held k) : Owned pool held' := by
  have eq : held' = held := funext same
  rwa [eq]

theorem empty (ι : Type) : Owned (∅ : Finset ρ) fun _ : ι => ∅ :=
  ⟨fun _ => Finset.Subset.refl _, fun _ _ _ => Finset.disjoint_empty_left _, by simp⟩

variable [DecidableEq ι] [DecidableEq ρ]

/-- One owner changes what it holds, and the pool by as much. -/
theorem exchange (h : Owned pool held) (change : Exchanged pool (held i) pool' s) :
    Owned pool' (Function.update held i s) := by
  obtain ⟨fresh, rfl⟩ := change
  have rest (k : ι) (ne : k ≠ i) : held k ⊆ pool \ held i :=
    Finset.subset_sdiff.mpr ⟨h.inside k, h.apart k i ne⟩
  refine ⟨fun k => ?_, fun k l ne => ?_, fun r hr => ?_⟩
  · by_cases hk : k = i
    · subst hk
      rw [Function.update_self]
      exact Finset.subset_union_right
    · rw [Function.update_of_ne hk]
      exact (rest k hk).trans Finset.subset_union_left
  · by_cases hk : k = i
    · subst hk
      rw [Function.update_self, Function.update_of_ne ne.symm]
      exact (Finset.disjoint_of_subset_left (rest l ne.symm) fresh).symm
    · rw [Function.update_of_ne hk]
      by_cases hl : l = i
      · subst hl
        rw [Function.update_self]
        exact Finset.disjoint_of_subset_left (rest k hk) fresh
      · rw [Function.update_of_ne hl]
        exact h.apart k l ne
  · rcases Finset.mem_union.mp hr with old | new
    · obtain ⟨mem, notHeld⟩ := Finset.mem_sdiff.mp old
      obtain ⟨k, hk⟩ := h.covered r mem
      have ne : k ≠ i := by
        rintro rfl
        exact notHeld hk
      exact ⟨k, by rwa [Function.update_of_ne ne]⟩
    · exact ⟨i, by rwa [Function.update_self]⟩

/-- An owner hands all that it holds to another one. -/
theorem give (h : Owned pool held) (ne : i ≠ j) :
    Owned pool (Function.update (Function.update held i ∅) j (held i ∪ held j)) := by
  have given := h.exchange (.drop (r := held i))
  have kept : Function.update held i ∅ j = held j := Function.update_of_ne ne.symm _ _
  have rest : held j ⊆ pool \ held i := Finset.subset_sdiff.mpr ⟨h.inside j, h.apart j i ne.symm⟩
  have taken := (Exchanged.back (h.inside i)).frame rest (Finset.disjoint_empty_left _)
  rw [Finset.empty_union, ← kept] at taken
  exact given.exchange (kept ▸ taken.1)

/-- An owner hands all that it holds to one that holds nothing. -/
theorem transfer (h : Owned pool held) (ne : i ≠ j) (free : held j = ∅) :
    Owned pool (Function.update (Function.update held i ∅) j (held i)) := by
  have given := h.give ne
  rwa [free, Finset.union_empty] at given

end Owned

section Trades

variable {σ ε α β : Type} [DecidableEq ρ]

/-- How the resources in the states of a system are counted: what is there, which errors must not
be thrown, and what any holder may rely on of the part of the pool that others hold. -/
structure Account (σ ε ρ : Type) where
  pool : σ → Finset ρ
  bad : ε → Prop
  rest : Finset ρ → Prop

variable {acc : Account σ ε ρ}

/-- Code run by a holder of `r`. However it ends, the holder has traded `r` for what `ok` or `err`
says, the rest of the pool is untouched, and no bad error is thrown. -/
def Trades (acc : Account σ ε ρ) (r : Finset ρ) (m : Effect σ ε α) (ok : α → Finset ρ → Prop)
    (err : Finset ρ → Prop) : Prop :=
  ∀ s, r ⊆ acc.pool s → acc.rest (acc.pool s \ r) →
    ∃ r', Exchanged (acc.pool s) r (acc.pool (m s).2) r' ∧
    match (m s).1 with
    | .ok a => ok a r'
    | .error e => ¬ acc.bad e ∧ err r'

namespace Trades

variable {r others : Finset ρ} {m : Effect σ ε α} {ok ok' : α → Finset ρ → Prop}
  {err err' : Finset ρ → Prop}

theorem pure {a : α} (h : ok a r) : Trades acc r (pure a) ok err := fun _ inside _ =>
  ⟨r, .refl inside, h⟩

theorem raise {e : ε} (fine : ¬ acc.bad e) (h : err r) :
    Trades acc r (Effect.raise e : Effect σ ε α) ok err :=
  fun _ inside _ => ⟨r, .refl inside, fine, h⟩

theorem bind {f : α → Effect σ ε β} {next : β → Finset ρ → Prop} {after : Finset ρ → Prop}
    (first : Trades acc r m ok err) (then' : ∀ a r', ok a r' → Trades acc r' (f a) next after)
    (fail : ∀ r', err r' → after r') : Trades acc r (m >>= f) next after := by
  intro s inside clean
  obtain ⟨r', change, result⟩ := first s inside clean
  rcases hm : m s with ⟨o, t⟩
  rw [hm] at change result
  cases o with
  | error e =>
    rw [Effect.bind_of_error hm]
    exact ⟨r', change, result.1, fail r' result.2⟩
  | ok a =>
    rw [Effect.bind_of_ok hm]
    obtain ⟨r'', later, last⟩ := then' a r' result t change.inside (by rwa [change.rest])
    exact ⟨r'', change.trans later, last⟩

theorem weaken (h : Trades acc r m ok err) (hok : ∀ a r', ok a r' → ok' a r')
    (herr : ∀ r', err r' → err' r') : Trades acc r m ok' err' := by
  intro s inside clean
  obtain ⟨r', change, result⟩ := h s inside clean
  refine ⟨r', change, ?_⟩
  cases hm : (m s).1 with
  | ok a =>
    rw [hm] at result
    exact hok a r' result
  | error e =>
    rw [hm] at result
    exact ⟨result.1, herr r' result.2⟩

/-- What the holder has beside is still there, apart from what the code holds. -/
theorem frame (h : Trades acc r m ok err) (apart : Disjoint r others)
    (grow : ∀ x, acc.rest x → acc.rest (x ∪ others)) :
    Trades acc (r ∪ others) m (fun a r' => ∃ own, r' = own ∪ others ∧ Disjoint own others ∧ ok a own)
      fun r' => ∃ own, r' = own ∪ others ∧ Disjoint own others ∧ err own := by
  intro s inside clean
  obtain ⟨mine, beside⟩ := Finset.union_subset_iff.mp inside
  have outside : acc.pool s \ (r ∪ others) ∪ others = acc.pool s \ r := by
    have kept : others ⊆ acc.pool s \ r := Finset.subset_sdiff.mpr ⟨beside, apart.symm⟩
    have parts := Finset.sdiff_union_of_subset kept
    rwa [sdiff_sdiff_left, Finset.sup_eq_union] at parts
  obtain ⟨own, change, result⟩ := h s mine (outside ▸ grow _ clean)
  obtain ⟨framed, disjoint⟩ := change.frame beside apart
  refine ⟨own ∪ others, framed, ?_⟩
  cases hm : (m s).1 with
  | ok a =>
    rw [hm] at result
    exact ⟨own, rfl, disjoint, result⟩
  | error e =>
    rw [hm] at result
    exact ⟨result.1, own, rfl, disjoint, result.2⟩

/-- The first part of some code works on one part of what the holder has. -/
theorem bind_frame {f : α → Effect σ ε β} {next : β → Finset ρ → Prop} {after : Finset ρ → Prop}
    (first : Trades acc r m ok err) (apart : Disjoint r others)
    (grow : ∀ x, acc.rest x → acc.rest (x ∪ others))
    (then' : ∀ a own, ok a own → Disjoint own others → Trades acc (own ∪ others) (f a) next after)
    (fail : ∀ own, err own → Disjoint own others → after (own ∪ others)) :
    Trades acc (r ∪ others) (m >>= f) next after := by
  refine (first.frame apart grow).bind ?_ ?_
  · rintro a _ ⟨own, rfl, disjoint, result⟩
    exact then' a own result disjoint
  · rintro _ ⟨own, rfl, disjoint, result⟩
    exact fail own result disjoint

/-- The first part of some code needs nothing. -/
theorem bind_beside {f : α → Effect σ ε β} {next : β → Finset ρ → Prop} {after : Finset ρ → Prop}
    (first : Trades acc ∅ m ok err) (grow : ∀ x, acc.rest x → acc.rest (x ∪ others))
    (then' : ∀ a own, ok a own → Disjoint own others → Trades acc (own ∪ others) (f a) next after)
    (fail : ∀ own, err own → Disjoint own others → after (own ∪ others)) :
    Trades acc others (m >>= f) next after := by
  have all := first.bind_frame (Finset.disjoint_empty_left others) grow then' fail
  rwa [Finset.empty_union] at all

theorem attempt (h : Trades acc r m ok err) (never : Finset ρ → Prop) :
    Trades acc r m.attempt
      (fun a r' => match a with | .ok a => ok a r' | .error e => ¬ acc.bad e ∧ err r') never := by
  intro s inside clean
  obtain ⟨r', change, result⟩ := h s inside clean
  exact ⟨r', change, result⟩

end Trades

/-- Code run by one of the owners. -/
theorem Owned.trade [DecidableEq ι] {held : ι → Finset ρ} {s : σ} {i : ι} {m : Effect σ ε α}
    {ok : α → Finset ρ → Prop} {err : Finset ρ → Prop} (h : Owned (acc.pool s) held)
    (clean : acc.rest (acc.pool s \ held i)) (code : Trades acc (held i) m ok err) :
    ∃ r, Exchanged (acc.pool s) (held i) (acc.pool (m s).2) r ∧
      Owned (acc.pool (m s).2) (Function.update held i r) ∧
      match (m s).1 with
      | .ok a => ok a r
      | .error e => ¬ acc.bad e ∧ err r := by
  obtain ⟨r, change, result⟩ := code s (h.inside i) clean
  exact ⟨r, change, h.exchange change, result⟩

end Trades

end FsCore
