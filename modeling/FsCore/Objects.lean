import FsCore.Ownership

namespace FsCore

/-- The objects of a program, by name, over the system that they have their resources from. -/
structure Scope (ι σ α : Type) where
  system : σ
  objects : ι → Option α

variable {ι ρ σ ε α : Type}

namespace Scope

section Steps

variable [DecidableEq ι]

def put (i : ι) (o : Option α) (s : σ) (w : Scope ι σ α) : Scope ι σ α :=
  ⟨s, Function.update w.objects i o⟩

/-- A constructor: the object is there when it returns. Where there is an object already, no
constructor runs. -/
def construct (i : ι) (m : Effect σ ε α) : Effect (Scope ι σ α) ε Unit := fun w =>
  match w.objects i with
  | some _ => (.ok (), w)
  | none =>
    match m w.system with
    | (.ok a, s) => (.ok (), w.put i (some a) s)
    | (.error e, s) => (.error e, { w with system := s })

/-- A call on an object. It says what becomes of the object, and what is thrown, if anything. -/
def call (i : ι) (f : α → Effect σ ε (Option α × Option ε)) : Effect (Scope ι σ α) ε Unit := fun w =>
  match w.objects i with
  | none => (.ok (), w)
  | some a =>
    match f a w.system with
    | (.ok (o, none), s) => (.ok (), w.put i o s)
    | (.ok (o, some e), s) => (.error e, w.put i o s)
    | (.error e, s) => (.error e, { w with system := s })

end Steps

/-- What is thrown is caught, and the program goes on. -/
def run (steps : List (Effect (Scope ι σ α) ε Unit)) (w : Scope ι σ α) : Scope ι σ α :=
  steps.foldl (fun w step => (step w).2) w

/-- What there is at a name and the resources it accounts for. -/
def Part (Holds : α → Finset ρ → Prop) : Option α → Finset ρ → Prop
  | none, r => r = ∅
  | some a, r => Holds a r

/-- The objects account for the whole pool but what is lost, each for its own part. -/
def Sound (acc : Account σ ε ρ) (Holds : α → Finset ρ → Prop) (lost : Finset ρ)
    (w : Scope ι σ α) : Prop :=
  ∃ held : ι → Finset ρ, Owned (acc.pool w.system) (fun o : Option ι => o.elim lost held) ∧
    ∀ i, Part Holds (w.objects i) (held i)

/-- What all the other parts and the lost resources let a holder rely on. -/
def Clean (acc : Account σ ε ρ) (Holds : α → Finset ρ → Prop) (lost : Finset ρ) : Prop :=
  ∀ x, (∀ y ∈ x, y ∈ lost ∨ ∃ a r, Holds a r ∧ y ∈ r ∧ r ⊆ x) → acc.rest x

/-- A step that keeps the account, loses nothing and throws no bad error. -/
def Safe (acc : Account σ ε ρ) (Holds : α → Finset ρ → Prop) (lost : Finset ρ)
    (step : Effect (Scope ι σ α) ε Unit) : Prop :=
  ∀ w, Sound acc Holds lost w → Sound acc Holds lost (step w).2 ∧
    ∀ e, (step w).1 = .error e → ¬ acc.bad e

variable {acc : Account σ ε ρ} {Holds : α → Finset ρ → Prop} {lost : Finset ρ}
  {w : Scope ι σ α} {i j : ι}

theorem run_sound (h : Sound acc Holds lost w) {steps : List (Effect (Scope ι σ α) ε Unit)}
    (safe : ∀ step ∈ steps, Safe acc Holds lost step) : Sound acc Holds lost (run steps w) := by
  induction steps generalizing w with
  | nil => exact h
  | cons step steps ih =>
    exact ih (safe step List.mem_cons_self w h).1 fun s hs => safe s (List.mem_cons_of_mem _ hs)

/-- Where the objects account for nothing, nothing is left in the pool but what is lost. -/
theorem Sound.pool_eq (h : Sound acc Holds lost w) (none : ∀ i r, Part Holds (w.objects i) r → r = ∅) :
    acc.pool w.system = lost := by
  obtain ⟨held, owned, parts⟩ := h
  refine Finset.Subset.antisymm (fun r hr => ?_) (owned.inside .none)
  obtain ⟨o, ho⟩ := owned.covered r hr
  cases o with
  | none => exact ho
  | some i =>
    have empty : held i = ∅ := none i _ (parts i)
    rw [Option.elim_some, empty] at ho
    exact absurd ho (Finset.notMem_empty r)

/-- The account of a program that has lost nothing. -/
theorem sound_iff : Sound acc Holds ∅ w ↔
    ∃ held : ι → Finset ρ, Owned (acc.pool w.system) held ∧ ∀ i, Part Holds (w.objects i) (held i) := by
  refine exists_congr fun held => and_congr_left fun _ => ⟨fun owned => ?_, fun owned => ?_⟩
  · refine ⟨fun i => owned.inside (some i), fun i j ne => ?_, fun r hr => ?_⟩
    · exact owned.apart (some i) (some j) (by simpa using ne)
    · obtain ⟨o, ho⟩ := owned.covered r hr
      cases o with
      | none => exact absurd ho (Finset.notMem_empty r)
      | some i => exact ⟨i, ho⟩
  · refine ⟨fun o => ?_, fun o k ne => ?_, fun r hr => ?_⟩
    · cases o with
      | none => exact Finset.empty_subset _
      | some i => exact owned.inside i
    · cases o with
      | none => exact Finset.disjoint_empty_left _
      | some i =>
        cases k with
        | none => exact Finset.disjoint_empty_right _
        | some j => exact owned.apart i j (by simpa using ne)
    · obtain ⟨i, hi⟩ := owned.covered r hr
      exact ⟨some i, hi⟩

theorem sound_start {s : σ} (nothing : acc.pool s = ∅) :
    Sound acc Holds ∅ (⟨s, fun _ => none⟩ : Scope ι σ α) :=
  sound_iff.mpr ⟨fun _ => ∅, nothing ▸ Owned.empty ι, fun _ => rfl⟩

variable [DecidableEq ι]

theorem part_put {held : ι → Finset ρ} (parts : ∀ i, Part Holds (w.objects i) (held i)) {o : Option α}
    {r : Finset ρ} {s : σ} (part : Part Holds o r) :
    ∀ k, Part Holds ((w.put i o s).objects k) (Function.update held i r k) := by
  intro k
  by_cases same : k = i
  · subst same
    simpa [put] using part
  · simpa [put, Function.update_of_ne same] using parts k

theorem update_elim {held : ι → Finset ρ} {r : Finset ρ} (o : Option ι) :
    Option.elim o lost (Function.update held i r) =
      Function.update (fun o : Option ι => o.elim lost held) (some i) r o := by
  cases o with
  | none => simp
  | some k =>
    by_cases same : k = i
    · subst same
      simp
    · have other : some k ≠ some i := by simpa using same
      rw [Function.update_of_ne other, Option.elim_some, Option.elim_some, Function.update_of_ne same]

variable [DecidableEq ρ]

/-- Code run by the object of a name, or by a constructor where there is none. -/
theorem trade {held : ι → Finset ρ}
    (owned : Owned (acc.pool w.system) fun o : Option ι => o.elim lost held)
    (parts : ∀ i, Part Holds (w.objects i) (held i)) (clean : Clean acc Holds lost) {β : Type}
    {m : Effect σ ε β} {ok : β → Finset ρ → Prop} {err : Finset ρ → Prop} (i : ι)
    (code : Trades acc (held i) m ok err) :
    ∃ r, Exchanged (acc.pool w.system) (held i) (acc.pool (m w.system).2) r ∧
      Owned (acc.pool (m w.system).2) (fun o : Option ι => o.elim lost (Function.update held i r)) ∧
      match (m w.system).1 with
      | .ok a => ok a r
      | .error e => ¬ acc.bad e ∧ err r := by
  have rest : acc.rest (acc.pool w.system \ held i) := by
    refine clean _ fun y hy => ?_
    obtain ⟨mem, notMine⟩ := Finset.mem_sdiff.mp hy
    obtain ⟨o, ho⟩ := owned.covered y mem
    cases o with
    | none => exact .inl ho
    | some k =>
      have ne : k ≠ i := by
        rintro rfl
        exact notMine ho
      have part := parts k
      cases there : w.objects k with
      | none =>
        rw [there] at part
        have empty : held k = ∅ := part
        rw [Option.elim_some, empty] at ho
        exact absurd ho (Finset.notMem_empty y)
      | some a =>
        rw [there] at part
        refine .inr ⟨a, held k, part, ho, Finset.subset_sdiff.mpr ⟨owned.inside (some k), ?_⟩⟩
        exact owned.apart (some k) (some i) (by simpa using ne)
  obtain ⟨r, change, next, result⟩ := Owned.trade (i := some i) owned rest code
  exact ⟨r, change, next.congr update_elim, result⟩

/-- What an object that never came to be had is lost. -/
theorem lose {held : ι → Finset ρ} {r : Finset ρ} {s : Finset ρ} (none' : held i = ∅)
    (owned : Owned s fun o : Option ι => o.elim lost (Function.update held i r)) :
    Owned s fun o : Option ι => o.elim (lost ∪ r) held := by
  have given := owned.give (i := some i) (j := none) (by simp)
  refine given.congr fun o => ?_
  cases o with
  | none => simp [Finset.union_comm]
  | some k =>
    by_cases same : k = i
    · subst same
      simp [none']
    · simp [same]

/-- A constructor that throws may lose what it had: then the program has no name for it. -/
theorem construct_sound {m : Effect σ ε α} {left : Finset ρ → Prop} (builds : Trades acc ∅ m Holds left)
    (clean : Clean acc Holds lost) (h : Sound acc Holds lost w) (i : ι) :
    ∃ leak, Sound acc Holds (lost ∪ leak) (construct i m w).2 ∧
      (∀ e, (construct i m w).1 = .error e → ¬ acc.bad e) ∧
      ((construct i m w).1 = .ok () → leak = ∅) ∧
      ∀ e, (construct i m w).1 = .error e → left leak ∧ Disjoint (acc.pool w.system) leak ∧
        acc.pool (construct i m w).2.system = acc.pool w.system ∪ leak := by
  obtain ⟨held, owned, parts⟩ := h
  unfold construct
  have here := parts i
  cases free : w.objects i with
  | some _ => exact ⟨∅, ⟨held, by rwa [Finset.union_empty], parts⟩, by simp, by simp, by simp⟩
  | none =>
    rw [free] at here
    have none' : held i = ∅ := here
    rw [← none'] at builds
    obtain ⟨r, change, next, result⟩ := trade owned parts clean i builds
    rcases hm : m w.system with ⟨a, s⟩
    rw [hm] at change next result
    cases a with
    | ok a =>
      exact ⟨∅, ⟨_, by rwa [Finset.union_empty],
        part_put parts result⟩, by simp, by simp, by simp⟩
    | error e =>
      obtain ⟨fine, leak⟩ := result
      refine ⟨r, ⟨held, lose none' next, parts⟩, ?_, by simp, ?_⟩
      · rintro _ ⟨⟩
        exact fine
      · rintro _ ⟨⟩
        have all : acc.pool w.system \ held i = acc.pool w.system := by rw [none', Finset.sdiff_empty]
        exact ⟨leak, all ▸ change.fresh, all ▸ change.eq⟩

theorem construct_safe {m : Effect σ ε α} (builds : Trades acc ∅ m Holds fun r => r = ∅)
    (clean : Clean acc Holds lost) (i : ι) : Safe acc Holds lost (construct i m) := by
  intro w h
  obtain ⟨leak, sound, fine, returned, left⟩ := construct_sound builds clean h i
  have none : leak = ∅ := by
    cases thrown : (construct i m w).1 with
    | error e => exact (left e thrown).1
    | ok u => exact returned thrown
  rw [none, Finset.union_empty] at sound
  exact ⟨sound, fine⟩

theorem call_safe {f : α → Effect σ ε (Option α × Option ε)}
    (code : ∀ a r, Holds a r →
      Trades acc r (f a) (fun a r' => Part Holds a.1 r' ∧ ∀ e ∈ a.2, ¬ acc.bad e)
      fun _ => False) (clean : Clean acc Holds lost) (i : ι) : Safe acc Holds lost (call i f) := by
  rintro w ⟨held, owned, parts⟩
  unfold call
  have here := parts i
  cases live : w.objects i with
  | none => exact ⟨⟨held, owned, parts⟩, by simp⟩
  | some a =>
    rw [live] at here
    obtain ⟨r, -, next, result⟩ := trade owned parts clean i (code a (held i) here)
    dsimp only
    rcases hm : f a w.system with ⟨a, s⟩
    rw [hm] at next result
    cases a with
    | error e => exact result.2.elim
    | ok a =>
      obtain ⟨o, thrown⟩ := a
      obtain ⟨part, fine⟩ := result
      have sound : Sound acc Holds lost (w.put i o s) := ⟨_, next, part_put parts part⟩
      cases thrown with
      | none => exact ⟨sound, by simp⟩
      | some e =>
        refine ⟨sound, ?_⟩
        rintro _ ⟨⟩
        exact fine e rfl

end Scope

end FsCore
