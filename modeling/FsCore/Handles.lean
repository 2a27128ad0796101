import FsCore.Objects

namespace FsCore

/-- What a process has from the system. -/
inductive Resource where
  | descriptor (fd : Nat)
  | mapping (addr size : Nat)
deriving DecidableEq

def Resource.isAt (addr : Nat) : Resource → Bool
  | .descriptor _ => false
  | .mapping a _ => a == addr

/-- A process as the system sees it, with the answers to its calls still to come; `none` is a call
that fails. -/
structure Process where
  pool : Finset Resource
  answers : List (Option Nat)
deriving DecidableEq

inductive HandleError where
  | filesystem (path : String)
  | mmap (what : String)
  /-- Something is given back that the process does not have. -/
  | misuse (r : Resource)
  /-- Behaviour that C++ leaves undefined: what a program does after it is not in the code. -/
  | undefined
deriving DecidableEq

abbrev ProcessM := Effect Process HandleError

def Process.answer (p : Process) : Option Nat × Process :=
  match p.answers with
  | [] => (none, p)
  | a :: rest => (a, { p with answers := rest })

def sysCall : ProcessM (Option Nat) := fun p => (.ok p.answer.1, p.answer.2)

/-- A descriptor that the system gives is not open. -/
def sysOpen : ProcessM (Option Nat) := do
  let a ← sysCall
  let p ← Effect.read
  match a with
  | none => pure none
  | some fd =>
    if .descriptor fd ∈ p.pool then
      pure none
    else do
      Effect.modify fun p => { p with pool := p.pool ∪ {.descriptor fd} }
      pure (some fd)

/-- An address that the system gives is not null, and nothing is mapped there. -/
def sysMmap (size : Nat) : ProcessM (Option Nat) := do
  let a ← sysCall
  let p ← Effect.read
  match a with
  | none => pure none
  | some addr =>
    if addr = 0 ∨ ∃ r ∈ p.pool, r.isAt addr = true then
      pure none
    else do
      Effect.modify fun p => { p with pool := p.pool ∪ {.mapping addr size} }
      pure (some addr)

/-- `::close` and `munmap`, of a resource that the process must have. -/
def giveBack (r : Resource) : ProcessM Unit := do
  let p ← Effect.read
  if r ∈ p.pool then
    Effect.modify fun p => { p with pool := p.pool \ {r} }
  else
    Effect.raise (.misuse r)

structure MMapHandle where
  fd : Int := -1
  addr : Nat := 0
  size : Nat := 0
deriving DecidableEq

namespace MMapHandle

/-- A moved-from, closed or new handle. -/
def closed : MMapHandle := {}

def throwMmapError {α : Type} (op : String) (path : String) : ProcessM α :=
  Effect.raise (.mmap (op ++ " failed path='" ++ path ++ "'"))

/-- `mmap_open_ro` and `mmap_open_rw`; the fields of the handle are set at the end only. -/
def mmapOpen (mode path : String) : ProcessM MMapHandle := do
  let fd ← sysOpen
  match fd with
  | none => throwMmapError ("open(" ++ mode ++ ")") path
  | some fd => do
    let st ← sysCall
    match st with
    | none | some 0 => do
      giveBack (.descriptor fd)
      throwMmapError ("fstat(" ++ mode ++ ")") path
    | some size => do
      let addr ← sysMmap size
      match addr with
      | none => do
        giveBack (.descriptor fd)
        throwMmapError ("mmap(" ++ mode ++ ")") path
      | some addr => pure ⟨fd, addr, size⟩

def mmapOpenRo : String → ProcessM MMapHandle := mmapOpen "ro"

def mmapOpenRw : String → ProcessM MMapHandle := mmapOpen "rw"

def mmapCreateRw (path : String) (size : Nat) : ProcessM MMapHandle :=
  if size = 0 then
    Effect.raise (.mmap ("mmap_create_rw failed path='" ++ path ++ "' size=0"))
  else do
    let fd ← sysOpen
    match fd with
    | none => throwMmapError "open(create_rw)" path
    | some fd => do
      let truncated ← sysCall
      match truncated with
      | none => do
        giveBack (.descriptor fd)
        throwMmapError "ftruncate(create_rw)" path
      | some _ => do
        let addr ← sysMmap size
        match addr with
        | none => do
          giveBack (.descriptor fd)
          throwMmapError "mmap(create_rw)" path
        | some addr => pure ⟨fd, addr, size⟩

def giveBackUnless (none : Prop) [Decidable none] (r : Resource) : ProcessM Unit :=
  if none then pure () else giveBack r

def mmapClose (h : MMapHandle) : ProcessM MMapHandle := do
  giveBackUnless (h.addr = 0) (.mapping h.addr h.size)
  giveBackUnless (h.fd < 0) (.descriptor h.fd.toNat)
  pure closed

/-- What an object of this kind has to give back. -/
def resources (h : MMapHandle) : Finset Resource :=
  (if h.addr = 0 then ∅ else {.mapping h.addr h.size}) ∪
    (if h.fd < 0 then ∅ else {.descriptor h.fd.toNat})

end MMapHandle

/-- The error that no caller may see. -/
def HandleError.IsMisuse (e : HandleError) : Prop := ∃ r, e = .misuse r

def handleAccount : Account Process HandleError Resource :=
  ⟨Process.pool, HandleError.IsMisuse, fun _ => True⟩

abbrev HandleTrades {α : Type} (r : Finset Resource) (m : ProcessM α) (ok : α → Finset Resource → Prop)
    (err : Finset Resource → Prop) : Prop :=
  Trades handleAccount r m ok err

section Calls

theorem mmap_not_misuse (what : String) : ¬ (HandleError.mmap what).IsMisuse := by
  rintro ⟨r, h⟩
  cases h

theorem undefined_not_misuse : ¬ HandleError.undefined.IsMisuse := by
  rintro ⟨r, h⟩
  cases h

theorem answer_pool (p : Process) : p.answer.2.pool = p.pool := by
  unfold Process.answer
  cases p.answers <;> rfl

theorem sysCall_trades : HandleTrades ∅ sysCall (fun _ r => r = ∅) fun _ => False := by
  intro p _ _
  refine ⟨∅, ?_, rfl⟩
  change Exchanged p.pool ∅ p.answer.2.pool ∅
  rw [answer_pool]
  exact .refl (Finset.empty_subset _)

/-- A resource that nobody has goes to the caller. -/
theorem take_trades {α : Type} {x : Resource} {a : α} {p : Process} (new : x ∉ p.pool) :
    ∃ q : Process, (Effect.modify (fun p => { p with pool := p.pool ∪ {x} }) >>=
      fun _ => pure a : ProcessM α) p =
      (.ok a, q) ∧ Exchanged p.pool ∅ q.pool {x} :=
  ⟨{ p with pool := p.pool ∪ {x} }, rfl, .take (Finset.disjoint_singleton_right.mpr new)⟩

theorem sysOpen_trades : HandleTrades ∅ sysOpen
    (fun fd r => r = match fd with | none => ∅ | some fd => {.descriptor fd}) fun _ => False := by
  refine Trades.bind sysCall_trades (fun a r hr => ?_) fun _ h => h
  subst hr
  intro p inside _
  rw [Effect.read_bind]
  cases a with
  | none => exact ⟨∅, .refl inside, rfl⟩
  | some fd =>
    by_cases known : Resource.descriptor fd ∈ p.pool
    · dsimp only
      rw [if_pos known]
      exact ⟨∅, .refl inside, rfl⟩
    · dsimp only
      rw [if_neg known]
      obtain ⟨q, run, change⟩ := take_trades (a := some fd) known
      rw [run]
      exact ⟨_, change, rfl⟩

theorem sysMmap_trades (size : Nat) : HandleTrades ∅ (sysMmap size)
    (fun addr r => match addr with | none => r = ∅ | some addr => addr ≠ 0 ∧ r = {.mapping addr size})
    fun _ => False := by
  refine Trades.bind sysCall_trades (fun a r hr => ?_) fun _ h => h
  subst hr
  intro p inside _
  rw [Effect.read_bind]
  cases a with
  | none => exact ⟨∅, .refl inside, rfl⟩
  | some addr =>
    by_cases taken : addr = 0 ∨ ∃ r ∈ p.pool, r.isAt addr = true
    · dsimp only
      rw [if_pos taken]
      exact ⟨∅, .refl inside, rfl⟩
    · dsimp only
      rw [if_neg taken]
      obtain ⟨null, free⟩ := not_or.mp taken
      have new : Resource.mapping addr size ∉ p.pool := fun h => free ⟨_, h, by simp [Resource.isAt]⟩
      obtain ⟨q, run, change⟩ := take_trades (a := some addr) new
      rw [run]
      exact ⟨_, change, null, rfl⟩

theorem giveBack_trades (x : Resource) :
    HandleTrades {x} (giveBack x) (fun _ r => r = ∅) fun _ => False := by
  intro p inside _
  have mem : x ∈ p.pool := inside (Finset.mem_singleton_self x)
  refine ⟨∅, ?_⟩
  rw [giveBack, Effect.read_bind, if_pos mem]
  exact ⟨.drop, rfl⟩

end Calls

namespace MMapHandle

/-- A new handle has its file open and mapped. -/
def Opened (h : MMapHandle) (r : Finset Resource) : Prop := 0 ≤ h.fd ∧ h.addr ≠ 0 ∧ r = h.resources

theorem opened {fd addr size : Nat} (null : addr ≠ 0) :
    Opened ⟨fd, addr, size⟩ ({.mapping addr size} ∪ {.descriptor fd}) := by
  have nonneg : ¬ (fd : Int) < 0 := by omega
  refine ⟨by simp, null, ?_⟩
  rw [resources, if_neg null, if_neg nonneg, Int.toNat_natCast]

theorem throw_trades {α : Type} {op path : String} {ok : α → Finset Resource → Prop} :
    HandleTrades ∅ (throwMmapError (α := α) op path) ok (fun r => r = ∅) :=
  Trades.raise (mmap_not_misuse _) rfl

/-- A failing step gives the descriptor back before it throws. -/
theorem giveUp_trades {fd : Nat} {op path : String} {ok : MMapHandle → Finset Resource → Prop} :
    HandleTrades {.descriptor fd} (giveBack (.descriptor fd) >>= fun _ => throwMmapError op path) ok
      (fun r => r = ∅) := by
  refine Trades.bind (giveBack_trades _) (fun _ r hr => ?_) fun _ h => h.elim
  subst hr
  exact throw_trades

/-- A mapping beside a descriptor, the last step of each way to open a file. -/
theorem map_trades {fd size : Nat} {op path : String} : HandleTrades {.descriptor fd}
    (sysMmap size >>= fun addr =>
      match addr with
      | none => giveBack (.descriptor fd) >>= fun _ => throwMmapError op path
      | some addr => pure ⟨fd, addr, size⟩)
    Opened fun r => r = ∅ := by
  refine Trades.bind_beside (sysMmap_trades size) (fun _ _ => trivial) (fun addr own got _ => ?_)
    fun _ h => h.elim
  cases addr with
  | none =>
    have none : own = ∅ := got
    rw [none, Finset.empty_union]
    exact giveUp_trades
  | some addr =>
    obtain ⟨null, rfl⟩ := got
    exact Trades.pure (opened null)

/-- The answer to a call between the two, with the descriptor open. -/
theorem call_trades {fd : Nat} {f : Option Nat → ProcessM MMapHandle}
    (h : ∀ a, HandleTrades {.descriptor fd} (f a) Opened fun r => r = ∅) :
    HandleTrades {.descriptor fd} (sysCall >>= f) Opened fun r => r = ∅ := by
  refine Trades.bind_beside sysCall_trades (fun _ _ => trivial) (fun a own none _ => ?_)
    fun _ h => h.elim
  rw [none, Finset.empty_union]
  exact h a

theorem open_trades {op path : String} {f : Nat → ProcessM MMapHandle}
    (h : ∀ fd, HandleTrades {.descriptor fd} (f fd) Opened fun r => r = ∅) :
    HandleTrades ∅ (sysOpen >>= fun fd =>
      match fd with
      | none => throwMmapError op path
      | some fd => f fd) Opened fun r => r = ∅ := by
  refine Trades.bind sysOpen_trades (fun fd r hr => ?_) fun _ h => h.elim
  cases fd with
  | none =>
    have none : r = ∅ := hr
    rw [none]
    exact throw_trades
  | some fd =>
    have one : r = {.descriptor fd} := hr
    rw [one]
    exact h fd

theorem mmapOpen_trades (mode path : String) :
    HandleTrades ∅ (mmapOpen mode path) Opened fun r => r = ∅ := by
  refine open_trades fun fd => call_trades fun st => ?_
  match st with
  | none => exact giveUp_trades
  | some 0 => exact giveUp_trades
  | some (n + 1) => exact map_trades

theorem mmapCreateRw_trades (path : String) (size : Nat) :
    HandleTrades ∅ (mmapCreateRw path size) Opened fun r => r = ∅ := by
  unfold mmapCreateRw
  split
  · exact Trades.raise (mmap_not_misuse _) rfl
  · refine open_trades fun fd => call_trades fun truncated => ?_
    cases truncated with
    | none => exact giveUp_trades
    | some _ => exact map_trades

theorem giveBackUnless_trades {c : Prop} [Decidable c] (x : Resource) :
    HandleTrades (if c then ∅ else {x}) (giveBackUnless c x) (fun _ r => r = ∅) fun _ => False := by
  unfold giveBackUnless
  split
  · exact Trades.pure rfl
  · exact giveBack_trades x

/-- Closing gives back all that the handle has, and never fails. -/
theorem mmapClose_trades (h : MMapHandle) : HandleTrades h.resources h.mmapClose
    (fun h' r => h' = closed ∧ r = ∅) fun _ => False := by
  have apart : Disjoint (if h.addr = 0 then (∅ : Finset Resource) else {.mapping h.addr h.size})
      (if h.fd < 0 then ∅ else {Resource.descriptor h.fd.toNat}) := by
    split <;> split <;> simp
  have mapping := @giveBackUnless_trades (h.addr = 0) _ (.mapping h.addr h.size)
  refine mapping.bind_frame apart (fun _ _ => trivial) (fun _ own none _ => ?_) fun _ h _ => h
  rw [none, Finset.empty_union]
  exact Trades.bind (giveBackUnless_trades _) (fun _ r hr => Trades.pure ⟨rfl, hr⟩) fun _ h => h

end MMapHandle

section Programs

variable {ι : Type} [DecidableEq ι]

/-- A process with its `MMapHandle` objects; no other code of the process opens a file. -/
abbrev HandleProgram (ι : Type) := Scope ι Process MMapHandle

/-- What a program can do with handles. -/
inductive HandleStep (ι : Type) where
  | openRo (i : ι) (path : String)
  | openRw (i : ι) (path : String)
  | createRw (i : ι) (path : String) (size : Nat)
  /-- A new object `j` from `std::move(i)`. -/
  | moveConstruct (i j : ι)
  /-- `j = std::move(i)` -/
  | moveAssign (i j : ι)
  | close (i : ι)
  | destroy (i : ι)

/-- `mmap_close` on an object, which is `after` from then on. -/
def closeTo (after : MMapHandle → Option MMapHandle) (h : MMapHandle) :
    ProcessM (Option MMapHandle × Option HandleError) := do
  let h' ← h.mmapClose
  pure (after h', none)

/-- The fields of `i` go to `j`, and those of `i` are as in a new object. -/
def giveFields (i j : ι) (w : HandleProgram ι) : HandleProgram ι :=
  (w.put i (some .closed) w.system).put j (w.objects i) w.system

def moveConstruct (i j : ι) : Effect (HandleProgram ι) HandleError Unit := fun w =>
  if (w.objects i).isSome ∧ w.objects j = none then (.ok (), giveFields i j w) else (.ok (), w)

/-- The assignment of a handle to itself is left out by the test on the addresses. -/
def moveAssign (i j : ι) : Effect (HandleProgram ι) HandleError Unit := fun w =>
  if (w.objects i).isSome ∧ (w.objects j).isSome ∧ i ≠ j then
    (Scope.call j (closeTo some) >>= fun _ => Effect.modify (giveFields i j)) w
  else (.ok (), w)

/-- One step; a step that the lifetimes of the objects exclude does nothing. -/
def HandleStep.run : HandleStep ι → Effect (HandleProgram ι) HandleError Unit
  | .openRo i path => Scope.construct i (MMapHandle.mmapOpenRo path)
  | .openRw i path => Scope.construct i (MMapHandle.mmapOpenRw path)
  | .createRw i path size => Scope.construct i (MMapHandle.mmapCreateRw path size)
  | .moveConstruct i j => FsCore.moveConstruct i j
  | .moveAssign i j => FsCore.moveAssign i j
  | .close i => Scope.call i (closeTo some)
  | .destroy i => Scope.call i (closeTo fun _ => none)

/-- A handle is open or closed, and never one half of each. -/
def MMapHandle.Holds (h : MMapHandle) (r : Finset Resource) : Prop := h.Opened r ∨ (h = closed ∧ r = ∅)

abbrev HandleProgram.Sound (w : HandleProgram ι) : Prop :=
  Scope.Sound handleAccount MMapHandle.Holds ∅ w

abbrev HandleProgram.Safe (step : Effect (HandleProgram ι) HandleError Unit) : Prop :=
  Scope.Safe handleAccount MMapHandle.Holds ∅ step

theorem closed_resources : MMapHandle.closed.resources = ∅ := by
  decide

theorem MMapHandle.Holds.eq {h : MMapHandle} {r : Finset Resource} (held : h.Holds r) :
    r = h.resources := by
  rcases held with ⟨-, -, eq⟩ | ⟨rfl, rfl⟩
  · exact eq
  · exact closed_resources.symm

theorem construct_handle_safe {i : ι} {m : ProcessM MMapHandle}
    (builds : HandleTrades ∅ m MMapHandle.Opened fun r => r = ∅) :
    HandleProgram.Safe (Scope.construct i m) :=
  Scope.construct_safe (builds.weaken (fun _ _ opened => .inl opened) fun _ h => h)
    (fun _ _ => trivial) i

theorem closeTo_safe {after : MMapHandle → Option MMapHandle}
    (empty : ∀ h ∈ after .closed, h = .closed) (i : ι) :
    HandleProgram.Safe (Scope.call i (closeTo after)) := by
  refine Scope.call_safe (fun h r held => ?_) (fun _ _ => trivial) i
  rw [held.eq]
  refine h.mmapClose_trades.bind (fun h' r' closed => Trades.pure ⟨?_, by simp⟩) fun _ h => h
  obtain ⟨rfl, rfl⟩ := closed
  cases live : after .closed with
  | none => rfl
  | some h' => exact .inr ⟨empty h' live, rfl⟩

theorem mmapClose_eq_closed {h h' : MMapHandle} {p q : Process} (run : h.mmapClose p = (.ok h', q)) :
    h' = .closed := by
  obtain ⟨_, _, _, rest⟩ := Effect.bind_eq_ok_iff.mp run
  obtain ⟨_, _, _, last⟩ := Effect.bind_eq_ok_iff.mp rest
  cases last
  rfl

/-- After a call of `mmap_close` that returns the object is closed. -/
theorem closeTo_closed {w t : HandleProgram ι} {j : ι} {u : Unit} (live : (w.objects j).isSome)
    (run : Scope.call j (closeTo some) w = (.ok u, t)) : t.objects j = some .closed := by
  obtain ⟨h, here⟩ := Option.isSome_iff_exists.mp live
  unfold Scope.call at run
  rw [here] at run
  dsimp only at run
  rcases hm : closeTo some h w.system with ⟨a, p⟩
  rw [hm] at run
  cases a with
  | error e => cases run
  | ok a =>
    obtain ⟨h', q, closing, last⟩ := Effect.bind_eq_ok_iff.mp hm
    cases last
    cases run
    simp [Scope.put, mmapClose_eq_closed closing]

/-- A move to an object that holds nothing, or to a new one. -/
theorem giveFields_sound {w : HandleProgram ι} (h : w.Sound) {i j : ι} (ne : i ≠ j)
    (free : ∀ h' ∈ w.objects j, h' = .closed) : (giveFields i j w).Sound := by
  obtain ⟨held, owned, parts⟩ := Scope.sound_iff.mp h
  have none : held j = ∅ := by
    have part := parts j
    cases here : w.objects j with
    | none =>
      rw [here] at part
      exact part
    | some h' =>
      rw [here] at part
      rw [MMapHandle.Holds.eq part, free h' here, closed_resources]
  refine Scope.sound_iff.mpr ⟨_, owned.transfer ne none, ?_⟩
  have left : ∀ k, Scope.Part MMapHandle.Holds ((w.put i (some .closed) w.system).objects k)
      (Function.update held i ∅ k) := Scope.part_put parts (.inr ⟨rfl, rfl⟩)
  exact Scope.part_put left (parts i)

theorem moveConstruct_safe (i j : ι) : HandleProgram.Safe (moveConstruct i j) := by
  intro w h
  unfold moveConstruct
  split
  next live =>
    have ne : i ≠ j := by
      rintro rfl
      simp [live.2] at live
    exact ⟨giveFields_sound h ne (by simp [live.2]), by simp⟩
  next => exact ⟨h, by simp⟩

theorem moveAssign_safe (i j : ι) : HandleProgram.Safe (moveAssign i j) := by
  intro w h
  unfold moveAssign
  split
  next live =>
    obtain ⟨-, target, ne⟩ := live
    obtain ⟨sound, fine⟩ := @closeTo_safe ι _ some (by rintro _ ⟨⟩; rfl) j w h
    rcases hm : Scope.call j (closeTo some) w with ⟨a, t⟩
    rw [hm] at sound fine
    cases a with
    | error e =>
      rw [Effect.bind_of_error hm]
      exact ⟨sound, fine⟩
    | ok u =>
      rw [Effect.bind_of_ok hm]
      exact ⟨giveFields_sound sound ne (by simp [closeTo_closed target hm]), by simp⟩
  next => exact ⟨h, by simp⟩

theorem step_safe (step : HandleStep ι) : HandleProgram.Safe step.run := by
  cases step with
  | openRo i path => exact construct_handle_safe (MMapHandle.mmapOpen_trades "ro" path)
  | openRw i path => exact construct_handle_safe (MMapHandle.mmapOpen_trades "rw" path)
  | createRw i path size => exact construct_handle_safe (MMapHandle.mmapCreateRw_trades path size)
  | moveConstruct i j => exact moveConstruct_safe i j
  | moveAssign i j => exact moveAssign_safe i j
  | close i => exact closeTo_safe (by rintro _ ⟨⟩; rfl) i
  | destroy i => exact closeTo_safe (by simp) i

/-- A program that has opened nothing yet. -/
def HandleProgram.start (answers : List (Option Nat)) : HandleProgram ι := ⟨⟨∅, answers⟩, fun _ => none⟩

/-- What the handle of a name, if there is one, has to give back. -/
def HandleProgram.held (w : HandleProgram ι) (i : ι) : Finset Resource :=
  (w.objects i).elim ∅ MMapHandle.resources

/-- Whatever a program does with handles, in whatever order, and whatever the system answers: every
descriptor and every mapping of the process is held by one handle and the handles hold nothing
else, an open handle has both, nothing is given back that the process does not have, and once every
handle is closed or destroyed nothing is open. -/
theorem handles_own_everything (answers : List (Option Nat)) (steps : List (HandleStep ι)) :
    let w := Scope.run (steps.map HandleStep.run) (HandleProgram.start answers)
    Owned w.system.pool (HandleProgram.held w) ∧
      (∀ i, ∀ h ∈ w.objects i, h = .closed ∨ (0 ≤ h.fd ∧ h.addr ≠ 0)) ∧
      (∀ (step : HandleStep ι) (r : Resource), (step.run w).1 ≠ .error (.misuse r)) ∧
      ((∀ i, ∀ h ∈ w.objects i, h = .closed) → w.system.pool = ∅) := by
  intro w
  have start : HandleProgram.Sound (HandleProgram.start (ι := ι) answers) := Scope.sound_start rfl
  have sound : HandleProgram.Sound w := Scope.run_sound start fun step hs => by
    obtain ⟨s, -, rfl⟩ := List.mem_map.mp hs
    exact step_safe s
  refine ⟨?_, fun i h hh => ?_, fun step r => ?_, fun closed => ?_⟩
  · obtain ⟨held, owned, parts⟩ := Scope.sound_iff.mp sound
    refine owned.congr fun i => ?_
    have part := parts i
    cases here : w.objects i with
    | none =>
      rw [here] at part
      simpa [HandleProgram.held, here] using part.symm
    | some h =>
      rw [here] at part
      rw [HandleProgram.held, here, MMapHandle.Holds.eq part, Option.elim_some]
  · obtain ⟨held, -, parts⟩ := sound
    have part := parts i
    rw [Option.mem_def.mp hh] at part
    rcases part with ⟨fd, addr, -⟩ | ⟨rfl, -⟩
    · exact .inr ⟨fd, addr⟩
    · exact .inl rfl
  · intro thrown
    exact (step_safe step w sound).2 _ thrown ⟨r, rfl⟩
  · refine sound.pool_eq fun i r part => ?_
    cases here : w.objects i with
    | none =>
      rw [here] at part
      exact part
    | some h =>
      rw [here] at part
      rw [MMapHandle.Holds.eq part, closed i h here, closed_resources]

end Programs

end FsCore
