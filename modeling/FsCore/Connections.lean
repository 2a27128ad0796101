import FsCore.Objects

namespace FsCore

/-- What SQLite gives a process. A statement belongs to its connection. -/
inductive SqliteResource where
  | connection (db : Nat)
  | statement (db stmt : Nat)
deriving DecidableEq

/-- The return code of a call and the pointer that it sets. -/
structure SqliteAnswer where
  rc : Nat
  handle : Option Nat
deriving DecidableEq

/-- SQLite in a process, with its answers to the calls still to come. -/
structure SqliteLibrary where
  pool : Finset SqliteResource
  answers : List SqliteAnswer
deriving DecidableEq

inductive SqliteError where
  | sqlite (rc : Nat) (what : String)
  | invalidArgument (what : String)
  | runtime (what : String)
  /-- A connection or a statement is used that is not there. -/
  | misuse (r : SqliteResource)
deriving DecidableEq

abbrev SqliteM := Effect SqliteLibrary SqliteError

def sqliteNoMem : Nat := 7

def sqliteBusy : Nat := 5

def SqliteLibrary.answer (s : SqliteLibrary) : SqliteAnswer × SqliteLibrary :=
  match s.answers with
  | [] => (⟨sqliteNoMem, none⟩, s)
  | a :: rest => (a, { s with answers := rest })

def sqliteCall : SqliteM SqliteAnswer := fun s => (.ok s.answer.1, s.answer.2)

/-- The code of a call that has nothing to give. -/
def SqliteAnswer.failure (a : SqliteAnswer) : Nat := if a.rc = 0 then sqliteNoMem else a.rc

def need (r : SqliteResource) : SqliteM Unit := do
  let s ← Effect.read
  if r ∈ s.pool then pure () else Effect.raise (.misuse r)

/-- `sqlite3_open` gives a connection also when it fails, unless there is no memory for one. -/
def sqliteOpen : SqliteM (Nat × Option Nat) := do
  let a ← sqliteCall
  let s ← Effect.read
  match a.handle with
  | none => pure (a.failure, none)
  | some db =>
    if .connection db ∈ s.pool then
      pure (a.failure, none)
    else do
      Effect.modify fun s => { s with pool := s.pool ∪ {.connection db} }
      pure (a.rc, some db)

def sqliteExec (db : Nat) : SqliteM Nat := do
  need (.connection db)
  let a ← sqliteCall
  pure a.rc

/-- `sqlite3_prepare_v2` sets the pointer to null when it fails. -/
def sqlitePrepare (db : Nat) : SqliteM (Nat × Option Nat) := do
  need (.connection db)
  let a ← sqliteCall
  let s ← Effect.read
  match a.handle with
  | none => pure (a.failure, none)
  | some stmt =>
    if a.rc ≠ 0 ∨ .statement db stmt ∈ s.pool then
      pure (a.failure, none)
    else do
      Effect.modify fun s => { s with pool := s.pool ∪ {.statement db stmt} }
      pure (0, some stmt)

/-- A bind, step, reset or column call. -/
def sqliteUse (db stmt : Nat) : SqliteM Nat := do
  need (.statement db stmt)
  let a ← sqliteCall
  pure a.rc

/-- The statement is gone whatever the code says. -/
def sqliteFinalize (db stmt : Nat) : SqliteM Nat := do
  need (.statement db stmt)
  Effect.modify fun s => { s with pool := s.pool \ {.statement db stmt} }
  let a ← sqliteCall
  pure a.rc

def SqliteResource.isStatementOf (db : Nat) : SqliteResource → Bool
  | .connection _ => false
  | .statement d _ => d == db

/-- A connection with statements stays open. -/
def sqliteClose (db : Nat) : SqliteM Nat := do
  need (.connection db)
  let s ← Effect.read
  if ∃ r ∈ s.pool, r.isStatementOf db = true then
    pure sqliteBusy
  else do
    Effect.modify fun s => { s with pool := s.pool \ {.connection db} }
    pure 0

structure Connection where
  db : Option Nat
deriving DecidableEq

namespace Connection

def get (c : Connection) : SqliteM Nat :=
  match c.db with
  | none => Effect.raise (.runtime "sqlite connection is not open")
  | some db => pure db

/-- What is thrown, if anything. -/
def execEach (c : Connection) : List String → SqliteM (Option SqliteError)
  | [] => pure none
  | _ :: rest => do
    let db ← c.get
    let rc ← sqliteExec db
    if rc = 0 then execEach c rest else pure (some (.sqlite rc "sqlite3_exec"))

def pragmas : List String :=
  ["PRAGMA journal_mode=WAL;", "PRAGMA synchronous=NORMAL;", "PRAGMA temp_store=MEMORY;"]

/-- `Connection::open`: what the object is afterwards, and what is thrown, if anything. -/
def open' (c : Connection) (filename : String) : SqliteM (Connection × Option SqliteError) :=
  if filename = "" then
    pure (c, some (.invalidArgument "sqlite filename is empty"))
  else if c.db.isSome then
    pure (c, none)
  else do
    let opened ← sqliteOpen
    if opened.1 = 0 then do
      let thrown ← execEach ⟨opened.2⟩ pragmas
      pure (⟨opened.2⟩, thrown)
    else
      pure (⟨opened.2⟩, some (.sqlite opened.1 "sqlite3_open"))

/-- The constructor. An object whose constructor throws has no destructor run. -/
def new (filename : String) : SqliteM Connection := do
  let made ← open' ⟨none⟩ filename
  match made.2 with
  | none => pure made.1
  | some e => Effect.raise e

/-- The destructor, which forgets the pointer whatever `sqlite3_close` says. -/
def closeNoexcept (c : Connection) : SqliteM Unit :=
  match c.db with
  | none => pure ()
  | some db => do
    let _ ← sqliteClose db
    pure ()

end Connection

/-- A statement with the connection that it was prepared on, or none. -/
structure Statement where
  stmt : Option (Nat × Nat)
deriving DecidableEq

namespace Statement

/-- `Statement(conn, sql)` and `prepare` on a statement that is not prepared. -/
def new (c : Connection) : SqliteM Statement := do
  let db ← c.get
  let prepared ← sqlitePrepare db
  match prepared.2 with
  | none => Effect.raise (.sqlite prepared.1 "sqlite3_prepare_v2")
  | some stmt => pure ⟨some (db, stmt)⟩

def finalizeNoexcept (t : Statement) : SqliteM Unit :=
  match t.stmt with
  | none => pure ()
  | some (db, stmt) => do
    let _ ← sqliteFinalize db stmt
    pure ()

/-- Some calls on a statement; the first one that fails throws. -/
def use (t : Statement) : Nat → SqliteM (Option SqliteError)
  | 0 => pure none
  | n + 1 =>
    match t.stmt with
    | none => pure (some (.runtime "sqlite statement is not prepared"))
    | some (db, stmt) => do
      let rc ← sqliteUse db stmt
      if rc = 0 then use t n else pure (some (.sqlite rc "sqlite3 statement"))

def finalizeAll : List Statement → SqliteM Unit
  | [] => pure ()
  | t :: rest => do
    t.finalizeNoexcept
    finalizeAll rest

end Statement

/-- The connection and the statements that are members of a database object, in the order in which
they are destroyed; the connection comes last. -/
structure Database where
  db : Connection
  statements : List Statement

namespace Database

def destroy (d : Database) : SqliteM Unit := do
  Statement.finalizeAll d.statements
  d.db.closeNoexcept

/-- An error in the body of a constructor destroys the members that there are. -/
def giveUp {α : Type} (d : Database) (e : SqliteError) : SqliteM α := do
  d.destroy
  Effect.raise e

/-- One member after the other, each of them destroyed before the earlier ones. -/
def prepareMembers (d : Database) : List String → SqliteM Database
  | [] => pure d
  | _ :: rest => do
    let t ← (Statement.new d.db).attempt
    match t with
    | .ok t => prepareMembers { d with statements := t :: d.statements } rest
    | .error e => d.giveUp e

/-- The body of a constructor, which sets up the schema and prepares the members. -/
def setUp (db : Connection) (schema : String) (members : List String) (unprepared : List Statement) :
    SqliteM Database := do
  let thrown ← db.execEach [schema]
  match thrown with
  | none => prepareMembers ⟨db, unprepared⟩ members
  | some e => giveUp ⟨db, unprepared⟩ e

def new (filename schema : String) (members : List String) (unprepared : List Statement) :
    SqliteM Database := do
  let db ← Connection.new filename
  setUp db schema members unprepared

/-- What the object is after a call, and what is thrown, if anything. -/
abbrev CallM := SqliteM (Option Database × Option SqliteError)

/-- `begin_transaction` and `commit_transaction` -/
def exec (d : Database) (sql : String) : CallM := do
  let thrown ← d.db.execEach [sql]
  pure (some d, thrown)

/-- Calls on members, each with its number of calls. -/
def useMembers (d : Database) : List (Nat × Nat) → CallM
  | [] => pure (some d, none)
  | (member, n) :: rest => do
    let thrown ← (d.statements.getD member ⟨none⟩).use n
    match thrown with
    | none => useMembers d rest
    | some e => pure (some d, some e)

/-- A function with a statement of its own, which is finalized when the function is left. -/
def withLocal (d : Database) (n : Nat) : CallM := do
  let t ← (Statement.new d.db).attempt
  match t with
  | .error e => pure (some d, some e)
  | .ok t => do
    let thrown ← t.use n
    t.finalizeNoexcept
    pure (some d, thrown)

/-- Prepares the member of a database with one statement, unless it is prepared. -/
def prepareLazily (d : Database) : CallM :=
  match d.statements with
  | [⟨none⟩] => do
    let made ← (Statement.new d.db).attempt
    match made with
    | .ok t => pure (some { d with statements := [t] }, none)
    | .error e => pure (some d, some e)
  | _ => pure (some d, none)

end Database

section Trades

/-- A statement is only there beside its connection. -/
def Linked (x : Finset SqliteResource) : Prop := ∀ db stmt, .statement db stmt ∈ x → .connection db ∈ x

def SqliteError.IsMisuse (e : SqliteError) : Prop := ∃ r, e = .misuse r

def sqliteAccount : Account SqliteLibrary SqliteError SqliteResource :=
  ⟨SqliteLibrary.pool, SqliteError.IsMisuse, Linked⟩

abbrev SqliteTrades {α : Type} (r : Finset SqliteResource) (m : SqliteM α)
    (ok : α → Finset SqliteResource → Prop) (err : Finset SqliteResource → Prop) : Prop :=
  Trades sqliteAccount r m ok err

variable {r : Finset SqliteResource} {db stmt : Nat}

theorem sqliteCall_trades (r : Finset SqliteResource) :
    SqliteTrades r sqliteCall (fun _ r' => r' = r) fun _ => False := by
  intro s inside _
  refine ⟨r, ?_, rfl⟩
  have same : s.answer.2.pool = s.pool := by
    unfold SqliteLibrary.answer
    cases s.answers <;> rfl
  change Exchanged s.pool r s.answer.2.pool r
  rw [same]
  exact .refl inside

/-- What is needed is there. -/
theorem need_bind {α : Type} {x : SqliteResource} (h : x ∈ r) {f : Unit → SqliteM α}
    {ok : α → Finset SqliteResource → Prop} {err : Finset SqliteResource → Prop}
    (next : SqliteTrades r (f ()) ok err) : SqliteTrades r (need x >>= f) ok err := by
  have found : SqliteTrades r (need x) (fun _ r' => r' = r) fun _ => False := by
    intro s inside _
    have mem : x ∈ s.pool := inside h
    rw [need, Effect.read_bind, if_pos mem]
    exact ⟨r, .refl inside, rfl⟩
  refine found.bind (fun _ r' same => ?_) fun _ h => h.elim
  rw [same]
  exact next

/-- A resource that nobody has goes to the caller. -/
theorem Exchanged.add {s : SqliteLibrary} (inside : r ⊆ s.pool) {x : SqliteResource}
    (new : x ∉ s.pool) : Exchanged s.pool r (s.pool ∪ {x}) (r ∪ {x}) := by
  have taken := Exchanged.take (Finset.disjoint_singleton_right.mpr new)
  have framed := (taken.frame inside (Finset.disjoint_empty_left r)).1
  rwa [Finset.empty_union, Finset.union_comm {x}] at framed

theorem sqliteOpen_trades (r : Finset SqliteResource) : SqliteTrades r sqliteOpen
    (fun a r' =>
      match a.2 with
      | none => a.1 ≠ 0 ∧ r' = r
      | some db => .connection db ∉ r ∧ r' = r ∪ {.connection db})
    fun _ => False := by
  refine Trades.bind (sqliteCall_trades r) (fun a r' same => ?_) fun _ h => h.elim
  subst same
  intro s inside _
  rw [Effect.read_bind]
  have failed : a.failure ≠ 0 := by
    unfold SqliteAnswer.failure sqliteNoMem
    split <;> omega
  cases a.handle with
  | none => exact ⟨r', .refl inside, failed, rfl⟩
  | some db =>
    by_cases known : SqliteResource.connection db ∈ s.pool
    · dsimp only
      rw [if_pos known]
      exact ⟨r', .refl inside, failed, rfl⟩
    · dsimp only
      rw [if_neg known]
      exact ⟨_, .add inside known, fun h => known (inside h), rfl⟩

theorem sqliteExec_trades (h : .connection db ∈ r) :
    SqliteTrades r (sqliteExec db) (fun _ r' => r' = r) fun _ => False :=
  need_bind h ((sqliteCall_trades r).bind (fun _ _ same => Trades.pure same) fun _ h => h)

theorem sqlitePrepare_trades (h : .connection db ∈ r) : SqliteTrades r (sqlitePrepare db)
    (fun a r' => match a.2 with
      | none => r' = r
      | some stmt => .statement db stmt ∉ r ∧ r' = r ∪ {.statement db stmt}) fun _ => False := by
  refine need_bind h (Trades.bind (sqliteCall_trades r) (fun a r' same => ?_) fun _ h => h.elim)
  subst same
  intro s inside _
  rw [Effect.read_bind]
  cases a.handle with
  | none => exact ⟨r', .refl inside, rfl⟩
  | some stmt =>
    by_cases known : a.rc ≠ 0 ∨ SqliteResource.statement db stmt ∈ s.pool
    · dsimp only
      rw [if_pos known]
      exact ⟨r', .refl inside, rfl⟩
    · dsimp only
      rw [if_neg known]
      have new : SqliteResource.statement db stmt ∉ s.pool := fun h => known (.inr h)
      exact ⟨_, .add inside new, fun h => new (inside h), rfl⟩

theorem sqliteUse_trades (h : .statement db stmt ∈ r) :
    SqliteTrades r (sqliteUse db stmt) (fun _ r' => r' = r) fun _ => False :=
  need_bind h ((sqliteCall_trades r).bind (fun _ _ same => Trades.pure same) fun _ h => h)

/-- What is dropped is dropped from the pool. -/
theorem Exchanged.remove {s : SqliteLibrary} (inside : r ⊆ s.pool) {x : SqliteResource} (h : x ∈ r) :
    Exchanged s.pool r (s.pool \ {x}) (r \ {x}) := by
  have dropped : Exchanged s.pool {x} (s.pool \ {x}) ∅ := .drop
  have kept : r \ {x} ⊆ s.pool := Finset.sdiff_subset.trans inside
  have whole : {x} ∪ r \ {x} = r := by
    rw [Finset.union_comm, Finset.sdiff_union_of_subset (Finset.singleton_subset_iff.mpr h)]
  have change := (dropped.frame kept Finset.disjoint_sdiff).1
  rwa [whole, Finset.empty_union] at change

theorem sqliteFinalize_trades (h : .statement db stmt ∈ r) :
    SqliteTrades r (sqliteFinalize db stmt) (fun _ r' => r' = r \ {.statement db stmt})
      fun _ => False := by
  have dropped : SqliteTrades r
    (Effect.modify fun s => { s with pool := s.pool \ {.statement db stmt} })
      (fun _ r' => r' = r \ {.statement db stmt}) fun _ => False :=
    fun s inside _ => ⟨_, .remove inside h, rfl⟩
  refine need_bind h (dropped.bind (fun _ r' same => ?_) fun _ h => h)
  exact (sqliteCall_trades r').bind (fun _ _ last => Trades.pure (last.trans same)) fun _ h => h

/-- A holder without statements of its connection is never told that it is busy: nobody else has
any. -/
theorem sqliteClose_trades (h : .connection db ∈ r) (none : ∀ stmt, .statement db stmt ∉ r) :
    SqliteTrades r (sqliteClose db) (fun rc r' => rc = 0 ∧ r' = r \ {.connection db})
      fun _ => False := by
  refine need_bind h ?_
  intro s inside linked
  have idle : ¬ ∃ x ∈ s.pool, x.isStatementOf db = true := by
    rintro ⟨x, mem, isOf⟩
    cases x with
    | connection d => cases isOf
    | statement d stmt =>
      have same : d = db := by simpa [SqliteResource.isStatementOf] using isOf
      subst same
      have beside := linked d stmt (Finset.mem_sdiff.mpr ⟨mem, none stmt⟩)
      exact (Finset.mem_sdiff.mp beside).2 h
  rw [Effect.read_bind, if_neg idle]
  exact ⟨_, .remove inside h, rfl, rfl⟩

theorem sqlite_not_misuse (rc : Nat) (what : String) : ¬ (SqliteError.sqlite rc what).IsMisuse := by
  rintro ⟨r, h⟩
  cases h

theorem runtime_not_misuse (what : String) : ¬ (SqliteError.runtime what).IsMisuse := by
  rintro ⟨r, h⟩
  cases h

/-- What a caller is told, with all that it holds as before. -/
def Told (r : Finset SqliteResource) (thrown : Option SqliteError)
    (r' : Finset SqliteResource) : Prop :=
  r' = r ∧ ∀ e ∈ thrown, ¬ e.IsMisuse

theorem told_error {e : SqliteError} (fine : ¬ e.IsMisuse) : Told r (some e) r := by
  refine ⟨rfl, ?_⟩
  rintro _ ⟨⟩
  exact fine

theorem Connection.execEach_trades {c : Connection} (opened : c.db = some db) (h : .connection db ∈ r)
    (sqls : List String) : SqliteTrades r (c.execEach sqls) (Told r) fun _ => False := by
  induction sqls with
  | nil => exact Trades.pure ⟨rfl, by simp⟩
  | cons sql sqls ih =>
    unfold Connection.execEach Connection.get
    rw [opened]
    refine (sqliteExec_trades h).bind (fun rc r' same => ?_) fun _ h => h
    subst same
    split
    · exact ih
    · exact Trades.pure (told_error (sqlite_not_misuse _ _))

theorem Statement.new_trades {c : Connection} (opened : c.db = some db) (h : .connection db ∈ r) :
    SqliteTrades r (Statement.new c) (fun t r' => ∃ stmt, t.stmt = some (db, stmt) ∧
      .statement db stmt ∉ r ∧
      r' = r ∪ {.statement db stmt}) fun r' => r' = r := by
  unfold Statement.new Connection.get
  rw [opened]
  refine (sqlitePrepare_trades h).bind (fun a r' given => ?_) fun _ h => h.elim
  obtain ⟨rc, o⟩ := a
  cases o with
  | none => exact Trades.raise (sqlite_not_misuse _ _) given
  | some stmt => exact Trades.pure ⟨stmt, rfl, given⟩

/-- A statement of the holder, or none. -/
def Statement.Mine (db : Nat) (t : Statement) (r : Finset SqliteResource) : Prop :=
  t.stmt = none ∨ ∃ stmt, t.stmt = some (db, stmt) ∧ .statement db stmt ∈ r

theorem Statement.use_trades {t : Statement} (h : t.Mine db r) (n : Nat) :
    SqliteTrades r (t.use n) (Told r) fun _ => False := by
  induction n with
  | zero => exact Trades.pure ⟨rfl, by simp⟩
  | succ n ih =>
    unfold Statement.use
    rcases h with none | ⟨stmt, some', mem⟩
    · rw [none]
      exact Trades.pure (told_error (runtime_not_misuse _))
    · rw [some']
      refine (sqliteUse_trades mem).bind (fun rc r' same => ?_) fun _ h => h
      subst same
      split
      · exact ih
      · exact Trades.pure (told_error (sqlite_not_misuse _ _))

theorem Statement.finalize_trades {t : Statement} {stmt : Nat} (h : t.stmt = some (db, stmt))
    (mem : .statement db stmt ∈ r) :
    SqliteTrades r t.finalizeNoexcept (fun _ r' => r' = r \ {.statement db stmt}) fun _ => False := by
  unfold Statement.finalizeNoexcept
  rw [h]
  exact (sqliteFinalize_trades mem).bind (fun _ _ same => Trades.pure same) fun _ h => h

/-- The statements that are members, all of one connection. -/
inductive Members (db : Nat) : List Statement → Finset SqliteResource → Prop where
  | nil : Members db [] ∅
  | skip {l : List Statement} {m : Finset SqliteResource} (rest : Members db l m) :
      Members db (⟨none⟩ :: l) m
  | cons {l : List Statement} {m : Finset SqliteResource} {stmt : Nat} (new : .statement db stmt ∉ m)
      (rest : Members db l m) : Members db (⟨some (db, stmt)⟩ :: l) (m ∪ {.statement db stmt})

variable {l : List Statement} {m : Finset SqliteResource}

theorem Members.eq_statement (h : Members db l m) : ∀ x ∈ m, ∃ stmt, x = .statement db stmt := by
  induction h with
  | nil => simp
  | skip _ ih => exact ih
  | @cons l m stmt new rest ih =>
    intro x hx
    rcases Finset.mem_union.mp hx with old | last
    · exact ih x old
    · exact ⟨stmt, Finset.mem_singleton.mp last⟩

theorem Members.mine (h : Members db l m) (inside : m ⊆ r) (k : Nat) : (l.getD k ⟨none⟩).Mine db r := by
  induction h generalizing k with
  | nil => exact .inl (by simp)
  | skip _ ih =>
    cases k with
    | zero => exact .inl rfl
    | succ k => simpa using ih inside k
  | @cons l m stmt new rest ih =>
    have parts := Finset.union_subset_iff.mp inside
    cases k with
    | zero => exact .inr ⟨stmt, rfl, parts.2 (Finset.mem_singleton_self _)⟩
    | succ k => simpa using ih parts.1 k

theorem Members.finalizeAll_trades (h : Members db l m) (inside : m ⊆ r) :
    SqliteTrades r (Statement.finalizeAll l) (fun _ r' => r' = r \ m) fun _ => False := by
  induction h generalizing r with
  | nil => exact Trades.pure (by simp)
  | skip _ ih => exact ih inside
  | @cons l m stmt new rest ih =>
    have parts := Finset.union_subset_iff.mp inside
    have first := @Statement.finalize_trades r db ⟨some (db, stmt)⟩ stmt rfl
      (parts.2 (Finset.mem_singleton_self _))
    refine first.bind (fun _ r' less => ?_) fun _ h => h
    have left : m ⊆ r' := by
      rw [less]
      exact Finset.subset_sdiff.mpr ⟨parts.1, Finset.disjoint_singleton_right.mpr new⟩
    refine (ih left).weaken (fun _ r'' last => ?_) fun _ h => h
    rw [last, less, sdiff_sdiff_left, Finset.sup_eq_union, Finset.union_comm]

namespace Database

/-- The connection is open, and the members are statements of it or are not prepared. -/
def Holds (d : Database) (r : Finset SqliteResource) : Prop :=
  ∃ db m, d.db.db = some db ∧ Members db d.statements m ∧ r = {.connection db} ∪ m

variable {d : Database}

theorem Holds.linked (h : d.Holds r) {x : Finset SqliteResource} (inside : r ⊆ x) {stmt : Nat}
    (mem : .statement db stmt ∈ r) : .connection db ∈ x := by
  obtain ⟨own, m, -, members, rfl⟩ := h
  rcases Finset.mem_union.mp mem with first | later
  · cases Finset.mem_singleton.mp first
  · obtain ⟨s, eq⟩ := members.eq_statement _ later
    cases eq
    exact inside (Finset.mem_union_left _ (Finset.mem_singleton_self _))

theorem destroy_trades (h : d.Holds r) :
    SqliteTrades r d.destroy (fun _ r' => r' = ∅) fun _ => False := by
  obtain ⟨db, m, opened, members, rfl⟩ := h
  refine (members.finalizeAll_trades Finset.subset_union_right).bind (fun _ r' left => ?_) fun _ h => h
  have only : r' = {.connection db} := by
    rw [left]
    refine Finset.union_sdiff_cancel_right (Finset.disjoint_singleton_left.mpr fun mem => ?_)
    obtain ⟨stmt, eq⟩ := members.eq_statement _ mem
    cases eq
  subst only
  unfold Connection.closeNoexcept
  rw [opened]
  refine (sqliteClose_trades (Finset.mem_singleton_self _) (by simp)).bind
    (fun _ r' closed => ?_) fun _ h => h
  refine Trades.pure ?_
  rw [closed.2, Finset.sdiff_self]

theorem giveUp_trades {α : Type} {e : SqliteError}
    {ok : α → Finset SqliteResource → Prop} (h : d.Holds r) (fine : ¬ e.IsMisuse) :
    SqliteTrades r (d.giveUp e : SqliteM α) ok fun r' => r' = ∅ :=
  (destroy_trades h).bind (fun _ _ none => Trades.raise fine none) fun _ h => h.elim

/-- The connection is part of what a database holds. -/
theorem Holds.opened (h : d.Holds r) : ∃ db, d.db.db = some db ∧ .connection db ∈ r := by
  obtain ⟨db, m, opened, -, rfl⟩ := h
  exact ⟨db, opened, Finset.mem_union_left _ (Finset.mem_singleton_self _)⟩

theorem prepareMembers_trades (h : d.Holds r) (sqls : List String) :
    SqliteTrades r (d.prepareMembers sqls) (fun d' => d'.Holds) fun r' => r' = ∅ := by
  induction sqls generalizing d r with
  | nil => exact Trades.pure h
  | cons sql sqls ih =>
    obtain ⟨db, m, opened, members, rfl⟩ := h
    have here : SqliteResource.connection db ∈ {SqliteResource.connection db} ∪ m :=
      Finset.mem_union_left _ (Finset.mem_singleton_self _)
    refine ((Statement.new_trades opened here).attempt fun _ => False).bind (fun t r' result => ?_)
      fun _ h => h.elim
    cases t with
    | ok t =>
      obtain ⟨stmt, some', new, rfl⟩ := result
      refine ih ⟨db, m ∪ {.statement db stmt}, opened, ?_, Finset.union_assoc _ _ _⟩
      obtain ⟨_⟩ := t
      cases some'
      exact .cons (fun mem => new (Finset.mem_union_right _ mem)) members
    | error e =>
      obtain ⟨fine, rfl⟩ := result
      exact giveUp_trades ⟨db, m, opened, members, rfl⟩ fine

theorem exec_trades (h : d.Holds r) (sql : String) :
    SqliteTrades r (d.exec sql) (fun a r' => a.1 = some d ∧ Told r a.2 r') fun _ => False := by
  obtain ⟨db, opened, mem⟩ := h.opened
  exact (Connection.execEach_trades opened mem [sql]).bind (fun _ _ told => Trades.pure ⟨rfl, told⟩)
    fun _ h => h

theorem useMembers_trades (h : d.Holds r) (calls : List (Nat × Nat)) :
    SqliteTrades r (d.useMembers calls) (fun a r' => a.1 = some d ∧ Told r a.2 r') fun _ => False := by
  induction calls with
  | nil => exact Trades.pure ⟨rfl, rfl, by simp⟩
  | cons c calls ih =>
    obtain ⟨db, m, opened, members, eq⟩ := h
    have mine := members.mine (r := r) (by rw [eq]; exact Finset.subset_union_right) c.1
    refine (Statement.use_trades mine c.2).bind (fun thrown r' told => ?_) fun _ h => h
    obtain ⟨rfl, fine⟩ := told
    cases thrown with
    | none => exact ih
    | some e => exact Trades.pure ⟨rfl, rfl, fine⟩

theorem withLocal_trades (h : d.Holds r) (n : Nat) :
    SqliteTrades r (d.withLocal n) (fun a r' => a.1 = some d ∧ Told r a.2 r') fun _ => False := by
  obtain ⟨db, opened, mem⟩ := h.opened
  refine ((Statement.new_trades opened mem).attempt fun _ => False).bind
    (fun t r' result => ?_) fun _ h => h
  cases t with
  | error e =>
    obtain ⟨fine, rfl⟩ := result
    exact Trades.pure ⟨rfl, told_error fine⟩
  | ok t =>
    obtain ⟨stmt, some', new, rfl⟩ := result
    have here : SqliteResource.statement db stmt ∈ r ∪ {.statement db stmt} :=
      Finset.mem_union_right _ (Finset.mem_singleton_self _)
    refine (Statement.use_trades (.inr ⟨stmt, some', here⟩) n).bind
      (fun thrown r' told => ?_) fun _ h => h
    obtain ⟨rfl, fine⟩ := told
    refine (Statement.finalize_trades some' here).bind
      (fun _ r' less => Trades.pure ⟨rfl, ?_, fine⟩) fun _ h => h
    rw [less, Finset.union_sdiff_cancel_right (Finset.disjoint_singleton_right.mpr new)]

theorem prepareLazily_trades (h : d.Holds r) :
    SqliteTrades r d.prepareLazily (fun a r' => ∃ d', a.1 = some d' ∧ d'.Holds r' ∧
      ∀ e ∈ a.2, ¬ e.IsMisuse)
      fun _ => False := by
  unfold prepareLazily
  split
  next unprepared =>
    obtain ⟨db, m, opened, members, rfl⟩ := h
    rw [unprepared] at members
    cases members with
    | skip rest =>
      cases rest
      have here : SqliteResource.connection db ∈ {SqliteResource.connection db} ∪
        (∅ : Finset SqliteResource) :=
        Finset.mem_union_left _ (Finset.mem_singleton_self _)
      refine ((Statement.new_trades opened here).attempt fun _ => False).bind
        (fun t r' result => ?_) fun _ h => h.elim
      cases t with
      | ok t =>
        obtain ⟨stmt, some', new, rfl⟩ := result
        refine Trades.pure ⟨_, rfl,
          ⟨db, ∅ ∪ {.statement db stmt}, opened, ?_, Finset.union_assoc _ _ _⟩, by simp⟩
        obtain ⟨_⟩ := t
        cases some'
        exact .cons (Finset.notMem_empty _) .nil
      | error e =>
        obtain ⟨fine, rfl⟩ := result
        refine Trades.pure ⟨d, rfl, ⟨db, ∅, opened, unprepared ▸ .skip .nil, rfl⟩, ?_⟩
        rintro _ ⟨⟩
        exact fine
  next => exact Trades.pure ⟨d, rfl, h, by simp⟩

end Database

namespace Connection

theorem open_trades (filename : String) : SqliteTrades ∅ (open' ⟨none⟩ filename)
    (fun a r' => (a.2 = none ∧ ∃ db, a.1.db = some db ∧ r' = {.connection db}) ∨
      ∃ e, a.2 = some e ∧ ¬ e.IsMisuse ∧ (r' = ∅ ∨ ∃ db, r' = {.connection db})) fun _ => False := by
  unfold open'
  split
  next =>
    refine Trades.pure (.inr ⟨_, rfl, ?_, .inl rfl⟩)
    rintro ⟨r, h⟩
    cases h
  next =>
    refine (sqliteOpen_trades ∅).bind (fun a r' given => ?_) fun _ h => h
    obtain ⟨rc, o⟩ := a
    dsimp only at given ⊢
    cases o with
    | none =>
      obtain ⟨failed, rfl⟩ := given
      rw [if_neg failed]
      exact Trades.pure (.inr ⟨_, rfl, sqlite_not_misuse _ _, .inl rfl⟩)
    | some db =>
      obtain ⟨-, eq⟩ := given
      rw [Finset.empty_union] at eq
      subst eq
      split
      · refine (execEach_trades rfl (Finset.mem_singleton_self _) pragmas).bind
          (fun thrown r' told => ?_) fun _ h => h
        obtain ⟨rfl, fine⟩ := told
        cases thrown with
        | none => exact Trades.pure (.inl ⟨rfl, db, rfl, rfl⟩)
        | some e => exact Trades.pure (.inr ⟨e, rfl, fine e rfl, .inr ⟨db, rfl⟩⟩)
      · exact Trades.pure (.inr ⟨_, rfl, sqlite_not_misuse _ _, .inr ⟨db, rfl⟩⟩)

theorem new_trades (filename : String) : SqliteTrades ∅ (Connection.new filename)
    (fun c r' => ∃ db, c.db = some db ∧ r' = {.connection db}) fun r' => r' = ∅ ∨
      ∃ db, r' = {.connection db} := by
  refine (open_trades filename).bind (fun a r' made => ?_) fun _ h => h.elim
  obtain ⟨c, thrown⟩ := a
  rcases made with ⟨eq, opened⟩ | ⟨e, eq, fine, left⟩
  · cases eq
    exact Trades.pure opened
  · cases eq
    exact Trades.raise fine left

/-- The calls that set a new connection up succeed. -/
def pragmasSucceed (answers : List SqliteAnswer) : Prop :=
  pragmas.length ≤ answers.length ∧ ∀ a ∈ answers.take pragmas.length, a.rc = 0

instance (answers : List SqliteAnswer) : Decidable (pragmasSucceed answers) :=
  inferInstanceAs (Decidable (_ ∧ _))

/-- The connection that a constructor leaves open with no pointer to it: SQLite gives one, and then
it, or one of the calls that set it up, fails. -/
def leak (filename : String) (s : SqliteLibrary) : Finset SqliteResource :=
  match s.answers with
  | ⟨rc, some db⟩ :: rest =>
    if filename = "" ∨ .connection db ∈ s.pool ∨ (rc = 0 ∧ pragmasSucceed rest) then
      ∅
    else
      {.connection db}
  | _ => ∅

theorem sqliteExec_apply {s : SqliteLibrary} (h : .connection db ∈ s.pool) :
    sqliteExec db s = (.ok s.answer.1.rc, s.answer.2) := by
  have found : need (.connection db) s = (.ok (), s) := by
    rw [need, Effect.read_bind, if_pos h]
    rfl
  rw [sqliteExec, Effect.bind_of_ok found]
  rfl

theorem execEach_cons {c : Connection} (opened : c.db = some db) (sql : String) (sqls : List String)
    {s : SqliteLibrary} (h : .connection db ∈ s.pool) :
    c.execEach (sql :: sqls) s =
      if s.answer.1.rc = 0 then c.execEach sqls s.answer.2
      else (.ok (some (.sqlite s.answer.1.rc "sqlite3_exec")), s.answer.2) := by
  have got : c.get = pure db := by
    unfold get
    rw [opened]
  rw [execEach, got, Effect.pure_bind_apply, Effect.bind_of_ok (sqliteExec_apply h)]
  split <;> rfl

/-- All statements run when the answers to all of them say so. -/
theorem execEach_eq_none {c : Connection} (opened : c.db = some db) (sqls : List String)
    {s : SqliteLibrary} (h : .connection db ∈ s.pool) :
    (c.execEach sqls s).1 = .ok none ↔ sqls.length ≤ s.answers.length ∧
      ∀ a ∈ s.answers.take sqls.length, a.rc = 0 := by
  induction sqls generalizing s with
  | nil => simp [execEach]
  | cons sql sqls ih =>
    rw [execEach_cons opened sql sqls h, SqliteLibrary.answer]
    cases answers : s.answers with
    | nil => simp [sqliteNoMem]
    | cons a rest =>
      have next := @ih { s with answers := rest } h
      by_cases fine : a.rc = 0
      · simpa [fine] using next
      · simp [fine]

/-- SQLite gives a connection. -/
def Gives (s : SqliteLibrary) (rc db : Nat) (rest : List SqliteAnswer) : Prop :=
  s.answers = ⟨rc, some db⟩ :: rest ∧ .connection db ∉ s.pool

theorem sqliteOpen_gives {s : SqliteLibrary} {rc : Nat} {rest : List SqliteAnswer}
    (h : Gives s rc db rest) :
    sqliteOpen s = (.ok (rc, some db), ⟨s.pool ∪ {.connection db}, rest⟩) := by
  obtain ⟨answers, new⟩ := h
  have call : sqliteCall s = (.ok ⟨rc, some db⟩, { s with answers := rest }) := by
    simp [sqliteCall, SqliteLibrary.answer, answers]
  rw [sqliteOpen, Effect.bind_of_ok call, Effect.read_bind]
  dsimp only
  rw [if_neg new]
  rfl

theorem sqliteOpen_refuses {s : SqliteLibrary} (h : ∀ rc db rest, ¬ Gives s rc db rest) :
    ∃ rc t, sqliteOpen s = (.ok (rc, none), t) ∧ rc ≠ 0 ∧ t.pool = s.pool := by
  have failed (a : SqliteAnswer) : a.failure ≠ 0 := by
    unfold SqliteAnswer.failure sqliteNoMem
    split <;> omega
  cases answers : s.answers with
  | nil =>
    refine ⟨sqliteNoMem, s, ?_, by decide, rfl⟩
    have call : sqliteCall s = (.ok ⟨sqliteNoMem, none⟩, s) := by simp [sqliteCall,
      SqliteLibrary.answer, answers]
    rw [sqliteOpen, Effect.bind_of_ok call]
    rfl
  | cons a rest =>
    have call : sqliteCall s = (.ok a, { s with answers := rest }) := by
      simp [sqliteCall, SqliteLibrary.answer, answers]
    refine ⟨a.failure, { s with answers := rest }, ?_, failed a, rfl⟩
    rw [sqliteOpen, Effect.bind_of_ok call, Effect.read_bind]
    obtain ⟨rc, o⟩ := a
    cases o with
    | none => rfl
    | some db =>
      have known : SqliteResource.connection db ∈ s.pool := by
        by_contra new
        exact h rc db rest ⟨answers, new⟩
      dsimp only
      rw [if_pos known]
      rfl

theorem leak_gives {filename : String} {s : SqliteLibrary} {rc : Nat} {rest : List SqliteAnswer}
    (h : Gives s rc db rest) :
    leak filename s = if filename = "" ∨ (rc = 0 ∧ pragmasSucceed rest) then ∅
      else {.connection db} := by
  obtain ⟨answers, new⟩ := h
  simp [leak, answers, new]

theorem leak_refuses {filename : String} {s : SqliteLibrary} (h : ∀ rc db rest, ¬ Gives s rc db rest) :
    leak filename s = ∅ := by
  unfold leak
  split
  next rc db rest answers =>
    have known : SqliteResource.connection db ∈ s.pool := by
      by_contra new
      exact h rc db rest ⟨answers, new⟩
    rw [if_pos (.inr (.inl known))]
  next => rfl

theorem answer_pool_eq (s : SqliteLibrary) : s.answer.2.pool = s.pool := by
  unfold SqliteLibrary.answer
  cases s.answers <;> rfl

theorem execEach_pool {c : Connection} (opened : c.db = some db) (sqls : List String)
    {s : SqliteLibrary} (h : .connection db ∈ s.pool) :
    ∃ thrown t, c.execEach sqls s = (.ok thrown, t) ∧ t.pool = s.pool := by
  induction sqls generalizing s with
  | nil => exact ⟨none, s, rfl, rfl⟩
  | cons sql sqls ih =>
    rw [execEach_cons opened sql sqls h]
    have same := answer_pool_eq s
    split
    · obtain ⟨thrown, t, run, pool⟩ := ih (s := s.answer.2) (by rwa [same])
      exact ⟨thrown, t, run, pool.trans same⟩
    · exact ⟨_, _, rfl, same⟩

theorem new_of_open {filename : String} {s t : SqliteLibrary} {c : Connection}
    {thrown : Option SqliteError} (h : open' ⟨none⟩ filename s = (.ok (c, thrown), t)) :
    Connection.new filename s = (thrown.elim (.ok c) .error, t) := by
  rw [Connection.new, Effect.bind_of_ok h]
  cases thrown <;> rfl

theorem open_of_sqliteOpen {filename : String} {s t : SqliteLibrary} {rc : Nat} {o : Option Nat}
    (named : filename ≠ "") (h : sqliteOpen s = (.ok (rc, o), t)) :
    open' ⟨none⟩ filename s =
      if rc = 0 then (execEach ⟨o⟩ pragmas >>= fun thrown => pure (⟨o⟩, thrown)) t
      else (.ok (⟨o⟩, some (.sqlite rc "sqlite3_open")), t) := by
  have run : open' ⟨none⟩ filename s = (sqliteOpen >>= fun opened =>
      if opened.1 = 0 then execEach ⟨opened.2⟩ pragmas >>= fun thrown => pure (⟨opened.2⟩, thrown)
      else pure (⟨opened.2⟩, some (.sqlite opened.1 "sqlite3_open"))) s := by
    rw [open', if_neg named]
    rfl
  rw [run, Effect.bind_of_ok h]
  dsimp only
  split <;> rfl

/-- A constructor that throws leaves open what `leak` says, and one that returns has leaked nothing. -/
theorem new_leaks (filename : String) (s : SqliteLibrary) :
    (∀ c, (Connection.new filename s).1 = .ok c → leak filename s = ∅) ∧
      ∀ e, (Connection.new filename s).1 = .error e → (Connection.new filename s).2.pool =
        s.pool ∪ leak filename s := by
  by_cases empty : filename = ""
  · have none : leak filename s = ∅ := by
      unfold leak
      split <;> simp [empty]
    have thrown : Connection.new filename s =
      (.error (.invalidArgument "sqlite filename is empty"), s) := by
      rw [Connection.new, open', if_pos empty]
      rfl
    rw [thrown, none]
    simp
  by_cases given : ∃ rc db rest, Gives s rc db rest
  · obtain ⟨rc, db, rest, gives⟩ := given
    have run := open_of_sqliteOpen empty (sqliteOpen_gives gives)
    have here : SqliteResource.connection db ∈ s.pool ∪ {.connection db} :=
      Finset.mem_union_right _ (Finset.mem_singleton_self _)
    rw [leak_gives gives]
    by_cases fine : rc = 0
    · obtain ⟨thrown, t, each, pool⟩ := @execEach_pool db ⟨some db⟩ rfl pragmas ⟨_, rest⟩ here
      have succeed := @execEach_eq_none db ⟨some db⟩ rfl pragmas ⟨_, rest⟩ here
      rw [if_pos fine, Effect.bind_of_ok each] at run
      rw [new_of_open run]
      rw [each] at succeed
      cases thrown with
      | none =>
        have all : pragmasSucceed rest := succeed.mp rfl
        simp [fine, all]
      | some e =>
        have some' : ¬ pragmasSucceed rest := fun all => by cases succeed.mpr all
        simp [empty, some', pool]
    · rw [if_neg fine] at run
      rw [new_of_open run]
      simp [empty, fine]
  · have refuses : ∀ rc db rest, ¬ Gives s rc db rest := fun rc db rest h => given ⟨rc, db, rest, h⟩
    obtain ⟨rc, t, call, failed, same⟩ := sqliteOpen_refuses refuses
    have run := open_of_sqliteOpen empty call
    rw [if_neg failed] at run
    rw [new_of_open run, leak_refuses refuses]
    simp [same]

end Connection

namespace Database

theorem setUp_trades {c : Connection} (opened : c.db = some db) {unprepared : List Statement}
    (none : Members db unprepared ∅) (schema : String) (members : List String) :
    SqliteTrades {.connection db} (setUp c schema members unprepared) (fun d => d.Holds)
      fun r' => r' = ∅ := by
  have holds : Database.Holds ⟨c, unprepared⟩ {.connection db} :=
    ⟨db, ∅, opened, none, (Finset.union_empty _).symm⟩
  refine (Connection.execEach_trades opened (Finset.mem_singleton_self _) [schema]).bind
    (fun thrown r' told => ?_)
    fun _ h => h.elim
  obtain ⟨rfl, fine⟩ := told
  cases thrown with
  | none => exact prepareMembers_trades holds members
  | some e => exact giveUp_trades holds (fine e rfl)

/-- Members that are not prepared yet. -/
def Unprepared (l : List Statement) : Prop := ∀ t ∈ l, t = ⟨none⟩

theorem Unprepared.members {l : List Statement} (h : Unprepared l) (db : Nat) : Members db l ∅ := by
  induction l with
  | nil => exact .nil
  | cons t l ih =>
    have first : t = ⟨none⟩ := h t List.mem_cons_self
    subst first
    exact .skip (ih fun t ht => h t (List.mem_cons_of_mem _ ht))

variable {filename schema : String} {members : List String} {unprepared : List Statement}

theorem new_trades (h : Unprepared unprepared) :
    SqliteTrades ∅ (Database.new filename schema members unprepared)
    (fun d => d.Holds) fun r' => r' = ∅ ∨ ∃ db, r' = {.connection db} := by
  refine (Connection.new_trades filename).bind (fun c r' made => ?_) fun _ h => h
  obtain ⟨db, opened, rfl⟩ := made
  exact (setUp_trades opened (h.members db) schema members).weaken (fun _ _ h => h) fun _ h => .inl h

/-- The same of a database: what follows the connection leaves nothing behind. -/
theorem new_leaks (h : Unprepared unprepared) {s : SqliteLibrary} (linked : Linked s.pool) :
    (∀ d, (Database.new filename schema members unprepared s).1 = .ok d →
      Connection.leak filename s = ∅) ∧
      ∀ e, (Database.new filename schema members unprepared s).1 = .error e →
        (Database.new filename schema members unprepared s).2.pool =
          s.pool ∪ Connection.leak filename s := by
  have leaks := Connection.new_leaks filename s
  obtain ⟨r, change, result⟩ :=
    Connection.new_trades filename s (Finset.empty_subset _) (by rwa [Finset.sdiff_empty])
  rcases made : Connection.new filename s with ⟨a, t⟩
  rw [made] at leaks change result
  cases a with
  | error e =>
    rw [Database.new, Effect.bind_of_error made]
    exact ⟨by simp, fun _ _ => leaks.2 e rfl⟩
  | ok c =>
    have none := leaks.1 c rfl
    obtain ⟨db, opened, rfl⟩ := result
    have rest : t.pool \ {.connection db} = s.pool := change.rest.trans Finset.sdiff_empty
    have beside : Linked (t.pool \ {.connection db}) := by rwa [rest]
    obtain ⟨r', change', result'⟩ :=
      setUp_trades opened (h.members db) schema members t change.inside beside
    rw [Database.new, Effect.bind_of_ok made, none]
    refine ⟨fun _ _ => rfl, fun e thrown => ?_⟩
    rw [thrown] at result'
    rw [result'.2] at change'
    exact change'.eq.trans (by rw [← rest]; rfl)

end Database

end Trades

end FsCore
