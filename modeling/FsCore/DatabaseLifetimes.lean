import FsCore.Connections

namespace FsCore

section Programs

variable {ι : Type} [DecidableEq ι]

/-- A process with its index and decoded-signal databases. -/
abbrev DatabaseProgram (ι : Type) := Scope ι SqliteLibrary Database

/-- What a program does with databases. The calls on a statement are binds, steps, resets and column
reads; any of them may fail. -/
inductive DatabaseStep (ι : Type) where
  | logIndexDatabase (i : ι) (dbPath : String)
  | decodedSignalDatabase (i : ι) (tokenPath : String)
  /-- `begin_transaction` and `commit_transaction` -/
  | exec (i : ι) (sql : String)
  | appendIndex (i : ι)
  /-- The functions that prepare a statement of their own: `update_index`, `query_row_indices`,
  `get_metadata`, `get_first_last_timestamp`, `row_count`, `get_signal_names`, `get_signal_samples`. -/
  | withLocal (i : ι) (calls : Nat)
  | writeSignals (i : ι) (chunks : Nat)
  | destroy (i : ι)

/-- The members are destroyed in the reverse of their order: `stmt_channel_`, `stmt_can_id_`,
`stmt_`. -/
def LogIndexDatabase.new (dbPath : String) : SqliteM Database :=
  Database.new dbPath "kSchemaSql" ["kInsertSql", "kInsertCanIdSql", "kInsertChannelSql"] []

def DecodedSignalDatabase.new (tokenPath : String) : SqliteM Database :=
  Database.new (tokenPath ++ ".decoded.sqlite") "kCreateSql" [] [⟨none⟩]

/-- The calls on `stmt_`, `stmt_can_id_` and `stmt_channel_`. -/
def LogIndexDatabase.appendIndex (d : Database) : Database.CallM :=
  d.useMembers [(2, 9), (1, 4), (0, 4)]

/-- The member `upsert_stmt_` is prepared by the first call. -/
def DecodedSignalDatabase.writeSignals (chunks : Nat) (d : Database) : Database.CallM := do
  let a ← d.prepareLazily
  match a with
  | (some d, none) => d.useMembers (List.replicate chunks (0, 8))
  | a => pure a

def DatabaseStep.run : DatabaseStep ι → Effect (DatabaseProgram ι) SqliteError Unit
  | .logIndexDatabase i dbPath => Scope.construct i (LogIndexDatabase.new dbPath)
  | .decodedSignalDatabase i tokenPath => Scope.construct i (DecodedSignalDatabase.new tokenPath)
  | .exec i sql => Scope.call i fun d => d.exec sql
  | .appendIndex i => Scope.call i LogIndexDatabase.appendIndex
  | .withLocal i calls => Scope.call i fun d => d.withLocal calls
  | .writeSignals i chunks => Scope.call i (DecodedSignalDatabase.writeSignals chunks)
  | .destroy i => Scope.call i fun d => do
    d.destroy
    pure (none, none)

/-- What a step loses: the connection of a constructor that throws out of `Connection::open`. -/
def DatabaseStep.loses (w : DatabaseProgram ι) : DatabaseStep ι → Finset SqliteResource
  | .logIndexDatabase i dbPath => if w.objects i = none then Connection.leak dbPath w.system else ∅
  | .decodedSignalDatabase i tokenPath =>
    if w.objects i = none then Connection.leak (tokenPath ++ ".decoded.sqlite") w.system else ∅
  | _ => ∅

/-- What a run loses. -/
def lostIn : List (DatabaseStep ι) → DatabaseProgram ι → Finset SqliteResource
  | [], _ => ∅
  | step :: steps, w => step.loses w ∪ lostIn steps (step.run w).2

/-- Only connections are lost. -/
def OnlyConnections (lost : Finset SqliteResource) : Prop := ∀ x ∈ lost, ∃ db, x = .connection db

variable {lost : Finset SqliteResource}

/-- What the other databases hold is linked, and what is lost has no statements. -/
theorem clean_databases (h : OnlyConnections lost) : Scope.Clean sqliteAccount Database.Holds lost := by
  intro x parts db stmt mem
  rcases parts _ mem with gone | ⟨d, r, holds, mine, inside⟩
  · obtain ⟨db', eq⟩ := h _ gone
    cases eq
  · exact holds.linked inside mine

/-- The account of a program with databases. -/
structure DatabaseProgram.Sound (lost : Finset SqliteResource) (w : DatabaseProgram ι) : Prop where
  only : OnlyConnections lost
  account : Scope.Sound sqliteAccount Database.Holds lost w

omit [DecidableEq ι] in
/-- Everything in the pool of such a program is linked. -/
theorem DatabaseProgram.Sound.linked {w : DatabaseProgram ι} (h : w.Sound lost) :
    Linked w.system.pool := by
  obtain ⟨held, owned, parts⟩ := h.account
  intro db stmt mem
  obtain ⟨o, ho⟩ := owned.covered _ mem
  cases o with
  | none =>
    obtain ⟨db', eq⟩ := h.only _ ho
    cases eq
  | some i =>
    have part := parts i
    cases live : w.objects i with
    | none =>
      rw [live] at part
      have empty : held i = ∅ := part
      rw [Option.elim_some, empty] at ho
      exact absurd ho (Finset.notMem_empty _)
    | some d =>
      rw [live] at part
      exact Database.Holds.linked part (owned.inside (some i)) ho

/-- A step that loses nothing. -/
abbrev DatabaseProgram.Safe (lost : Finset SqliteResource)
    (step : Effect (DatabaseProgram ι) SqliteError Unit) : Prop :=
  Scope.Safe sqliteAccount Database.Holds lost step

/-- A call that leaves the object as it is. -/
theorem told_safe (h : OnlyConnections lost) {f : Database → Database.CallM}
    (code : ∀ (d : Database) r, d.Holds r →
      SqliteTrades r (f d) (fun a r' => a.1 = some d ∧ Told r a.2 r') fun _ => False) (i : ι) :
    DatabaseProgram.Safe lost (Scope.call i f) := by
  refine Scope.call_safe (fun d r held => ?_) (clean_databases h) i
  refine (code d r held).weaken (fun a r' told => ?_) fun _ h => h
  obtain ⟨same, rfl, fine⟩ := told
  rw [same]
  exact ⟨held, fine⟩

theorem writeSignals_trades {d : Database} {r : Finset SqliteResource} (h : d.Holds r) (chunks : Nat) :
    SqliteTrades r (DecodedSignalDatabase.writeSignals chunks d)
      (fun a r' => Scope.Part Database.Holds a.1 r' ∧ ∀ e ∈ a.2, ¬ sqliteAccount.bad e)
        fun _ => False := by
  refine (Database.prepareLazily_trades h).bind (fun a r' prepared => ?_) fun _ h => h
  obtain ⟨o, thrown⟩ := a
  obtain ⟨d', eq, holds, fine⟩ := prepared
  cases eq
  cases thrown with
  | some e => exact Trades.pure ⟨holds, fine⟩
  | none =>
    refine (Database.useMembers_trades holds _).weaken (fun a r' told => ?_) fun _ h => h
    obtain ⟨same, rfl, fine⟩ := told
    rw [same]
    exact ⟨holds, fine⟩

theorem Connection.leak_fresh (filename : String) (s : SqliteLibrary) :
    Disjoint s.pool (Connection.leak filename s) ∧ OnlyConnections (Connection.leak filename s) := by
  unfold Connection.leak
  split
  next rc db rest _ =>
    split
    next => exact ⟨Finset.disjoint_empty_right _, by simp [OnlyConnections]⟩
    next given =>
      refine ⟨Finset.disjoint_singleton_right.mpr fun known =>
        given (.inr (.inl known)), fun x hx => ?_⟩
      exact ⟨db, Finset.mem_singleton.mp hx⟩
  next => exact ⟨Finset.disjoint_empty_right _, by simp [OnlyConnections]⟩

/-- A constructor, with what it loses. -/
theorem database_sound {w : DatabaseProgram ι} (h : w.Sound lost) {filename schema : String}
    {members : List String} {unprepared : List Statement}
    (none : Database.Unprepared unprepared) (i : ι) :
    DatabaseProgram.Sound (lost ∪ if w.objects i = .none then Connection.leak filename w.system else ∅)
        (Scope.construct i (Database.new filename schema members unprepared) w).2 ∧
      ∀ e, (Scope.construct i (Database.new filename schema members unprepared) w).1 = .error e →
        ¬ e.IsMisuse := by
  have builds := @Database.new_trades filename schema members unprepared none
  obtain ⟨leak, account, fine, returned, thrown⟩ :=
    Scope.construct_sound builds (clean_databases h.only) h.account i
  obtain ⟨kept, lostBy⟩ := @Database.new_leaks filename schema members unprepared none w.system h.linked
  obtain ⟨fresh, only⟩ := Connection.leak_fresh filename w.system
  have same : leak = if w.objects i = .none then Connection.leak filename w.system else ∅ := by
    unfold Scope.construct at returned thrown
    cases live : w.objects i with
    | some d =>
      rw [live] at returned
      exact returned rfl
    | none =>
      rw [live] at returned thrown
      rcases made : Database.new filename schema members unprepared w.system with ⟨a, t⟩
      rw [made] at returned thrown kept lostBy
      cases a with
      | ok d => simp [returned rfl, kept d rfl]
      | error e =>
        obtain ⟨-, apart, pool⟩ := thrown e rfl
        have both : w.system.pool ∪ leak = w.system.pool ∪ Connection.leak filename w.system :=
          pool.symm.trans (lostBy e rfl)
        rw [if_pos rfl, ← Finset.union_sdiff_cancel_left fresh, ← both]
        exact (Finset.union_sdiff_cancel_left apart).symm
  rw [same] at account
  refine ⟨⟨fun x hx => ?_, account⟩, fine⟩
  rcases Finset.mem_union.mp hx with old | new
  · exact h.only x old
  · split at new
    · exact only x new
    · exact absurd new (Finset.notMem_empty x)

/-- A step loses what it says, and nothing else is left without an owner. -/
theorem databaseStep_sound {w : DatabaseProgram ι} (h : w.Sound lost) (step : DatabaseStep ι) :
    DatabaseProgram.Sound (lost ∪ step.loses w) (step.run w).2 ∧ ∀ e, (step.run w).1 = .error e →
      ¬ e.IsMisuse := by
  have keep {code : Effect (DatabaseProgram ι) SqliteError Unit}
    (safe : DatabaseProgram.Safe lost code) :
      DatabaseProgram.Sound (lost ∪ ∅) (code w).2 ∧ ∀ e, (code w).1 = .error e → ¬ e.IsMisuse := by
    obtain ⟨account, fine⟩ := safe w h.account
    rw [Finset.union_empty]
    exact ⟨⟨h.only, account⟩, fine⟩
  cases step with
  | logIndexDatabase i dbPath => exact database_sound h (by simp [Database.Unprepared]) i
  | decodedSignalDatabase i tokenPath => exact database_sound h (by simp [Database.Unprepared]) i
  | exec i sql => exact keep (told_safe h.only (fun _ _ held => Database.exec_trades held sql) i)
  | appendIndex i => exact keep (told_safe h.only (fun _ _ held => Database.useMembers_trades held _) i)
  | withLocal i calls =>
    exact keep (told_safe h.only (fun _ _ held => Database.withLocal_trades held calls) i)
  | writeSignals i chunks =>
    exact keep (Scope.call_safe (fun _ _ held => writeSignals_trades held chunks)
      (clean_databases h.only) i)
  | destroy i =>
    refine keep (Scope.call_safe (fun d r held => ?_) (clean_databases h.only) i)
    exact (Database.destroy_trades held).bind (fun _ _ none => Trades.pure ⟨none, by simp⟩) fun _ h => h

theorem databases_sound {w : DatabaseProgram ι} (h : w.Sound lost) (steps : List (DatabaseStep ι)) :
    DatabaseProgram.Sound (lost ∪ lostIn steps w) (Scope.run (steps.map DatabaseStep.run) w) := by
  induction steps generalizing w lost with
  | nil => simpa [lostIn, Scope.run] using h
  | cons step steps ih =>
    have next := ih (databaseStep_sound h step).1
    rwa [Finset.union_assoc] at next

/-- A process that has opened no database yet. -/
def DatabaseProgram.start (answers : List SqliteAnswer) : DatabaseProgram ι :=
  ⟨⟨∅, answers⟩, fun _ => none⟩

/-- Whatever a process does with index and decoded-signal databases, in whatever order, and whatever
SQLite answers: what is open is split between the database objects, apart from the connections of
constructors that threw out of `Connection::open` after SQLite had given one. Those stay open for
good; no statement is ever left, no connection is closed before its statements, nothing is used
after it is gone, and once the objects are destroyed exactly those connections are open. -/
theorem databases_own_the_rest (answers : List SqliteAnswer) (steps : List (DatabaseStep ι)) :
    let w := Scope.run (steps.map DatabaseStep.run) (DatabaseProgram.start answers)
    let lost := lostIn steps (DatabaseProgram.start answers)
    (∃ held, Owned w.system.pool (fun o : Option ι => o.elim lost held) ∧
      (∀ i, w.objects i = none → held i = ∅) ∧
      ∀ i, ∀ d ∈ w.objects i, d.Holds (held i)) ∧
      (∀ x ∈ lost, ∃ db, x = .connection db) ∧
      (∀ (step : DatabaseStep ι) (r : SqliteResource), (step.run w).1 ≠ .error (.misuse r)) ∧
      ((∀ i, w.objects i = none) → w.system.pool = lost) := by
  intro w lost
  have start : DatabaseProgram.Sound ∅ (DatabaseProgram.start (ι := ι) answers) :=
    ⟨by simp [OnlyConnections], Scope.sound_start rfl⟩
  have sound : DatabaseProgram.Sound lost w := by
    have all := databases_sound start steps
    rwa [Finset.empty_union] at all
  refine ⟨?_, sound.only, fun step r thrown =>
    (databaseStep_sound sound step).2 _ thrown ⟨r, rfl⟩, fun gone => ?_⟩
  · obtain ⟨held, owned, parts⟩ := sound.account
    refine ⟨held, owned, fun i none => ?_, fun i d hd => ?_⟩
    · have part := parts i
      rwa [none] at part
    · have part := parts i
      rwa [Option.mem_def.mp hd] at part
  · refine sound.account.pool_eq fun i r part => ?_
    rwa [gone i] at part

/-- The second PRAGMA fails: the connection is never closed. -/
example : (Scope.run ([.logIndexDatabase 0 "a", .destroy 0].map (DatabaseStep.run (ι := Nat)))
    (DatabaseProgram.start [⟨0, some 1⟩, ⟨0, none⟩, ⟨10, none⟩])).system.pool = {.connection 1} := by
  decide

end Programs

end FsCore
