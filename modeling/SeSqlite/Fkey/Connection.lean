/- source: src/vdbe.c, src/vdbeaux.c, src/main.c
   digest: What the foreign key model takes of the transaction commands is what the opcodes do. -/
import SeSqlite.Fkey.Model
import SeSqlite.Vdbe.Transactions

set_option autoImplicit false
set_option relaxedAutoImplicit false

namespace SeSqlite.Fkey

open List Names
open Vdbe (Connection Command Savepoint findSavepoint)

variable {T V A C : Type} [DecidableEq T] [DecidableEq V] [DecidableEq C]

/-- Savepoints are told apart by the length of their names. -/
def nameOf (depth : Nat) : String := String.ofList (replicate depth 's')

/-- The savepoints as the connection lists them, each named by its depth. -/
def named : List (Db T V × Int) → List Savepoint
  | [] => []
  | saved :: outer => ⟨nameOf outer.length, saved.2, 0⟩ :: named outer

/-- The name of the savepoint in a place, or one that no savepoint has. -/
def nameAt (savepoints : List (Db T V × Int)) (n : Nat) : String :=
  nameOf (if n < savepoints.length then savepoints.length - 1 - n else savepoints.length)

/-- No violations of deferred immediate constraints are counted, and no other statement writes. -/
def Conn.connection (conn : Conn T V) : Connection where
  autoCommit := conn.autoCommit
  isTransactionSavepoint := conn.isTransactionSavepoint
  nSavepoint := conn.savepoints.length - if conn.isTransactionSavepoint then 1 else 0
  pSavepoint := named conn.savepoints
  nDeferredCons := conn.nDeferredCons
  nDeferredImmCons := 0
  nVdbeWrite := 0

/-- Outside of a transaction there are no savepoints and no violations. -/
def Conn.Idle (conn : Conn T V) : Prop :=
  conn.autoCommit = true →
    conn.savepoints = [] ∧ conn.isTransactionSavepoint = false ∧ conn.nDeferredCons = 0

section

variable (vals : Values V A C) (sc : Schema T V A C)

/-- The command that an act is. A statement whose conflict is resolved by ROLLBACK ends the
transaction as that command does. -/
def Conn.command (conn : Conn T V) : Act T V → Command
  | .statement s =>
    let after := conn.step vals sc (.statement s)
    if after.autoCommit && !conn.autoCommit then .rollback
    else .statement after.nDeferredCons 0
  | .begin => .begin
  | .commit => .commit false
  | .rollback => .rollback
  | .savepoint => .savepoint (nameOf conn.savepoints.length)
  | .release n => .release (nameAt conn.savepoints n) false
  | .rollbackTo n => .rollbackTo (nameAt conn.savepoints n)

def Conn.commands (conn : Conn T V) : List (Act T V) → List Command
  | [] => []
  | a :: rest => conn.command vals sc a :: (conn.step vals sc a).commands rest

end

private theorem sqlite3StrICmp_nameOf (a b : Nat) :
    sqlite3StrICmp (nameOf a) (nameOf b) = decide (a = b) := by
  rw [Bool.eq_iff_iff, sqlite3StrICmp_iff, decide_eq_true_eq]
  refine ⟨fun same => ?_, fun same => same ▸ rfl⟩
  simpa [fold, nameOf] using congrArg List.length same

section

omit [DecidableEq T] [DecidableEq V]

private theorem findSavepoint_absent (savepoints : List (Db T V × Int)) {depth : Nat}
    (absent : savepoints.length ≤ depth) :
    findSavepoint (nameOf depth) (named savepoints) = none := by
  induction savepoints with
  | nil => rfl
  | cons saved outer ih =>
    rw [length_cons] at absent
    have other : outer.length ≠ depth := by omega
    simp [named, findSavepoint, sqlite3StrICmp_nameOf, other, ih (by omega)]

private theorem findSavepoint_place {savepoints : List (Db T V × Int)} {n : Nat}
    {saved : Db T V × Int} (place : savepoints[n]? = some saved) :
    findSavepoint (nameAt savepoints n) (named savepoints) =
      some (n, ⟨nameAt savepoints n, saved.2, 0⟩, named (savepoints.drop (n + 1))) := by
  induction savepoints generalizing n with
  | nil => cases place
  | cons first outer ih =>
    cases n with
    | zero =>
      cases place
      simp [nameAt, named, findSavepoint, sqlite3StrICmp_nameOf]
    | succ n =>
      have inside := (List.getElem?_eq_some_iff.mp place).1
      rw [length_cons] at inside
      have inner : nameAt (first :: outer) (n + 1) = nameAt outer n := by
        simp only [nameAt, length_cons]
        rw [if_pos inside, if_pos (by omega)]
        congr 1
        omega
      have differs : sqlite3StrICmp (nameOf outer.length) (nameAt outer n) = false := by
        rw [nameAt, if_pos (by omega), sqlite3StrICmp_nameOf]
        exact decide_eq_false (by omega)
      rw [inner, named, findSavepoint, ih place, differs]
      rfl

private theorem named_drop (savepoints : List (Db T V × Int)) (n : Nat) :
    named (savepoints.drop n) = (named savepoints).drop n := by
  induction savepoints generalizing n with
  | nil => simp [named]
  | cons saved outer ih => cases n <;> simp [named, ih]

private theorem isEmpty_named (savepoints : List (Db T V × Int)) :
    (named savepoints).isEmpty = savepoints.isEmpty := by
  cases savepoints <;> rfl

end

/-- The return codes of the commands. -/
def Rc.code : Rc → Vdbe.Rc
  | .ok => .ok
  | .foreignKey => .constraintForeignkey
  | _ => .error

section

variable {vals : Values V A C} {sc : Schema T V A C} {conn : Conn T V}

omit [DecidableEq T] [DecidableEq V] in
private theorem Conn.idle_of_start (closed : conn.connection = Connection.start) : conn.Idle := by
  intro _
  obtain ⟨db, start, autoCommit, nDeferredCons, savepoints, isTransactionSavepoint⟩ := conn
  simp only [Conn.connection, Connection.start, Connection.mk.injEq] at closed
  cases savepoints with
  | nil => exact ⟨rfl, closed.2.1, closed.2.2.2.2.1⟩
  | cons saved outer => cases closed.2.2.2.1

private theorem Conn.statement_cases (vals : Values V A C) (sc : Schema T V A C)
    (conn : Conn T V) (s : Statement T V) :
    let after := conn.step vals sc (.statement s)
    after.connection = Connection.start ∨
      conn.autoCommit = false ∧ ∃ db n, after = { conn with db := db, nDeferredCons := n } := by
  simp only [Conn.step, Conn.act, Conn.statement, sqlite3VdbeHalt]
  split_ifs with auto
  all_goals first
    | exact .inl rfl
    | exact .inr ⟨Bool.eq_false_iff.mpr auto, _, _, rfl⟩

section

-- an act and the command that it is are compared by carrying both out
attribute [local simp] Conn.connection Connection.step Connection.opAutoCommit
  Connection.opSavepointEnd Connection.fail Connection.setAutoCommit Connection.sqlite3VdbeCheckFk
  Connection.sqlite3VdbeHalt Connection.sqlite3CloseSavepoints Connection.destroySavepoints
  Connection.clearCounters Connection.unwind_eq Vdbe.Outcome.success

private theorem Conn.Idle.statement (idle : conn.Idle) (s : Statement T V) :
    (conn.connection.step (conn.command vals sc (.statement s))).1 =
      (conn.step vals sc (.statement s)).connection := by
  rw [Conn.command]
  rcases conn.statement_cases vals sc s with ended | ⟨auto, db, n, eq⟩
  · rw [ended]
    have after : (conn.step vals sc (.statement s)).autoCommit = true :=
      congrArg Connection.autoCommit ended
    cases auto : conn.autoCommit with
    | true =>
      obtain ⟨none_open, notOpened, settled⟩ := idle auto
      simp [after, auto, none_open, notOpened, named, Connection.start]
    | false => simp [after, auto, Connection.sqlite3RollbackAll, Connection.start]
  · simp [eq, auto]

attribute [local simp] Conn.step Conn.act Conn.command Conn.commit Conn.committed Rc.code

/-- A command on the transaction does the same to both connections and returns the same code. -/
theorem Conn.Idle.control (idle : conn.Idle) {a : Act T V}
    (control : ∀ s, a ≠ .statement s) :
    (conn.connection.step (conn.command vals sc a)).1 = (conn.step vals sc a).connection ∧
      (conn.connection.step (conn.command vals sc a)).2.rc = (conn.act vals sc a).2.code := by
  cases auto : conn.autoCommit with
  | true =>
    obtain ⟨db, start, autoCommit, nDeferredCons, savepoints, isTransactionSavepoint⟩ := conn
    obtain ⟨none_open, notOpened, settled⟩ := idle auto
    dsimp only at auto none_open notOpened settled
    subst auto none_open notOpened settled
    cases a with
    | statement s => exact absurd rfl (control s)
    | begin | commit | rollback | «savepoint» | release n | rollbackTo n => exact ⟨rfl, rfl⟩
  | false =>
    cases a with
    | statement s => exact absurd rfl (control s)
    | begin => simp [auto]
    | commit => by_cases left : 0 < conn.nDeferredCons <;> simp [auto, left, named]
    | rollback => simp [auto, Conn.rollbackAll, Connection.sqlite3RollbackAll, named]
    | «savepoint» =>
      have count : ∀ x : Int, conn.savepoints.length - x + 1 = conn.savepoints.length + 1 - x := by
        omega
      simp [auto, Connection.opSavepointOpen, named, count]
    | release n =>
      cases place : conn.savepoints[n]? with
      | none =>
        have beyond : ¬n < conn.savepoints.length := by simpa using place
        simp [nameAt, beyond, findSavepoint_absent conn.savepoints le_rfl, auto]
      | some saved =>
        have inside := (List.getElem?_eq_some_iff.mp place).1
        have found := findSavepoint_place place
        have last : (named (conn.savepoints.drop (n + 1))).isEmpty =
            decide (n + 1 = conn.savepoints.length) := by
          rw [isEmpty_named, Bool.eq_iff_iff, List.isEmpty_iff, drop_eq_nil_iff, decide_eq_true_eq]
          omega
        by_cases ends : n + 1 = conn.savepoints.length ∧ conn.isTransactionSavepoint = true
        · have count : (conn.savepoints.length : Int) - 1 - n = 0 := by omega
          by_cases left : 0 < conn.nDeferredCons <;>
            simp [inside, ends, left, found, named, count, auto]
        · have stays : (decide (n + 1 = conn.savepoints.length) &&
              conn.isTransactionSavepoint) = false := by
            simpa using ends
          have count : ∀ x : Int, conn.savepoints.length - x - n - 1 =
              (conn.savepoints.length - (n + 1) : Nat) - x := by
            omega
          simp [inside, ends, stays, found, last, count, auto]
    | rollbackTo n =>
      cases place : conn.savepoints[n]? with
      | none =>
        have beyond : ¬n < conn.savepoints.length := by simpa using place
        simp [nameAt, beyond, findSavepoint_absent conn.savepoints le_rfl, auto]
      | some saved =>
        have inside := (List.getElem?_eq_some_iff.mp place).1
        have found := findSavepoint_place place
        have count : ∀ x : Int, conn.savepoints.length - x - n =
            (conn.savepoints.length - n : Nat) - x := by
          omega
        simp [place, found, count, named_drop, auto]

end

private theorem Conn.Idle.step (idle : conn.Idle) (a : Act T V) :
    (conn.step vals sc a).Idle := by
  have committed : conn.commit.1.Idle := by
    rw [Conn.commit]
    split
    · exact idle
    · exact fun _ => ⟨rfl, rfl, rfl⟩
  cases a with
  | statement s =>
    rcases conn.statement_cases vals sc s with ended | ⟨auto, db, n, eq⟩
    · exact Conn.idle_of_start ended
    · rw [eq]
      exact fun isIdle => absurd (auto.symm.trans isIdle) (by decide)
  | «savepoint» => exact fun isIdle => nomatch isIdle
  | begin =>
    simp only [Conn.step, Conn.act]
    split
    · exact fun isIdle => nomatch isIdle
    · exact idle
  | commit =>
    simp only [Conn.step, Conn.act]
    split
    · exact idle
    · exact committed
  | rollback =>
    simp only [Conn.step, Conn.act]
    split
    · exact idle
    · exact fun _ => ⟨rfl, rfl, rfl⟩
  | release n =>
    simp only [Conn.step, Conn.act]
    split
    · split
      · exact committed
      · intro isIdle
        obtain ⟨none_open, rest⟩ := idle isIdle
        exact ⟨by simp [none_open], rest⟩
    · exact idle
  | rollbackTo n =>
    simp only [Conn.step, Conn.act]
    split
    · rename_i found
      intro isIdle
      rw [(idle isIdle).1] at found
      cases found
    · exact idle

/-- One act is one command, on the fields that both have. -/
theorem Conn.Idle.step_connection (idle : conn.Idle) (a : Act T V) :
    (conn.connection.step (conn.command vals sc a)).1 = (conn.step vals sc a).connection := by
  cases a with
  | statement s => exact idle.statement s
  | begin | commit | rollback | «savepoint» | release n | rollbackTo n =>
    exact (idle.control (by simp)).1

/-- In every run of acts, what the connection comes to is what the opcodes make of the commands. -/
theorem run_connection (db : Db T V) (run : List (Act T V)) :
    (((Conn.committed db).commands vals sc run).foldl (fun c command => (c.step command).1)
      Connection.start) = (run.foldl (Conn.step vals sc) (Conn.committed db)).connection := by
  have general : ∀ conn : Conn T V, conn.Idle →
      (conn.commands vals sc run).foldl (fun c command => (c.step command).1) conn.connection =
        (run.foldl (Conn.step vals sc) conn).connection := by
    induction run with
    | nil => exact fun _ _ => rfl
    | cons a rest ih =>
      intro conn idle
      rw [Conn.commands, foldl_cons, foldl_cons, idle.step_connection]
      exact ih _ (idle.step a)
  exact general (.committed db) fun _ => ⟨rfl, rfl, rfl⟩

end

end SeSqlite.Fkey
