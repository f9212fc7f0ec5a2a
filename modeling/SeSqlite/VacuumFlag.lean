/- source: src/vacuum.c, src/build.c, ext/security/sesqlite/sesqlite_authorizer.c
   digest: The global vacuum flag across runs of VACUUM and CREATE TABLE. -/
import SeSqlite.Lib.Runs
import SeSqlite.Names

set_option autoImplicit false
set_option relaxedAutoImplicit false

namespace SeSqlite.VacuumFlag

open Lib.Runs Names

/-- The calls of `sqlite3RunVacuum` whose result sends control to `end_of_vacuum`. -/
inductive VacuumStep where
  | attach
  | synchronousOff
  | begin
  | beginTrans
  | setTempPageSize
  | createTables
  | createIndexes
  | createUniqueIndexes
  | copyTables
  | clearSequence
  | copySequence
  | copySchemaRows
  | updateMeta (iMeta : Fin 5)
  | copyFile
  | commitTemp
  | setMainPageSize
  deriving DecidableEq, Repr

def stepsBeforeSet : List VacuumStep :=
  [.attach, .synchronousOff, .begin, .beginTrans, .setTempPageSize]

/-- The steps between `set_vacuum(1)` and `set_vacuum(0)` that jump on failure. -/
def stepsWhileSet : List VacuumStep :=
  [.createTables, .createIndexes, .createUniqueIndexes, .copyTables, .clearSequence,
    .copySequence, .copySchemaRows, .updateMeta 0, .updateMeta 1, .updateMeta 2,
    .updateMeta 3, .updateMeta 4, .copyFile, .commitTemp]

structure DbFlags where
  writeSchema : Bool
  ignoreChecks : Bool
  preferBuiltin : Bool
  foreignKeys : Bool
  reverseOrder : Bool
  deriving DecidableEq, Repr

/-- A table as `sqlite3EndTable` leaves it. -/
structure CreatedTable where
  zName : String
  hookInvoked : Bool
  textExtended : Bool
  deriving DecidableEq, Repr

/-- The process global `vacuum` and the part of the connection that VACUUM saves. -/
structure Session where
  vacuum : Int
  flags : DbFlags
  autoCommit : Bool
  nVdbeActive : Nat
  xAddExtraColumn : Bool
  tables : List CreatedTable
  deriving DecidableEq, Repr

def sqliteError : Int := 1

def setVacuum (type : Int) (s : Session) : Session := { s with vacuum := type }

def isVacuum (s : Session) : Bool := s.vacuum != 0

def runSteps (rc : VacuumStep → Int) : List VacuumStep → Int
  | [] => 0
  | step :: rest => if rc step = 0 then runSteps rc rest else rc step

def endOfVacuum (savedFlags : DbFlags) (s : Session) : Session :=
  { s with flags := savedFlags, autoCommit := true }

/-- `sqlite3RunVacuum`, with the result code of every call given by `rc`. -/
def sqlite3RunVacuum (rc : VacuumStep → Int) (s : Session) : Session × Int :=
  if !s.autoCommit then (s, sqliteError)
  else if s.nVdbeActive > 1 then (s, sqliteError)
  else
    let working := { s with flags := { s.flags with
      writeSchema := true, ignoreChecks := true, preferBuiltin := true,
      foreignKeys := false, reverseOrder := false } }
    if runSteps rc stepsBeforeSet ≠ 0 then
      (endOfVacuum s.flags working, runSteps rc stepsBeforeSet)
    else if runSteps rc stepsWhileSet ≠ 0 then
      -- the jump passes over `set_vacuum(0)`
      (endOfVacuum s.flags (setVacuum 1 working), runSteps rc stepsWhileSet)
    else
      (endOfVacuum s.flags (setVacuum 0 (setVacuum 1 working)), rc .setMainPageSize)

/-- The part of `sqlite3EndTable` that concerns labels. -/
def sqlite3EndTable (zName : String) (s : Session) : CreatedTable where
  zName := zName
  hookInvoked := s.xAddExtraColumn && !isVacuum s
  textExtended := !isVacuum s && isUserTable zName

/-- One statement of a run. What a VACUUM meets when it starts, and which of its calls
fail, is decided elsewhere and given with the statement. -/
inductive Statement where
  | createTable (zName : String)
  | vacuum (autoCommit : Bool) (nVdbeActive : Nat) (rc : VacuumStep → Int)

def execute (s : Session) : Statement → Session
  | .createTable zName => { s with tables := s.tables ++ [sqlite3EndTable zName s] }
  | .vacuum autoCommit nVdbeActive rc =>
    (sqlite3RunVacuum rc { s with autoCommit := autoCommit, nVdbeActive := nVdbeActive }).1

def opened (flags : DbFlags) : Session where
  vacuum := 0
  flags := flags
  autoCommit := true
  nVdbeActive := 0
  xAddExtraColumn := true
  tables := []

/-- A VACUUM that is refused, or stops before it sets the flag, or has no failing call
between setting and clearing it. -/
def Clears : Statement → Prop
  | .createTable _ => True
  | .vacuum autoCommit nVdbeActive rc =>
    autoCommit = false ∨ 1 < nVdbeActive ∨ (∃ step ∈ stepsBeforeSet, rc step ≠ 0) ∨
      ∀ step ∈ stepsWhileSet, rc step = 0

/-- Between statements the flag is zero, a CREATE TABLE would invoke the hook, and every
table created so far did. -/
def Labelling (s : Session) : Prop :=
  s.vacuum = 0 ∧ (∀ zName, (sqlite3EndTable zName s).hookInvoked) ∧
    ∀ table ∈ s.tables, table.hookInvoked

section

variable (rc : VacuumStep → Int)

include rc

theorem runSteps_eq_zero_iff (steps : List VacuumStep) :
    runSteps rc steps = 0 ↔ ∀ step ∈ steps, rc step = 0 := by
  induction steps with
  | nil => simp [runSteps]
  | cons step rest ih =>
    simp only [runSteps]
    split <;> simp_all

theorem sqlite3RunVacuum_clear_iff (s : Session) (clear : s.vacuum = 0) :
    (sqlite3RunVacuum rc s).1.vacuum = 0 ↔
      s.autoCommit = false ∨ 1 < s.nVdbeActive ∨ (∃ step ∈ stepsBeforeSet, rc step ≠ 0) ∨
        ∀ step ∈ stepsWhileSet, rc step = 0 := by
  have before : (∃ step ∈ stepsBeforeSet, rc step ≠ 0) ↔ runSteps rc stepsBeforeSet ≠ 0 := by
    simp [runSteps_eq_zero_iff]
  rw [← runSteps_eq_zero_iff rc stepsWhileSet]
  unfold sqlite3RunVacuum
  split_ifs <;> simp_all [endOfVacuum, setVacuum]

theorem sqlite3RunVacuum_tables (s : Session) : (sqlite3RunVacuum rc s).1.tables = s.tables := by
  unfold sqlite3RunVacuum
  split_ifs <;> rfl

theorem sqlite3RunVacuum_xAddExtraColumn (s : Session) :
    (sqlite3RunVacuum rc s).1.xAddExtraColumn = s.xAddExtraColumn := by
  unfold sqlite3RunVacuum
  split_ifs <;> rfl

end

theorem hookInvoked_iff (zName : String) (s : Session) :
    (sqlite3EndTable zName s).hookInvoked ↔ s.xAddExtraColumn ∧ s.vacuum = 0 := by
  simp [sqlite3EndTable, isVacuum]

/-- While labelling is on, a statement keeps it on exactly when it is no VACUUM that
jumps between setting and clearing the flag. -/
theorem labelling_execute_iff (s : Session) (statement : Statement) (labelling : Labelling s) :
    Labelling (execute s statement) ↔ Clears statement := by
  obtain ⟨clear, hook, created⟩ := labelling
  have registered := ((hookInvoked_iff "" s).mp (hook "")).1
  cases statement with
  | createTable zName =>
    refine iff_of_true ⟨clear, hook, fun table member => ?_⟩ trivial
    rcases List.mem_append.mp member with old | new
    · exact created table old
    · obtain rfl := List.mem_singleton.mp new
      exact hook zName
  | vacuum autoCommit nVdbeActive rc =>
    rw [Clears, ← sqlite3RunVacuum_clear_iff rc { s with
      autoCommit := autoCommit, nVdbeActive := nVdbeActive } clear]
    constructor
    · exact fun after => after.1
    · refine fun zero => ⟨zero, fun zName => ?_, fun table member => ?_⟩
      · rw [hookInvoked_iff, execute, sqlite3RunVacuum_xAddExtraColumn]
        exact ⟨registered, zero⟩
      · rw [execute, sqlite3RunVacuum_tables] at member
        exact created table member

/-- In every run, the flag is clear and the hook is invoked by every CREATE TABLE outside
a VACUUM exactly when no VACUUM of the run jumps past the clearing of the flag. -/
theorem visits_labelling_iff (flags : DbFlags) (run : List Statement) :
    Visits execute Labelling (opened flags) run ↔ ∀ statement ∈ run, Clears statement := by
  have start : Labelling (opened flags) :=
    ⟨rfl, fun zName => (hookInvoked_iff zName _).mpr ⟨rfl, rfl⟩, by simp [opened]⟩
  rw [visits_iff_along labelling_execute_iff start run, along_const_iff]

def failedCopyThenCreate : List Statement :=
  [.vacuum true 1 fun step => if step = .copyTables then sqliteError else 0, .createTable "t"]

/-- The flag stays set and the table created after the failed VACUUM is not labelled. -/
theorem failedCopyThenCreate_unlabelled :
    let final := failedCopyThenCreate.foldl execute (opened ⟨false, false, false, true, false⟩)
    final.vacuum = 1 ∧ final.tables = [⟨"t", false, false⟩] := by decide

end SeSqlite.VacuumFlag
