/- source: src/vdbe.c, src/vdbeaux.c, src/main.c
   digest: The transaction commands act on the list of savepoints as on a stack of transactions. -/
import Mathlib.Data.List.Basic
import SeSqlite.Lib.Runs
import SeSqlite.Names

set_option autoImplicit false
set_option relaxedAutoImplicit false

namespace SeSqlite.Vdbe

open Lib.Runs Names List

inductive Rc where
  | ok
  | error
  | busy
  | constraintForeignkey
  deriving DecidableEq

/-- `SAVEPOINT_BEGIN`, `SAVEPOINT_RELEASE` and `SAVEPOINT_ROLLBACK` -/
inductive SavepointOp where
  | open
  | release
  | rollback
  deriving DecidableEq

/-- A savepoint, with the counters of deferred violations at the time it was opened. -/
structure Savepoint where
  zName : String
  nDeferredCons : Int
  nDeferredImmCons : Int
  deriving DecidableEq

/-- The fields of `sqlite3` that the two opcodes read and write; the list begins with the savepoint
opened last. -/
structure Connection where
  autoCommit : Bool
  isTransactionSavepoint : Bool
  nSavepoint : Int
  pSavepoint : List Savepoint
  nDeferredCons : Int
  nDeferredImmCons : Int
  nVdbeWrite : Nat
  deriving DecidableEq

/-- What a command returns, and what it passes to `sqlite3BtreeSavepoint` of each database. -/
structure Outcome where
  rc : Rc
  zErrMsg : Option String
  btreeSavepoint : Option (SavepointOp × Int)
  deriving DecidableEq

def Outcome.success : Outcome := ⟨.ok, none, none⟩

def Outcome.failed (outcome : Outcome) : Bool := outcome.rc ≠ .ok

namespace Connection

variable (db : Connection)

def setAutoCommit (autoCommit : Bool) : Connection := { db with autoCommit := autoCommit }

def clearCounters : Connection := { db with nDeferredCons := 0, nDeferredImmCons := 0 }

def sqlite3CloseSavepoints : Connection :=
  { db with pSavepoint := [], nSavepoint := 0, isTransactionSavepoint := false }

def sqlite3RollbackAll : Connection := db.clearCounters

def sqlite3VdbeCheckFk : Rc := if db.nDeferredCons + db.nDeferredImmCons > 0 then .error else .ok

/-- `sqlite3VdbeHalt` for a statement that writes to no database, with the error it has met; `busy`
says that `vdbeCommit` cannot get its locks. -/
def sqlite3VdbeHalt (rc : Rc) (busy : Bool) : Rc × Connection :=
  if db.autoCommit ∧ db.nVdbeWrite = 0 then
    if rc = .ok then
      if db.sqlite3VdbeCheckFk ≠ .ok then (.error, db)
      else if busy then (.busy, db)
      else (.ok, db.clearCounters)
    else (.ok, db.sqlite3RollbackAll)
  else (.ok, db)

def fail (rc : Rc) (zErrMsg : String) : Connection × Outcome :=
  ((db.sqlite3VdbeHalt rc false).2, ⟨rc, some zErrMsg, none⟩)

end Connection

/-- The loop that looks for the name: the number of savepoints before it, the savepoint and those
behind it. -/
def findSavepoint (zName : String) : List Savepoint → Option (Nat × Savepoint × List Savepoint)
  | [] => none
  | p :: pNext =>
    if sqlite3StrICmp p.zName zName then some (0, p, pNext)
    else (findSavepoint zName pNext).map fun found => (found.1 + 1, found.2)

namespace Connection

/-- The loop that destroys the savepoints inside the one operated on. -/
def unwind : Nat → Connection → Connection
  | 0, db => db
  | count + 1, db =>
    unwind count { db with pSavepoint := db.pSavepoint.tail, nSavepoint := db.nSavepoint - 1 }

variable (db : Connection)

def opSavepointOpen (zName : String) : Connection × Outcome :=
  if db.nVdbeWrite > 0 then db.fail .busy "cannot open savepoint - SQL statements in progress"
  else
    let pNew := Savepoint.mk zName db.nDeferredCons db.nDeferredImmCons
    let db := if db.autoCommit then { db with autoCommit := false, isTransactionSavepoint := true }
      else { db with nSavepoint := db.nSavepoint + 1 }
    ({ db with pSavepoint := pNew :: db.pSavepoint }, .success)

/-- What is done to the list once the databases have done their part. -/
def destroySavepoints (p1 : SavepointOp) (isTransaction : Bool) (inside : Nat)
    (pSavepoint : Savepoint) (pNext : List Savepoint) : Connection :=
  let db := unwind inside db
  if p1 = .release then
    { db with
      pSavepoint := pNext
      nSavepoint := if isTransaction then db.nSavepoint else db.nSavepoint - 1 }
  else
    { db with
      nDeferredCons := pSavepoint.nDeferredCons
      nDeferredImmCons := pSavepoint.nDeferredImmCons }

/-- `OP_Savepoint` with `SAVEPOINT_RELEASE` or `SAVEPOINT_ROLLBACK` -/
def opSavepointEnd (p1 : SavepointOp) (zName : String) (busy : Bool) : Connection × Outcome :=
  match findSavepoint zName db.pSavepoint with
  | none => db.fail .error ("no such savepoint: " ++ zName)
  | some (iSavepoint, pSavepoint, pNext) =>
    if db.nVdbeWrite > 0 ∧ p1 = .release then
      db.fail .busy "cannot release savepoint - SQL statements in progress"
    else
      let isTransaction := pNext.isEmpty && db.isTransactionSavepoint
      if isTransaction ∧ p1 = .release then
        if db.sqlite3VdbeCheckFk ≠ .ok then
          (db, ⟨.constraintForeignkey, some "FOREIGN KEY constraint failed", none⟩)
        else
          match (db.setAutoCommit true).sqlite3VdbeHalt .ok busy with
          | (.busy, db) => (db.setAutoCommit false, ⟨.busy, none, none⟩)
          | (_, db) => ({ db with isTransactionSavepoint := false }.destroySavepoints p1 true
              iSavepoint pSavepoint pNext, .success)
      else
        (db.destroySavepoints p1 isTransaction iSavepoint pSavepoint pNext,
          ⟨.ok, none, some (p1, db.nSavepoint - iSavepoint - 1)⟩)

def opAutoCommit (desiredAutoCommit iRollback busy : Bool) : Connection × Outcome :=
  let turnOnAC := desiredAutoCommit && !db.autoCommit
  if turnOnAC ∧ iRollback = false ∧ db.nVdbeWrite > 0 then
    db.fail .busy "cannot commit transaction - SQL statements in progress"
  else if desiredAutoCommit ≠ db.autoCommit then
    if iRollback then
      ((db.sqlite3RollbackAll.setAutoCommit true).sqlite3CloseSavepoints, .success)
    else if db.sqlite3VdbeCheckFk ≠ .ok then
      (db, ⟨.constraintForeignkey, some "FOREIGN KEY constraint failed", none⟩)
    else
      match (db.setAutoCommit desiredAutoCommit).sqlite3VdbeHalt .ok busy with
      | (.busy, db) => (db.setAutoCommit !desiredAutoCommit, ⟨.busy, none, none⟩)
      | (_, db) => (db.sqlite3CloseSavepoints, .success)
  else
    db.fail .error (if !desiredAutoCommit then "cannot start a transaction within a transaction"
      else if iRollback then "cannot rollback - no transaction is active"
      else "cannot commit - no transaction is active")

end Connection

/-- The commands, of which those that commit may find a database locked, and the other statements,
which leave the counters of a transaction with any values. -/
inductive Command where
  | begin
  | savepoint (zName : String)
  | release (zName : String) (busy : Bool)
  | rollbackTo (zName : String)
  | commit (busy : Bool)
  | rollback
  | statement (nDeferredCons nDeferredImmCons : Int)

/-- A statement outside of a transaction is committed or rolled back itself, after which there are
no violations. -/
def Connection.step (db : Connection) : Command → Connection × Outcome
  | .begin => db.opAutoCommit false false false
  | .savepoint zName => db.opSavepointOpen zName
  | .release zName busy => db.opSavepointEnd .release zName busy
  | .rollbackTo zName => db.opSavepointEnd .rollback zName false
  | .commit busy => db.opAutoCommit true false busy
  | .rollback => db.opAutoCommit true true false
  | .statement nDeferredCons nDeferredImmCons =>
    if db.autoCommit then (db.clearCounters, .success)
    else ({ db with nDeferredCons := nDeferredCons, nDeferredImmCons := nDeferredImmCons },
      .success)

def Connection.start : Connection := ⟨true, false, 0, [], 0, 0, 0⟩

/-- An open transaction: the savepoint that opened it, unless BEGIN did, and the savepoints inside,
the innermost first. -/
structure Transaction where
  base : Option Savepoint
  inside : List Savepoint

/-- At most one transaction, and the counters of deferred violations. -/
structure Stack where
  transaction : Option Transaction
  nDeferredCons : Int
  nDeferredImmCons : Int

namespace Stack

variable (s : Stack)

def named (zName : String) (savepoints : List Savepoint) : List Savepoint :=
  savepoints.dropWhile fun p => !sqlite3StrICmp p.zName zName

def fail (rc : Rc) (zErrMsg : String) : Stack × Outcome := (s, ⟨rc, some zErrMsg, none⟩)

/-- The transaction ends, if no violation is left and all locks are there. -/
def commit (busy : Bool) : Stack × Outcome :=
  if s.nDeferredCons + s.nDeferredImmCons > 0 then
    s.fail .constraintForeignkey "FOREIGN KEY constraint failed"
  else if busy then (s, ⟨.busy, none, none⟩)
  else (⟨none, 0, 0⟩, .success)

/-- Everything since the savepoint is undone; it stays open. Its place is counted from the
outermost savepoint inside the transaction. -/
def rollbackTo (t : Transaction) (p : Savepoint) (inside : List Savepoint) (place : Int) :
    Stack × Outcome :=
  (⟨some { t with inside := inside }, p.nDeferredCons, p.nDeferredImmCons⟩,
    ⟨.ok, none, some (.rollback, place)⟩)

def step (s : Stack) (command : Command) : Stack × Outcome :=
  match command, s.transaction with
  | .begin, none => ({ s with transaction := some ⟨none, []⟩ }, .success)
  | .begin, some _ => s.fail .error "cannot start a transaction within a transaction"
  | .savepoint zName, none =>
    ({ s with transaction := some ⟨some ⟨zName, s.nDeferredCons, s.nDeferredImmCons⟩, []⟩ },
      .success)
  | .savepoint zName, some t =>
    ({ s with transaction := some { t with
        inside := ⟨zName, s.nDeferredCons, s.nDeferredImmCons⟩ :: t.inside } }, .success)
  | .release zName _, none => s.fail .error ("no such savepoint: " ++ zName)
  | .release zName busy, some t =>
    match named zName t.inside, named zName t.base.toList with
    | _ :: outer, _ => ({ s with transaction := some { t with inside := outer } },
        ⟨.ok, none, some (.release, outer.length)⟩)
    | [], _ :: _ => s.commit busy
    | [], [] => s.fail .error ("no such savepoint: " ++ zName)
  | .rollbackTo zName, none => s.fail .error ("no such savepoint: " ++ zName)
  | .rollbackTo zName, some t =>
    match named zName t.inside, named zName t.base.toList with
    | p :: outer, _ => rollbackTo t p (p :: outer) outer.length
    | [], p :: _ => rollbackTo t p [] (-1)
    | [], [] => s.fail .error ("no such savepoint: " ++ zName)
  | .commit _, none => s.fail .error "cannot commit - no transaction is active"
  | .commit busy, some _ => s.commit busy
  | .rollback, none => s.fail .error "cannot rollback - no transaction is active"
  | .rollback, some _ => (⟨none, 0, 0⟩, .success)
  | .statement _ _, none => (s, .success)
  | .statement nDeferredCons nDeferredImmCons, some t =>
    (⟨some t, nDeferredCons, nDeferredImmCons⟩, .success)

def connection : Connection :=
  match s.transaction with
  | none => ⟨true, false, 0, [], s.nDeferredCons, s.nDeferredImmCons, 0⟩
  | some t => ⟨false, t.base.isSome, t.inside.length, t.inside ++ t.base.toList, s.nDeferredCons,
      s.nDeferredImmCons, 0⟩

def start : Stack := ⟨none, 0, 0⟩

/-- Outside of a transaction there are no violations. -/
def Settled : Prop := s.transaction = none → s.nDeferredCons = 0 ∧ s.nDeferredImmCons = 0

end Stack

theorem Stack.step_failed {s : Stack} {command : Command}
    (failed : (s.step command).2.failed = true) : (s.step command).1 = s := by
  obtain ⟨transaction, cons, imm⟩ := s
  have commit_failed : ∀ (s : Stack) (busy : Bool), (s.commit busy).2.failed = true →
      (s.commit busy).1 = s := by
    intro s busy failed
    unfold Stack.commit at failed ⊢
    split
    · rfl
    · rename_i settled
      rw [if_neg settled] at failed
      split
      · rfl
      · rename_i free
        rw [if_neg free] at failed
        cases failed
  have kept : ∀ {s s' : Stack} {place : Option (SavepointOp × Int)},
      Outcome.failed ⟨.ok, none, place⟩ = true → s' = s :=
    fun failed => absurd failed (by simp [Outcome.failed])
  cases command with
  | begin => cases transaction <;> first | rfl | exact kept failed
  | savepoint zName => cases transaction <;> exact kept failed
  | commit busy =>
    cases transaction with
    | none => rfl
    | some t => exact commit_failed _ busy failed
  | rollback => cases transaction <;> first | rfl | exact kept failed
  | statement nDeferredCons nDeferredImmCons => cases transaction <;> exact kept failed
  | release zName busy =>
    cases transaction with
    | none => rfl
    | some t =>
      simp only [Stack.step] at failed ⊢
      split
      · rename_i found
        rw [found] at failed
        exact kept failed
      · rename_i absent found
        rw [absent, found] at failed
        exact commit_failed _ busy failed
      · rfl
  | rollbackTo zName =>
    cases transaction with
    | none => rfl
    | some t =>
      simp only [Stack.step] at failed ⊢
      split
      · rename_i found
        rw [found] at failed
        exact kept failed
      · rename_i absent found
        rw [absent, found] at failed
        exact kept failed
      · rfl

section

open Connection

theorem Connection.unwind_eq (count : Nat) (db : Connection) : unwind count db =
    { db with pSavepoint := db.pSavepoint.drop count, nSavepoint := db.nSavepoint - count } := by
  induction count generalizing db with
  | zero => simp [unwind]
  | succ count ih =>
    rw [unwind, ih, drop_tail]
    congr 1
    dsimp only
    omega

theorem findSavepoint_eq (zName : String) (savepoints : List Savepoint) :
    findSavepoint zName savepoints = match Stack.named zName savepoints with
      | [] => none
      | p :: outer => some (savepoints.length - (outer.length + 1), p, outer) := by
  induction savepoints with
  | nil => rfl
  | cons p pNext ih =>
    rw [findSavepoint]
    cases same : sqlite3StrICmp p.zName zName with
    | true => simp [Stack.named, same]
    | false =>
      have skipped : Stack.named zName (p :: pNext) = Stack.named zName pNext := by
        simp [Stack.named, same]
      rw [if_neg Bool.false_ne_true, ih, skipped]
      cases rest : Stack.named zName pNext with
      | nil => rfl
      | cons q outer =>
        have short : outer.length + 1 ≤ pNext.length := by
          have le : (Stack.named zName pNext).length ≤ pNext.length :=
            (dropWhile_sublist _).length_le
          rwa [rest] at le
        simp only [Option.map_some, length_cons]
        congr 2
        omega

theorem named_eq_drop (zName : String) (savepoints : List Savepoint) :
    Stack.named zName savepoints =
      savepoints.drop (savepoints.length - (Stack.named zName savepoints).length) :=
  suffix_iff_eq_drop.mp (dropWhile_suffix _)

theorem named_append (zName : String) (inner outer : List Savepoint) :
    Stack.named zName (inner ++ outer) =
      if Stack.named zName inner = [] then Stack.named zName outer
      else Stack.named zName inner ++ outer := by
  rw [Stack.named, Stack.named, Stack.named, dropWhile_append]
  simp

section

variable {s : Stack} {t : Transaction} {zName : String}

theorem Stack.Settled.fail (settled : s.Settled) {rc : Rc} (error : rc ≠ .ok) (zErrMsg : String) :
    s.connection.fail rc zErrMsg = ((s.fail rc zErrMsg).1.connection, (s.fail rc zErrMsg).2) := by
  obtain ⟨transaction, cons, imm⟩ := s
  cases transaction with
  | none =>
    obtain ⟨rfl, rfl⟩ := settled rfl
    simp [Stack.connection, Connection.fail, Connection.sqlite3VdbeHalt, error, Stack.fail,
      Connection.sqlite3RollbackAll, Connection.clearCounters]
  | some t =>
    simp [Stack.connection, Connection.fail, Connection.sqlite3VdbeHalt, Stack.fail]

theorem opSavepointEnd_inside {p : Savepoint} {outer : List Savepoint}
    (opened : s.transaction = some t) (found : Stack.named zName t.inside = p :: outer)
    (p1 : SavepointOp) (busy : Bool) : s.connection.opSavepointEnd p1 zName busy =
      (s.connection.destroySavepoints p1 false (t.inside.length - (outer.length + 1)) p
        (outer ++ t.base.toList), ⟨.ok, none, some (p1, outer.length)⟩) := by
  have le : outer.length + 1 ≤ t.inside.length := by
    have le : (Stack.named zName t.inside).length ≤ t.inside.length :=
      (dropWhile_sublist _).length_le
    rwa [found] at le
  have search : findSavepoint zName s.connection.pSavepoint =
      some (t.inside.length - (outer.length + 1), p, outer ++ t.base.toList) := by
    rw [findSavepoint_eq]
    simp only [Stack.connection, opened, named_append, found, if_neg (cons_ne_nil p outer),
      cons_append, length_append]
    congr 2
    omega
  -- the list goes on with the savepoint of the transaction, if there is one
  have notBase : ((outer ++ t.base.toList).isEmpty && s.connection.isTransactionSavepoint) =
      false := by
    simp only [Stack.connection, opened]
    cases t.base with
    | none => simp
    | some base => simp
  have place : s.connection.nSavepoint - ((t.inside.length - (outer.length + 1) : Nat) : Int) - 1 =
      outer.length := by
    simp only [Stack.connection, opened]
    omega
  have idle : ¬ (s.connection.nVdbeWrite > 0 ∧ p1 = .release) := by
    simp [Stack.connection, opened]
  rw [opSavepointEnd, search]
  simp [if_neg idle, notBase, place]

theorem findSavepoint_base {base : Savepoint} {rest : List Savepoint}
    (opened : s.transaction = some t) (notInside : Stack.named zName t.inside = [])
    (found : Stack.named zName t.base.toList = base :: rest) : rest = [] ∧ t.base = some base ∧
    findSavepoint zName s.connection.pSavepoint = some (t.inside.length, base, []) := by
  cases based : t.base with
  | none =>
    rw [based] at found
    exact absurd found (by simp [Stack.named])
  | some q =>
    have cases_named : Stack.named zName [q] = [] ∨ Stack.named zName [q] = [q] := by
      cases same : sqlite3StrICmp q.zName zName with
      | true => exact .inr (by simp [Stack.named, same])
      | false => exact .inl (by simp [Stack.named, same])
    rw [based, Option.toList_some] at found
    rcases cases_named with none | one
    · exact absurd (none.symm.trans found) (by simp)
    · rw [one] at found
      obtain ⟨rfl, rfl⟩ := List.cons.inj found
      refine ⟨rfl, rfl, ?_⟩
      rw [findSavepoint_eq]
      simp only [Stack.connection, opened, named_append, notInside, based, Option.toList_some, one,
        length_append]
      congr 2

theorem Connection.sqlite3VdbeHalt_commit (db : Connection) (auto : db.autoCommit = true)
    (idle : db.nVdbeWrite = 0) (settled : db.sqlite3VdbeCheckFk = .ok) (busy : Bool) :
    db.sqlite3VdbeHalt .ok busy = if busy then (.busy, db)
      else (.ok, db.clearCounters) := by
  rw [sqlite3VdbeHalt, if_pos ⟨auto, idle⟩, if_pos rfl, if_neg (not_not.mpr settled)]

theorem Stack.commit_connection (opened : s.transaction = some t) (busy : Bool)
    (finish : Connection → Connection)
    (finished : finish (s.connection.setAutoCommit true).clearCounters = Stack.start.connection) :
    (if s.connection.sqlite3VdbeCheckFk ≠ .ok then
      (s.connection, ⟨.constraintForeignkey, some "FOREIGN KEY constraint failed", none⟩)
    else
      match (s.connection.setAutoCommit true).sqlite3VdbeHalt .ok busy with
      | (.busy, db) => (db.setAutoCommit false, ⟨.busy, none, none⟩)
      | (_, db) => (finish db, .success)) =
    (((s.commit busy).1.connection, (s.commit busy).2) : Connection × Outcome) := by
  have idle : s.connection.nVdbeWrite = 0 := by
    simp [Stack.connection, opened]
  have inside : s.connection.autoCommit = false := by
    simp [Stack.connection, opened]
  have counters : s.connection.nDeferredCons + s.connection.nDeferredImmCons =
      s.nDeferredCons + s.nDeferredImmCons := by
    simp [Stack.connection, opened]
  rw [Stack.commit]
  by_cases violated : s.nDeferredCons + s.nDeferredImmCons > 0
  · have check : s.connection.sqlite3VdbeCheckFk ≠ .ok := by
      simp [sqlite3VdbeCheckFk, counters, violated]
    rw [if_pos check, if_pos violated]
    rfl
  · have check : s.connection.sqlite3VdbeCheckFk = .ok := by
      simp [sqlite3VdbeCheckFk, counters, violated]
    have halt := sqlite3VdbeHalt_commit (s.connection.setAutoCommit true) rfl idle check busy
    rw [if_neg (not_not.mpr check), if_neg violated, halt]
    cases busy with
    | true =>
      rw [← inside]
      rfl
    | false =>
      simp only [Bool.false_eq_true, if_false, finished]
      rfl

end

/-- A connection and a stack do the same. -/
def Simulates (s : Stack) (command : Command) : Prop :=
  s.connection.step command = ((s.step command).1.connection, (s.step command).2)

variable {s : Stack}

section

variable (settled : s.Settled)

include settled

theorem simulates_release (zName : String) (busy : Bool) : Simulates s (.release zName busy) := by
  rw [Simulates, step]
  cases opened : s.transaction with
  | none =>
    have search : findSavepoint zName s.connection.pSavepoint = none := by
      simp [Stack.connection, opened, findSavepoint]
    simp only [opSavepointEnd, search, Stack.step, opened]
    exact settled.fail (by decide) _
  | some t =>
    simp only [Stack.step, opened]
    split
    · rename_i p outer found
      rw [opSavepointEnd_inside opened found]
      simp only [Stack.connection, opened, destroySavepoints, unwind_eq,
        if_true, Bool.false_eq_true, if_false]
      congr 2
      have le : (Stack.named zName t.inside).length ≤ t.inside.length :=
        (dropWhile_sublist _).length_le
      rw [found, length_cons] at le
      omega
    · rename_i base rest notInside found
      obtain ⟨rfl, based, search⟩ := findSavepoint_base opened notInside found
      have isTransaction : (([] : List Savepoint).isEmpty && s.connection.isTransactionSavepoint) =
          true := by
        simp [Stack.connection, opened, based]
      have idle : s.connection.nVdbeWrite = 0 := by
        simp [Stack.connection, opened]
      rw [opSavepointEnd, search]
      simp only [idle, isTransaction]
      refine s.commit_connection opened busy _ ?_
      simp [destroySavepoints, unwind_eq, Stack.connection, opened, Stack.start,
        setAutoCommit, clearCounters]
    · rename_i notInside notBase
      have search : findSavepoint zName s.connection.pSavepoint = none := by
        rw [findSavepoint_eq]
        simp [Stack.connection, opened, named_append, notInside, notBase]
      rw [opSavepointEnd, search]
      exact settled.fail (by decide) _

theorem simulates_rollbackTo (zName : String) : Simulates s (.rollbackTo zName) := by
  rw [Simulates, step]
  cases opened : s.transaction with
  | none =>
    have search : findSavepoint zName s.connection.pSavepoint = none := by
      simp [Stack.connection, opened, findSavepoint]
    simp only [opSavepointEnd, search, Stack.step, opened]
    exact settled.fail (by decide) _
  | some t =>
    simp only [Stack.step, opened]
    split
    · rename_i p outer found
      have whole : (t.inside ++ t.base.toList).drop (t.inside.length - (outer.length + 1)) =
          p :: outer ++ t.base.toList := by
        rw [← found, drop_append_of_le_length (Nat.sub_le _ _), named_eq_drop, found, length_cons]
      have le : (Stack.named zName t.inside).length ≤ t.inside.length :=
        (dropWhile_sublist _).length_le
      rw [found, length_cons] at le
      rw [opSavepointEnd_inside opened found]
      simp only [Stack.connection, opened, destroySavepoints, unwind_eq, Stack.rollbackTo,
        reduceCtorEq, if_false, length_cons]
      congr 2
      omega
    · rename_i base rest notInside found
      obtain ⟨rfl, based, search⟩ := findSavepoint_base opened notInside found
      rw [opSavepointEnd, search]
      simp only [reduceCtorEq, and_false, if_false, destroySavepoints, unwind_eq, Stack.rollbackTo,
        Stack.connection, opened, drop_left, length_nil]
      congr 2
      · omega
      · congr 2
        omega
    · rename_i notInside notBase
      have search : findSavepoint zName s.connection.pSavepoint = none := by
        rw [findSavepoint_eq]
        simp [Stack.connection, opened, named_append, notInside, notBase]
      rw [opSavepointEnd, search]
      exact settled.fail (by decide) _

theorem simulates_begin : Simulates s .begin := by
  obtain ⟨transaction, cons, imm⟩ := s
  cases transaction with
  | none =>
    obtain ⟨rfl, rfl⟩ := settled rfl
    rfl
  | some t =>
    rw [Simulates, step, opAutoCommit]
    exact settled.fail (by decide) _

theorem simulates_commit (busy : Bool) : Simulates s (.commit busy) := by
  rw [Simulates, step, opAutoCommit]
  cases opened : s.transaction with
  | none =>
    have auto : s.connection.autoCommit = true := by simp [Stack.connection, opened]
    simp only [auto, Stack.step, opened]
    exact settled.fail (by decide) _
  | some t =>
    have inside : s.connection.autoCommit = false := by simp [Stack.connection, opened]
    have idle : s.connection.nVdbeWrite = 0 := by simp [Stack.connection, opened]
    have closed : (s.connection.setAutoCommit true).clearCounters.sqlite3CloseSavepoints =
        Stack.start.connection := by
      simp [Stack.connection, opened, Stack.start, setAutoCommit,
        clearCounters, sqlite3CloseSavepoints]
    simp only [inside, idle, Stack.step, opened]
    exact s.commit_connection opened busy _ closed

theorem simulates_rollback : Simulates s .rollback := by
  rw [Simulates, step, opAutoCommit]
  cases opened : s.transaction with
  | none =>
    have auto : s.connection.autoCommit = true := by simp [Stack.connection, opened]
    simp only [auto, Stack.step, opened]
    exact settled.fail (by decide) _
  | some t =>
    simp [Stack.connection, Stack.step, opened, sqlite3RollbackAll,
      clearCounters, setAutoCommit, sqlite3CloseSavepoints]

theorem simulates (command : Command) : Simulates s command := by
  cases command with
  | begin => exact simulates_begin settled
  | savepoint zName =>
    rw [Simulates, step, opSavepointOpen]
    cases opened : s.transaction with
    | none => simp [Stack.connection, Stack.step, opened]
    | some t => simp [Stack.connection, Stack.step, opened]
  | release zName busy => exact simulates_release settled zName busy
  | rollbackTo zName => exact simulates_rollbackTo settled zName
  | commit busy => exact simulates_commit settled busy
  | rollback => exact simulates_rollback settled
  | statement nDeferredCons nDeferredImmCons =>
    rw [Simulates, step]
    cases opened : s.transaction with
    | none =>
      obtain ⟨noCons, noImm⟩ := settled opened
      simp [Stack.connection, Stack.step, opened, clearCounters, noCons, noImm]
    | some t => simp [Stack.connection, Stack.step, opened]

theorem Stack.Settled.commit (busy : Bool) : (s.commit busy).1.Settled := by
  rw [Stack.commit]
  split
  · exact settled
  · split
    · exact settled
    · exact fun _ => ⟨rfl, rfl⟩

theorem Stack.Settled.step (command : Command) : (s.step command).1.Settled := by
  have opened : ∀ {t : Transaction} {cons imm : Int}, Stack.Settled ⟨some t, cons, imm⟩ :=
    fun none => absurd none (by simp)
  obtain ⟨transaction, cons, imm⟩ := s
  cases command with
  | begin => cases transaction <;> exact opened
  | savepoint zName => cases transaction <;> exact opened
  | commit busy =>
    cases transaction with
    | none => exact settled
    | some t => exact settled.commit busy
  | rollback =>
    cases transaction with
    | none => exact settled
    | some t => exact fun _ => ⟨rfl, rfl⟩
  | statement nDeferredCons nDeferredImmCons =>
    cases transaction with
    | none => exact settled
    | some t => exact opened
  | release zName busy =>
    cases transaction with
    | none => exact settled
    | some t =>
      simp only [Stack.step]
      split
      · exact opened
      · exact settled.commit busy
      · exact settled
  | rollbackTo zName =>
    cases transaction with
    | none => exact settled
    | some t =>
      simp only [Stack.step]
      split
      · exact opened
      · exact opened
      · exact settled

end

end

def trace {σ : Type} (step : σ → Command → σ × Outcome) : σ → List Command → List (σ × Outcome)
  | _, [] => []
  | s, command :: rest => step s command :: trace step (step s command).1 rest

/-- After every command the connection is that of the stack, and so are the errors and the
savepoints of the databases; a command that fails leaves the connection as it was. -/
theorem commands_follow_stack (commands : List Command) :
    trace Connection.step Connection.start commands =
      (trace Stack.step Stack.start commands).map (fun result => (result.1.connection, result.2)) ∧
    Along (fun db command => (db.step command).1)
      (fun db command => (db.step command).2.failed = true → (db.step command).1 = db)
      Connection.start commands := by
  have started : Stack.start.Settled := fun _ => ⟨rfl, rfl⟩
  change trace Connection.step Stack.start.connection commands = _ ∧
    Along _ _ Stack.start.connection commands
  generalize Stack.start = s at started
  induction commands generalizing s with
  | nil => exact ⟨rfl, trivial⟩
  | cons command rest ih =>
    have same := simulates started command
    obtain ⟨sameRest, keptRest⟩ := ih (s.step command).1 (started.step command)
    refine ⟨?_, ?_, ?_⟩
    · simp only [trace, map_cons]
      rw [same, sameRest]
    · dsimp only
      rw [same]
      intro failed
      rw [Stack.step_failed failed]
    · dsimp only
      rw [same]
      exact keptRest

/-- A savepoint that opens a transaction, one of the same name inside, and a release that finds a
database locked. -/
example : (trace Connection.step Connection.start [.savepoint "a", .statement 1 0, .savepoint "A",
      .rollbackTo "a", .release "A" false, .rollbackTo "a", .release "a" true]).map
    (fun result => (result.1.nSavepoint, result.1.pSavepoint.length, result.1.nDeferredCons,
      result.2.rc, result.2.btreeSavepoint)) =
    [(0, 1, 0, .ok, none), (0, 1, 1, .ok, none), (1, 2, 1, .ok, none),
      (1, 2, 1, .ok, some (.rollback, 0)), (0, 1, 1, .ok, some (.release, 0)),
      (0, 1, 0, .ok, some (.rollback, -1)), (0, 1, 0, .busy, none)] := rfl

end SeSqlite.Vdbe
