/- source: src/fkey.c, src/insert.c, src/update.c, src/delete.c, src/vdbe.c, src/vdbeaux.c
   digest: Foreign key checks around every row change, and the two counters they move. -/
import Mathlib.Data.List.Basic

set_option autoImplicit false
set_option relaxedAutoImplicit false

namespace SeSqlite.Fkey

/-- Affinities, collating sequences and the comparisons made with them. -/
structure Values (V A C : Type) where
  /-- `applyAffinity` on a value that is not NULL. -/
  apply : A → V → V
  /-- What `OP_MustBeInt` leaves, if it does not fail. -/
  mustBeInt : V → Option V
  /-- `sqlite3CompareAffinity`. -/
  compareAffinity : A → A → A
  equal : C → V → V → Bool
  integer : A
  binary : C
  apply_apply : ∀ a v, apply a (apply a v) = apply a v
  apply_compareAffinity : ∀ a v, apply (compareAffinity a a) (apply a v) = apply a v
  equal_equivalence : ∀ c, Equivalence fun v w => equal c v w = true

structure Row (V : Type) where
  rowid : Option V
  data : List (Option V)
  deriving DecidableEq

instance {V : Type} [DecidableEq V] : LawfulBEq (Row V) := inferInstance

structure Column (A C : Type) where
  affinity : A
  zColl : C

/-- An index with its key columns, each under its collating sequence, and the condition on the rows
of a partial one. -/
structure Index (V C : Type) where
  aiColumn : List (Nat × C)
  pPartIdxWhere : Option (Row V → Bool)
  /-- `onError!=OE_None` -/
  unique : Bool
  /-- `autoIndex==2` -/
  primary : Bool

structure Table (V A C : Type) where
  aCol : List (Column A C)
  iPKey : Option Nat
  withoutRowid : Bool
  pIndex : List (Index V C)
  /-- An INTEGER PRIMARY KEY is the rowid and has no index. -/
  ipk_alone : iPKey ≠ none → withoutRowid = false ∧ ∀ idx ∈ pIndex, idx.primary = false
  has_primary : withoutRowid = true → ∃ idx ∈ pIndex, idx.primary = true
  primary_unique : ∀ idx ∈ pIndex, idx.primary = true →
    idx.unique = true ∧ idx.pPartIdxWhere = none
  one_primary : ∀ idx ∈ pIndex, ∀ other ∈ pIndex, idx.primary = true → other.primary = true →
    idx = other

/-- The columns of a foreign key, with the names of the parent's columns or without. -/
inductive KeyColumns where
  | toPrimary (iFrom : List Nat)
  | named (aCol : List (Nat × Nat))

structure FKey (T : Type) where
  pFrom : T
  zTo : T
  aCol : KeyColumns
  isDeferred : Bool

def KeyColumns.iFrom : KeyColumns → List Nat
  | .toPrimary iFrom => iFrom
  | .named aCol => aCol.map Prod.fst

/-- The tables and their foreign keys, the newest first as `pNextFrom` and `pNextTo` link them. -/
structure Schema (T V A C : Type) where
  table : T → Table V A C
  fkeys : List (FKey T)

abbrev Db (T V : Type) := T → List (Row V)

variable {T V A C : Type} [DecidableEq T] [DecidableEq V] [DecidableEq C]

section

variable (vals : Values V A C) (tab : Table V A C)

def Table.affinity (i : Nat) : A :=
  if tab.iPKey = some i then vals.integer
  else (tab.aCol[i]?).elim vals.integer Column.affinity

def Table.zColl (i : Nat) : C :=
  (tab.aCol[i]?).elim vals.binary Column.zColl

/-- Column `i` of a row; the column `iPKey` is read from the rowid. -/
def Table.value (row : Row V) (i : Nat) : Option V :=
  if tab.iPKey = some i then row.rowid else (row.data[i]?).join

/-- `sqlite3PrimaryKeyIndex` -/
def Table.primaryIndex : Option (Index V C) :=
  tab.pIndex.find? Index.primary

/-- The columns with `COLFLAG_PRIMKEY`, in the order of the key. -/
def Table.primaryKey : List Nat :=
  match tab.iPKey with
  | some i => [i]
  | none => tab.primaryIndex.elim [] fun idx => idx.aiColumn.map Prod.fst

/-- The row as the table holds it, each column with its affinity. -/
def Table.store (row : Row V) : Row V :=
  { row with data := row.data.mapIdx fun i v => v.map (vals.apply (tab.affinity vals i)) }

/-- The registers of a new row when its foreign keys are checked: `sqlite3TableAffinity` has run
by then only if there is an index to check. -/
def Table.registers (row : Row V) : Row V :=
  if tab.pIndex.isEmpty then row else tab.store vals row

def bothEqual (same : V → V → Bool) : Option V → Option V → Bool
  | some v, some w => same v w
  | _, _ => false

def Table.sameKey (idx : Index V C) (a b : Row V) : Bool :=
  idx.aiColumn.all fun col =>
    bothEqual (vals.equal col.2) (tab.value a col.1) (tab.value b col.1)

/-- The rowid is an integer, and a PRIMARY KEY that replaces it is not NULL. -/
def Table.fits (row : Row V) : Bool :=
  if tab.withoutRowid then tab.primaryKey.all fun i => (tab.value row i).isSome
  else row.rowid.any fun v => vals.mustBeInt v == some v

/-- The index has an entry for the row. -/
def Index.holds (idx : Index V C) (row : Row V) : Bool := idx.pPartIdxWhere.all fun test => test row

/-- Two rows that a rowid or a UNIQUE index keeps apart. -/
def Table.clash (a b : Row V) : Bool :=
  (!tab.withoutRowid && a.rowid == b.rowid) ||
    tab.pIndex.any fun idx =>
      idx.unique && idx.holds a && idx.holds b && tab.sameKey vals idx a b

/-- `sqlite3GenerateConstraintChecks` finds `row` in conflict with the table. -/
def Table.conflicts (rows : List (Row V)) (row : Row V) : Bool :=
  !tab.fits vals row || rows.any (tab.clash vals row)

end

/-- What `sqlite3FkLocateIndex` returns in `*ppIdx` and `*paiCol`. -/
structure Located (V C : Type) where
  pIdx : Option (Index V C)
  aiCol : List Nat

/-- The parent columns that the columns `aiCol` are compared with. -/
def Located.parentCols (loc : Located V C) (parent : Table V A C) : List Nat :=
  match loc.pIdx with
  | none => parent.iPKey.toList
  | some idx => idx.aiColumn.map Prod.fst

/-- A partial index is not passed over. -/
def usable (vals : Values V A C) (parent : Table V A C) (cols : KeyColumns) (idx : Index V C) :
    Bool :=
  idx.aiColumn.length == cols.iFrom.length && idx.unique &&
    match cols with
    | .toPrimary _ => idx.primary
    | .named aCol => idx.aiColumn.all fun col =>
        col.2 == parent.zColl vals col.1 && aCol.any fun pair => pair.2 == col.1

/-- The child column that a named parent column stands for. -/
def childOf (aCol : List (Nat × Nat)) (iCol : Nat) : Nat :=
  (aCol.find? fun pair => pair.2 == iCol).elim 0 Prod.fst

def indexColumns (cols : KeyColumns) (idx : Index V C) : List Nat :=
  match cols with
  | .toPrimary iFrom => iFrom
  | .named aCol => idx.aiColumn.map fun col => childOf aCol col.1

def toRowid (parent : Table V A C) : KeyColumns → Bool
  | .toPrimary [_] => parent.iPKey.isSome
  | .named [pair] => parent.iPKey == some pair.2
  | _ => false

def sqlite3FkLocateIndex (vals : Values V A C) (parent : Table V A C) (cols : KeyColumns) :
    Option (Located V C) :=
  if toRowid parent cols then some ⟨none, cols.iFrom⟩
  else (parent.pIndex.find? (usable vals parent cols)).map
    fun idx => ⟨some idx, indexColumns cols idx⟩

/-- `Vdbe.nFkConstraint` and `sqlite3.nDeferredCons`. -/
structure Counters where
  nFkConstraint : Int
  nDeferredCons : Int
  deriving DecidableEq

/-- The counter that `OP_FkCounter` and `OP_FkIfZero` work on. -/
def Counters.get (c : Counters) : Bool → Int
  | true => c.nDeferredCons
  | false => c.nFkConstraint

def Counters.add (c : Counters) (isDeferred : Bool) (n : Int) : Counters :=
  if isDeferred then { c with nDeferredCons := c.nDeferredCons + n }
  else { c with nFkConstraint := c.nFkConstraint + n }

section

variable (vals : Values V A C) (sc : Schema T V A C) (db : Db T V) (fk : FKey T)

/-- The jump to `iOk` of `fkLookupParent`: the parent row is found, or the new row is its own
parent. -/
def parentFound (loc : Located V C) (row : Row V) (isNew : Bool) : Bool :=
  let child := sc.table fk.pFrom
  let parent := sc.table fk.zTo
  let self := isNew && fk.zTo == fk.pFrom
  match loc.pIdx with
  | none =>
    match (loc.aiCol.head?.bind (child.value row)).bind vals.mustBeInt with
    | none => false
    | some regTemp =>
      (self && row.rowid == some regTemp) ||
        (db fk.zTo).any fun p => p.rowid == some regTemp
  | some idx =>
    let terms := loc.aiCol.zip idx.aiColumn
    (self && terms.all fun term =>
        bothEqual (vals.equal vals.binary) (child.value row term.1)
          (parent.value row term.2.1)) ||
      (db fk.zTo).any fun p => idx.holds p && terms.all fun term =>
        bothEqual (vals.equal term.2.2)
          ((child.value row term.1).map (vals.apply (parent.affinity vals term.2.1)))
          (parent.value p term.2.1)

/-- A row of the child table is removed or added. `OP_Halt` is an error that leaves the counters
as they are. -/
def fkLookupParent (loc : Located V C) (row : Row V) (isNew isMultiWrite : Bool) (c : Counters) :
    Except Counters Counters :=
  if !isNew && c.get fk.isDeferred == 0 then .ok c
  else if loc.aiCol.any fun i => ((sc.table fk.pFrom).value row i).isNone then .ok c
  else if parentFound vals sc db fk loc row isNew then .ok c
  else if !fk.isDeferred && !isMultiWrite then .error c
  else .ok (c.add fk.isDeferred (if isNew then 1 else -1))

/-- `<parent-key> = <child-key>` for one column of the key: the register of the parent row against
the column of the child row. -/
def scanEqual (i j : Nat) (w v : V) : Bool :=
  let child := sc.table fk.pFrom
  let parent := sc.table fk.zTo
  let a := vals.compareAffinity (parent.affinity vals j) (child.affinity vals i)
  -- the register of a rowid has no collating sequence of its own
  let coll := if parent.iPKey = some j then child.zColl vals i else parent.zColl vals j
  vals.equal coll (vals.apply a w) (vals.apply a v)

/-- The columns `pIdx->aiColumn[]` of an index of a table without rowid: those of the key, then
the missing ones of the PRIMARY KEY. -/
def allColumns (tab : Table V A C) (idx : Index V C) : List Nat :=
  let key := idx.aiColumn.map Prod.fst
  key ++ tab.primaryKey.filter fun i => !key.contains i

/-- The term that keeps the row `row` itself from being scanned. The comparison of a column is
NULL if either side is, and so is then the negated conjunction unless another column differs. -/
def notSelf (idx : Option (Index V C)) (row c : Row V) : Bool :=
  let tab := sc.table fk.zTo
  if tab.withoutRowid then
    (((idx.elim [] (allColumns tab)).take tab.primaryKey.length)).any fun i =>
      let a := vals.compareAffinity (tab.affinity vals i) (tab.affinity vals i)
      bothEqual (fun v w => !vals.equal (tab.zColl vals i) (vals.apply a v) (vals.apply a w))
        (tab.value row i) (tab.value c i)
  else c.rowid != row.rowid

/-- The WHERE clause of `fkScanChildren` for the parent row `row`. -/
def scanned (loc : Located V C) (row : Row V) (isNew : Bool) (c : Row V) : Bool :=
  let child := sc.table fk.pFrom
  let parent := sc.table fk.zTo
  ((loc.aiCol.zip (loc.parentCols parent)).all fun term =>
    bothEqual (scanEqual vals sc fk term.1 term.2) (parent.value row term.2)
      (child.value c term.1)) &&
  (isNew || fk.zTo != fk.pFrom || notSelf vals sc fk loc.pIdx row c)

/-- A row of the parent table is removed or added. -/
def fkScanChildren (loc : Located V C) (row : Row V) (isNew : Bool) (c : Counters) : Counters :=
  if isNew && c.get fk.isDeferred == 0 then c
  else
    let n : Int := (db fk.pFrom).countP (scanned vals sc fk loc row isNew)
    c.add fk.isDeferred (if isNew then -n else n)

/-- The columns an UPDATE assigns: `aXRef[]` and `chngRowid`. -/
structure Changed where
  aXRef : List Nat
  chngRowid : Bool

def Changed.column (ch : Changed) (tab : Table V A C) (i : Nat) : Bool :=
  ch.aXRef.contains i || (tab.iPKey == some i && ch.chngRowid)

def fkChildIsModified (ch : Changed) : Bool :=
  fk.aCol.iFrom.any (ch.column (sc.table fk.pFrom))

def fkParentIsModified (ch : Changed) : Bool :=
  match fk.aCol with
  | .toPrimary _ => (sc.table fk.zTo).primaryKey.any (ch.column (sc.table fk.zTo))
  | .named aCol => aCol.any fun pair => ch.column (sc.table fk.zTo) pair.2

/-- The first loop of `sqlite3FkCheck` passes over the key: an UPDATE leaves its columns alone,
and the key does not refer to its own table. -/
def skipsChild (aChange : Option Changed) : Bool :=
  aChange.any fun ch => fk.pFrom != fk.zTo && !fkChildIsModified sc fk ch

def skipsParent (aChange : Option Changed) : Bool :=
  aChange.any fun ch => !fkParentIsModified sc fk ch

/-- The first loop of `sqlite3FkCheck`, for one key of the table. A key without its index is a
parse error, and the statement is not run. -/
def checkChild (row : Row V) (isNew isMultiWrite : Bool) (aChange : Option Changed)
    (c : Counters) : Except Counters Counters :=
  if skipsChild sc fk aChange then .ok c
  else match sqlite3FkLocateIndex vals (sc.table fk.zTo) fk.aCol with
    | none => .ok c
    | some loc => fkLookupParent vals sc db fk loc row isNew isMultiWrite c

/-- The second loop, for one key that refers to the table. -/
def checkParent (row : Row V) (isNew isMultiWrite : Bool) (aChange : Option Changed)
    (c : Counters) : Counters :=
  if skipsParent sc fk aChange then c
  else if !fk.isDeferred && !isMultiWrite then c
  else match sqlite3FkLocateIndex vals (sc.table fk.zTo) fk.aCol with
    | none => c
    | some loc => fkScanChildren vals sc db fk loc row isNew c

def Schema.pFKey (t : T) : List (FKey T) :=
  sc.fkeys.filter fun fk => fk.pFrom == t

def sqlite3FkReferences (t : T) : List (FKey T) :=
  sc.fkeys.filter fun fk => fk.zTo == t

def sqlite3FkCheck (t : T) (row : Row V) (isNew isMultiWrite : Bool) (aChange : Option Changed)
    (c : Counters) : Except Counters Counters := do
  let c ← (sc.pFKey t).foldlM
    (fun c fk => checkChild vals sc db fk row isNew isMultiWrite aChange c) c
  return (sqlite3FkReferences sc t).foldl
    (fun c fk => checkParent vals sc db fk row isNew isMultiWrite aChange c) c

/-- `sqlite3FkRequired` for an UPDATE. -/
def sqlite3FkRequired (t : T) (ch : Changed) : Bool :=
  (sc.pFKey t).any (fun fk => fkChildIsModified sc fk ch) ||
    (sqlite3FkReferences sc t).any fun fk => fkParentIsModified sc fk ch

end

/-- One row that a statement works on. A row that fails a NOT NULL or CHECK constraint is
`refused`; rows that OR REPLACE removes are deleted by changes of their own. -/
inductive Change (V : Type) where
  | insert (row : Row V)
  | delete (row : Row V)
  | update (old new : Row V) (ch : Changed)
  | refused

/-- The new row of an UPDATE: columns that are not assigned are read from the old one. -/
def Changed.merge (ch : Changed) (old new : Row V) : Row V where
  rowid := if ch.chngRowid then new.rowid else old.rowid
  data := old.data.mapIdx fun i v => if ch.aXRef.contains i then (new.data[i]?).join else v

structure Vm (T V : Type) where
  db : Db T V
  counters : Counters

def Db.remove (db : Db T V) (t : T) (row : Row V) : Db T V :=
  Function.update db t ((db t).erase row)

def Db.add (db : Db T V) (t : T) (row : Row V) : Db T V :=
  Function.update db t (row :: db t)

/-- How one row change ends: it is made, a constraint other than a foreign key stands against it,
or `OP_Halt` reports a foreign key. -/
inductive Ended (T V : Type) where
  | made (vm : Vm T V)
  | conflict
  | halted (c : Counters)

section

variable (vals : Values V A C) (sc : Schema T V A C)

def Ended.of (db : Db T V) : Except Counters Counters → Ended T V
  | .ok c => .made ⟨db, c⟩
  | .error c => .halted c

def makeChange (t : T) (isMultiWrite : Bool) (vm : Vm T V) : Change V → Ended T V
  | .refused => .conflict
  | .insert row =>
    let tab := sc.table t
    if tab.conflicts vals (vm.db t) (tab.store vals row) then .conflict
    else .of (vm.db.add t (tab.store vals row))
      (sqlite3FkCheck vals sc vm.db t (tab.registers vals row) true isMultiWrite none vm.counters)
  | .delete row =>
    if row ∈ vm.db t then .of (vm.db.remove t row)
      (sqlite3FkCheck vals sc vm.db t row false isMultiWrite none vm.counters)
    else .made vm
  | .update old new ch =>
    let tab := sc.table t
    let row := ch.merge old new
    let without := vm.db.remove t old
    if old ∈ vm.db t then
      if tab.conflicts vals (without t) (tab.store vals row) then .conflict
      else .of (without.add t (tab.store vals row)) <|
        if sqlite3FkRequired sc t ch then do
          let c ← sqlite3FkCheck vals sc vm.db t old false isMultiWrite (some ch) vm.counters
          sqlite3FkCheck vals sc without t (tab.registers vals row) true isMultiWrite (some ch) c
        else .ok vm.counters
    else .made vm

inductive OnError where
  | abort
  | fail
  | ignore
  | rollback
  deriving DecidableEq

/-- An INSERT of one row that never replaces another leaves `isMultiWrite` zero. -/
inductive Statement (T V : Type) where
  | insertRow (t : T) (row : Row V) (onError : OnError)
  | rows (t : T) (changes : List (Change V)) (onError : OnError)

def Statement.onError : Statement T V → OnError
  | .insertRow _ _ onError => onError
  | .rows _ _ onError => onError

/-- Where the changes of a statement stop. -/
inductive Stop where
  | done
  | conflict
  | halted
  deriving DecidableEq

def runChanges (t : T) (isMultiWrite : Bool) (onError : OnError) (vm : Vm T V) :
    List (Change V) → Vm T V × Stop
  | [] => (vm, .done)
  | change :: rest =>
    match makeChange vals sc t isMultiWrite vm change with
    | .made vm => runChanges t isMultiWrite onError vm rest
    | .conflict =>
      if onError = .ignore then runChanges t isMultiWrite onError vm rest else (vm, .conflict)
    | .halted c => ({ vm with counters := c }, .halted)

def Statement.run (vm : Vm T V) : Statement T V → Vm T V × Stop
  | .insertRow t row onError => runChanges vals sc t false onError vm [.insert row]
  | .rows t changes onError => runChanges vals sc t true onError vm changes

/-- The connection between two calls. `start` is the content when the transaction was opened,
and each savepoint keeps the content and the counter it was opened with. -/
structure Conn (T V : Type) where
  db : Db T V
  start : Db T V
  autoCommit : Bool
  nDeferredCons : Int
  savepoints : List (Db T V × Int)
  isTransactionSavepoint : Bool

inductive Rc where
  | ok
  | error
  | constraint
  | foreignKey
  deriving DecidableEq

/-- `sqlite3RollbackAll` with `sqlite3CloseSavepoints`, after which `autoCommit` is set. -/
def Conn.rollbackAll (conn : Conn T V) : Conn T V :=
  ⟨conn.start, conn.start, true, 0, [], false⟩

def Conn.committed (db : Db T V) : Conn T V :=
  ⟨db, db, true, 0, [], false⟩

/-- `sqlite3VdbeCheckFk` for the statement that stopped so: a foreign key found by `OP_Halt` and
one left at the end both abort. -/
def Stop.check (stop : Stop) (nFkConstraint : Int) : Rc :=
  match stop with
  | .done => if nFkConstraint > 0 then .foreignKey else .ok
  | .conflict => .constraint
  | .halted => .foreignKey

/-- `p->errorAction` -/
def Stop.errorAction (stop : Stop) (onError : OnError) : OnError :=
  match stop with
  | .conflict => onError
  | _ => .abort

/-- `sqlite3VdbeHalt`. A statement transaction is open inside a transaction if the statement may
write several rows. -/
def sqlite3VdbeHalt (conn : Conn T V) (isMultiWrite : Bool) (onError : OnError)
    (vm : Vm T V) (stop : Stop) : Conn T V × Rc :=
  let rc := stop.check vm.counters.nFkConstraint
  let errorAction := stop.errorAction onError
  if conn.autoCommit then
    if rc = .ok ∨ errorAction = .fail then
      if vm.counters.nDeferredCons > 0 then (conn.rollbackAll, .foreignKey)
      else (.committed vm.db, rc)
    else (conn.rollbackAll, rc)
  else if rc = .ok ∨ errorAction = .fail then
    ({ conn with db := vm.db, nDeferredCons := vm.counters.nDeferredCons }, rc)
  else if errorAction = .abort then
    if isMultiWrite then (conn, rc)
    else ({ conn with db := vm.db, nDeferredCons := vm.counters.nDeferredCons }, rc)
  else (conn.rollbackAll, rc)

def Statement.isMultiWrite : Statement T V → Bool
  | .insertRow .. => false
  | .rows .. => true

def Conn.statement (conn : Conn T V) (s : Statement T V) : Conn T V × Rc :=
  let ran := s.run vals sc ⟨conn.db, ⟨0, conn.nDeferredCons⟩⟩
  sqlite3VdbeHalt conn s.isMultiWrite s.onError ran.1 ran.2

def Conn.commit (conn : Conn T V) : Conn T V × Rc :=
  if conn.nDeferredCons > 0 then (conn, .foreignKey) else (.committed conn.db, .ok)

inductive Act (T V : Type) where
  | statement (s : Statement T V)
  | begin
  | commit
  | rollback
  | savepoint
  /-- The savepoint is given by its place, the newest being 0. -/
  | release (n : Nat)
  | rollbackTo (n : Nat)

def Conn.act (conn : Conn T V) : Act T V → Conn T V × Rc
  | .statement s => conn.statement vals sc s
  | .begin =>
    if conn.autoCommit then ({ conn with autoCommit := false }, .ok) else (conn, .error)
  | .commit => if conn.autoCommit then (conn, .error) else conn.commit
  | .rollback => if conn.autoCommit then (conn, .error) else (conn.rollbackAll, .ok)
  | .savepoint =>
    ({ conn with
        autoCommit := false
        savepoints := (conn.db, conn.nDeferredCons) :: conn.savepoints
        isTransactionSavepoint := conn.autoCommit || conn.isTransactionSavepoint }, .ok)
  | .release n =>
    if n < conn.savepoints.length then
      if n + 1 = conn.savepoints.length ∧ conn.isTransactionSavepoint then conn.commit
      else ({ conn with savepoints := conn.savepoints.drop (n + 1) }, .ok)
    else (conn, .error)
  | .rollbackTo n =>
    match conn.savepoints[n]? with
    | some (db, nDeferredCons) =>
      ({ conn with
          db := db
          nDeferredCons := nDeferredCons
          savepoints := conn.savepoints.drop n }, .ok)
    | none => (conn, .error)

def Conn.step (conn : Conn T V) (a : Act T V) : Conn T V :=
  (conn.act vals sc a).1

end

end SeSqlite.Fkey
