/- source: ext/security/sesqlite/sesqlite_authorizer.c, ext/security/sesqlite/sesqlite_init.c,
   ext/security/sesqlite/sesqlite_contexts.c, src/build.c, src/alter.c
   digest: The operations that label the objects of a schema, in memory and in selinux_context. -/
import SeSqlite.ObjectLabels

set_option autoImplicit false
set_option relaxedAutoImplicit false

namespace SeSqlite.Schema

open Hash Names Contexts LabelIds ObjectLabels

structure Table where
  zName : String
  columns : List String
  hasRowid : Bool
  deriving DecidableEq, Repr

/-- One entry of `db->aDb` with its `tblHash`. -/
structure Database where
  zName : String
  tables : List Table
  deriving DecidableEq, Repr

/-- A row of `selinux_context`. Rows of databases have an empty name and column; rows of
tables have a null column when CREATE TABLE wrote them and an empty one otherwise. -/
structure ContextRow where
  securityContext : Int
  securityLabel : Int
  db : String
  name : String
  column : Option String
  deriving DecidableEq, Repr

/-- A labelled object: a database, a table, or a column, ROWID included. -/
structure Object where
  dbName : String
  tblName : Option String
  colName : Option String
  deriving DecidableEq, Repr

/-- `selinuxContext` is absent once the internal table is dropped or renamed. -/
structure Session extends Store where
  contexts : Option SesqliteContext
  databases : List Database
  selinuxContext : Option (List ContextRow)

namespace Object

def key (o : Object) : String := makeKey o.dbName o.tblName o.colName

def tclass (o : Object) : Nat :=
  if o.tblName.isNone then 0 else if o.colName.isNone then 1 else 2

/-- The rule list that `reload_sesqlite_contexts` passes for the object. -/
def rules (o : Object) (ctx : SesqliteContext) : List SesqliteContextElement :=
  if o.tblName.isNone then ctx.dbContext
  else if o.colName.isNone then ctx.tableContext else ctx.columnContext

end Object

def tableObjects (dbName : String) (t : Table) : List Object :=
  ⟨dbName, some t.zName, none⟩ ::
    (t.columns ++ if t.hasRowid then ["ROWID"] else []).map fun c => ⟨dbName, some t.zName, some c⟩

def objects (databases : List Database) : List Object :=
  databases.flatMap fun d =>
    ⟨d.zName, none, none⟩ :: d.tables.flatMap (tableObjects d.zName)

/-- What is not decided by the state of a session: how labels are stored, what a nested
statement does when a name in it ends the string literal early, and whether the rest
of the statement succeeds. -/
structure Execution where
  labels : Surroundings
  spliced : List ContextRow → Option (List ContextRow)
  finishes : Bool

/-- The value of a string literal whose text is spliced between quotes as it is. -/
def literal : List Char → Option (List Char)
  | [] => some []
  | '\x27' :: '\x27' :: rest => (literal rest).map ('\x27' :: ·)
  | '\x27' :: _ => none
  | c :: rest => (literal rest).map (c :: ·)

def quoted (z : String) : Option String := (literal z.toList).map String.ofList

/-- The PRIMARY KEY of `selinux_context`; null columns are distinct. -/
def conflicts (row other : ContextRow) : Bool :=
  row.column.isSome && row.db == other.db && row.name == other.name && row.column == other.column

def insertRow (rows : List ContextRow) (row : ContextRow) : Option (List ContextRow) :=
  if rows.any (conflicts row) then none else some (rows ++ [row])

/-- `INSERT OR REPLACE`, the row getting the next rowid. -/
def replaceRow (row : ContextRow) (rows : List ContextRow) : List ContextRow :=
  rows.filter (fun other => !conflicts row other) ++ [row]

/-- A row as the nested INSERT reads it back from its own text. -/
def parsedRow (row : ContextRow) : Option ContextRow := do
  let name ← quoted row.name
  match row.column with
  | none => some { row with name := name }
  | some c => (quoted c).map fun c => { row with name := name, column := some c }

def nestedInsert (table : Option (List ContextRow)) (new : List ContextRow) (ex : Execution) :
    Option (List ContextRow) := do
  let rows ← table
  match new.mapM parsedRow with
  | none => ex.spliced rows
  | some new => new.foldlM insertRow rows

def nestedDelete (table : Option (List ContextRow)) (zTable : String) (ex : Execution) :
    Option (List ContextRow) := do
  let rows ← table
  match quoted zTable with
  | none => ex.spliced rows
  | some name => some (rows.filter fun row => !(row.db == "main" && row.name == name))

def renameRow (old new : String) (row : ContextRow) : ContextRow :=
  if row.db = "main" ∧ row.name = old then { row with name := new } else row

def nestedUpdate (table : Option (List ContextRow)) (zOld zNew : String) (ex : Execution) :
    Option (List ContextRow) := do
  let rows ← table
  match quoted zOld, quoted zNew with
  | some old, some new =>
    if rows.any fun row => (row.db == "main" && row.name == old) &&
        rows.any (conflicts { row with name := new }) then none
    else some (rows.map (renameRow old new))
  | _, _ => ex.spliced rows

/-- Tables are created and altered in `main`, the only database with a `selinux_context`. -/
def mainTables (databases : List Database) : List Table :=
  (databases.filter fun d => d.zName = "main").flatMap Database.tables

def onMain (f : List Table → List Table) (databases : List Database) : List Database :=
  databases.map fun d => if d.zName = "main" then { d with tables := f d.tables } else d

/-- `sqlite3FindTable`. -/
def findTable (s : Session) (zName : String) : Option Table :=
  (mainTables s.databases).find? fun t => sqlite3StrICmp t.zName zName

def distinctNames (columns : List String) : Bool := decide (columns.map fold).Nodup

def isSystemTable (zName : String) : Bool := sqlite3StrNICmp zName "sqlite_" 7

def selinuxContextName : String := "selinux_context"

/-- What is left of `selinux_context` for the next session after a table lost its name. -/
def unlessContextTable (zName : String) (rows : List ContextRow) : Option (List ContextRow) :=
  if sqlite3StrICmp zName selinuxContextName then none else some rows

section

variable (lib : Selinux)

/-- The id of one object in `create_security_context_column`. -/
def labelObject (s : Session) (o : Object) (env : Surroundings) : Except Fault (Session × Int) :=
  match lookup s.hash o.key with
  | some id => .ok (s, id)
  | none => do
    let r ← lookupSecurityLabel lib s.contexts s.labels o.colName.isSome o.dbName o.tblName
      o.colName
      env
    .ok ({ s with labels := r.1, hash := insertKey s.hash o.dbName o.tblName o.colName r.2 }, r.2)

/-- The objects of a new table one after the other, with the rows to be inserted. -/
def labelObjects (env : Surroundings) :
    List Object → Session → Except Fault (Session × List ContextRow)
  | [], s => .ok (s, [])
  | o :: rest, s => do
    let r ← labelObject lib s o env
    let con ← lookupSecurityContext lib r.1.contexts r.1.labels.hashId o.dbName selinuxContextName
    let rs ← labelObjects env rest r.1
    .ok (rs.1, ⟨con, r.2, o.dbName, o.tblName.getD "", o.colName⟩ :: rs.2)

/-- One object in `reload_sesqlite_contexts`; `runs` says that `stmt_con_insert` succeeds. -/
def relabelObject (ctx : SesqliteContext) (env : Surroundings) (runs : Bool) (s : Session)
    (o : Object) : Except Fault Session := do
  let label ← insertContext lib s.labels o.colName.isSome o.dbName o.tblName o.colName (o.rules ctx)
    ctx.tupleContext env
  let con ← insertContext lib label.1 false o.dbName (some selinuxContextName) none
    ctx.tupleContext ctx.tupleContext env
  let row : ContextRow :=
    ⟨con.2, label.2, o.dbName, o.tblName.getD "", some (o.colName.getD "")⟩
  .ok { s with
    labels := con.1
    hash := insertKey s.hash o.dbName o.tblName o.colName label.2
    selinuxContext := if runs then s.selinuxContext.map (replaceRow row) else s.selinuxContext }

end

def filterAccepts (filter : Option String) (name : String) : Bool :=
  match filter with
  | none => false
  | some filter =>
    let wildcard := (filter.toList.takeWhile fun c => c != '*').length
    if wildcard = filter.toList.length then sqlite3StrICmp filter name
    else sqlite3StrNICmp filter name wildcard

/-- The objects that `reload_sesqlite_contexts` visits, databases from the last to the first. -/
def reloadedObjects (databases : List Database) (dbFilter tblFilter colFilter : Option String) :
    List Object :=
  (databases.reverse.filter fun d => filterAccepts dbFilter d.zName).flatMap fun d =>
    ⟨d.zName, none, none⟩ ::
      (d.tables.filter fun t => filterAccepts tblFilter t.zName).flatMap fun t =>
        (tableObjects d.zName t).filter fun o => o.colName.all (filterAccepts colFilter)

def reloadSesqliteContexts (lib : Selinux) (ctx : SesqliteContext) (env : Surroundings)
    (runs : Bool) (s : Session) (dbFilter tblFilter colFilter : Option String) :
    Except Fault Session :=
  (reloadedObjects s.databases dbFilter tblFilter colFilter).foldlM
    (relabelObject lib ctx env runs) s

/-- `load_sesqlite_contexts`, after the rule file is read. -/
def loadSesqliteContexts (lib : Selinux) (ctx : SesqliteContext) (env : Surroundings)
    (runs : Bool) (s : Session) : Except Fault Session :=
  reloadSesqliteContexts lib ctx env runs { s with contexts := some ctx } (some "*") (some "*")
    (some "*")

/-- An empty name or column of a row stands for none. -/
def ContextRow.object (row : ContextRow) : Object where
  dbName := row.db
  tblName := if row.name = "" then none else some row.name
  colName := row.column.bind fun c => if c = "" then none else some c

/-- The part of `load_contexts_from_table` that fills `hash`. -/
def loadContexts (rows : List ContextRow) : SqliteHash String Int :=
  rows.foldl (fun hash row =>
    insertKey hash row.object.dbName row.object.tblName row.object.colName row.securityLabel)
    sqliteHashInit

section

variable (lib : Selinux)

/-- The table in memory after the hook. -/
def extendedTable (t : Table) : Table :=
  { t with columns := t.columns ++ [securityContextColumnName] }

/-- The table that the stored text describes; that of an internal table is not extended. -/
def storedTable (t : Table) : Table := if isUserTable t.zName then extendedTable t else t

/-- CREATE TABLE. The hook labels the objects while the statement is compiled, so that
`hash` keeps the labels also when the statement fails. -/
def createTable (s : Session) (t : Table) (ex : Execution) : Session :=
  if isSystemTable t.zName || (findTable s t.zName).isSome || !distinctNames t.columns ||
      (t.columns.drop 1).any (sqlite3StrICmp securityContextColumnName) then s
  else
    match labelObjects lib ex.labels (tableObjects "main" (extendedTable t)) s with
    | .error _ => s
    | .ok (s', new) =>
      match nestedInsert s'.selinuxContext new ex with
      | none => s'
      | some rows =>
        if ex.finishes && distinctNames (storedTable t).columns then
          { s' with
            databases := onMain (fun tables => tables ++ [storedTable t]) s'.databases
            selinuxContext := some rows }
        else s'

def dropTable (s : Session) (zName : String) (ex : Execution) : Session :=
  match findTable s zName with
  | none => s
  | some t =>
    if isSystemTable t.zName then s
    else
      match nestedDelete s.selinuxContext t.zName ex with
      | none => s
      | some rows =>
        if ex.finishes then
          { s with
            databases := onMain (fun tables => tables.filter fun u => u.zName != t.zName)
              s.databases
            selinuxContext := unlessContextTable t.zName rows }
        else s

def renameTable (s : Session) (zName zNew : String) (ex : Execution) : Session :=
  match findTable s zName with
  | none => s
  | some t =>
    if isSystemTable t.zName || isSystemTable zNew || (findTable s zNew).isSome then s
    else
      match nestedUpdate s.selinuxContext t.zName zNew ex with
      | none => s
      | some rows =>
        if ex.finishes then
          { s with
            databases := onMain (fun tables => tables.map fun u =>
              if u.zName = t.zName then { u with zName := zNew } else u) s.databases
            selinuxContext := unlessContextTable t.zName rows }
        else s

/-- ALTER TABLE ADD COLUMN. The hook gets the text of the column definition where it
expects the name of the column. -/
def addColumn (s : Session) (zName zCol zDef : String) (ex : Execution) : Session :=
  match findTable s zName with
  | none => s
  | some t =>
    if isSystemTable t.zName || t.columns.any (sqlite3StrICmp zCol) then s
    else
      match lookupSecurityLabel lib s.contexts s.labels true "main" (some t.zName) (some zDef)
          ex.labels with
      | .error _ => s
      | .ok (labels, id) =>
        match lookupSecurityContext lib s.contexts labels.hashId "main" selinuxContextName with
        | .error _ => s
        | .ok con =>
          match nestedInsert s.selinuxContext [⟨con, id, "main", t.zName, some zDef⟩] ex with
          | none => { s with labels := labels }
          | some rows =>
            if ex.finishes then
              { s with
                labels := labels
                databases := onMain (fun tables => tables.map fun u =>
                  if u.zName = t.zName then { u with columns := u.columns ++ [zCol] } else u)
                  s.databases
                selinuxContext := some rows }
            else { s with labels := labels }

/-- `selinux_chcon_pragma`; `get_key` answers -1 for an unknown object. -/
def chcon (s : Session) (label : String) (o : Object) (env : Surroundings) : Session :=
  if (lookup s.hash o.key).getD (-1) = -1 then s
  else
    match insertId lib s.contexts s.labels o.dbName label env with
    | .error _ => s
    | .ok (labels, id) =>
      { s with labels := labels, hash := insertKey s.hash o.dbName o.tblName o.colName id }

/-- `selinux_restorecon_pragma`. Both a missing old rule list and an unreadable file end
in a read through a null pointer. -/
def restorecon (s : Session) (dbName : String) (tblName colName : Option String)
    (file : Option SesqliteContext) (env : Surroundings) (runs : Bool) : Session :=
  match s.contexts, file with
  | some _, some ctx =>
    match reloadSesqliteContexts lib ctx env runs { s with contexts := some ctx } (some dbName)
        tblName colName with
    | .error _ => s
    | .ok s' => s'
  | _, _ => s

/-- The operations of a session on its schema, and the calls that register labels and
fill `hash` in between. -/
inductive Op where
  | createTable (t : Table) (ex : Execution)
  | dropTable (zName : String) (ex : Execution)
  | renameTable (zName zNew : String) (ex : Execution)
  | addColumn (zName zCol zDef : String) (ex : Execution)
  | getContext (o : Object) (env : Surroundings)
  | insertId (dbName label : String) (env : Surroundings)
  | chcon (label : String) (o : Object) (env : Surroundings)
  | restorecon (dbName : String) (tblName colName : Option String) (file : Option SesqliteContext)
      (env : Surroundings) (runs : Bool)

/-- A call that does not return leaves the state as it was. -/
def step (s : Session) : Op → Session
  | .createTable t ex => createTable lib s t ex
  | .dropTable zName ex => dropTable s zName ex
  | .renameTable zName zNew ex => renameTable s zName zNew ex
  | .addColumn zName zCol zDef ex => addColumn lib s zName zCol zDef ex
  | .getContext o env =>
    match getContext lib s.contexts s.toStore o.dbName o.tblName o.colName o.tclass env with
    | .error _ => s
    | .ok (store, _) => { s with toStore := store }
  | .insertId dbName label env =>
    match insertId lib s.contexts s.labels dbName label env with
    | .error _ => s
    | .ok (labels, _) => { s with labels := labels }
  | .chcon label o env => chcon lib s label o env
  | .restorecon dbName tblName colName file env runs =>
    restorecon lib s dbName tblName colName file env runs

end

end SeSqlite.Schema
