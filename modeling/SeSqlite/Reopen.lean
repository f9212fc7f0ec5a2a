/- source: ext/security/sesqlite/sesqlite_init.c, ext/security/sesqlite/sesqlite_compute_label.c,
   ext/security/sesqlite/sesqlite_authorizer.c
   digest: Opening a database for the first time and again, and which later calls need the rules. -/
import SeSqlite.Schema.Runs

set_option autoImplicit false
set_option relaxedAutoImplicit false

namespace SeSqlite.Reopen

open Hash BiHash Names Contexts LabelIds ObjectLabels Schema Lib.Runs List LabelIds Schema

/-- A database file: the tables of `sqlite_master` and the rows of the internal ones. -/
structure Disk where
  tables : List Table
  selinuxId : List IdRow
  selinuxContext : List ContextRow

/-- `tbl_name LIKE 'selinux%'`. -/
def likeSelinux (tblName : String) : Bool := sqlite3StrNICmp tblName "selinux" 7

/-- `isReopen`, absent when it returns an error. -/
def isReopen (d : Disk) : Option Bool :=
  match (d.tables.filter fun t => likeSelinux t.zName).length with
  | 0 => some false
  | 2 => some true
  | _ => none

/-- `SELINUX_CONTEXT_TABLE`. -/
def contextTable : Table :=
  ⟨"selinux_context", ["security_context", "security_label", "db", "name", "column"], true⟩

/-- `SELINUX_ID_TABLE`. -/
def idTable : Table := ⟨"selinux_id", ["security_context", "security_label"], true⟩

def findTable (d : Disk) (zName : String) : Option Table :=
  d.tables.find? fun t => sqlite3StrICmp t.zName zName

/-- `create_internal_table`; both statements say IF NOT EXISTS. -/
def createInternalTable (d : Disk) : Disk :=
  let d := if (findTable d contextTable.zName).isSome then d
    else { d with tables := d.tables ++ [contextTable], selinuxContext := [] }
  if (findTable d idTable.zName).isSome then d
  else { d with tables := d.tables ++ [idTable], selinuxId := [] }

/-- A table of that name has the columns that a statement names, and a rowid if asked for. -/
def provides (d : Disk) (table : Table) : Bool :=
  match findTable d table.zName with
  | none => false
  | some t => table.columns.all (fun c => t.columns.any (sqlite3StrICmp c)) &&
      (t.hasRowid || t.columns.any (sqlite3StrICmp "rowid"))

/-- `prepare_stmt`: every statement that uses `selinux_id` or `selinux_context` compiles.
Only the former is read by rowid. -/
def prepareStmt (d : Disk) : Bool :=
  provides d idTable && match findTable d contextTable.zName with
    | none => false
    | some t => contextTable.columns.all fun c => t.columns.any (sqlite3StrICmp c)

def schemaOf (d : Disk) : List Schema.Database :=
  let columns := ["type", "name", "tbl_name", "rootpage", "sql"]
  [⟨"main", ⟨"sqlite_master", columns, true⟩ :: d.tables⟩,
    ⟨"temp", [⟨"sqlite_temp_master", columns, true⟩]⟩]

inductive Failure where
  | rc
  | fault (fault : Fault)
  deriving DecidableEq, Repr

section

variable (lib : Selinux) (env : Surroundings)

def initializeMapping (ctx : SesqliteContext) (labels : LabelIds.Session) :
    Except Fault LabelIds.Session := do
  let labels ← ctx.tupleContext.foldlM
    (fun s p => (mapTuple s p.securityContext env).map Prod.fst) labels
  let tid ← tupleId lib ctx labels.hashId "main" "selinux_id"
  .ok (stepStmtUpdate labels tid)

/-- The state before either branch of `sqlite3SelinuxInit` fills it. -/
def blank (d : Disk) (contexts : Option SesqliteContext) : Schema.Session where
  labels := ⟨⟨d.selinuxId, []⟩, ⟨d.selinuxId, []⟩, sesqliteBihashInit, 0, []⟩
  hash := sqliteHashInit
  contexts := contexts
  databases := schemaOf d
  selinuxContext := some d.selinuxContext

def loadContextsFromTable (s : Schema.Session) (d : Disk) : Schema.Session :=
  { s with
    labels := { s.labels with hashId := loadIds d.selinuxId env.released }
    hash := loadContexts d.selinuxContext }

/-- The first-open branch, once the rule file is read. -/
def firstOpen (ctx : SesqliteContext) (runs : Bool) (s : Schema.Session) :
    Except Fault Schema.Session := do
  let labels ← initializeMapping lib env ctx s.labels
  loadSesqliteContexts lib ctx env runs { s with labels := labels }

/-- The two branches. Only a first open reads the rule file. -/
def loadState (contexts file : Option SesqliteContext) (runs : Bool) (d : Disk) :
    Bool → Except Failure Schema.Session
  | true => .ok (loadContextsFromTable env (blank d contexts) d)
  | false =>
    match file with
    | none => .error .rc
    | some ctx => (firstOpen lib env ctx runs (blank d contexts)).mapError .fault

/-- `sqlite3SelinuxInit` for a process with the label `scon` and the global `contexts`. The
result says which branch was taken. -/
def sqlite3SelinuxInit (scon : String) (contexts file : Option SesqliteContext) (runs : Bool)
    (d : Disk) : Except Failure (Bool × Schema.Session) :=
  match isReopen d with
  | none => .error .rc
  | some reopen =>
    let d := createInternalTable d
    if prepareStmt d then do
      let s ← loadState lib env contexts file runs d reopen
      let r ← (insertId lib s.contexts s.labels "main" scon env).mapError .fault
      .ok (reopen, { s with labels := r.1 })
    else .error .rc

end

/-- A call of the reopened session. An INSERT into a user table asks for the tuple label. -/
inductive Call where
  | insert (dbName tblName : String)
  | getContext (o : Object) (env : Surroundings)
  | insertId (dbName label : String) (env : Surroundings)

def Call.run (lib : Selinux) (contexts : Option SesqliteContext) (s : Store) :
    Call → Except Fault Store
  | .insert dbName tblName =>
    (lookupSecurityContext lib contexts s.labels.hashId dbName tblName).map fun _ => s
  | .getContext o env =>
    (ObjectLabels.getContext lib contexts s o.dbName o.tblName o.colName o.tclass env).map Prod.fst
  | .insertId dbName label env =>
    (LabelIds.insertId lib contexts s.labels dbName label env).map fun r => { s with labels := r.1 }

def Call.step (lib : Selinux) (contexts : Option SesqliteContext) (s : Store) (call : Call) :
    Store :=
  match call.run lib contexts s with
  | .ok s' => s'
  | .error _ => s

/-- No call reads the rule lists before they are loaded. -/
def Safe (lib : Selinux) (contexts : Option SesqliteContext) (s : Store) : Prop :=
  ∀ calls, Along (Call.step lib contexts)
    (fun s call => call.run lib contexts s ≠ .error .nullContexts) s calls

/-- The later initialisation takes the reopen branch and yields a safe session. -/
def Usable (lib : Selinux) (scon : String) (contexts file : Option SesqliteContext)
    (env : Surroundings) (runs : Bool) (d : Disk) : Prop :=
  ∃ s, sqlite3SelinuxInit lib env scon contexts file runs d = .ok (true, s) ∧
    Safe lib s.contexts s.toStore

/-- What CREATE TABLE adds to the internal tables: the labels it registers, with the id that
labels their rows, and the rows of the new objects. -/
structure Additions where
  tid : Int
  labels : List String
  rows : List ContextRow

/-- A statement of the first session; `accepted` says that nothing else refuses it. -/
inductive Ddl where
  | createTable (t : Table) (new : Additions) (accepted : Bool)
  | dropTable (zName : String) (accepted : Bool)

/-- One run of `stmt_insert` on the table. -/
def addLabel (tid : Int) (rows : List IdRow) (label : String) : List IdRow :=
  if rows.any fun row => row.securityLabel == label then rows
  else rows ++ [⟨newRowid rows, tid, label⟩]

def execute (d : Disk) : Ddl → Disk
  | .createTable t new accepted =>
    if accepted && !isSystemTable t.zName && (findTable d t.zName).isNone then
      { tables := d.tables ++ [storedTable t]
        selinuxId := new.labels.foldl (addLabel new.tid) d.selinuxId
        selinuxContext := d.selinuxContext ++ new.rows }
    else d
  | .dropTable zName accepted =>
    match findTable d zName with
    | none => d
    | some t =>
      if accepted && !isSystemTable t.zName then
        { tables := d.tables.filter fun u => u.zName != t.zName
          selinuxId := if sqlite3StrICmp t.zName idTable.zName then [] else d.selinuxId
          selinuxContext :=
            if sqlite3StrICmp t.zName contextTable.zName then []
            else d.selinuxContext.filter fun row => !(row.db == "main" && row.name == t.zName) }
      else d

def diskOf (d : Disk) (s : Schema.Session) : Disk where
  tables := (createInternalTable d).tables
  selinuxId := s.labels.current.selinuxId
  selinuxContext := s.selinuxContext.getD []

/-- What one statement needs: it leaves tables named selinux% alone, and its labels get ids
that fit an `int`. -/
def Quiet (d : Disk) : Ddl → Prop
  | .createTable t new _ =>
    ¬likeSelinux t.zName ∧ newRowid d.selinuxId + new.labels.length ≤ 2 ^ 31
  | .dropTable zName _ => ¬likeSelinux zName

/-- The tables that count for `isReopen`. -/
def selinuxTables (d : Disk) : List Table := d.tables.filter fun t => likeSelinux t.zName

def idRowLabel (lib : Selinux) (ctx : SesqliteContext) : Option String :=
  computeSqlContext lib false "main" (some "selinux_id") none ctx.tupleContext

def idPairs (rows : List IdRow) : List (Int × String) :=
  rows.map fun row => (row.rowid, row.securityLabel)

/-- A file that the reopen branch accepts, with the label that new ids need. -/
structure Intact (lib : Selinux) (ctx : SesqliteContext) (d : Disk) : Prop where
  tables : selinuxTables d = [contextTable, idTable]
  wellFormed : WellFormed (idPairs d.selinuxId)
  registered : ∃ id label, idRowLabel lib ctx = some label ∧ (id, label) ∈ idPairs d.selinuxId

private theorem likeSelinux_congr {a b : String} (eq : fold a = fold b) :
    likeSelinux a = likeSelinux b := by
  simp [likeSelinux, sqlite3StrNICmp, eq]

private theorem findTable_selinux (d : Disk) {zName : String} (like : likeSelinux zName) :
    findTable d zName = (selinuxTables d).find? fun t => sqlite3StrICmp t.zName zName := by
  rw [findTable, selinuxTables, find?_filter]
  congr 1
  funext t
  by_cases eqv : sqlite3StrICmp t.zName zName
  · simp [likeSelinux_congr ((sqlite3StrICmp_iff _ _).mp eqv), like]
  · simp [eqv]

private theorem isReopen_eq (d : Disk) : isReopen d =
    match (selinuxTables d).length with
    | 0 => some false
    | 2 => some true
    | _ => none := rfl

variable {lib : Selinux} {ctx : SesqliteContext} {d : Disk}

private theorem addLabels_spec (tid : Int) : ∀ (labels : List String) (rows : List IdRow),
    WellFormed (idPairs rows) → newRowid rows + labels.length ≤ 2 ^ 31 →
    WellFormed (idPairs (labels.foldl (addLabel tid) rows)) ∧
      ∀ p ∈ idPairs rows, p ∈ idPairs (labels.foldl (addLabel tid) rows)
  | [], rows, wf, _ => ⟨wf, fun _ member => member⟩
  | label :: labels, rows, wf, room => by
    rw [foldl_cons]
    rw [length_cons] at room
    by_cases present : rows.any fun row => row.securityLabel == label
    · have same : addLabel tid rows label = rows := by simp only [addLabel, present, if_true]
      rw [same]
      exact addLabels_spec tid labels rows wf (by omega)
    · have added : addLabel tid rows label = rows ++ [⟨newRowid rows, tid, label⟩] := by
        simp only [addLabel, present, Bool.false_eq_true, if_false]
      have pairs : idPairs (rows ++ [⟨newRowid rows, tid, label⟩]) =
          idPairs rows ++ [(newRowid rows, label)] := by simp [idPairs]
      have freshLabel : label ∉ (idPairs rows).map Prod.snd := by simpa [idPairs] using present
      have wf' : WellFormed (idPairs (rows ++ [⟨newRowid rows, tid, label⟩])) := by
        rw [pairs]
        exact wellFormed_append_single.mpr
          ⟨wf, ⟨(newRowid_bounds rows).1, by omega⟩,
            newRowid_fresh ⟨rows, []⟩, freshLabel⟩
      have next := newRowid_append rows tid label
      rw [added]
      obtain ⟨final, kept⟩ := addLabels_spec tid labels _ wf' (by omega)
      exact ⟨final, fun p member => kept p (by rw [pairs]; exact mem_append_left _ member)⟩

private theorem Intact.execute (intact : Intact lib ctx d) (ddl : Ddl) (quiet : Quiet d ddl) :
    Intact lib ctx (execute d ddl) := by
  cases ddl with
  | createTable t new accepted =>
    obtain ⟨other, room⟩ := quiet
    simp only [Reopen.execute]
    split
    · obtain ⟨wf, kept⟩ := addLabels_spec new.tid new.labels d.selinuxId intact.wellFormed room
      obtain ⟨id, label, computed, member⟩ := intact.registered
      have name : (storedTable t).zName = t.zName := by
        unfold storedTable
        split <;> rfl
      refine ⟨?_, wf, id, label, computed, kept _ member⟩
      have dropped : likeSelinux (storedTable t).zName = false := by
        rw [name]
        simpa using other
      simpa [selinuxTables, dropped] using intact.tables
    · exact intact
  | dropTable zName accepted =>
    simp only [Reopen.execute]
    split
    · exact intact
    rename_i t found
    split
    · have hit := find?_some found
      have name := (sqlite3StrICmp_iff _ _).mp hit
      have other : likeSelinux t.zName = false := by
        rw [likeSelinux_congr name]
        simpa [Quiet] using quiet
      have notId : ¬sqlite3StrICmp t.zName idTable.zName := by
        intro eqv
        rw [likeSelinux_congr ((sqlite3StrICmp_iff _ _).mp eqv)] at other
        cases other
      refine ⟨?_, by simpa [notId] using intact.wellFormed,
        by simpa [notId] using intact.registered⟩
      rw [← intact.tables, selinuxTables, filter_filter]
      refine filter_congr fun u member => ?_
      by_cases same : u.zName = t.zName
      · simp [same, other]
      · simp [same]
    · exact intact

private theorem map_ne_error {α β : Type} {x : Except Fault α} {fault : Fault} {f : α → β}
    (ne : x ≠ .error fault) : x.map f ≠ .error fault := by
  cases x with
  | error other => simpa [Except.map] using ne
  | ok a => simp [Except.map]

private theorem lookupSecurityContext_ne (hashId : BiHash.SesqliteBihash Int String)
    (dbName tblName : String) :
    lookupSecurityContext lib (some ctx) hashId dbName tblName ≠ .error .nullContexts := by
  simp only [lookupSecurityContext, Contexts.rules, bind, Except.bind, tupleId]
  split
  · simp
  · split <;> simp

private theorem insertId_ne (labels : LabelIds.Session) (dbName label : String)
    (env : Surroundings) :
    insertId lib (some ctx) labels dbName label env ≠ .error .nullContexts := by
  simp only [insertId, registerLabel]
  split
  · simp
  · exact map_ne_error (lookupSecurityContext_ne _ _ _)

private theorem run_ne_nullContexts (s : Store) (call : Call) :
    call.run lib (some ctx) s ≠ .error .nullContexts := by
  cases call with
  | insert dbName tblName => exact map_ne_error (lookupSecurityContext_ne _ _ _)
  | insertId dbName label env => exact map_ne_error (insertId_ne _ _ _ _)
  | getContext o env =>
    refine map_ne_error ?_
    simp only [ObjectLabels.getContext, Contexts.rules, bind, Except.bind]
    split
    · simp
    · split
      · simp
      · rename_i label _
        have registers := @insertId_ne lib ctx s.labels o.dbName label env
        cases call : insertId lib (some ctx) s.labels o.dbName label env with
        | error fault => simpa [call] using registers
        | ok r => simp

private theorem safe_of_rules (s : Store) : Safe lib (some ctx) s :=
  fun calls => Lib.Runs.along_of_forall _ (fun s call => run_ne_nullContexts s call) s calls

private theorem not_safe_of_no_rules (s : Store) : ¬Safe lib none s := fun safe =>
  (safe [.insert "main" "t"]).1 rfl

private theorem Intact.usable (intact : Intact lib ctx d) (scon : String)
    (file : Option SesqliteContext) (env : Surroundings) (runs : Bool) :
    Usable lib scon (some ctx) file env runs d := by
  have found : ∀ t ∈ [contextTable, idTable], findTable d t.zName = some t := by
    intro t member
    rw [findTable_selinux d (by revert t; decide), intact.tables]
    revert t
    decide
  have context := found contextTable (by simp)
  have ids := found idTable (by simp)
  have reopen : isReopen d = some true := by rw [isReopen_eq, intact.tables]; rfl
  have internal : createInternalTable d = d := by simp [createInternalTable, context, ids]
  have prepares : prepareStmt d = true := by
    simp only [prepareStmt, provides, context, ids]
    decide
  have mirrors := mirrors_loadIds d.selinuxId env.released intact.wellFormed
  obtain ⟨id, label, computed, member⟩ := intact.registered
  have known : tupleId lib ctx (loadIds d.selinuxId env.released) "main" "selinux_id" = .ok id := by
    have computed : computeSqlContext lib false "main" (some "selinux_id") none ctx.tupleContext =
      some label := computed
    simp [tupleId, computed, (mirrors.backward label id).mpr member]
  have registers : ∃ r, insertId lib (some ctx)
      (loadContextsFromTable env (blank d (some ctx)) d).labels "main" scon env = .ok r := by
    simp only [insertId, registerLabel, lookupSecurityContext, Contexts.rules, bind, Except.bind,
      loadContextsFromTable, known]
    split <;> exact ⟨_, rfl⟩
  obtain ⟨r, registers⟩ := registers
  refine ⟨{ loadContextsFromTable env (blank d (some ctx)) d with labels := r.1 }, ?_,
    safe_of_rules _⟩
  simp only [sqlite3SelinuxInit, reopen, internal, prepares, loadState, bind, Except.bind]
  rw [show (loadContextsFromTable env (blank d (some ctx)) d).contexts = some ctx from rfl,
    registers]
  rfl

section

variable {env : Surroundings} {contexts : Option SesqliteContext} {scon : String} {runs : Bool}
  {s : Schema.Session}

private theorem bind_eq_ok {ε α β : Type} {x : Except ε α} {f : α → Except ε β} {b : β}
    (returns : (x >>= f) = .ok b) : ∃ a, x = .ok a ∧ f a = .ok b := by
  cases x with
  | error e => cases returns
  | ok a => exact ⟨a, rfl, returns⟩

private theorem mapError_eq_ok {α : Type} {x : Except Fault α} {f : Fault → Failure} {a : α}
    (returns : x.mapError f = .ok a) : x = .ok a := by
  cases x with
  | error e => cases returns
  | ok b => exact congrArg _ (Except.ok.inj returns)

private theorem contexts_of_reopen {file : Option SesqliteContext}
    (opens : sqlite3SelinuxInit lib env scon contexts file runs d = .ok (true, s)) :
    s.contexts = contexts := by
  unfold sqlite3SelinuxInit at opens
  split at opens
  · cases opens
  simp only at opens
  split at opens
  swap
  · cases opens
  obtain ⟨opened, opening, later⟩ := bind_eq_ok opens
  obtain ⟨r, -, eq⟩ := bind_eq_ok later
  obtain ⟨rfl, rfl⟩ := Prod.mk.inj (Except.ok.inj eq)
  obtain rfl := Except.ok.inj opening
  rfl

private theorem createInternalTable_first (first : isReopen d = some false) :
    selinuxTables (createInternalTable d) = [contextTable, idTable] ∧
      (createInternalTable d).selinuxId = [] := by
  have none : selinuxTables d = [] := by
    rw [isReopen_eq] at first
    split at first
    · exact eq_nil_of_length_eq_zero (by assumption)
    · cases first
    · cases first
  have missing : findTable d contextTable.zName = .none := by
    rw [findTable_selinux d (by decide), none]
    rfl
  have tables :
      selinuxTables { d with tables := d.tables ++ [contextTable], selinuxContext := [] } =
      [contextTable] := by
    simp only [selinuxTables, filter_append]
    rw [show d.tables.filter _ = [] from none]
    decide
  have missing' : findTable { d with tables := d.tables ++ [contextTable], selinuxContext := [] }
      idTable.zName = .none := by
    rw [findTable_selinux _ (by decide), tables]
    decide
  simp only [createInternalTable, missing, missing', Option.isSome_none, Bool.false_eq_true,
    if_false]
  rw [selinuxTables, filter_append, show (d.tables ++ [contextTable]).filter _ = _ from tables]
  decide

private theorem mapTuples_grown (runs : env.insertRuns) :
    ∀ {ps : List Contexts.SesqliteContextElement} {labels labels' : LabelIds.Session},
    Coherent labels →
    newRowid labels.current.selinuxId + ps.length ≤ 2 ^ 31 →
    ps.foldlM (fun s p => (mapTuple s p.securityContext env).map Prod.fst) labels = .ok labels' →
    Grown ps.length labels labels'
  | [], labels, labels', coherent, _, returns => by
    obtain rfl : labels = labels' := Except.ok.inj returns
    exact coherent.grown_refl
  | p :: ps, labels, labels', coherent, room, returns => by
    rw [length_cons] at room
    rw [foldlM_cons] at returns
    cases call : mapTuple labels p.securityContext env with
    | error fault =>
      rw [call] at returns
      cases returns
    | ok r =>
      rw [call] at returns
      obtain ⟨grown, -⟩ := coherent.register runs (by omega) call
      have rowids := grown.rowids
      have later := mapTuples_grown runs grown.coherent (by omega) returns
      simpa [Nat.add_comm] using grown.trans later

private theorem initializeMapping_spec (runs : env.insertRuns) {labels labels' : LabelIds.Session}
    (coherent : Coherent labels)
    (room : newRowid labels.current.selinuxId + ctx.tupleContext.length ≤ 2 ^ 31)
    (returns : initializeMapping lib env ctx labels = .ok labels') : Coherent labels' ∧
      newRowid labels'.current.selinuxId ≤
        newRowid labels.current.selinuxId + ctx.tupleContext.length ∧
      ∃ id label, idRowLabel lib ctx = some label ∧ idOf labels'.hashId label = some id := by
  simp only [initializeMapping, bind, Except.bind] at returns
  split at returns
  · cases returns
  rename_i mapped mapping
  have grown := mapTuples_grown runs coherent room mapping
  split at returns
  · cases returns
  rename_i tid tuple
  obtain rfl := Except.ok.inj returns
  refine ⟨@LabelIds.Coherent.keep lib (some ctx) mapped (.relabelIds tid)
    grown.coherent trivial, by rw [newRowid_stepStmtUpdate]; exact grown.rowids, ?_⟩
  unfold tupleId at tuple
  split at tuple
  · cases tuple
  · rename_i label computed
    split at tuple
    · cases tuple
    · rename_i id known
      exact ⟨id, label, computed, known⟩

/-- How many labels a first open may register. -/
def labelsAtOpen (ctx : SesqliteContext) (d : Disk) : Nat :=
  ctx.tupleContext.length + 2 * (reloadedObjects (schemaOf (createInternalTable d))
    (some "*") (some "*") (some "*")).length + 1

private theorem intact_of_first (stored : env.insertRuns)
    (room : 1 + (labelsAtOpen ctx d : Int) ≤ 2 ^ 31)
    (first : sqlite3SelinuxInit lib env scon contexts (some ctx) runs d = .ok (false, s)) :
    s.contexts = some ctx ∧ Intact lib ctx (diskOf d s) := by
  unfold sqlite3SelinuxInit at first
  split at first
  · cases first
  rename_i reopen branch
  simp only at first
  split at first
  swap
  · cases first
  obtain ⟨opened, opening, later⟩ := bind_eq_ok first
  obtain ⟨r, registers, eq⟩ := bind_eq_ok later
  obtain ⟨rfl, rfl⟩ := Prod.mk.inj (Except.ok.inj eq)
  obtain ⟨tables, empty⟩ := createInternalTable_first branch
  obtain ⟨labels, mapping, load⟩ := bind_eq_ok (mapError_eq_ok opening)
  have start : (blank (createInternalTable d) contexts).labels = LabelIds.empty := by
    simp [blank, empty, LabelIds.empty]
  have one : newRowid LabelIds.empty.current.selinuxId = 1 := rfl
  rw [start] at mapping
  unfold labelsAtOpen at room
  obtain ⟨coherent, rowids, id, label, computed, known⟩ :=
    initializeMapping_spec stored coherent_empty (by omega) mapping
  have objects : Registers env
      { blank (createInternalTable d) contexts with labels := labels, contexts := some ctx }
      (2 * (reloadedObjects (schemaOf (createInternalTable d)) (some "*") (some "*")
        (some "*")).length) := ⟨stored, by simp only; omega⟩
  obtain ⟨grown, rules⟩ := relabelObjects_grown coherent objects load
  have rowids' := grown.rowids
  obtain ⟨grown', -⟩ := grown.coherent.register stored
    (by simp only at rowids'; omega) (mapError_eq_ok registers)
  refine ⟨rules, tables, grown'.coherent.wellFormed, id, label, computed, ?_⟩
  exact (grown'.coherent.mirrors.backward label id).mp
    (grown'.kept _ _ (grown.kept _ _ known))

/-- After a first open, and statements that leave tables named selinux% alone, the file can
be reopened and used at any time by the process that holds the rules. A new process, in
which nothing has read them, never can. -/
theorem visits_usable_iff {scon : String} {contexts : Option SesqliteContext} {runs : Bool}
    {s : Schema.Session} (stored : env.insertRuns) (room : 1 + (labelsAtOpen ctx d : Int) ≤ 2 ^ 31)
    (first : sqlite3SelinuxInit lib env scon contexts (some ctx) runs d = .ok (false, s))
    {run : List Ddl} (quiet : Along execute Quiet (diskOf d s) run) (scon' : String)
    (file : Option SesqliteContext) (env' : Surroundings) (runs' : Bool)
    {later : Option SesqliteContext} (process : later = none ∨ later = s.contexts) :
    Visits execute (Usable lib scon' later file env' runs') (diskOf d s) run ↔
      later = s.contexts := by
  obtain ⟨rules, intact⟩ := intact_of_first stored room first
  constructor
  · intro usable
    refine process.resolve_left ?_
    rintro rfl
    obtain ⟨s', opens, safe⟩ := usable.first
    have none : s'.contexts = none := contexts_of_reopen opens
    exact not_safe_of_no_rules _ (none ▸ safe)
  · rintro rfl
    rw [rules]
    exact visits_of_invariant (fun _ intact => intact.usable scon' file env' runs')
      (fun _ ddl intact quiet => intact.execute ddl quiet) intact quiet

open Schema

def emptyFile : Disk := ⟨[], [], []⟩

def firstSession : Schema.Session :=
  (sqlite3SelinuxInit silent stores "user_t" none (some oneRuleEach) true emptyFile).toOption.elim
    (blank emptyFile none) Prod.snd

private theorem firstSession_opens :
    sqlite3SelinuxInit silent stores "user_t" none (some oneRuleEach) true emptyFile =
      .ok (false, firstSession) := rfl

/-- The rows that CREATE TABLE adds for a table with one column; all labels are known. -/
def oneColumn (zName : String) : Additions where
  tid := 1
  labels := []
  rows := [⟨1, 3, "main", zName, none⟩, ⟨1, 4, "main", zName, some "a"⟩,
    ⟨1, 4, "main", zName, some "security_context"⟩, ⟨1, 4, "main", zName, some "ROWID"⟩]

theorem visits_usable_iff_sameProcess :
    Visits execute (Usable silent "user_t" firstSession.contexts none stores true)
      (diskOf emptyFile firstSession)
      [.createTable ⟨"t", ["a"], true⟩ (oneColumn "t") true, .dropTable "T" true] := by
  refine (visits_usable_iff rfl (by decide) firstSession_opens ?_ "user_t" none stores true
    (.inr rfl)).mpr rfl
  exact ⟨⟨by decide, by decide⟩, (by decide : ¬likeSelinux "T"), trivial⟩

/-- A new process opens the file, and its first INSERT reads a null rule list; after a table
named selinuxfoo was created it does not open the file at all. -/
theorem newProcess_fails :
    (∃ s, sqlite3SelinuxInit silent stores "user_t" none (some oneRuleEach) true
        (diskOf emptyFile firstSession) = .ok (true, s) ∧
      (Call.insert "main" "t").run silent s.contexts s.toStore = .error .nullContexts) ∧
    sqlite3SelinuxInit silent stores "user_t" none (some oneRuleEach) true
      (execute (diskOf emptyFile firstSession)
        (.createTable ⟨"selinuxfoo", ["a"], true⟩ (oneColumn "selinuxfoo") true)) = .error .rc :=
  ⟨⟨_, rfl, rfl⟩, rfl⟩

end

end SeSqlite.Reopen
