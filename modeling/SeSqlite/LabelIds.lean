/- source: ext/security/sesqlite/sesqlite_authorizer.c, ext/security/sesqlite/sesqlite_init.c,
   ext/security/sesqlite/sesqlite_compute_label.c
   digest: Registration of label ids across commits, rollbacks and sessions. -/
import SeSqlite.Contexts
import SeSqlite.Lib.Runs
import Mathlib.Algebra.Ring.Int.Defs
import Mathlib.Algebra.Ring.Nat
import Mathlib.Data.List.Induction
import Mathlib.Data.List.Nodup
import Mathlib.Data.List.Perm.Basic

set_option autoImplicit false
set_option relaxedAutoImplicit false

namespace SeSqlite.LabelIds

open BiHash Contexts Lib.Runs List

/-- A row of `selinux_id`; its rowid is the id of the label. -/
structure IdRow where
  rowid : Int
  securityContext : Int
  securityLabel : String
  deriving DecidableEq, Repr

/-- A row of a user table. `passed` is no stored value: it remembers the label whose
registration returned the stored id. -/
structure Tuple where
  rowid : Int
  securityContext : Int
  passed : String
  deriving DecidableEq, Repr

structure Database where
  selinuxId : List IdRow
  tuples : List Tuple
  deriving DecidableEq, Repr

/-- The database as committed and as the open transaction sees it, next to what lives
in process memory: `hash_id`, the last rowid, and the ids handed out so far. -/
structure Session where
  committed : Database
  current : Database
  hashId : SesqliteBihash Int String
  lastRowid : Int
  issued : List (Int × String)

/-- What the surroundings decide when a label is stored: whether the prepared INSERT can
run at all, and what a freed value buffer reads as. -/
structure Surroundings where
  insertRuns : Bool
  released : Nat → String

/-- Conversion of a 64-bit rowid to `int`. -/
def toInt (rowid : Int) : Int := rowid.bmod (2 ^ 32)

/-- `OP_NewRowid` on a table without AUTOINCREMENT: one more than the largest rowid. -/
def newRowid (rows : List IdRow) : Int := rows.foldl (fun m row => max m row.rowid) 0 + 1

/-- One run of `stmt_insert`. A label that is present violates the UNIQUE constraint.
When the INSERT fails nothing changes, `sqlite3_last_insert_rowid` included. -/
def stepStmtInsert (s : Session) (tid : Int) (label : String) (insertRuns : Bool) : Session :=
  if insertRuns && !(s.current.selinuxId.any fun row => row.securityLabel == label) then
    { s with
      current := { s.current with
        selinuxId := s.current.selinuxId ++ [⟨newRowid s.current.selinuxId, tid, label⟩] }
      lastRowid := newRowid s.current.selinuxId }
  else s

/-- The INSERT into `selinux_id`, whose result code is ignored, and the binding of the
last rowid in `hash_id`. -/
def storeLabel (s : Session) (tid : Int) (label : String) (env : Surroundings) : Session × Int :=
  let stored := stepStmtInsert s tid label env.insertRuns
  let rowid := toInt stored.lastRowid
  ({ stored with
    hashId := sesqliteBihashInsert stored.hashId ⟨rowid, some label, env.released⟩ }, rowid)

/-- The id that a registration of a label without one will bind. -/
def boundId (s : Session) (label : String) (insertRuns : Bool) : Int :=
  toInt (stepStmtInsert s 0 label insertRuns).lastRowid

/-- The common shape of all registrations: a label that has an id keeps it. -/
def registerLabel (s : Session) (label : String) (tid : Except Fault Int) (env : Surroundings) :
    Except Fault (Session × Int) :=
  match idOf s.hashId label with
  | some id => .ok (s, id)
  | none => tid.map fun tid => storeLabel s tid label env

@[simp] theorem stepStmtInsert_hashId (s : Session) (tid : Int) (label : String) (runs : Bool) :
    (stepStmtInsert s tid label runs).hashId = s.hashId := by
  unfold stepStmtInsert
  split <;> rfl

theorem storeLabel_snd (s : Session) (tid : Int) (label : String) (env : Surroundings) :
    (storeLabel s tid label env).2 = boundId s label env.insertRuns := by
  simp only [storeLabel, boundId, stepStmtInsert]
  split <;> rfl

theorem storeLabel_hashId (s : Session) (tid : Int) (label : String) (env : Surroundings) :
    (storeLabel s tid label env).1.hashId =
      sesqliteBihashInsert s.hashId ⟨boundId s label env.insertRuns, some label, env.released⟩ := by
  rw [← storeLabel_snd s tid]
  simp [storeLabel]

section

variable (lib : Selinux) (contexts : Option SesqliteContext)

def insertId (s : Session) (dbName label : String) (env : Surroundings) :
    Except Fault (Session × Int) :=
  registerLabel s label (lookupSecurityContext lib contexts s.hashId dbName "selinux_id") env

def lookupSecurityLabel (s : Session) (isColumn : Bool) (dbName : String)
    (tblName colName : Option String) (env : Surroundings) : Except Fault (Session × Int) := do
  let ctx ← rules contexts
  let con := if isColumn then ctx.columnContext else ctx.tableContext
  match computeSqlContext lib isColumn dbName tblName colName con with
  | none => .error .assertion
  | some label =>
    registerLabel s label (lookupSecurityContext lib contexts s.hashId dbName "selinux_id") env

/-- `insert_context`. Its rule lists are arguments, and the row is labelled by the tuple
rule of the table at hand. -/
def insertContext (s : Session) (isColumn : Bool) (dbName : String)
    (tblName colName : Option String)
    (con tupleContext : List SesqliteContextElement) (env : Surroundings) :
    Except Fault (Session × Int) :=
  match computeSqlContext lib isColumn dbName tblName colName con with
  | none => .error .assertion
  | some label =>
    let tid := match computeSqlContext lib false dbName tblName none tupleContext with
      | none => Except.error Fault.assertion
      | some secContext => (idOf s.hashId secContext).elim (.error .assertion) .ok
    registerLabel s label tid env

/-- The SQL function `getcon_id`; an invalid label is an SQL error and registers nothing. -/
def selinuxGetconIdFunction (s : Session) (label : String) (env : Surroundings) :
    Except Fault (Session × Option Int) :=
  if lib.checkContext label then
    (insertId lib contexts s "main" label env).map fun r => (r.1, some r.2)
  else .ok (s, none)

end

/-- One turn of the loop of `initialize_mapping`. The row is labelled afterwards, and the
assertion on the result code is absent from release builds. -/
def mapTuple (s : Session) (label : String) (env : Surroundings) : Except Fault (Session × Int) :=
  registerLabel s label (.ok 0) env

/-- `stmt_update`, run at the end of `initialize_mapping`. -/
def stepStmtUpdate (s : Session) (tid : Int) : Session :=
  { s with current := { s.current with
    selinuxId := s.current.selinuxId.map fun row => { row with securityContext := tid } } }

/-- The part of `load_contexts_from_table` that fills `hash_id`. -/
def loadIds (rows : List IdRow) (released : Nat → String) : SesqliteBihash Int String :=
  rows.foldl (fun h row =>
    sesqliteBihashInsert h ⟨toInt row.rowid, some row.securityLabel, released⟩) sesqliteBihashInit

inductive Registration where
  | mapTuple (label : String) (env : Surroundings)
  | insertId (dbName label : String) (env : Surroundings)
  | lookupSecurityLabel (isColumn : Bool) (dbName : String) (tblName colName : Option String)
      (env : Surroundings)
  | insertContext (isColumn : Bool) (dbName : String) (tblName colName : Option String)
      (con tupleContext : List SesqliteContextElement) (env : Surroundings)
  | getconId (label : String) (env : Surroundings)

/-- One step of a session. Row writes store an id that some registration returned;
`reopen` is a new process on the committed database. -/
inductive Op where
  | register (reg : Registration)
  | relabelIds (tid : Int)
  | insertTuple (rowid : Int) (handed : Int × String)
  | updateTuple (rowid : Int) (handed : Int × String)
  | deleteTuple (rowid : Int)
  | commit
  | rollback
  | reopen (released : Nat → String)

section

variable (lib : Selinux) (contexts : Option SesqliteContext)

/-- The label a call passes on to be registered, if it gets that far. -/
def Registration.label : Registration → Option String
  | .mapTuple label _ => some label
  | .insertId _ label _ => some label
  | .lookupSecurityLabel isColumn dbName tblName colName _ => contexts.bind fun ctx =>
    computeSqlContext lib isColumn dbName tblName colName
      (if isColumn then ctx.columnContext else ctx.tableContext)
  | .insertContext isColumn dbName tblName colName con _ _ =>
    computeSqlContext lib isColumn dbName tblName colName con
  | .getconId label _ => if lib.checkContext label then some label else none

/-- The id that labels the new row of `selinux_id`. -/
def Registration.tid (s : Session) : Registration → Except Fault Int
  | .mapTuple _ _ => .ok 0
  | .insertId dbName _ _ => lookupSecurityContext lib contexts s.hashId dbName "selinux_id"
  | .lookupSecurityLabel _ dbName _ _ _ =>
    lookupSecurityContext lib contexts s.hashId dbName "selinux_id"
  | .insertContext _ dbName tblName _ _ tupleContext _ =>
    match computeSqlContext lib false dbName tblName none tupleContext with
    | none => .error .assertion
    | some secContext => (idOf s.hashId secContext).elim (.error .assertion) .ok
  | .getconId _ _ => lookupSecurityContext lib contexts s.hashId "main" "selinux_id"

def Registration.env : Registration → Surroundings
  | .mapTuple _ env => env
  | .insertId _ _ env => env
  | .lookupSecurityLabel _ _ _ _ env => env
  | .insertContext _ _ _ _ _ _ env => env
  | .getconId _ env => env

def Registration.run (s : Session) : Registration → Except Fault (Session × Option Int)
  | .mapTuple label env => (LabelIds.mapTuple s label env).map fun r => (r.1, some r.2)
  | .insertId dbName label env =>
    (LabelIds.insertId lib contexts s dbName label env).map fun r => (r.1, some r.2)
  | .lookupSecurityLabel isColumn dbName tblName colName env =>
    (LabelIds.lookupSecurityLabel lib contexts s isColumn dbName tblName colName env).map
      fun r => (r.1, some r.2)
  | .insertContext isColumn dbName tblName colName con tupleContext env =>
    (LabelIds.insertContext lib s isColumn dbName tblName colName con tupleContext env).map
      fun r => (r.1, some r.2)
  | .getconId label env => selinuxGetconIdFunction lib contexts s label env

/-- The effect of one step; a call that does not return leaves the state as it was. -/
def step (s : Session) : Op → Session
  | .register reg =>
    match reg.run lib contexts s with
    | .error _ => s
    | .ok (s', none) => s'
    | .ok (s', some id) =>
      { s' with issued := (id, (reg.label lib contexts).getD "") :: s'.issued }
  | .relabelIds tid => stepStmtUpdate s tid
  | .insertTuple rowid handed =>
    if handed ∈ s.issued then
      { s with
        current := { s.current with tuples := s.current.tuples ++ [⟨rowid, handed.1, handed.2⟩] }
        lastRowid := rowid }
    else s
  | .updateTuple rowid handed =>
    if handed ∈ s.issued then
      { s with current := { s.current with tuples := s.current.tuples.map fun t =>
        if t.rowid = rowid then ⟨t.rowid, handed.1, handed.2⟩ else t } }
    else s
  | .deleteTuple rowid =>
    { s with current := { s.current with
      tuples := s.current.tuples.filter fun t => t.rowid != rowid } }
  | .commit => { s with committed := s.current }
  | .rollback => { s with current := s.committed }
  | .reopen released =>
    { committed := s.committed, current := s.committed
      hashId := loadIds s.committed.selinuxId released, lastRowid := 0, issued := [] }

end

def empty : Session where
  committed := ⟨[], []⟩
  current := ⟨[], []⟩
  hashId := sesqliteBihashInit
  lastRowid := 0
  issued := []

def pairs (db : Database) : List (Int × String) :=
  db.selinuxId.map fun row => (row.rowid, row.securityLabel)

/-- Ids stored in surviving rows resolve to the label passed when they were returned,
in `hash_id` and in `selinux_id`, and `hash_id` has no pair that `selinux_id` lacks. -/
structure Stable (s : Session) : Prop where
  resolves : ∀ t ∈ s.current.tuples,
    labelOf s.hashId t.securityContext = some t.passed ∧
      (t.securityContext, t.passed) ∈ pairs s.current
  backed : ∀ id label, labelOf s.hashId id = some label →
    (id, label) ∈ pairs s.current ∨ (id, label) ∈ pairs s.committed

/-- What one step needs. A registration that gets as far as the INSERT needs it to run and
the new rowid to fit an `int`; a rollback must not take back a row of `selinux_id`. -/
def KeepsIds (lib : Selinux) (contexts : Option SesqliteContext) (s : Session) : Op → Prop
  | .register reg =>
    match reg.label lib contexts, reg.tid lib contexts s with
    | some label, .ok _ => idOf s.hashId label = none →
        reg.env.insertRuns ∧ newRowid s.current.selinuxId < 2 ^ 31
    | _, _ => True
  | .rollback => pairs s.current = pairs s.committed
  | _ => True

section

variable {lib : Selinux} {contexts : Option SesqliteContext}

variable {reg : Registration} {label : String}

theorem Registration.run_of_label (s : Session) (passes : reg.label lib contexts = some label) :
    reg.run lib contexts s =
      (registerLabel s label (reg.tid lib contexts s) reg.env).map fun r => (r.1, some r.2) := by
  cases reg with
  | mapTuple _ _ => cases passes; rfl
  | insertId _ _ _ => cases passes; rfl
  | lookupSecurityLabel isColumn dbName tblName colName env =>
    cases contexts with
    | none => simp [Registration.label] at passes
    | some ctx =>
      have computed : computeSqlContext lib isColumn dbName tblName colName
        (if isColumn then ctx.columnContext else ctx.tableContext) = some label := passes
      simp only [Registration.run, LabelIds.lookupSecurityLabel, rules, bind, Except.bind, computed]
      rfl
  | insertContext isColumn dbName tblName colName con tupleContext env =>
    have computed : computeSqlContext lib isColumn dbName tblName colName con = some label := passes
    simp only [Registration.run, LabelIds.insertContext, computed]
    rfl
  | getconId text env =>
    by_cases valid : lib.checkContext text
    · obtain rfl : text = label := by simpa [Registration.label, valid] using passes
      simp [Registration.run, selinuxGetconIdFunction, valid, LabelIds.insertId, Registration.tid,
        Registration.env]
    · simp [Registration.label, valid] at passes

theorem Registration.run_of_no_label (s : Session) (passes : reg.label lib contexts = none)
    {r : Session × Option Int} (returns : reg.run lib contexts s = .ok r) : r = (s, none) := by
  cases reg with
  | mapTuple _ _ => cases passes
  | insertId _ _ _ => cases passes
  | lookupSecurityLabel isColumn dbName tblName colName env =>
    cases contexts with
    | none => cases returns
    | some ctx =>
      have computed : computeSqlContext lib isColumn dbName tblName colName
        (if isColumn then ctx.columnContext else ctx.tableContext) = none := passes
      simp only [Registration.run, LabelIds.lookupSecurityLabel, rules, bind, Except.bind, computed]
        at returns
      cases returns
  | insertContext isColumn dbName tblName colName con tupleContext env =>
    have computed : computeSqlContext lib isColumn dbName tblName colName con = none := passes
    simp only [Registration.run, LabelIds.insertContext, computed] at returns
    cases returns
  | getconId text env =>
    have invalid : lib.checkContext text = false := by
      simpa [Registration.label] using passes
    simpa [Registration.run, selinuxGetconIdFunction, invalid, eq_comm] using returns

theorem step_register_store (s : Session) {tid : Int} (passes : reg.label lib contexts = some label)
    (tuple : reg.tid lib contexts s = .ok tid) (unknown : idOf s.hashId label = none) :
    step lib contexts s (.register reg) =
      { (storeLabel s tid label reg.env).1 with
        issued := ((storeLabel s tid label reg.env).2, label) :: s.issued } := by
  have same_issued : (storeLabel s tid label reg.env).1.issued = s.issued := by
    simp only [storeLabel, stepStmtInsert]
    split <;> rfl
  simp [step, Registration.run_of_label s passes, registerLabel, unknown, tuple, Except.map, passes,
    same_issued]

theorem step_register_cases (lib : Selinux) (contexts : Option SesqliteContext) (s : Session)
    (reg : Registration) : step lib contexts s (.register reg) = s ∨
    (∃ label id, idOf s.hashId label = some id ∧
      step lib contexts s (.register reg) = { s with issued := (id, label) :: s.issued }) ∨
    ∃ label tid, reg.label lib contexts = some label ∧ reg.tid lib contexts s = .ok tid ∧
      idOf s.hashId label = none := by
  cases passes : reg.label lib contexts with
  | none =>
    left
    cases returns : reg.run lib contexts s with
    | error fault => simp [step, returns]
    | ok r =>
      obtain rfl := Registration.run_of_no_label s passes returns
      simp [step, returns]
  | some label =>
    have call := Registration.run_of_label s passes
    cases known : idOf s.hashId label with
    | some id =>
      refine .inr (.inl ⟨label, id, known, ?_⟩)
      simp [step, call, registerLabel, known, Except.map, passes]
    | none =>
      cases tuple : reg.tid lib contexts s with
      | error fault =>
        left
        simp [step, call, registerLabel, known, tuple, Except.map]
      | ok tid => exact .inr (.inr ⟨label, tid, rfl, rfl, known⟩)

end

/-- A hash that holds exactly the given pairs, in both directions. -/
structure Mirrors (hashId : SesqliteBihash Int String) (ps : List (Int × String)) : Prop where
  forward : ∀ id label, labelOf hashId id = some label ↔ (id, label) ∈ ps
  backward : ∀ label id, idOf hashId label = some id ↔ (id, label) ∈ ps

/-- Ids and labels are distinct and the ids are positive `int`s. -/
structure WellFormed (ps : List (Int × String)) : Prop where
  range : ∀ p ∈ ps, 0 < p.1 ∧ p.1 < 2 ^ 31
  ids : (ps.map Prod.fst).Nodup
  labels : (ps.map Prod.snd).Nodup

theorem toInt_of_range {rowid : Int} (positive : 0 < rowid) (small : rowid < 2 ^ 31) :
    toInt rowid = rowid := by
  unfold toInt
  rw [Int.bmod_eq_of_le] <;> omega

theorem newRowid_bounds (rows : List IdRow) :
    0 < newRowid rows ∧ ∀ row ∈ rows, row.rowid < newRowid rows := by
  have bound : ∀ (rows : List IdRow) (m : Int), m ≤ rows.foldl (fun m row => max m row.rowid) m ∧
      ∀ row ∈ rows, row.rowid ≤ rows.foldl (fun m row => max m row.rowid) m := by
    intro rows
    induction rows with
    | nil => simp
    | cons row rest ih =>
      intro m
      obtain ⟨above, each⟩ := ih (max m row.rowid)
      simp only [foldl_cons, forall_mem_cons]
      exact ⟨by omega, by omega, each⟩
  obtain ⟨above, each⟩ := bound rows 0
  unfold newRowid
  exact ⟨by omega, fun row member => by have := each row member; omega⟩

variable {ps : List (Int × String)}

theorem Mirrors.insert {hashId : SesqliteBihash Int String} (mirrors : Mirrors hashId ps)
    (new : Int × String) (released : Nat → String) (freshId : new.1 ∉ ps.map Prod.fst)
    (freshLabel : new.2 ∉ ps.map Prod.snd) :
    Mirrors (sesqliteBihashInsert hashId ⟨new.1, some new.2, released⟩) (ps ++ [new]) := by
  have unbound : labelOf hashId new.1 = none := by
    rw [Option.eq_none_iff_forall_ne_some]
    exact fun label bound =>
      freshId (mem_map.mpr ⟨(new.1, label), (mirrors.forward _ _).mp bound, rfl⟩)
  have free : idOf hashId new.2 = none := by
    rw [Option.eq_none_iff_forall_ne_some]
    exact fun id bound =>
      freshLabel (mem_map.mpr ⟨(id, new.2), (mirrors.backward _ _).mp bound, rfl⟩)
  constructor
  · intro id label
    rw [labelOf_insert, mem_append, ← mirrors.forward, mem_singleton, Prod.ext_iff]
    split <;> rename_i eq
    · subst eq
      simp [unbound, eq_comm]
    · simp [Ne.symm eq]
  · intro label id
    rw [idOf_insert hashId unbound, mem_append, ← mirrors.backward, mem_singleton, Prod.ext_iff]
    by_cases eq : new.2 = label
    · subst eq
      simp [free, eq_comm]
    · simp [eq, Ne.symm eq]

theorem mirrors_init : Mirrors sesqliteBihashInit [] where
  forward id label := by simp [show labelOf sesqliteBihashInit id = none from rfl]
  backward label id := by simp [show idOf sesqliteBihashInit label = none from rfl]

theorem wellFormed_append_single {new : Int × String} :
    WellFormed (ps ++ [new]) ↔ WellFormed ps ∧ (0 < new.1 ∧ new.1 < 2 ^ 31) ∧
      new.1 ∉ ps.map Prod.fst ∧ new.2 ∉ ps.map Prod.snd := by
  constructor
  · intro wf
    refine ⟨⟨fun p member => wf.range p (by simp [member]), ?_, ?_⟩, wf.range new (by simp), ?_, ?_⟩
    · exact (nodup_append.mp (by simpa using wf.ids)).1
    · exact (nodup_append.mp (by simpa using wf.labels)).1
    · intro member
      exact (nodup_append.mp (by simpa using wf.ids)).2.2 _ member new.1 (by simp) rfl
    · intro member
      exact (nodup_append.mp (by simpa using wf.labels)).2.2 _ member new.2 (by simp) rfl
  · rintro ⟨wf, range, freshId, freshLabel⟩
    refine ⟨fun p member => ?_, ?_, ?_⟩
    · rcases mem_append.mp member with old | last
      · exact wf.range p old
      · obtain rfl := mem_singleton.mp last
        exact range
    · rw [map_append]
      exact nodup_append.mpr ⟨wf.ids, by simp, by rintro a old b last rfl; simp_all⟩
    · rw [map_append]
      exact nodup_append.mpr ⟨wf.labels, by simp, by rintro a old b last rfl; simp_all⟩

/-- A new process reads back exactly the table. The induction takes the rows from the
end, since each one is inserted on top of all rows before it. -/
theorem mirrors_loadIds (rows : List IdRow) (released : Nat → String)
    (wf : WellFormed (rows.map fun row => (row.rowid, row.securityLabel))) :
    Mirrors (loadIds rows released) (rows.map fun row => (row.rowid, row.securityLabel)) := by
  induction rows using List.reverseRecOn with
  | nil => exact mirrors_init
  | append_singleton rows row ih =>
    rw [map_append] at wf ⊢
    obtain ⟨before, ⟨positive, small⟩, freshId, freshLabel⟩ := wellFormed_append_single.mp wf
    rw [loadIds, foldl_append, foldl_cons, toInt_of_range positive small]
    exact (ih before).insert (row.rowid, row.securityLabel) released freshId freshLabel

/-- The invariant of a session in which no id has gone astray. -/
structure Coherent (s : Session) : Prop where
  mirrors : Mirrors s.hashId (pairs s.current)
  wellFormed : WellFormed (pairs s.current)
  grown : pairs s.committed <+: pairs s.current
  tuples : ∀ t ∈ s.current.tuples, (t.securityContext, t.passed) ∈ pairs s.current
  committedTuples : ∀ t ∈ s.committed.tuples, (t.securityContext, t.passed) ∈ pairs s.committed
  issued : ∀ handed ∈ s.issued, handed ∈ pairs s.current

theorem coherent_empty : Coherent empty where
  mirrors := mirrors_init
  wellFormed := ⟨by simp [empty, pairs], by simp [empty, pairs], by simp [empty, pairs]⟩
  grown := prefix_refl _
  tuples := by simp [empty]
  committedTuples := by simp [empty]
  issued := by simp [empty]

theorem Coherent.stable {s : Session} (coherent : Coherent s) : Stable s where
  resolves t member :=
    have backed := coherent.tuples t member
    ⟨(coherent.mirrors.forward _ _).mpr backed, backed⟩
  backed id label bound := .inl ((coherent.mirrors.forward id label).mp bound)

section

variable {s : Session} {label : String}

theorem Coherent.fresh_label (coherent : Coherent s) (unknown : idOf s.hashId label = none) :
    label ∉ (pairs s.current).map Prod.snd := by
  intro member
  obtain ⟨⟨id, _⟩, backed, rfl⟩ := mem_map.mp member
  simp [(coherent.mirrors.backward _ id).mpr backed] at unknown

theorem newRowid_fresh (db : Database) : newRowid db.selinuxId ∉ (pairs db).map Prod.fst := by
  intro member
  obtain ⟨p, backed, eq⟩ := mem_map.mp member
  obtain ⟨row, present, rfl⟩ := mem_map.mp backed
  have := (newRowid_bounds db.selinuxId).2 row present
  omega

theorem stepStmtInsert_fresh (fresh : label ∉ (pairs s.current).map Prod.snd) (tid : Int)
    (insertRuns : Bool) : stepStmtInsert s tid label insertRuns =
      if insertRuns then
        { s with
          current := { s.current with
            selinuxId := s.current.selinuxId ++ [⟨newRowid s.current.selinuxId, tid, label⟩] }
          lastRowid := newRowid s.current.selinuxId }
      else s := by
  have absent : (s.current.selinuxId.any fun row => row.securityLabel == label) = false := by
    simpa [pairs] using fresh
  simp [stepStmtInsert, absent]

theorem Coherent.store (coherent : Coherent s) (unknown : idOf s.hashId label = none) (tid : Int)
    (env : Surroundings) (runs : env.insertRuns) (small : newRowid s.current.selinuxId < 2 ^ 31) :
    Coherent { (storeLabel s tid label env).1 with
      issued := ((storeLabel s tid label env).2, label) :: s.issued } := by
  have fresh := coherent.fresh_label unknown
  have positive := (newRowid_bounds s.current.selinuxId).1
  have freshId := newRowid_fresh s.current
  simp only [storeLabel, stepStmtInsert_fresh fresh, runs, if_true, toInt_of_range positive small]
  have grownPairs : pairs { s.current with selinuxId :=
      s.current.selinuxId ++ [⟨newRowid s.current.selinuxId, tid, label⟩] } =
      pairs s.current ++ [(newRowid s.current.selinuxId, label)] := by simp [pairs]
  constructor
  · rw [grownPairs]
    exact coherent.mirrors.insert (newRowid s.current.selinuxId, label) env.released freshId fresh
  · rw [grownPairs]
    exact wellFormed_append_single.mpr ⟨coherent.wellFormed, ⟨positive, small⟩, freshId, fresh⟩
  · rw [grownPairs]
    exact coherent.grown.trans (prefix_append _ _)
  · intro t member
    rw [grownPairs]
    exact mem_append_left _ (coherent.tuples t member)
  · exact coherent.committedTuples
  · intro handed member
    rw [grownPairs]
    rcases mem_cons.mp member with rfl | old
    · simp
    · exact mem_append_left _ (coherent.issued handed old)

/-- At most `n` labels were registered in between, and none lost its id. -/
structure Grown (n : Nat) (s s' : Session) : Prop where
  coherent : Coherent s'
  kept : ∀ label id, idOf s.hashId label = some id → idOf s'.hashId label = some id
  rowids : newRowid s'.current.selinuxId ≤ newRowid s.current.selinuxId + n

theorem Coherent.grown_refl (coherent : Coherent s) : Grown 0 s s :=
  ⟨coherent, fun _ _ known => known, by omega⟩

variable {s' : Session}

theorem Grown.trans {n m : Nat} {s'' : Session} (first : Grown n s s') (second : Grown m s' s'') :
    Grown (n + m) s s'' where
  coherent := second.coherent
  kept label id known := second.kept label id (first.kept label id known)
  rowids := by
    have := first.rowids
    have := second.rowids
    omega

theorem Grown.mono {n m : Nat} (grown : Grown n s s') (le : n ≤ m) : Grown m s s' :=
  ⟨grown.coherent, grown.kept, by have := grown.rowids; omega⟩

theorem newRowid_append (rows : List IdRow) (tid : Int) (label : String) :
    newRowid (rows ++ [⟨newRowid rows, tid, label⟩]) = newRowid rows + 1 := by
  have above : rows.foldl (fun m row => max m row.rowid) 0 ≤ newRowid rows := by
    unfold newRowid
    omega
  rw [newRowid, foldl_append, foldl_cons, foldl_nil, Int.max_eq_right above]

theorem newRowid_stepStmtUpdate (s : Session) (tid : Int) :
    newRowid (stepStmtUpdate s tid).current.selinuxId = newRowid s.current.selinuxId := by
  simp [newRowid, stepStmtUpdate, foldl_map]

theorem Coherent.register (coherent : Coherent s) {tid : Except Fault Int} {env : Surroundings}
    (runs : env.insertRuns) (small : newRowid s.current.selinuxId < 2 ^ 31) {id : Int}
    (returns : registerLabel s label tid env = .ok (s', id)) :
    Grown 1 s s' ∧ idOf s'.hashId label = some id := by
  unfold registerLabel at returns
  cases known : idOf s.hashId label with
  | some found =>
    rw [known] at returns
    cases returns
    exact ⟨coherent.grown_refl.mono (by omega), known⟩
  | none =>
    rw [known] at returns
    cases tid with
    | error fault => cases returns
    | ok tid =>
      have stored := Except.ok.inj returns
      have positive := (newRowid_bounds s.current.selinuxId).1
      have fresh := coherent.fresh_label known
      have coherent' := coherent.store known tid env runs small
      simp only [storeLabel, stepStmtInsert_fresh fresh, runs, if_true,
        toInt_of_range positive small] at stored coherent'
      cases stored
      have hits := coherent'.mirrors.backward
      have member : ∀ p ∈ pairs s.current, p ∈ pairs { s.current with selinuxId :=
          s.current.selinuxId ++ [⟨newRowid s.current.selinuxId, tid, label⟩] } := by
        intro p old
        simpa [pairs] using Or.inl (by simpa [pairs] using old)
      refine ⟨⟨?_, fun other found old => ?_, ?_⟩, (hits _ _).mpr (by simp [pairs])⟩
      · exact ⟨coherent'.mirrors, coherent'.wellFormed, coherent'.grown, coherent'.tuples,
          coherent'.committedTuples, fun handed old => member _ (coherent.issued handed old)⟩
      · exact (hits _ _).mpr (member _ ((coherent.mirrors.backward _ _).mp old))
      · rw [newRowid_append]
        omega

variable {lib : Selinux} {contexts : Option SesqliteContext} {s : Session}

private theorem Coherent.with_tuples (coherent : Coherent s) (tuples : List Tuple) (lastRowid : Int)
    (registered : ∀ t ∈ tuples, (t.securityContext, t.passed) ∈ pairs s.current) :
    Coherent { s with current := { s.current with tuples := tuples }, lastRowid := lastRowid } :=
  ⟨coherent.mirrors, coherent.wellFormed, coherent.grown, registered, coherent.committedTuples,
    coherent.issued⟩

theorem Coherent.keep (s : Session) (op : Op) (coherent : Coherent s)
    (keeps : KeepsIds lib contexts s op) : Coherent (step lib contexts s op) := by
  cases op with
  | register reg =>
    rcases step_register_cases lib contexts s reg with
      same | ⟨label, id, known, eq⟩ | ⟨label, tid, passes, tuple, unknown⟩
    · rw [same]
      exact coherent
    · rw [eq]
      refine ⟨coherent.mirrors, coherent.wellFormed, coherent.grown, coherent.tuples,
        coherent.committedTuples, fun handed member => ?_⟩
      rcases mem_cons.mp member with rfl | old
      · exact (coherent.mirrors.backward label id).mp known
      · exact coherent.issued handed old
    · rw [step_register_store s passes tuple unknown]
      simp only [KeepsIds, passes, tuple] at keeps
      obtain ⟨runs, small⟩ := keeps unknown
      exact coherent.store unknown tid reg.env runs small
  | relabelIds tid =>
    have same_pairs : pairs (stepStmtUpdate s tid).current = pairs s.current := by
      simp [pairs, stepStmtUpdate]
    exact ⟨by rw [step, same_pairs]; exact coherent.mirrors,
      by rw [step, same_pairs]; exact coherent.wellFormed,
      by rw [step, same_pairs]; exact coherent.grown,
      by rw [step, same_pairs]; exact coherent.tuples,
      coherent.committedTuples, by rw [step, same_pairs]; exact coherent.issued⟩
  | insertTuple rowid handed =>
    simp only [step]
    split <;> rename_i known
    · refine coherent.with_tuples _ rowid fun t member => ?_
      rcases mem_append.mp member with old | last
      · exact coherent.tuples t old
      · obtain rfl := mem_singleton.mp last
        exact coherent.issued handed known
    · exact coherent
  | updateTuple rowid handed =>
    simp only [step]
    split <;> rename_i known
    · refine coherent.with_tuples _ s.lastRowid fun t member => ?_
      obtain ⟨old, present, rfl⟩ := mem_map.mp member
      split
      · exact coherent.issued handed known
      · exact coherent.tuples old present
    · exact coherent
  | deleteTuple rowid =>
    exact coherent.with_tuples _ s.lastRowid fun t member =>
      coherent.tuples t (mem_of_mem_filter member)
  | commit =>
    exact ⟨coherent.mirrors, coherent.wellFormed, prefix_refl _, coherent.tuples,
      coherent.tuples, coherent.issued⟩
  | rollback =>
    have same_pairs := keeps
    exact ⟨same_pairs ▸ coherent.mirrors, same_pairs ▸ coherent.wellFormed, prefix_refl _,
      coherent.committedTuples, coherent.committedTuples, same_pairs ▸ coherent.issued⟩
  | reopen released =>
    have wf : WellFormed (pairs s.committed) := by
      obtain ⟨extra, eq⟩ := coherent.grown
      have all := coherent.wellFormed
      rw [← eq] at all
      exact ⟨fun p member => all.range p (by simp [member]),
        (nodup_append.mp (by simpa using all.ids)).1,
        (nodup_append.mp (by simpa using all.labels)).1⟩
    exact ⟨mirrors_loadIds _ released wf, wf, prefix_refl _, coherent.committedTuples,
      coherent.committedTuples, by simp [step]⟩

private theorem Coherent.not_backed {label : String} (coherent : Coherent s)
    (unknown : idOf s.hashId label = none) (id : Int) :
    (id, label) ∉ pairs s.current ∧ (id, label) ∉ pairs s.committed := by
  have absent : (id, label) ∉ pairs s.current := fun member =>
    coherent.fresh_label unknown (mem_map.mpr ⟨_, member, rfl⟩)
  exact ⟨absent, fun member => absent (coherent.grown.subset member)⟩

theorem Coherent.needed (s : Session) (op : Op) (coherent : Coherent s)
    (stable : Stable (step lib contexts s op)) : KeepsIds lib contexts s op := by
  cases op with
  | register reg =>
    simp only [KeepsIds]
    split
    · rename_i label tid passes tuple
      intro unknown
      have fresh := coherent.fresh_label unknown
      rw [step_register_store s passes tuple unknown] at stable
      -- the pair just put into the hash has to be a row of one of the two tables
      have backed := stable.backed _ label (by rw [storeLabel, labelOf_insert, if_pos rfl])
      simp only [storeLabel, stepStmtInsert_fresh fresh] at backed
      cases runs : reg.env.insertRuns with
      | false =>
        simp only [runs] at backed
        exact absurd backed (not_or.mpr (coherent.not_backed unknown _))
      | true =>
        simp only [runs, if_true, pairs, map_append, mem_append] at backed
        have same_id : toInt (newRowid s.current.selinuxId) = newRowid s.current.selinuxId := by
          rcases backed with (old | last) | old
          · exact absurd old (coherent.not_backed unknown _).1
          · simpa using last
          · exact absurd old (coherent.not_backed unknown _).2
        have bound : toInt (newRowid s.current.selinuxId) < 2 ^ 31 := by
          unfold toInt
          have := Int.bmod_lt (x := newRowid s.current.selinuxId) (m := 2 ^ 32) (by decide)
          omega
        exact ⟨rfl, same_id ▸ bound⟩
    · trivial
  | rollback =>
    have subset : pairs s.current ⊆ pairs s.committed := by
      rintro ⟨id, label⟩ member
      have bound := (coherent.mirrors.forward id label).mpr member
      exact (stable.backed id label bound).elim (fun h => h) (fun h => h)
    have short := (subperm_of_subset coherent.wellFormed.ids.of_map subset).length_le
    exact (coherent.grown.eq_of_length_le short).symm
  | relabelIds _ => trivial
  | insertTuple _ _ => trivial
  | updateTuple _ _ => trivial
  | deleteTuple _ => trivial
  | commit => trivial
  | reopen _ => trivial

/-- From an empty database, ids stay stable in every state of a run exactly when every
step of the run meets `KeepsIds` where it is taken. -/
theorem visits_stable_iff (lib : Selinux) (contexts : Option SesqliteContext) (run : List Op) :
    Visits (step lib contexts) Stable empty run ↔
      Along (step lib contexts) (KeepsIds lib contexts) empty run :=
  visits_iff_along_of_invariant (fun _ coherent => coherent.stable) Coherent.needed Coherent.keep
    coherent_empty run

end

def oneRule : Selinux × Option SesqliteContext :=
  (⟨none, fun _ => true, fun _ _ _ _ => true⟩,
    some ⟨[], [], [], [⟨"*", "*", "*", "tuple_t"⟩]⟩)

/-- A label is registered and rolled back, its id is stored in a row, and the next label
gets the same id. -/
def rolledBackLabel : List Op :=
  let env : Surroundings := ⟨true, fun _ => ""⟩
  [.register (.mapTuple "tuple_t" env), .commit, .register (.insertId "main" "secret_t" env),
    .rollback, .insertTuple 1 (2, "secret_t"), .register (.insertId "main" "public_t" env), .commit]

/-- The row that was given the id of `secret_t` resolves to `public_t`. -/
theorem rolledBackLabel_resolves : let s := rolledBackLabel.foldl (step oneRule.1 oneRule.2) empty
    s.committed.tuples = [⟨1, 2, "secret_t"⟩] ∧ labelOf s.hashId 2 = some "public_t" ∧
      pairs s.committed = [(1, "tuple_t"), (2, "public_t")] := by
  decide

end SeSqlite.LabelIds
