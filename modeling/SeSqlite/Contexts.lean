/- source: ext/security/sesqlite/sesqlite_compute_label.c,
   ext/security/sesqlite/sesqlite_contexts.h, ext/security/sesqlite/sesqlite_utils.c
   digest: The rule lists, the first matching rule, and the keys of labelled objects. -/
import SeSqlite.BiHash
import SeSqlite.Names

set_option autoImplicit false
set_option relaxedAutoImplicit false

namespace SeSqlite.Contexts

open Hash BiHash Names

/-- A call that does not return: a failed assertion, a read of `contexts` before the rule
file is loaded, or a read through another null pointer or past the end of a buffer. -/
inductive Fault where
  | assertion
  | nullContexts
  | badRead
  deriving DecidableEq, Repr

/-- The SELinux library as the extension uses it. `computeCreate` is the answer of
`security_compute_create_raw` for the process's own context, absent when it fails. -/
structure Selinux where
  computeCreate : Option String
  checkContext : String → Bool
  checkAccess : (scon tcon tclass perm : String) → Bool

structure SesqliteContextElement where
  fparam : String
  sparam : String
  tparam : String
  securityContext : String
  deriving DecidableEq, Repr

/-- `struct sesqlite_context`, the four rule lists. -/
structure SesqliteContext where
  dbContext : List SesqliteContextElement
  tableContext : List SesqliteContextElement
  columnContext : List SesqliteContextElement
  tupleContext : List SesqliteContextElement
  deriving DecidableEq, Repr

/-- One comparison of a name with a rule parameter. -/
def paramMatches (name param : String) : Bool := sqlite3StrICmp name param || param == "*"

/-- The condition under which the search of `compute_sql_context` stops at a rule. -/
def elementMatches (isColumn : Bool) (dbName : String) (tblName colName : Option String)
    (p : SesqliteContextElement) : Bool :=
  paramMatches dbName p.fparam &&
    match tblName with
    | none => true
    | some tbl =>
      paramMatches tbl p.sparam &&
        (!isColumn || (colName.map fun col => paramMatches col p.tparam).getD false)

/-- `compute_sql_context`: the first matching rule, else what the policy computes. -/
def computeSqlContext (lib : Selinux) (isColumn : Bool) (dbName : String)
    (tblName colName : Option String) (con : List SesqliteContextElement) : Option String :=
  match con.find? (elementMatches isColumn dbName tblName colName) with
  | some p => some p.securityContext
  | none => lib.computeCreate

def rules : Option SesqliteContext → Except Fault SesqliteContext
  | none => .error .nullContexts
  | some contexts => .ok contexts

def labelOf (hashId : SesqliteBihash Int String) (id : Int) : Option String :=
  (sesqliteBihashFind hashId id).map Prod.fst

def idOf (hashId : SesqliteBihash Int String) (label : String) : Option Int :=
  (sesqliteBihashFindkey hashId label).map Prod.fst

section

variable (hashId : SesqliteBihash Int String)

include hashId

theorem labelOf_insert (id other : Int) (label : String) (released : Nat → String) :
    labelOf (sesqliteBihashInsert hashId ⟨id, some label, released⟩) other =
      if id = other then some label else labelOf hashId other := by
  have insert := lookup_insert hashId.key2val id other (some label) (size label)
  simpa [labelOf, sesqliteBihashFind, sesqliteBihashInsert, sqliteHashFind_fst, same] using insert

theorem idOf_insert {id : Int} (unbound : labelOf hashId id = none) (label other : String)
    (released : Nat → String) :
    idOf (sesqliteBihashInsert hashId ⟨id, some label, released⟩) other =
      if idOf hashId label = none ∧ label = other then some id else idOf hashId other := by
  have missing : sesqliteBihashFind hashId id = none := by simpa [labelOf] using unbound
  simp only [idOf, sesqliteBihashFindkey, sesqliteBihashInsert, missing, removeOld,
    sqliteHashFind_fst, insertReverse]
  cases found : sqliteHashFind hashId.val2key label with
  | none =>
    have insert := lookup_insert hashId.val2key label other (some id) (size id)
    simpa [← sqliteHashFind_fst hashId.val2key label, found, same] using insert
  | some _ => simp [← sqliteHashFind_fst hashId.val2key label, found]

theorem idOf_insert_cases (id found : Int) (label other : String) (released : Nat → String)
    (hit : idOf (sesqliteBihashInsert hashId ⟨id, some label, released⟩) other = some found) :
    found = id ∨ idOf hashId other = some found := by
  have remove : ∀ old, lookup (removeOld hashId.val2key released old) other = some found →
      idOf hashId other = some found := by
    intro old kept
    rw [idOf, sesqliteBihashFindkey, sqliteHashFind_fst]
    rcases old with _ | ⟨w, n⟩
    · exact kept
    · simp only [removeOld] at kept
      split at kept
      · exact kept
      · simp only [sesqliteHashRemove, lookup_insert] at kept
        split at kept
        · cases kept
        · exact kept
  simp only [idOf, sesqliteBihashFindkey, sesqliteBihashInsert, sqliteHashFind_fst, insertReverse]
    at hit
  split at hit
  · exact .inr (remove _ hit)
  · rw [lookup_insert] at hit
    split at hit
    · exact .inl (Option.some.inj hit).symm
    · exact .inr (remove _ hit)

end

/-- The id of the label that the tuple rules give to a table, asserted to be registered. -/
def tupleId (lib : Selinux) (contexts : SesqliteContext) (hashId : SesqliteBihash Int String)
    (dbName tblName : String) : Except Fault Int :=
  match computeSqlContext lib false dbName (some tblName) none contexts.tupleContext with
  | none => .error .assertion
  | some secContext =>
    match idOf hashId secContext with
    | none => .error .assertion
    | some id => .ok id

def lookupSecurityContext (lib : Selinux) (contexts : Option SesqliteContext)
    (hashId : SesqliteBihash Int String) (dbName tblName : String) : Except Fault Int := do
  tupleId lib (← rules contexts) hashId dbName tblName

def makeKey (dbName : String) (tblName colName : Option String) : String :=
  match tblName, colName with
  | none, _ => dbName
  | some tbl, none => dbName ++ ":" ++ tbl
  | some tbl, some col => dbName ++ ":" ++ tbl ++ ":" ++ col

end SeSqlite.Contexts
