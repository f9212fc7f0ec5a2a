/- source: ext/security/sesqlite/sesqlite_authorizer.c
   digest: Labels of databases, tables and columns in memory, and the default for unknown ones. -/
import SeSqlite.LabelIds

set_option autoImplicit false
set_option relaxedAutoImplicit false

namespace SeSqlite.ObjectLabels

open Hash Contexts LabelIds

/-- Label ids, and the labels of objects under the keys of `make_key`. -/
structure Store where
  labels : LabelIds.Session
  hash : SqliteHash String Int

section

variable (lib : Selinux) (contexts : Option SesqliteContext)

/-- The default label of an object that `hash` does not know, by class. -/
def defaultLabel (ctx : SesqliteContext) (dbname : String) (table column : Option String)
    (tclass : Nat) : Option String :=
  match tclass with
  | 0 => computeSqlContext lib false dbname none none ctx.dbContext
  | 1 => computeSqlContext lib false dbname table none ctx.tableContext
  | 2 => computeSqlContext lib true dbname table column ctx.columnContext
  | _ => none

def insertKey (hash : SqliteHash String Int) (dbName : String) (tblName colName : Option String)
    (id : Int) : SqliteHash String Int :=
  sqliteHashInsert hash (makeKey dbName tblName colName) (some id) 4

def getContext (s : Store) (dbname : String) (table column : Option String) (tclass : Nat)
    (env : Surroundings) : Except Fault (Store × Int) :=
  match lookup s.hash (makeKey dbname table column) with
  | some id => .ok (s, id)
  | none => do
    match defaultLabel lib (← rules contexts) dbname table column tclass with
    | none => .error .badRead
    | some label =>
      let r ← insertId lib contexts s.labels dbname label env
      .ok (⟨r.1, insertKey s.hash dbname table column r.2⟩, r.2)

end

theorem getContext_cases {lib : Selinux} {contexts : Option SesqliteContext} {s s' : Store}
    {dbname : String} {table column : Option String} {tclass : Nat} {env : Surroundings} {id : Int}
    (returns : getContext lib contexts s dbname table column tclass env = .ok (s', id)) :
    (lookup s.hash (makeKey dbname table column) = some id ∧ s' = s) ∨
    (lookup s.hash (makeKey dbname table column) = none ∧
      ∃ ctx label labels, contexts = some ctx ∧
        defaultLabel lib ctx dbname table column tclass = some label ∧
        insertId lib contexts s.labels dbname label env = .ok (labels, id) ∧
        s' = ⟨labels, insertKey s.hash dbname table column id⟩) := by
  unfold getContext at returns
  cases known : lookup s.hash (makeKey dbname table column) with
  | some found =>
    rw [known] at returns
    cases returns
    exact .inl ⟨rfl, rfl⟩
  | none =>
    rw [known] at returns
    cases contexts with
    | none => cases returns
    | some ctx =>
      simp only [rules, bind, Except.bind] at returns
      split at returns
      · cases returns
      · rename_i label default
        split at returns
        · cases returns
        · rename_i r registered
          obtain ⟨rfl, rfl⟩ := Prod.mk.inj (Except.ok.inj returns)
          exact .inr ⟨rfl, ctx, label, r.1, rfl, default, registered, rfl⟩

end SeSqlite.ObjectLabels
