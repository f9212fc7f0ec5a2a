/- source: ext/security/sesqlite/sesqlite_authorizer.c
   digest: What the checks that one statement makes answer for the labels of tuples. -/
import SeSqlite.Avc
import SeSqlite.Sql.Insert

set_option autoImplicit false
set_option relaxedAutoImplicit false

namespace SeSqlite.TupleCheck

open Hash Contexts AccessVector Sql

/-- The permissions of class `db_tuple` that the rewritten statements ask for. -/
inductive Permission where
  | select
  | update
  | delete
  deriving DecidableEq, Repr

def Permission.zPerm : Permission → String
  | .select => "select"
  | .update => "update"
  | .delete => "delete"

def Permission.code : Permission → Nat
  | .select => 6
  | .update => 7
  | .delete => 9

private theorem codesOf_zPerm (permission : Permission) :
    codesOf "db_tuple" permission.zPerm = .ok (3, permission.code) := by
  cases permission <;> decide

/-- `sqlite3_value_int`, the policy, and the checks of one statement: the session before the first
of them and what is asked, in that order. The cache is not cleared in between. -/
structure Policy (V : Type) [SqlValue V] where
  valueInt : V → Int
  valueInt_null : valueInt SqlValue.null = 0
  lib : Selinux
  scon : String
  sconId : Int
  start : Avc.Session
  asked : List (Permission × V)

namespace Policy

variable {V : Type} [SqlValue V] (policy : Policy V)

/-- The policy's own answer for a label. -/
def allows (permission : Permission) (label : V) : Bool :=
  Avc.permits policy.lib policy.scon
    (labelOf policy.start.labels.hashId (policy.valueInt label)) "db_tuple" permission.zPerm

/-- `selinux_check_access(label, 'db_tuple', zPerm, tbl)`. -/
def ask (s : Avc.Session) (permission : Permission) (label : V) : Avc.Session × Bool :=
  match Avc.selinuxCheckAccessFunction policy.lib policy.scon policy.sconId s
    (policy.valueInt label) "db_tuple" permission.zPerm with
  | .ok answer => answer
  | .error _ => (s, false)

def after (asked : List (Permission × V)) (s : Avc.Session) : Avc.Session :=
  asked.foldl (fun s question => (policy.ask s question.1 question.2).1) s

/-- The answer for a label, read from the session at the end of the statement. -/
def check (permission : Permission) (label : V) : Bool :=
  (policy.ask (policy.after policy.asked policy.start) permission label).2

def key (permission : Permission) (label : V) : Int :=
  compress policy.sconId (policy.valueInt label) 3 permission.code

variable {policy} {s : Avc.Session} {permission : Permission} {label : V} {res : Bool}

private theorem ask_of_hit (hit : lookup s.avc (policy.key permission label) = some res) :
    policy.ask s permission label = (s, res) := by
  rw [key] at hit
  simp [ask, Avc.selinuxCheckAccessFunction, codesOf_zPerm, bind, Except.bind, hit]

private theorem ask_of_miss (miss : lookup s.avc (policy.key permission label) = none) :
    policy.ask s permission label =
      (Avc.remember s (policy.key permission label) (Avc.permits policy.lib policy.scon
          (labelOf s.labels.hashId (policy.valueInt label)) "db_tuple" permission.zPerm),
        Avc.permits policy.lib policy.scon
          (labelOf s.labels.hashId (policy.valueInt label)) "db_tuple" permission.zPerm) := by
  rw [key] at miss ⊢
  simp [ask, Avc.selinuxCheckAccessFunction, codesOf_zPerm, bind, Except.bind, miss]

/-- An answer is in the cache afterwards. -/
theorem lookup_ask (policy : Policy V) (s : Avc.Session) (permission : Permission) (label : V) :
    lookup (policy.ask s permission label).1.avc (policy.key permission label) =
      some (policy.ask s permission label).2 := by
  cases found : lookup s.avc (policy.key permission label) with
  | some res => rw [ask_of_hit found, found]
  | none =>
    rw [ask_of_miss found]
    simp [Avc.remember, lookup_insert, same]

private theorem lookup_ask_of_some {k : Int} (hit : lookup s.avc k = some res)
    (permission : Permission)
    (label : V) : lookup (policy.ask s permission label).1.avc k = some res := by
  cases found : lookup s.avc (policy.key permission label) with
  | some other => rwa [ask_of_hit found]
  | none =>
    have other : policy.key permission label ≠ k := by
      rintro rfl
      cases found.symm.trans hit
    rw [ask_of_miss found]
    simpa [Avc.remember, lookup_insert, same, other] using hit

private theorem lookup_after (policy : Policy V) {k : Int} (hit : lookup s.avc k = some res)
    (asked : List (Permission × V)) :
    lookup (policy.after asked s).avc k = some res := by
  induction asked generalizing s with
  | nil => exact hit
  | cons question rest ih => exact ih (lookup_ask_of_some hit question.1 question.2)

/-- Whenever the statement asks, it gets the answer that the session has at its end. -/
theorem ask_eq_check (policy : Policy V) {before rest : List (Permission × V)}
    (order : policy.asked = before ++ (permission, label) :: rest) :
    (policy.ask (policy.after before policy.start) permission label).2 =
      policy.check permission label := by
  have stays := lookup_after policy
    (lookup_ask policy (policy.after before policy.start) permission label) rest
  have last : policy.after policy.asked policy.start =
      policy.after rest (policy.ask (policy.after before policy.start) permission label).1 := by
    rw [order, after, after, after, List.foldl_append, List.foldl_cons]
  rw [← last] at stays
  rw [check, ask_of_hit stays]

end Policy

end SeSqlite.TupleCheck
