/- source: src/util.c, src/build.c, src/sqliteInt.h, ext/security/sesqlite/sesqlite.h
   digest: Case folding of identifiers and the name tests that the engine hooks make. -/
import Mathlib.Data.List.Basic

set_option autoImplicit false
set_option relaxedAutoImplicit false

namespace SeSqlite.Names

/-- `sqlite3UpperToLower` on every character; only ASCII letters are folded. -/
def fold (z : String) : List Char := z.toList.map Char.toLower

/-- `sqlite3StrICmp(zLeft, zRight)==0`. -/
def sqlite3StrICmp (zLeft zRight : String) : Bool := fold zLeft == fold zRight

/-- `sqlite3StrNICmp(zLeft, zRight, N)==0`. -/
def sqlite3StrNICmp (zLeft zRight : String) (n : Nat) : Bool :=
  (fold zLeft).take n == (fold zRight).take n

def securityContextColumnName : String := "security_context"

/-- `IsSecurityColumn`: a comparison of the first sixteen characters only. -/
def isSecurityColumn (zName : String) : Bool :=
  sqlite3StrNICmp zName securityContextColumnName 16

/-- The test made on table names before a statement is rewritten. -/
def isUserTable (zName : String) : Bool :=
  !sqlite3StrNICmp zName "sqlite_" 7 && !sqlite3StrNICmp zName "selinux_" 8

theorem sqlite3StrICmp_iff (a b : String) : sqlite3StrICmp a b ↔ fold a = fold b := by
  simp [sqlite3StrICmp]

theorem isSecurityColumn_of_strICmp {zName : String}
    (eqv : sqlite3StrICmp zName securityContextColumnName) : isSecurityColumn zName := by
  simp [isSecurityColumn, sqlite3StrNICmp, (sqlite3StrICmp_iff _ _).mp eqv]

end SeSqlite.Names
