/- source: src/vdbe.c, src/vdbemem.c, src/vdbeaux.c
   digest: The values of expressions: affinities, comparison and the two readings as a truth
   value. -/
import Mathlib.Algebra.Order.Ring.Int

set_option autoImplicit false
set_option relaxedAutoImplicit false

namespace SeSqlite.Expression

/-- A value in a register; `R` is the type of the floating point numbers. -/
inductive Value (R : Type) where
  | null
  | integer (i : Int)
  | real (r : R)
  | text (z : List UInt8)
  | blob (z : List UInt8)
  deriving DecidableEq

inductive Affinity where
  | text
  | none
  | numeric
  | integer
  | real
  deriving DecidableEq

def sqlite3IsNumericAffinity : Affinity → Bool
  | .text => false
  | .none => false
  | .numeric => true
  | .integer => true
  | .real => true

/-- A collating sequence, by its name with the case folded. -/
abbrev CollSeq := List Char

/-- A function as `sqlite3FindFunction` finds it. -/
structure FuncDef (R : Type) where
  coalesce : Bool
  unlikely : Bool
  needColl : Bool
  xFunc : Option CollSeq → List (Value R) → Value R

/-- What a connection has at hand to compute with. -/
structure Engine (R : Type) where
  /-- The conversion of a 64-bit integer. -/
  double : Int → R
  doubleToInt64 : R → Int
  negate : R → R
  /-- Whether all of a text is a number, and which. -/
  sqlite3AtoF : List UInt8 → Bool × R
  /-- The integer at the start of a text. The result is 0 if that is all of the text and fits into
  64 bits, and 2 if only its negation fits. -/
  sqlite3Atoi64 : List UInt8 → Nat × Int
  stringifyInt : Int → List UInt8
  stringifyReal : R → List UInt8
  xCmp : CollSeq → List UInt8 → List UInt8 → Ordering
  sqlite3FindFunction : String → Nat → FuncDef R
  sqlite3AffinityType : String → Affinity
  sqlite3HexToBlob : String → List UInt8

section

variable {R : Type}

def memcmp : List UInt8 → List UInt8 → Ordering
  | [], [] => .eq
  | [], _ :: _ => .lt
  | _ :: _, [] => .gt
  | a :: s, b :: t => if a < b then .lt else if b < a then .gt else memcmp s t

variable [LinearOrder R] (db : Engine R)

/-- A real number that is an integer of 64 bits, neither the smallest nor the largest, becomes
one. -/
def sqlite3VdbeIntegerAffinity (r : R) : Value R :=
  let i := db.doubleToInt64 r
  if r = db.double i ∧ -2 ^ 63 < i ∧ i < 2 ^ 63 - 1 then .integer i else .real r

def applyNumericAffinity : Value R → Value R
  | .text z =>
    if (db.sqlite3AtoF z).1 then
      if (db.sqlite3Atoi64 z).1 = 0 then .integer (db.sqlite3Atoi64 z).2
      else sqlite3VdbeIntegerAffinity db (db.sqlite3AtoF z).2
    else .text z
  | .real r => sqlite3VdbeIntegerAffinity db r
  | v => v

def applyTextAffinity : Value R → Value R
  | .integer i => .text (db.stringifyInt i)
  | .real r => .text (db.stringifyReal r)
  | v => v

def applyAffinity : Affinity → Value R → Value R
  | .text => applyTextAffinity db
  | .none => id
  | .numeric => applyNumericAffinity db
  | .integer => applyNumericAffinity db
  | .real => applyNumericAffinity db

/-- Without a collating sequence texts are compared byte by byte. -/
def compareText : Option CollSeq → List UInt8 → List UInt8 → Ordering
  | some pColl => db.xCmp pColl
  | none => memcmp

def sqlite3MemCompare (pColl : Option CollSeq) : Value R → Value R → Ordering
  | .null, .null => .eq
  | .null, _ => .lt
  | _, .null => .gt
  | .integer i, .integer j => compare i j
  | .integer i, .real s => compare (db.double i) s
  | .real r, .integer j => compare r (db.double j)
  | .real r, .real s => compare r s
  | .integer _, _ => .lt
  | .real _, _ => .lt
  | _, .integer _ => .gt
  | _, .real _ => .gt
  | .text y, .text z => compareText db pColl y z
  | .text _, .blob _ => .lt
  | .blob _, .text _ => .gt
  | .blob y, .blob z => memcmp y z

/-- What the documentation demands of a collating function, and of the conversion of integers. -/
structure Engine.Lawful : Prop where
  swap : ∀ pColl y z, db.xCmp pColl y z = (db.xCmp pColl z y).swap
  one : db.double 1 ≠ db.double 0

theorem memcmp_swap (y z : List UInt8) : memcmp y z = (memcmp z y).swap := by
  fun_induction memcmp y z with
  | case1 => rfl
  | case2 => rfl
  | case3 => rfl
  | case4 a s b t less => simp [memcmp, less, UInt8.lt_asymm less]
  | case5 a s b t not_less less => simp [memcmp, less]
  | case6 a s b t not_less not_more ih => simp [memcmp, not_less, not_more, ih]

variable {db}

omit [LinearOrder R] in
theorem compareText_swap (lawful : db.Lawful) (pColl : Option CollSeq) (y z : List UInt8) :
    compareText db pColl y z = (compareText db pColl z y).swap := by
  cases pColl with
  | none => exact memcmp_swap y z
  | some pColl => exact lawful.swap pColl y z

theorem memCompare_swap_of {pColl : Option CollSeq}
    (texts : ∀ y z, compareText db pColl y z = (compareText db pColl z y).swap) (v w : Value R) :
    sqlite3MemCompare db pColl v w = (sqlite3MemCompare db pColl w v).swap := by
  cases v <;> cases w <;> simp only [sqlite3MemCompare, Ordering.swap]
  case integer.integer i j => exact (Std.OrientedCmp.eq_swap)
  case integer.real i s => exact (Std.OrientedCmp.eq_swap)
  case real.integer r j => exact (Std.OrientedCmp.eq_swap)
  case real.real r s => exact (Std.OrientedCmp.eq_swap)
  case text.text y z => exact texts y z
  case blob.blob y z => exact memcmp_swap y z

theorem memCompare_swap (lawful : db.Lawful) (pColl : Option CollSeq) (v w : Value R) :
    sqlite3MemCompare db pColl v w = (sqlite3MemCompare db pColl w v).swap :=
  memCompare_swap_of (compareText_swap lawful pColl) v w

end

section

variable {R : Type} [LinearOrder R] (db : Engine R)

def sqlite3VdbeIntValue : Value R → Int
  | .null => 0
  | .integer i => i
  | .real r => db.doubleToInt64 r
  | .text z => (db.sqlite3Atoi64 z).2
  | .blob z => (db.sqlite3Atoi64 z).2

def sqlite3VdbeRealValue : Value R → R
  | .null => db.double 0
  | .integer i => db.double i
  | .real r => r
  | .text z => (db.sqlite3AtoF z).2
  | .blob z => (db.sqlite3AtoF z).2

def operand : Value R → Option Bool
  | .null => none
  | v => some (sqlite3VdbeIntValue db v ≠ 0)

def condition : Value R → Option Bool
  | .null => none
  | v => some (sqlite3VdbeRealValue db v ≠ db.double 0)

def andLogic : Option Bool → Option Bool → Option Bool
  | some false, _ => some false
  | _, some false => some false
  | some true, some true => some true
  | _, _ => none

def orLogic : Option Bool → Option Bool → Option Bool
  | some true, _ => some true
  | _, some true => some true
  | some false, some false => some false
  | _, _ => none

def stored : Option Bool → Value R
  | none => .null
  | some b => .integer (if b then 1 else 0)

end

end SeSqlite.Expression
