/- source: src/expr.c, src/vdbe.c
   digest: What the code of an expression computes: the value in its target register, and whether it
   jumps when it is coded as a condition. -/
import SeSqlite.Expression.Tree

set_option autoImplicit false
set_option relaxedAutoImplicit false

namespace SeSqlite.Expression

/-- The arithmetic of the virtual machine on values that are not NULL. -/
structure Arithmetic (R : Type) where
  binary : BinaryOp → Value R → Value R → Value R
  bitNot : Value R → Value R
  /-- `OP_ToText` and the others. -/
  cast : Affinity → Value R → Value R

/-- All that an expression is evaluated in. -/
structure Env (R : Type) where
  db : Engine R
  vm : Arithmetic R
  pSchema : Schema
  /-- The row that each cursor is at. -/
  row : Int → Int → Value R
  aVar : Int → Value R

/-- The code of an expression as its value in a register, and as a condition: whether
`sqlite3ExprIfTrue` and `sqlite3ExprIfFalse` jump, given `jumpIfNull`. -/
structure Coded (R : Type) where
  target : Value R
  ifTrue : Bool → Bool
  ifFalse : Bool → Bool

variable {R : Type}

/-- A test whose outcome can be unknown. -/
def Coded.test (outcome : Option Bool) : Coded R where
  target := stored outcome
  ifTrue := fun jumpIfNull => outcome.getD jumpIfNull
  ifFalse := fun jumpIfNull => (outcome.map not).getD jumpIfNull

def Comparison.holds : Comparison → Ordering → Bool
  | .lt, res => res = .lt
  | .le, res => res ≠ .gt
  | .gt, res => res = .gt
  | .ge, res => res ≠ .lt
  | .eq, res => res = .eq
  | .ne, res => res ≠ .eq

variable [LinearOrder R]

def Coded.value (db : Engine R) (target : Value R) : Coded R where
  target := target
  ifTrue := fun jumpIfNull => (condition db target).getD jumpIfNull
  ifFalse := fun jumpIfNull => ((condition db target).map not).getD jumpIfNull

variable (env : Env R)

/-- The comparison of two values that are not NULL, with the affinity and the collating sequence
of the two expressions. -/
def compareRegisters (pLeft pRight : Expr) (r1 r2 : Value R) : Ordering :=
  let affinity := binaryCompareP5 env.db env.pSchema pLeft pRight
  sqlite3MemCompare env.db (sqlite3BinaryCompareCollSeq env.pSchema pLeft pRight)
    (applyAffinity env.db affinity r1) (applyAffinity env.db affinity r2)

def codeCompare (op : Comparison) (pLeft pRight : Expr) (r1 r2 : Value R) : Option Bool :=
  if r1 = .null ∨ r2 = .null then none
  else some (op.holds (compareRegisters env pLeft pRight r1 r2))

/-- With `SQLITE_NULLEQ` two NULLs are equal. -/
def codeCompareNullEq (pLeft pRight : Expr) (r1 r2 : Value R) : Bool :=
  if r1 = .null ∨ r2 = .null then r1 = .null ∧ r2 = .null
  else Comparison.eq.holds (compareRegisters env pLeft pRight r1 r2)

/-- The list has no NULL if it is empty; the left operand is compared with its own collating
sequence, and its affinity is given to both sides. -/
def sqlite3ExprCodeIN (pLeft : Expr) (r1 : Value R) (list : List (Value R)) : Option Bool :=
  let affinity := (sqlite3ExprAffinity env.db env.pSchema pLeft).getD .none
  let pColl := sqlite3ExprCollSeq env.pSchema pLeft
  if r1 = .null then if list = [] then some false else none
  else if list.any fun r2 => r2 ≠ .null ∧ sqlite3MemCompare env.db pColl
      (applyAffinity env.db affinity r1) (applyAffinity env.db affinity r2) = .eq then some true
  else if list.any fun r2 => r2 = .null then none
  else some false

/-- CASE without a base: WHEN and THEN by turns, and an ELSE if the number is odd. -/
def codeWhen : List (Coded R) → Value R
  | [] => .null
  | [otherwise] => otherwise.target
  | test :: result :: rest => if test.ifFalse true then codeWhen rest else result.target

/-- CASE with a base, which is compared with each WHEN. -/
def codeBaseWhen (pX : Expr) (r1 : Value R) : List (Expr × Coded R) → Value R
  | [] => .null
  | [otherwise] => otherwise.2.target
  | test :: result :: rest =>
    if codeCompare env .eq (exprToRegister pX) test.1 r1 test.2.target = some true then
      result.2.target
    else codeBaseWhen pX r1 rest

def codeCoalesce : List (Value R) → Value R
  | [] => .null
  | [last] => last
  | v :: rest => if v = .null then codeCoalesce rest else v

/-- A function gets the first collating sequence of its arguments if it needs one. -/
def codeFunction (zId : String) (args : List (Expr × Coded R)) : Value R :=
  let pDef := env.db.sqlite3FindFunction zId args.length
  let values := args.map fun arg => arg.2.target
  if pDef.coalesce then codeCoalesce values
  else if pDef.unlikely then values.headD .null
  else
    pDef.xFunc
      (if pDef.needColl then args.findSome? fun arg => sqlite3ExprCollSeq env.pSchema arg.1
        else none)
      values

def codeReal (zToken : String) (negateFlag : Bool) : Value R :=
  let value := (env.db.sqlite3AtoF zToken.toUTF8.toList).2
  .real (if negateFlag then env.db.negate value else value)

/-- A literal that does not fit into 32 bits. -/
def codeInteger (zToken : String) (negFlag : Bool) : Value R :=
  let (c, value) := env.db.sqlite3Atoi64 zToken.toUTF8.toList
  if c = 0 ∨ c = 2 ∧ negFlag then
    .integer (if negFlag then if c = 2 then -2 ^ 63 else -value else value)
  else codeReal env zToken negFlag

def codeNegative (pLeft : Expr) : Option (Value R) :=
  match pLeft.op? with
  | some (.intValue i) => some (.integer (-i))
  | some (.integer zToken) => some (codeInteger env zToken true)
  | some (.float zToken) => some (codeReal env zToken true)
  | _ => none

/-- Both bounds are compared with the register of the left operand if it is a condition. -/
def exprCodeBetween (pLeft : Expr) (r1 : Value R) : List (Expr × Coded R) → Coded R
  | low :: high :: _ =>
    let ge := codeCompare env .ge (exprToRegister pLeft) low.1 r1 low.2.target
    let le := codeCompare env .le (exprToRegister pLeft) high.1 r1 high.2.target
    { target := stored (andLogic
        (operand env.db (stored (codeCompare env .ge pLeft low.1 r1 low.2.target) : Value R))
        (operand env.db (stored (codeCompare env .le pLeft high.1 r1 high.2.target) : Value R)))
      ifTrue := fun jumpIfNull =>
        !(Coded.test (R := R) ge).ifFalse (!jumpIfNull) &&
          (Coded.test (R := R) le).ifTrue jumpIfNull
      ifFalse := fun jumpIfNull =>
        (Coded.test (R := R) ge).ifFalse jumpIfNull ||
          (Coded.test (R := R) le).ifFalse jumpIfNull }
  | _ => Coded.value env.db .null

/-- The code of a node from that of its operands. -/
def codeNode (d : Node) (pLeft pRight : Expr) (left right : Coded R)
    (list : List (Expr × Coded R)) : Coded R :=
  let unary (f : Value R → Value R) : Value R :=
    if left.target = .null then .null else f left.target
  match d.op with
  | .column =>
    Coded.value env.db (env.row (env.pSchema.cursor d.iTable) d.iColumn)
  | .register _ _ => Coded.value env.db .null
  | .variable _ => Coded.value env.db (env.aVar d.iColumn)
  | .intValue i => Coded.value env.db (.integer i)
  | .integer zToken => Coded.value env.db (codeInteger env zToken false)
  | .float zToken => Coded.value env.db (codeReal env zToken false)
  | .string zToken => Coded.value env.db (.text zToken.toUTF8.toList)
  | .blob zToken => Coded.value env.db (.blob (env.db.sqlite3HexToBlob zToken))
  | .null _ => Coded.value env.db .null
  | .function zToken => Coded.value env.db (codeFunction env zToken list)
  | .collate _ => Coded.value env.db left.target
  | .cast zToken =>
    Coded.value env.db (unary (env.vm.cast (env.db.sqlite3AffinityType zToken)))
  | .uplus => Coded.value env.db left.target
  | .uminus =>
    Coded.value env.db
      ((codeNegative env pLeft).getD (unary (env.vm.binary .minus (.integer 0))))
  | .bitNot => Coded.value env.db (unary env.vm.bitNot)
  | .not =>
    { target := stored ((operand env.db left.target).map not)
      ifTrue := left.ifFalse
      ifFalse := left.ifTrue }
  | .isNull => Coded.test (some (left.target = .null))
  | .notNull => Coded.test (some (left.target ≠ .null))
  | .compare op => Coded.test (codeCompare env op pLeft pRight left.target right.target)
  | .is => Coded.test (some (codeCompareNullEq env pLeft pRight left.target right.target))
  | .isNot => Coded.test (some !(codeCompareNullEq env pLeft pRight left.target right.target))
  | .and =>
    { target := stored (andLogic (operand env.db left.target) (operand env.db right.target))
      ifTrue := fun jumpIfNull => !left.ifFalse (!jumpIfNull) && right.ifTrue jumpIfNull
      ifFalse := fun jumpIfNull => left.ifFalse jumpIfNull || right.ifFalse jumpIfNull }
  | .or =>
    { target := stored (orLogic (operand env.db left.target) (operand env.db right.target))
      ifTrue := fun jumpIfNull => left.ifTrue jumpIfNull || right.ifTrue jumpIfNull
      ifFalse := fun jumpIfNull => !left.ifTrue (!jumpIfNull) && right.ifFalse jumpIfNull }
  | .binary op =>
    Coded.value env.db
      (if left.target = .null ∨ right.target = .null then .null
        else env.vm.binary op left.target right.target)
  | .between => exprCodeBetween env pLeft left.target list
  | .inList =>
    Coded.test (sqlite3ExprCodeIN env pLeft left.target (list.map fun e => e.2.target))
  | .case =>
    Coded.value env.db
      (if pLeft.isNull then codeWhen (list.map Prod.snd)
        else codeBaseWhen env pLeft left.target list)

mutual

def sqlite3ExprCode : Expr → Coded R
  | .null => ⟨.null, fun _ => false, fun _ => false⟩
  | .node d pLeft pRight pList =>
    codeNode env d pLeft pRight (sqlite3ExprCode pLeft) (sqlite3ExprCode pRight)
      (sqlite3ExprCodeExprList pList)

def sqlite3ExprCodeExprList : ExprList → List (Expr × Coded R)
  | .nil => []
  | .cons pExpr _ rest => (pExpr, sqlite3ExprCode pExpr) :: sqlite3ExprCodeExprList rest

end

/-- As a term of a WHERE clause: the row is skipped if the code jumps. -/
def IsTrue (pExpr : Expr) : Prop := (sqlite3ExprCode env pExpr).ifFalse true = false

instance decidableIsTrue (pExpr : Expr) : Decidable (IsTrue env pExpr) :=
  inferInstanceAs (Decidable ((sqlite3ExprCode env pExpr).ifFalse true = false))

/-- An engine with the two collating sequences BINARY and NOCASE, without functions, whose real
numbers are integers. -/
def plainEngine : Engine Int where
  double := id
  doubleToInt64 := id
  negate := Int.neg
  sqlite3AtoF := fun _ => (false, 0)
  sqlite3Atoi64 := fun _ => (1, 0)
  stringifyInt := fun i => (toString i).toUTF8.toList
  stringifyReal := fun i => (toString i).toUTF8.toList
  xCmp := fun pColl y z =>
    if pColl = sqlite3FindCollSeq "NOCASE" then
      memcmp (y.map fun c => if 65 ≤ c ∧ c ≤ 90 then c + 32 else c)
        (z.map fun c => if 65 ≤ c ∧ c ≤ 90 then c + 32 else c)
    else memcmp y z
  sqlite3FindFunction := fun _ _ => ⟨false, false, false, fun _ _ => .null⟩
  sqlite3AffinityType := fun _ => .none
  sqlite3HexToBlob := fun _ => []

theorem plainEngine_lawful : plainEngine.Lawful where
  swap := by
    intro pColl y z
    dsimp only [plainEngine]
    split
    · exact memcmp_swap _ _
    · exact memcmp_swap _ _
  one := by decide

def plainEnv (aCol : Int → Int → Column) (row : Int → Int → Value Int) : Env Int where
  db := plainEngine
  vm := ⟨fun _ _ _ => .null, fun _ => .null, fun _ _ => .null⟩
  pSchema := ⟨0, aCol⟩
  row := row
  aVar := fun _ => .null

def columnExpr (iTable iColumn : Int) : Expr :=
  .node ⟨.column, false, false, iTable, iColumn⟩ .null .null .nil

def intExpr (i : Int) : Expr := .node ⟨.intValue i, false, false, 0, 0⟩ .null .null .nil

/-- An operator with two operands, marked as the parser marks it. -/
def binaryExpr (op : Op) (pLeft pRight : Expr) : Expr :=
  .node ⟨op, pLeft.collate || pRight.collate, false, 0, 0⟩ pLeft pRight .nil

end SeSqlite.Expression
