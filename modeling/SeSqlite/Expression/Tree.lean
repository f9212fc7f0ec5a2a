/- source: src/expr.c
   digest: Expression trees, and the affinity and collating sequence that a comparison takes from
   its operands. -/
import Mathlib.Data.List.Basic
import SeSqlite.Expression.Value
import SeSqlite.Names

set_option autoImplicit false
set_option relaxedAutoImplicit false

namespace SeSqlite.Expression

inductive Comparison where
  | lt
  | le
  | gt
  | ge
  | eq
  | ne
  deriving DecidableEq

inductive BinaryOp where
  | plus
  | minus
  | star
  | slash
  | rem
  | bitAnd
  | bitOr
  | lshift
  | rshift
  | concat
  deriving DecidableEq

/-- The operator of a node with its token. An integer literal of 32 bits has its value in place of
the token (`EP_IntValue`). A register stands for an expression that has been computed: it keeps
whether that had a table, and the name if it was a COLLATE. -/
inductive Op where
  | column
  | register (pTab : Bool) (collate : Option String)
  | variable (zToken : String)
  | intValue (iValue : Int)
  | integer (zToken : String)
  | float (zToken : String)
  | string (zToken : String)
  | blob (zToken : String)
  | null (zToken : Option String)
  | function (zToken : String)
  | collate (zToken : String)
  | cast (zToken : String)
  | uplus
  | uminus
  | bitNot
  | not
  | isNull
  | notNull
  | compare (op : Comparison)
  | is
  | isNot
  | and
  | or
  | binary (op : BinaryOp)
  | between
  | inList
  | case
  deriving DecidableEq

def Op.code : Op → Op
  | .register _ _ => .register false none
  | .variable _ => .variable ""
  | .intValue _ => .integer ""
  | .integer _ => .integer ""
  | .float _ => .float ""
  | .string _ => .string ""
  | .blob _ => .blob ""
  | .null _ => .null none
  | .function _ => .function ""
  | .collate _ => .collate ""
  | .cast _ => .cast ""
  | op => op

def Op.zToken : Op → Option String
  | .variable z => some z
  | .integer z => some z
  | .float z => some z
  | .string z => some z
  | .blob z => some z
  | .null z => z
  | .function z => some z
  | .collate z => some z
  | .cast z => some z
  | _ => none

/-- `EP_IntValue` and the value. -/
def Op.iValue : Op → Option Int
  | .intValue i => some i
  | _ => none

structure Node where
  op : Op
  /-- `EP_Collate` -/
  collate : Bool
  /-- `EP_Distinct` -/
  distinct : Bool
  iTable : Int
  iColumn : Int
  deriving DecidableEq

mutual

/-- An expression or a null pointer. -/
inductive Expr where
  | null
  | node (d : Node) (pLeft pRight : Expr) (pList : ExprList)

/-- A list of expressions; a null pointer is the empty list. -/
inductive ExprList where
  | nil
  | cons (pExpr : Expr) (sortOrder : Nat) (rest : ExprList)

end

def Expr.pLeft : Expr → Expr
  | .null => .null
  | .node _ pLeft _ _ => pLeft

def Expr.pRight : Expr → Expr
  | .null => .null
  | .node _ _ pRight _ => pRight

def Expr.pList : Expr → ExprList
  | .null => .nil
  | .node _ _ _ pList => pList

def Expr.op? : Expr → Option Op
  | .null => none
  | .node d _ _ _ => some d.op

def Expr.collate : Expr → Bool
  | .null => false
  | .node d _ _ _ => d.collate

def Expr.isNull : Expr → Bool
  | .null => true
  | .node _ _ _ _ => false

structure Column where
  affinity : Affinity
  zColl : CollSeq

/-- The tables of the cursors. A negative cursor is that of the table that a partial index or a
CHECK constraint belongs to. -/
structure Schema where
  iPartIdxTab : Int
  aCol : Int → Int → Column

def Schema.cursor (pSchema : Schema) (iTable : Int) : Int :=
  if iTable < 0 then pSchema.iPartIdxTab else iTable

def sqlite3FindCollSeq (zName : String) : CollSeq := Names.fold zName

variable {R : Type} (db : Engine R) (pSchema : Schema)

def sqlite3ExprSkipCollate : Expr → Expr
  | .null => .null
  | .node d pLeft pRight pList =>
    match d.op with
    | .collate _ => sqlite3ExprSkipCollate pLeft
    | _ => .node d pLeft pRight pList

/-- The affinity of a column; the rowid is an integer. -/
def columnAffinity (d : Node) : Affinity :=
  if d.iColumn < 0 then .integer
  else (pSchema.aCol (pSchema.cursor d.iTable) d.iColumn).affinity

def sqlite3ExprAffinity (pExpr : Expr) : Option Affinity :=
  match sqlite3ExprSkipCollate pExpr with
  | .null => none
  | .node d _ _ _ =>
    match d.op with
    | .cast zToken => some (db.sqlite3AffinityType zToken)
    | .column => some (columnAffinity pSchema d)
    | .register pTab _ => if pTab then some (columnAffinity pSchema d) else none
    | _ => none

def columnCollSeq (d : Node) : Option CollSeq :=
  if d.iColumn < 0 then none else some (pSchema.aCol (pSchema.cursor d.iTable) d.iColumn).zColl

def sqlite3ExprCollSeq : Expr → Option CollSeq
  | .null => none
  | .node d pLeft pRight _ =>
    let marked :=
      if d.collate then
        if pLeft.collate then sqlite3ExprCollSeq pLeft else sqlite3ExprCollSeq pRight
      else none
    match d.op with
    | .cast _ => sqlite3ExprCollSeq pLeft
    | .uplus => sqlite3ExprCollSeq pLeft
    | .collate zToken => some (sqlite3FindCollSeq zToken)
    | .column => columnCollSeq pSchema d
    | .register _ (some zToken) => some (sqlite3FindCollSeq zToken)
    | .register pTab none => if pTab then columnCollSeq pSchema d else marked
    | _ => marked

/-- The affinity of a comparison from those of its operands. -/
def sqlite3CompareAffinity : Option Affinity → Option Affinity → Affinity
  | some aff1, some aff2 =>
    if sqlite3IsNumericAffinity aff1 || sqlite3IsNumericAffinity aff2 then .numeric else .none
  | none, none => .none
  | some aff1, none => aff1
  | none, some aff2 => aff2

/-- The affinity in the P5 of a comparison opcode. -/
def binaryCompareP5 (pExpr1 pExpr2 : Expr) : Affinity :=
  sqlite3CompareAffinity (sqlite3ExprAffinity db pSchema pExpr1)
    (sqlite3ExprAffinity db pSchema pExpr2)

/-- An IN has a list in the place of its right operand. -/
def comparisonAffinity (pExpr : Expr) : Affinity :=
  let aff := sqlite3ExprAffinity db pSchema pExpr.pLeft
  match pExpr.pRight with
  | .null => aff.getD .none
  | pRight => sqlite3CompareAffinity (sqlite3ExprAffinity db pSchema pRight) aff

def sqlite3IndexAffinityOk (pExpr : Expr) (idxAffinity : Affinity) : Bool :=
  match comparisonAffinity db pSchema pExpr with
  | .none => true
  | .text => idxAffinity = .text
  | _ => sqlite3IsNumericAffinity idxAffinity

def sqlite3BinaryCompareCollSeq (pLeft pRight : Expr) : Option CollSeq :=
  if pLeft.collate then sqlite3ExprCollSeq pSchema pLeft
  else if pRight.collate then sqlite3ExprCollSeq pSchema pRight
  else (sqlite3ExprCollSeq pSchema pLeft).or (sqlite3ExprCollSeq pSchema pRight)

/-- The copy of an expression that stands for its register. -/
def exprToRegister : Expr → Expr
  | .null => .null
  | .node d pLeft pRight pList =>
    let op2 : Option String :=
      match d.op with
      | .collate zToken => some zToken
      | _ => none
    .node { d with op := .register (d.op = .column) op2 } pLeft pRight pList

end SeSqlite.Expression
