/- source: src/where.c
   digest: When a DISTINCT is dropped: a unique index whose columns are in the result or fixed by
   the WHERE clause, and what must hold of it for no two rows of the result to be equal. -/
import SeSqlite.Where.Transitive

set_option autoImplicit false
set_option relaxedAutoImplicit false

namespace SeSqlite.Where

open Expression List Env

section

inductive OnError where
  | none
  | rollback
  | abort
  | fail
  | ignore
  | replace
  deriving DecidableEq

/-- An index of a table. The predicate of a partial index is an expression with a negative
cursor. -/
structure TableIndex extends Index where
  onError : OnError
  pPartIdxWhere : Expr

structure Table where
  notNull : Int → Bool
  pIndex : List TableIndex

variable {R : Type} (db : Engine R) (pSchema : Schema)

def findIndexCol (pList : List Expr) (iBase iColumn : Int) (zColl : String) : Option Nat :=
  pList.findIdx? fun pExpr =>
    let p := sqlite3ExprSkipCollate pExpr
    Expr.isColumn p && Expr.iColumn p = iColumn && Expr.iTable p = iBase &&
      sqlite3ExprCollSeq pSchema pExpr = some (sqlite3FindCollSeq zColl)

def constantTerm (pWC : List (List WhereTerm)) (iBase iColumn : Int) (pIdx : TableIndex) :
    Option WhereTerm :=
  findTerm db pSchema pWC iBase iColumn (BitVec.allOnes 64) woEq (some pIdx.toIndex)

/-- A unique index each of whose columns is equal to a constant, or is in the result and not
NULL. -/
def indexDecides (pTab : Table) (iBase : Int) (pWC : List (List WhereTerm)) (pDistinct : List Expr)
    (pIdx : TableIndex) : Bool :=
  pIdx.onError ≠ .none &&
    (pIdx.aiColumn.zip pIdx.azColl).all fun (iCol, zColl) =>
      (constantTerm db pSchema pWC iBase iCol pIdx).isSome ||
        (findIndexCol pSchema pDistinct iBase iCol zColl).isSome && pTab.notNull iCol

def isRowid (iBase : Int) (pExpr : Expr) : Bool :=
  let p := sqlite3ExprSkipCollate pExpr
  Expr.isColumn p && Expr.iTable p = iBase && Expr.iColumn p < 0

def isDistinctRedundant (pTabList : List (Int × Table)) (pWC : List (List WhereTerm))
    (pDistinct : List Expr) : Bool :=
  match pTabList with
  | [(iBase, pTab)] =>
    pDistinct.any (isRowid iBase) ||
      pTab.pIndex.any (indexDecides db pSchema pTab iBase pWC pDistinct)
  | _ => false

variable [LinearOrder R]

structure Row (R : Type) where
  rowid : Int
  aCol : Int → Value R

def Row.value (row : Row R) (iColumn : Int) : Value R :=
  if iColumn < 0 then .integer row.rowid else row.aCol iColumn

def Env.onRow (env : Env R) (iBase : Int) (row : Row R) : Env R :=
  env.at fun iTable iColumn => if iTable = iBase then row.value iColumn else env.row iTable iColumn

/-- As the predicate of a partial index is evaluated. -/
def Env.inIndex (env : Env R) (iBase : Int) (row : Row R) : Env R :=
  onRow { env with pSchema := { env.pSchema with iPartIdxTab := iBase } } iBase row

/-- A value as a column of an affinity gives it back. -/
def StoredAs (db : Engine R) : Affinity → Value R → Prop
  | .text, v => Value.isNumber v = false
  | .none, _ => True
  | .numeric, v => applyNumericAffinity db v = v
  | .integer, v => applyNumericAffinity db v = v
  | .real, v => (∀ i, v ≠ .integer i) ∧ ∀ z, v = .text z → (db.sqlite3AtoF z).1 = false

def HasEntry (env : Env R) (iBase : Int) (pIdx : TableIndex) (row : Row R) : Prop :=
  pIdx.pPartIdxWhere = .null ∨ IsTrue (inIndex env iBase row) pIdx.pPartIdxWhere

def SameKey (db : Engine R) (pIdx : TableIndex) (row row' : Row R) : Prop :=
  ∀ key ∈ pIdx.aiColumn.zip pIdx.azColl, row.value key.1 ≠ .null ∧
    sqlite3MemCompare db (some (sqlite3FindCollSeq key.2)) (row.value key.1) (row'.value key.1) =
      .eq

/-- A content of the table that obeys its constraints. -/
structure Obeys (env : Env R) (iBase : Int) (pTab : Table) (rows : Set (Row R)) : Prop where
  rowid : ∀ row ∈ rows, ∀ row' ∈ rows, row.rowid = row'.rowid → row = row'
  stored : ∀ row ∈ rows, ∀ iColumn, 0 ≤ iColumn →
    StoredAs env.db (env.pSchema.aCol iBase iColumn).affinity (row.aCol iColumn)
  notNull : ∀ row ∈ rows, ∀ iColumn, pTab.notNull iColumn = true → row.value iColumn ≠ .null
  unique : ∀ pIdx ∈ pTab.pIndex, pIdx.onError ≠ .none → ∀ row ∈ rows, ∀ row' ∈ rows,
    HasEntry env iBase pIdx row → HasEntry env iBase pIdx row' →
      SameKey env.db pIdx row row' → row = row'

/-- The rows of the result are equal, each column with its own collating sequence. -/
def SameResult (env : Env R) (iBase : Int) (pDistinct : List Expr) (row row' : Row R) : Prop :=
  ∀ pExpr ∈ pDistinct, sqlite3MemCompare env.db (sqlite3ExprCollSeq env.pSchema pExpr)
    (sqlite3ExprCode (onRow env iBase row) pExpr).target
    (sqlite3ExprCode (onRow env iBase row') pExpr).target = .eq

variable {env : Env R} {iBase : Int}

theorem getMask_single (iBase : Int) : getMask [iBase] iBase ≠ 0 := by
  rw [getMask]
  simp

theorem codeBaseWhen_onRow (row row' : Row R) (pX : Expr) (r1 : Value R) :
    ∀ list, codeBaseWhen (onRow env iBase row) pX r1 list =
      codeBaseWhen (onRow env iBase row') pX r1 list
  | [] => rfl
  | [_] => rfl
  | test :: result :: rest => by
    rw [codeBaseWhen, codeBaseWhen, codeBaseWhen_onRow row row' pX r1 rest]
    rfl

theorem codeNode_onRow (row row' : Row R) {d : Node} (notColumn : d.op ≠ .column)
    (pLeft pRight : Expr) (left right : Coded R) (list : List (Expr × Coded R)) :
    codeNode (onRow env iBase row) d pLeft pRight left right list =
      codeNode (onRow env iBase row') d pLeft pRight left right list := by
  rw [codeNode, codeNode]
  cases op : d.op with
  | column => exact absurd op notColumn
  | case =>
    rw [codeBaseWhen_onRow row row' pLeft left.target list]
    rfl
  | _ => rfl

omit [LinearOrder R] in
theorem row_onRow (other : env.pSchema.iPartIdxTab ≠ iBase) (row row' : Row R) {iTable : Int}
    (unused : getMask [iBase] iTable = 0) (iColumn : Int) :
    (onRow env iBase row).row (env.pSchema.cursor iTable) iColumn =
      (Env.onRow env iBase row').row (env.pSchema.cursor iTable) iColumn := by
  have away : env.pSchema.cursor iTable ≠ iBase := by
    rw [Schema.cursor]
    split
    · exact other
    · rintro rfl
      exact getMask_single iTable unused
  simp [Env.onRow, Env.at, if_neg away]

mutual

theorem code_onRow (other : env.pSchema.iPartIdxTab ≠ iBase) (row row' : Row R) :
    ∀ pExpr : Expr, exprTableUsage [iBase] pExpr = 0 →
      sqlite3ExprCode (onRow env iBase row) pExpr =
        sqlite3ExprCode (onRow env iBase row') pExpr
  | .null, _ => rfl
  | .node d pLeft pRight pList, unused => by
    rw [exprTableUsage] at unused
    split at unused
    · rename_i column
      rw [sqlite3ExprCode, sqlite3ExprCode, codeNode, codeNode, column]
      exact congrArg (Coded.value env.db) (row_onRow other row row' unused d.iColumn)
    · rename_i notColumn
      obtain ⟨both, list⟩ := BitVec.or_eq_zero_iff.mp unused
      obtain ⟨right, left⟩ := BitVec.or_eq_zero_iff.mp both
      rw [sqlite3ExprCode, sqlite3ExprCode, code_onRow other row row' pLeft left,
        code_onRow other row row' pRight right, codeList_onRow other row row' pList list]
      exact codeNode_onRow row row' notColumn _ _ _ _ _

theorem codeList_onRow (other : env.pSchema.iPartIdxTab ≠ iBase) (row row' : Row R) :
    ∀ pList : ExprList, exprListTableUsage [iBase] pList = 0 →
      sqlite3ExprCodeExprList (onRow env iBase row) pList =
        sqlite3ExprCodeExprList (onRow env iBase row') pList
  | .nil, _ => rfl
  | .cons pExpr sortOrder rest, unused => by
    obtain ⟨first, later⟩ := BitVec.or_eq_zero_iff.mp unused
    rw [sqlite3ExprCodeExprList, sqlite3ExprCodeExprList, code_onRow other row row' pExpr first,
      codeList_onRow other row row' rest later]

end

variable {pMaskSet : WhereMaskSet} {pSchema : Schema} {subs : List WhereTerm} {term : WhereTerm}

theorem usage_setCollate (collate : Bool) (pExpr : Expr) :
    exprTableUsage pMaskSet (setCollate collate pExpr) = exprTableUsage pMaskSet pExpr := by
  cases pExpr with
  | null => rfl
  | node => simp [setCollate, exprTableUsage]

theorem usage_commute (pExpr : Expr) : exprTableUsage pMaskSet (exprCommute pSchema pExpr).pRight =
      exprTableUsage pMaskSet pExpr.pLeft := by
  cases pExpr with
  | null => rfl
  | node d pLeft pRight pList =>
    simp only [exprCommute, Expr.pRight]
    split
    · exact usage_setCollate _ _
    · rfl

/-- The expression of a term and the tables that it needs, as written or commuted. -/
def Needs (pMaskSet : WhereMaskSet) (pSchema : Schema) (pTerm term : WhereTerm) : Prop :=
  term.pExpr = pTerm.pExpr ∧ term.prereqRight =
      (prereqs pMaskSet pTerm).right ||| (prereqs pMaskSet pTerm).extraRight ∨
    term.pExpr = exprCommute pSchema pTerm.pExpr ∧ term.prereqRight =
      (prereqs pMaskSet pTerm).left ||| (prereqs pMaskSet pTerm).extraRight

theorem analyzed_needs (pTerm : WhereTerm) :
    Needs pMaskSet pSchema pTerm (analyzed pMaskSet pSchema pTerm).1 ∧
      ∀ copy, (analyzed pMaskSet pSchema pTerm).2 = some copy →
        Needs pMaskSet pSchema pTerm copy := by
  rw [analyzed]
  split
  · exact ⟨.inl ⟨rfl, rfl⟩, fun copy none => absurd none (by simp)⟩
  · split
    · exact ⟨.inl ⟨rfl, rfl⟩, fun copy none => absurd none (by simp)⟩
    · split
      · refine ⟨?_, fun copy none => absurd none (by simp)⟩
        split
        · exact .inl ⟨rfl, rfl⟩
        · exact .inl ⟨rfl, rfl⟩
      · split
        · refine ⟨.inl ⟨rfl, rfl⟩, fun copy second => ?_⟩
          cases second
          exact .inr ⟨rfl, rfl⟩
        · exact ⟨.inr ⟨rfl, rfl⟩, fun copy none => absurd none (by simp)⟩

theorem prereqRight_of_mem (member : term ∈ exprAnalyzeAll pMaskSet pSchema subs) {c : Comparison}
    (op : term.pExpr.op? = some (.compare c)) :
    ∃ extra, term.prereqRight = exprTableUsage pMaskSet term.pExpr.pRight ||| extra := by
  obtain ⟨i, pTerm, -, which⟩ := mem_analyzeAll.mp member
  have needs : Needs pMaskSet pSchema pTerm term := by
    rcases which with rfl | ⟨copy, second, rfl⟩
    · exact (analyzed_needs pTerm).1
    · exact (analyzed_needs pTerm).2 copy second
  rcases needs with ⟨same, prereqRight⟩ | ⟨commute, prereqRight⟩
  · have right : (prereqs pMaskSet pTerm).right = exprTableUsage pMaskSet term.pExpr.pRight := by
      rw [same] at op ⊢
      simp [prereqs, op]
    exact ⟨_, right ▸ prereqRight⟩
  · have left : (prereqs pMaskSet pTerm).left = exprTableUsage pMaskSet term.pExpr.pRight := by
      rw [commute, usage_commute]
      rfl
    exact ⟨_, left ▸ prereqRight⟩

variable {db : Engine R}

/-- The conversions that an index allows. -/
def Harmless (affinity conversion : Affinity) : Prop :=
  conversion = .none ∨ conversion = .text ∧ affinity = .text ∨
    sqlite3IsNumericAffinity conversion = true ∧ sqlite3IsNumericAffinity affinity = true

omit [LinearOrder R] in
theorem harmless_of_indexOk {pExpr pX : Expr} {affY affX : Affinity}
    (left : sqlite3ExprAffinity db pSchema pExpr.pLeft = some affY)
    (isX : sqlite3ExprAffinity db pSchema pX = some affX)
    (indexOk : sqlite3IndexAffinityOk db pSchema pExpr affX = true) :
    Harmless affX (binaryCompareP5 db pSchema pX pExpr.pRight) := by
  rw [sqlite3IndexAffinityOk, comparisonAffinity_eq] at indexOk
  simp only [binaryCompareP5, left, isX] at indexOk ⊢
  generalize sqlite3ExprAffinity db pSchema pExpr.pRight = affE at indexOk ⊢
  rcases affE with _ | affE
  · cases affX <;> simp [Harmless, sqlite3CompareAffinity, sqlite3IsNumericAffinity]
  · cases affY <;> cases affE <;> cases affX <;>
      first
      | exact absurd indexOk (by decide)
      | simp [Harmless, sqlite3CompareAffinity, sqlite3IsNumericAffinity]

theorem applyAffinity_numeric {conversion : Affinity}
    (numeric : sqlite3IsNumericAffinity conversion = true) :
    applyAffinity db conversion = applyNumericAffinity db := by
  cases conversion <;> first | rfl | cases numeric

theorem memCompare_of_real {pColl : Option CollSeq} {x y : Value R} (stored : StoredAs db .real x)
    (stored' : StoredAs db .real y)
    (same : sqlite3MemCompare db pColl (applyNumericAffinity db x) (applyNumericAffinity db y) =
      .eq) : sqlite3MemCompare db pColl x y = .eq := by
  have real (r : R) : applyNumericAffinity db (.real r) = .real r ∨
      ∃ i, applyNumericAffinity db (.real r) = .integer i ∧ r = db.double i := by
    rw [applyNumericAffinity, sqlite3VdbeIntegerAffinity]
    split
    · rename_i whole
      exact .inr ⟨_, rfl, whole.1⟩
    · exact .inl rfl
  have other {v : Value R} (isStored : StoredAs db .real v) (notReal : ∀ r, v ≠ .real r) :
      applyNumericAffinity db v = v := by
    cases v with
    | text z =>
      rw [applyNumericAffinity, isStored.2 z rfl]
      rfl
    | real r => exact absurd rfl (notReal r)
    | _ => rfl
  cases x with
  | integer i => exact absurd rfl (stored.1 i)
  | real r =>
    cases y with
    | integer i => exact absurd rfl (stored'.1 i)
    | real t =>
      rw [sqlite3MemCompare, compare_eq_iff_eq]
      rcases real r with left | ⟨i, left, rfl⟩ <;> rcases real t with right | ⟨j, right, rfl⟩ <;>
        rw [left, right, sqlite3MemCompare, compare_eq_iff_eq] at same
      · exact same
      · exact same
      · exact same
      · rw [same]
    | _ =>
      rw [other stored' (by simp)] at same
      rcases real r with left | ⟨i, left, rfl⟩ <;> rw [left] at same <;>
        exact absurd same (by simp [sqlite3MemCompare])
  | _ =>
    rw [other stored (by simp)] at same
    cases y with
    | integer i => exact absurd rfl (stored'.1 i)
    | real t =>
      rcases real t with right | ⟨j, right, rfl⟩ <;> rw [right] at same <;>
        exact absurd same (by simp [sqlite3MemCompare])
    | _ =>
      rw [other stored' (by simp)] at same
      exact same

theorem memCompare_of_converted {pColl : Option CollSeq} {x y : Value R}
    {affinity conversion : Affinity} (harmless : Harmless affinity conversion)
    (stored : StoredAs db affinity x) (stored' : StoredAs db affinity y)
    (same : sqlite3MemCompare db pColl (applyAffinity db conversion x)
      (applyAffinity db conversion y) = .eq) : sqlite3MemCompare db pColl x y = .eq := by
  rcases harmless with rfl | ⟨rfl, rfl⟩ | ⟨numeric, numeric'⟩
  · exact same
  · rwa [applyAffinity_text stored, applyAffinity_text stored'] at same
  · rw [applyAffinity_numeric numeric] at same
    cases affinity with
    | text => cases numeric'
    | none => cases numeric'
    | numeric => rwa [show applyNumericAffinity db x = x from stored,
        show applyNumericAffinity db y = y from stored'] at same
    | integer => rwa [show applyNumericAffinity db x = x from stored,
        show applyNumericAffinity db y = y from stored'] at same
    | real => exact memCompare_of_real stored stored' same

variable {pTab : Table}
variable {base : List WhereTerm} {pDistinct : List Expr} {rows : Set (Row R)}
variable {pIdx : TableIndex} {row row' : Row R} {term : WhereTerm}

def oneTable (pSchema : Schema) (iBase : Int) (base : List WhereTerm) : List (List WhereTerm) :=
  [base].map (exprAnalyzeAll [iBase] pSchema)

def InResult (env : Env R) (iBase : Int) (base : List WhereTerm) (row : Row R) : Prop :=
  ∀ pTerm ∈ base, IsTrue (onRow env iBase row) pTerm.pExpr

/-- What `isDistinctRedundant` takes for granted of the index that it relies on. -/
structure Reliable (env : Env R) (iBase : Int) (base : List WhereTerm) (rows : Set (Row R))
    (pIdx : TableIndex) : Prop where
  /-- The rows of the result are in the index. -/
  entries : ∀ row ∈ rows, InResult env iBase base row → HasEntry env iBase pIdx row
  /-- A column that stands in the index twice has one collating sequence. -/
  lookup : ∀ key ∈ pIdx.aiColumn.zip pIdx.azColl, ∀ term,
    constantTerm env.db env.pSchema (oneTable env.pSchema iBase base) iBase key.1 pIdx = some term →
      (scanCollName key.1 (some pIdx.toIndex)).map sqlite3FindCollSeq =
        some (sqlite3FindCollSeq key.2)
  /-- A term on another column is true of the column of the index as well. -/
  chained : ∀ key ∈ pIdx.aiColumn.zip pIdx.azColl, ∀ term,
    constantTerm env.db env.pSchema (oneTable env.pSchema iBase base) iBase key.1 pIdx = some term →
      (term.leftCursor, term.leftColumn) ≠ (iBase, key.1) →
      ∀ row ∈ rows, InResult env iBase base row → IsTrue (onRow env iBase row)
        (withLeft (requestedColumn (scanCollName key.1 (some pIdx.toIndex)) iBase key.1) term.pExpr)
  /-- No two integers of the column are equal to one real constant. -/
  numbers : ∀ key ∈ pIdx.aiColumn.zip pIdx.azColl, ∀ term,
    constantTerm env.db env.pSchema (oneTable env.pSchema iBase base) iBase key.1 pIdx = some term →
      ∀ row ∈ rows, InResult env iBase base row → ∀ row' ∈ rows, InResult env iBase base row' →
        Distinguished env.db ([row'.value key.1,
            (sqlite3ExprCode (onRow env iBase row) term.pExpr.pRight).target,
            row.value key.1].map
          (applyAffinity env.db (binaryCompareP5 env.db env.pSchema
            (requestedColumn (scanCollName key.1 (some pIdx.toIndex)) iBase key.1)
            term.pExpr.pRight)))

omit [LinearOrder R] in
theorem valueAt_onRow (cursor : 0 ≤ iBase) (row : Row R) (iColumn : Int) :
    valueAt (Env.onRow env iBase row) (iBase, iColumn) = row.value iColumn := by
  have here : env.pSchema.cursor iBase = iBase := if_neg cursor.not_gt
  simp [valueAt, Env.onRow, Env.at, here]

theorem compatible_direct {env : Env R} {checked : Prop} {pX : Expr} (isChecked : checked)
    (affinity : sqlite3ExprAffinity env.db env.pSchema pX =
      sqlite3ExprAffinity env.db env.pSchema term.pExpr.pLeft) :
    Compatible env checked pX [] term where
  conversions := fun link inside => absurd inside not_mem_nil
  collations := fun link inside => absurd inside not_mem_nil
  numbers := by
    intro v _ i j r isI isJ isR _ _
    simp only [sideValues, flatMap_nil, map_cons, map_nil, mem_cons,
      not_mem_nil, or_false] at isI isJ isR
    rcases isI with atI | atI <;> rcases isJ with atJ | atJ
    · exact Value.integer.inj (atI.trans atJ.symm)
    · rcases isR with atR | atR
      · exact absurd (atI.trans atR.symm) (by simp)
      · exact absurd (atJ.trans atR.symm) (by simp)
    · rcases isR with atR | atR
      · exact absurd (atJ.trans atR.symm) (by simp)
      · exact absurd (atI.trans atR.symm) (by simp)
    · exact Value.integer.inj (atI.trans atJ.symm)
  operands := by
    intro _ v _
    rw [binaryCompareP5, binaryCompareP5, affinity]
  collation := fun unchecked => absurd isChecked unchecked

theorem shaped_singleton (shaped : ∀ pTerm ∈ base, pTerm.pExpr.shaped = true) : Shaped [base] := by
  intro clause inside
  rw [mem_singleton.mp inside]
  exact shaped

theorem inResult_passes (selected : InResult env iBase base row) :
    Passes (onRow env iBase row) [base] := by
  intro clause member pTerm inside _
  rw [mem_singleton.mp member] at inside
  exact selected pTerm inside

theorem isTrue_equal {env : Env R} {pX : Expr} (isEq : term.pExpr.op? = some (.compare .eq)) :
    IsTrue env (withLeft pX term.pExpr) ↔ (sqlite3ExprCode env pX).target ≠ .null ∧
      (sqlite3ExprCode env term.pExpr.pRight).target ≠ .null ∧
      compareRegisters env pX term.pExpr.pRight (sqlite3ExprCode env pX).target
        (sqlite3ExprCode env term.pExpr.pRight).target = .eq := by
  rw [isTrue_equality (by rw [op_withLeft pX, isEq]), codeCompare_iff,
    pLeft_withLeft _ isEq, pRight_withLeft]
  simp [Comparison.holds]

theorem OnColumn.value (cursor : 0 ≤ iBase) {pExpr : Expr} {iColumn : Int}
    (column : OnColumn pExpr iBase iColumn) (row : Row R) :
    (sqlite3ExprCode (onRow env iBase row) pExpr).target = row.value iColumn := by
  rw [← valueAt_onRow cursor row iColumn]
  exact column.target

section

variable {key : Int × String}
  (found : constantTerm env.db env.pSchema (oneTable env.pSchema iBase base) iBase key.1 pIdx =
    some term)

include found

omit [LinearOrder R] in
theorem returned_constant (shaped : ∀ pTerm ∈ base, pTerm.pExpr.shaped = true) :
    ∃ links, Returned env.db env.pSchema (oneTable env.pSchema iBase base) (iBase, key.1) woEq
        (scanCollName key.1 (some pIdx.toIndex))
        (env.pSchema.aCol (env.pSchema.cursor iBase) key.1).affinity links term ∧
      ∃ pTerm ∈ base, Derived env.pSchema pTerm term := by
  obtain ⟨-, n, scan, result⟩ := findTerm_spec _ found
  obtain ⟨-, links, returned⟩ := scanResult_spec n result
  obtain ⟨clause, inside, pTerm, known, derived⟩ :=
    derived_of_flatten (shaped_singleton shaped) returned.member
  rw [mem_singleton.mp inside] at known
  exact ⟨links, returned, pTerm, known, derived⟩

variable (reliable : Reliable env iBase base rows pIdx)
  (isKey : key ∈ pIdx.aiColumn.zip pIdx.azColl)

include reliable isKey

theorem Reliable.checked : scanCollName key.1 (some pIdx.toIndex) ≠ none := by
  intro none
  have name := reliable.lookup key isKey term found
  rw [none] at name
  cases name

/-- A constant that is found for a column of the index is equal to it on every row of the result. -/
theorem isTrue_constant (ordered : env.db.Ordered)
    (shaped : ∀ pTerm ∈ base, pTerm.pExpr.shaped = true)
    (noJoin : ∀ pTerm ∈ base, pTerm.fromJoin = false) (member : row ∈ rows)
    (selected : InResult env iBase base row) : IsTrue (onRow env iBase row)
      (withLeft (requestedColumn (scanCollName key.1 (some pIdx.toIndex)) iBase key.1)
        term.pExpr) := by
  by_cases direct : (term.leftCursor, term.leftColumn) = (iBase, key.1)
  · obtain ⟨links, returned, pTerm, known, derived⟩ := returned_constant found shaped
    have onClause : term.fromJoin = true → IsTrue (onRow env iBase row) term.pExpr := by
      intro join
      rw [derived.fromJoin, noJoin pTerm known] at join
      cases join
    have column := derived.onColumn (eOperator_ne_zero returned.opMask)
    rw [Prod.mk.injEq] at direct
    rw [direct.1, direct.2] at column
    have affinity : sqlite3ExprAffinity env.db env.pSchema
        (requestedColumn (scanCollName key.1 (some pIdx.toIndex)) iBase key.1) =
          sqlite3ExprAffinity env.db env.pSchema term.pExpr.pLeft :=
      (requestedColumn_onColumn _ iBase key.1).affinity.trans column.affinity.symm
    have noLinks : Chain (oneTable env.pSchema iBase base).flatten (iBase, key.1) []
        (term.leftCursor, term.leftColumn) := by
      rw [direct.1, direct.2]
      exact .here
    exact @isTrue_withLeft R _ (onRow env iBase row) [iBase] [base] iBase key.1 woEq
      (some pIdx.toIndex) [] term ordered (shaped_singleton shaped) (inResult_passes selected)
      ⟨returned.member, noLinks, .inl rfl, returned.opMask, returned.affinity, returned.collation⟩
      onClause (compatible_direct (reliable.checked found isKey) affinity)
  · exact reliable.chained key isKey term found direct row member selected

theorem Reliable.collSeq (pRight : Expr) : sqlite3BinaryCompareCollSeq env.pSchema
      (requestedColumn (scanCollName key.1 (some pIdx.toIndex)) iBase key.1) pRight =
        some (sqlite3FindCollSeq key.2) ∧ 0 ≤ key.1 := by
  obtain ⟨z, name, same⟩ := Option.map_eq_some_iff.mp (reliable.lookup key isKey term found)
  refine ⟨?_, ?_⟩
  · rw [name, ← same]
    rfl
  · rw [scanCollName] at name
    split at name
    · cases name
    · rename_i column
      exact Int.not_lt.mp column

theorem sameKey_constant (ordered : env.db.Ordered) (cursor : 0 ≤ iBase)
    (other : env.pSchema.iPartIdxTab ≠ iBase) (shaped : ∀ pTerm ∈ base, pTerm.pExpr.shaped = true)
    (noJoin : ∀ pTerm ∈ base, pTerm.fromJoin = false) (obeys : Obeys env iBase pTab rows)
    (member : row ∈ rows) (selected : InResult env iBase base row) (member' : row' ∈ rows)
    (selected' : InResult env iBase base row') : row.value key.1 ≠ .null ∧
      sqlite3MemCompare env.db (some (sqlite3FindCollSeq key.2)) (row.value key.1)
        (row'.value key.1) = .eq := by
  obtain ⟨unready, -⟩ := findTerm_spec _ found
  obtain ⟨links, returned, pTerm, -, derived⟩ := returned_constant found shaped
  have isEq : term.pExpr.op? = some (.compare .eq) := derived.op_eq returned.opMask
  -- the constant has the same value on both rows
  have unused : exprTableUsage [iBase] term.pExpr.pRight = 0 := by
    obtain ⟨clause', inside', here⟩ := mem_flatten.mp returned.member
    obtain ⟨base', isBase, rfl⟩ := mem_map.mp inside'
    obtain ⟨extra, prereqRight⟩ := prereqRight_of_mem here isEq
    rw [BitVec.and_allOnes, prereqRight] at unready
    exact (BitVec.or_eq_zero_iff.mp unready).1
  have constant := code_onRow other row' row term.pExpr.pRight unused
  obtain ⟨coll, column⟩ := reliable.collSeq found isKey term.pExpr.pRight
  have first := (isTrue_equal isEq).mp
    (isTrue_constant found reliable isKey ordered shaped noJoin member selected)
  have second := (isTrue_equal isEq).mp
    (isTrue_constant found reliable isKey ordered shaped noJoin member' selected')
  rw [(requestedColumn_onColumn _ iBase key.1).value cursor] at first second
  rw [constant] at second
  have registers (r : Row R) (x v : Value R) :
      compareRegisters (onRow env iBase r)
          (requestedColumn (scanCollName key.1 (some pIdx.toIndex)) iBase key.1)
          term.pExpr.pRight x v =
        sqlite3MemCompare env.db (some (sqlite3FindCollSeq key.2))
          (applyAffinity env.db (binaryCompareP5 env.db env.pSchema
            (requestedColumn (scanCollName key.1 (some pIdx.toIndex)) iBase key.1)
            term.pExpr.pRight) x)
          (applyAffinity env.db (binaryCompareP5 env.db env.pSchema
            (requestedColumn (scanCollName key.1 (some pIdx.toIndex)) iBase key.1)
            term.pExpr.pRight) v) := by
    rw [← coll]
    rfl
  rw [registers] at first second
  refine ⟨first.1, ?_⟩
  have numbers := reliable.numbers key isKey term found row member selected row' member' selected'
  have agree := memCompare_congr ordered (.inr rfl) numbers second.2.2
  rw [memCompare_swap ordered.toLawful, memCompare_swap ordered.toLawful _ _
    (applyAffinity env.db _ (row.value key.1)), first.2.2] at agree
  have used := eOperator_ne_zero returned.opMask
  have xAffinity := @OnColumn.affinity R _ _ _ env.db env.pSchema
    (requestedColumn_onColumn (scanCollName key.1 (some pIdx.toIndex)) iBase key.1)
  have here : env.pSchema.cursor iBase = iBase := if_neg cursor.not_gt
  rw [affinityAt, if_neg column.not_gt, here] at xAffinity
  have notIsNull : term.eOperator &&& woIsNull = 0 := by
    rcases derived.searched used with isNull | ⟨op, c, -, -, notIsNull⟩
    · exact absurd (isEq.symm.trans isNull) (by simp)
    · exact notIsNull
  have indexOk := returned.affinity (reliable.checked found isKey) notIsNull
  rw [here] at indexOk
  have value (r : Row R) : r.value key.1 = r.aCol key.1 := if_neg column.not_gt
  refine memCompare_of_converted
    (harmless_of_indexOk (derived.onColumn used).affinity xAffinity indexOk) ?_ ?_
    (Ordering.swap_inj.mp agree)
  · rw [value]
    exact obeys.stored row member key.1 column
  · rw [value]
    exact obeys.stored row' member' key.1 column

end

theorem sameKey_listed (cursor : 0 ≤ iBase) (obeys : Obeys env iBase pTab rows) {iCol : Int}
    {zColl : String} (listed : (findIndexCol env.pSchema pDistinct iBase iCol zColl).isSome = true)
    (notNull : pTab.notNull iCol = true) (member : row ∈ rows)
    (same : SameResult env iBase pDistinct row row') :
    row.value iCol ≠ .null ∧ sqlite3MemCompare env.db (some (sqlite3FindCollSeq zColl))
      (row.value iCol) (row'.value iCol) = .eq := by
  refine ⟨obeys.notNull row member iCol notNull, ?_⟩
  rw [findIndexCol, findIdx?_isSome, any_eq_true] at listed
  obtain ⟨pExpr, inList, isIt⟩ := listed
  simp only [Bool.and_eq_true, decide_eq_true_eq] at isIt
  obtain ⟨⟨⟨isColumn, isCol⟩, isBase⟩, coll⟩ := isIt
  have column : OnColumn pExpr iBase iCol := ⟨isColumn, isBase, isCol⟩
  have equal := same pExpr inList
  rwa [coll, column.value cursor, column.value cursor] at equal

/-- A table with two columns of text, the first of them NOT NULL, and a unique index. -/
def textTable (aiColumn : List Int) (pPartIdxWhere : Expr) : Table where
  notNull := fun iColumn => iColumn = 1
  pIndex := [⟨⟨aiColumn, aiColumn.map fun _ => "BINARY"⟩, .abort, pPartIdxWhere⟩]

def textRow (rowid : Int) (a b : Value Int) : Row Int := ⟨rowid, fun i => if i = 1 then a else b⟩

end

end SeSqlite.Where
