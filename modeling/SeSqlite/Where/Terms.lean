/- source: src/where.c, src/whereInt.h
   digest: The terms of a WHERE clause: how it is split, which cursors a term uses, and the commuted
   copies of comparisons between two columns. -/
import SeSqlite.Expression.Implies

set_option autoImplicit false
set_option relaxedAutoImplicit false

namespace SeSqlite.Where

open Expression List Option

section

abbrev Bitmask := BitVec 64

/-- The cursors of the FROM clause; the position of a cursor is its bit. -/
abbrev WhereMaskSet := List Int

def getMask (pMaskSet : WhereMaskSet) (iCursor : Int) : Bitmask :=
  if iCursor ∈ pMaskSet then 1#64 <<< pMaskSet.idxOf iCursor else 0

variable (pMaskSet : WhereMaskSet)

mutual

def exprTableUsage : Expr → Bitmask
  | .null => 0
  | .node d pLeft pRight pList =>
    if d.op = .column then getMask pMaskSet d.iTable
    else exprTableUsage pRight ||| exprTableUsage pLeft ||| exprListTableUsage pList

def exprListTableUsage : ExprList → Bitmask
  | .nil => 0
  | .cons pExpr _ rest => exprTableUsage pExpr ||| exprListTableUsage rest

end

end

abbrev WO := BitVec 16

def woIn : WO := 0x001#16
def woEq : WO := 0x002#16
def woGt : WO := 0x004#16
def woLe : WO := 0x008#16
def woLt : WO := 0x010#16
def woGe : WO := 0x020#16
def woIsNull : WO := 0x080#16
def woEquiv : WO := 0x400#16
def woAll : WO := 0xfff#16
def woSingle : WO := 0x0ff#16

def allowedOp : Op → Bool
  | .inList => true
  | .compare .ne => false
  | .compare _ => true
  | .isNull => true
  | _ => false

def operatorMask : Op → WO
  | .inList => woIn
  | .isNull => woIsNull
  | .compare .eq => woEq
  | .compare .gt => woGt
  | .compare .le => woLe
  | .compare .lt => woLt
  | .compare .ge => woGe
  | _ => 0

def commuted : Comparison → Comparison
  | .lt => .gt
  | .le => .ge
  | .gt => .lt
  | .ge => .le
  | .eq => .eq
  | .ne => .ne

def setCollate (collate : Bool) : Expr → Expr
  | .null => .null
  | .node d pLeft pRight pList => .node { d with collate := collate } pLeft pRight pList

/-- Only comparisons are commuted. -/
def exprCommute (pSchema : Schema) : Expr → Expr
  | .node d pLeft pRight pList =>
    let pNewRight :=
      if pRight.collate = pLeft.collate ∧ pRight.collate = true then setCollate false pRight
      else pRight
    let pNewLeft :=
      if pRight.collate = pLeft.collate ∧ pRight.collate = false ∧
        (sqlite3ExprCollSeq pSchema pLeft).isSome then setCollate true pLeft
      else pLeft
    let op : Op :=
      match d.op with
      | .compare c => .compare (commuted c)
      | op => op
    .node { d with op := op } pNewRight pNewLeft pList
  | .null => .null

/-- A term; `fromJoin` is `EP_FromJoin` on its expression. -/
structure WhereTerm where
  pExpr : Expr
  fromJoin : Bool
  iRightJoinTable : Int
  isVirtual : Bool
  isCopied : Bool
  iParent : Option Nat
  leftCursor : Int
  leftColumn : Int
  eOperator : WO
  prereqRight : Bitmask

/-- `whereClauseInsert` for an expression of the statement. -/
def newTerm (p : Expr) (fromJoin : Bool) (iRightJoinTable : Int) : WhereTerm :=
  ⟨sqlite3ExprSkipCollate p, fromJoin, iRightJoinTable, false, false, none, -1, 0, 0, 0⟩

/-- The operands of a tree of one operator, from left to right. -/
def whereSplit (op : Op) : Expr → List Expr
  | .null => []
  | .node d pLeft pRight pList =>
    if d.op ≠ op then [.node d pLeft pRight pList]
    else whereSplit op pLeft ++ whereSplit op pRight

section

variable (pMaskSet : WhereMaskSet) (pSchema : Schema)

def Expr.isColumn (pExpr : Expr) : Bool := pExpr.op? = some .column

def Expr.iTable : Expr → Int
  | .null => -1
  | .node d _ _ _ => d.iTable

def Expr.iColumn : Expr → Int
  | .null => 0
  | .node d _ _ _ => d.iColumn

/-- The masks that `exprAnalyze` computes first. -/
structure Prereqs where
  left : Bitmask
  right : Bitmask
  /-- The tables to the left of a LEFT JOIN, if the term is in its ON clause. -/
  extraRight : Bitmask

def prereqs (pTerm : WhereTerm) : Prereqs where
  left := exprTableUsage pMaskSet pTerm.pExpr.pLeft
  right :=
    match pTerm.pExpr.op? with
    | some .inList => exprListTableUsage pMaskSet pTerm.pExpr.pList
    | some .isNull => 0
    | _ => exprTableUsage pMaskSet pTerm.pExpr.pRight
  extraRight := if pTerm.fromJoin then getMask pMaskSet pTerm.iRightJoinTable - 1 else 0

/-- If both sides use one table, a term is no use but for its equivalence. -/
def Prereqs.opMask (masks : Prereqs) : WO :=
  if masks.right &&& masks.left = 0 then woAll else woEquiv

def plainTerm (masks : Prereqs) (pTerm : WhereTerm) : WhereTerm :=
  { pTerm with leftCursor := -1, eOperator := 0, prereqRight := masks.right ||| masks.extraRight }

def leftTerm (masks : Prereqs) (equiv : WO) (op : Op) (pTerm : WhereTerm) : WhereTerm :=
  let pLeft := sqlite3ExprSkipCollate pTerm.pExpr.pLeft
  { plainTerm masks pTerm with
    leftCursor := Expr.iTable pLeft
    leftColumn := Expr.iColumn pLeft
    eOperator := operatorMask op &&& masks.opMask ||| equiv }

def commutedTerm (masks : Prereqs) (equiv : WO) (pTerm : WhereTerm) : WhereTerm :=
  let pDup := exprCommute pSchema pTerm.pExpr
  let pLeft := sqlite3ExprSkipCollate pDup.pLeft
  { plainTerm masks pTerm with
    pExpr := pDup
    leftCursor := Expr.iTable pLeft
    leftColumn := Expr.iColumn pLeft
    eOperator := ((pDup.op?.map operatorMask).getD 0 ||| equiv) &&& masks.opMask
    prereqRight := masks.left ||| masks.extraRight }

/-- The analysis of a comparison, an IN or an IS NULL: the term and, if both sides are columns, its
commuted copy. -/
def analyzed (pTerm : WhereTerm) : WhereTerm × Option WhereTerm :=
  let masks := prereqs pMaskSet pTerm
  let pLeft := sqlite3ExprSkipCollate pTerm.pExpr.pLeft
  let pRight := sqlite3ExprSkipCollate pTerm.pExpr.pRight
  match pTerm.pExpr.op? with
  | none => (plainTerm masks pTerm, none)
  | some op =>
    if allowedOp op = false then (plainTerm masks pTerm, none)
    else if Expr.isColumn pRight = false then
      (if Expr.isColumn pLeft then leftTerm masks 0 op pTerm else plainTerm masks pTerm, none)
    else if Expr.isColumn pLeft ∧ 0 ≤ Expr.iTable pLeft then
      let equiv : WO := if op = .compare .eq ∧ pTerm.fromJoin = false then woEquiv else 0
      ({ leftTerm masks equiv op pTerm with isCopied := true },
        some { commutedTerm pSchema masks equiv pTerm with isVirtual := true })
    else (commutedTerm pSchema masks 0 pTerm, none)

/-- The copy goes to the end of the clause. -/
def exprAnalyze (a : List WhereTerm) (idxTerm : Nat) : List WhereTerm :=
  match a[idxTerm]? with
  | none => a
  | some pTerm =>
    match analyzed pMaskSet pSchema pTerm with
    | (term, none) => a.set idxTerm term
    | (term, some copy) => a.set idxTerm term ++ [{ copy with iParent := some idxTerm }]

/-- From the last term to the first. -/
def exprAnalyzeAll (a : List WhereTerm) : List WhereTerm :=
  (range a.length).reverse.foldl (exprAnalyze pMaskSet pSchema) a

end

variable {c : Comparison}

section

variable {R : Type} [LinearOrder R] {env : Env R} {pSchema : Schema} {pExpr : Expr} {d : Node}

theorem collate_setCollate_false (pExpr : Expr) : (setCollate false pExpr).collate = false := by
  cases pExpr <;> rfl

theorem collate_setCollate_true (some_coll : (sqlite3ExprCollSeq pSchema pExpr).isSome) :
    (setCollate true pExpr).collate = true := by
  cases pExpr with
  | null => simp [sqlite3ExprCollSeq] at some_coll
  | node => rfl

@[simp] theorem code_setCollate (collate : Bool) (pExpr : Expr) :
    sqlite3ExprCode env (setCollate collate pExpr) = sqlite3ExprCode env pExpr := by
  cases pExpr with
  | null => rfl
  | node => simp [setCollate, sqlite3ExprCode, codeNode]

omit [LinearOrder R] in
@[simp] theorem affinity_setCollate (db : Engine R) (pSchema : Schema) (collate : Bool)
    (pExpr : Expr) : sqlite3ExprAffinity db pSchema (setCollate collate pExpr) =
      sqlite3ExprAffinity db pSchema pExpr := by
  cases pExpr with
  | null => rfl
  | node d =>
    obtain ⟨op, mark, distinct, iTable, iColumn⟩ := d
    cases op <;> simp [setCollate, sqlite3ExprAffinity, sqlite3ExprSkipCollate, columnAffinity]

theorem collSeq_setCollate_true (plain : pExpr.collate = false)
    (some_coll : (sqlite3ExprCollSeq pSchema pExpr).isSome) :
    sqlite3ExprCollSeq pSchema (setCollate true pExpr) = sqlite3ExprCollSeq pSchema pExpr := by
  cases pExpr with
  | null => rfl
  | node d pLeft pRight pList =>
    obtain ⟨op, mark, distinct, iTable, iColumn⟩ := d
    obtain rfl : mark = false := plain
    cases op with
    | register pTab collate =>
      cases collate <;> cases pTab <;> simp_all [setCollate, sqlite3ExprCollSeq, columnCollSeq]
    | _ => simp_all [setCollate, sqlite3ExprCollSeq, columnCollSeq]

theorem collSeq_commute (pSchema : Schema) (d : Node) (pLeft pRight : Expr) (pList : ExprList) :
    sqlite3BinaryCompareCollSeq pSchema (exprCommute pSchema (.node d pLeft pRight pList)).pLeft
        (exprCommute pSchema (.node d pLeft pRight pList)).pRight =
      sqlite3BinaryCompareCollSeq pSchema pLeft pRight := by
  simp only [exprCommute, Expr.pLeft, Expr.pRight, sqlite3BinaryCompareCollSeq]
  rcases Bool.eq_false_or_eq_true pLeft.collate with left | left <;>
    rcases Bool.eq_false_or_eq_true pRight.collate with right | right
  · simp [left, right, collate_setCollate_false]
  · simp [left, right]
  · simp [left, right]
  · by_cases some_coll : (sqlite3ExprCollSeq pSchema pLeft).isSome
    · have same := collSeq_setCollate_true left some_coll
      obtain ⟨pColl, coll⟩ := isSome_iff_exists.mp some_coll
      simp [left, right, coll, collate_setCollate_true some_coll, same]
    · have coll := not_isSome_iff_eq_none.mp some_coll
      simp [left, coll]

omit [LinearOrder R] in
theorem compareAffinity_comm (aff1 aff2 : Option Affinity) :
    sqlite3CompareAffinity aff1 aff2 = sqlite3CompareAffinity aff2 aff1 := by
  cases aff1 <;> cases aff2 <;> simp [sqlite3CompareAffinity, Bool.or_comm]

omit [LinearOrder R] in
theorem holds_commuted (c : Comparison) (res : Ordering) :
    (commuted c).holds res.swap = c.holds res := by
  cases c <;> cases res <;> rfl

omit [LinearOrder R] in
theorem affinity_commute (db : Engine R) (pSchema : Schema) (d : Node) (pLeft pRight : Expr)
    (pList : ExprList) :
    binaryCompareP5 db pSchema (exprCommute pSchema (.node d pLeft pRight pList)).pLeft
        (exprCommute pSchema (.node d pLeft pRight pList)).pRight =
      binaryCompareP5 db pSchema pLeft pRight := by
  simp only [exprCommute, Expr.pLeft, Expr.pRight, binaryCompareP5]
  rw [compareAffinity_comm]
  congr 1 <;> split <;> simp

theorem code_commute (lawful : env.db.Lawful) (op : d.op = .compare c) (pLeft pRight : Expr)
    (pList : ExprList) :
    sqlite3ExprCode env (exprCommute env.pSchema (.node d pLeft pRight pList)) =
      sqlite3ExprCode env (.node d pLeft pRight pList) := by
  have coll := collSeq_commute env.pSchema d pLeft pRight pList
  have affinity := affinity_commute env.db env.pSchema d pLeft pRight pList
  simp only [exprCommute, Expr.pLeft, Expr.pRight] at coll affinity
  have right (mark : Prop) [Decidable mark] :
      sqlite3ExprCode env (if mark then setCollate false pRight else pRight) =
        sqlite3ExprCode env pRight := by
    split <;> simp
  have left (mark : Prop) [Decidable mark] :
      sqlite3ExprCode env (if mark then setCollate true pLeft else pLeft) =
        sqlite3ExprCode env pLeft := by
    split <;> simp
  simp only [exprCommute, sqlite3ExprCode, codeNode, op, codeCompare, compareRegisters, coll,
    affinity, left, right, or_comm]
  rw [memCompare_swap lawful]
  simp [holds_commuted]

variable (pMaskSet : WhereMaskSet) (pSchema : Schema)

/-- A term that the analysis of another one leaves in the clause. -/
structure Derived (pTerm term : WhereTerm) : Prop where
  /-- It has the expression, or the commuted one. -/
  pExpr : term.pExpr = pTerm.pExpr ∨
    term.pExpr = exprCommute pSchema pTerm.pExpr ∧ ∃ c, pTerm.pExpr.op? = some (.compare c)
  fromJoin : term.fromJoin = pTerm.fromJoin
  /-- Its operator is that of the expression, if there is a column on the left. -/
  onLeft : term.eOperator = 0 ∨
    Expr.isColumn (sqlite3ExprSkipCollate term.pExpr.pLeft) = true ∧
      term.leftCursor = Expr.iTable (sqlite3ExprSkipCollate term.pExpr.pLeft) ∧
      term.leftColumn = Expr.iColumn (sqlite3ExprSkipCollate term.pExpr.pLeft) ∧
      ∃ op opMask, term.pExpr.op? = some op ∧
        (term.eOperator = operatorMask op &&& opMask ∨
          op = .compare .eq ∧ term.fromJoin = false ∧
            Expr.isColumn (sqlite3ExprSkipCollate term.pExpr.pRight) = true ∧
            term.eOperator = operatorMask op &&& opMask ||| woEquiv)

variable {pMaskSet pSchema} {pTerm : WhereTerm} {masks : Prereqs} {equiv : WO}

theorem op_compare_of_right {pLeft pRight : Expr} {pList : ExprList}
    (shaped : (Expr.node d pLeft pRight pList).shaped = true) (allowed : allowedOp d.op = true)
    (column : Expr.isColumn (sqlite3ExprSkipCollate pRight) = true) : ∃ c, d.op = .compare c := by
  have real : pRight.isNull = false := by
    cases pRight with
    | null => simp [sqlite3ExprSkipCollate, Expr.isColumn, Expr.op?] at column
    | node => rfl
  simp only [Expr.shaped, real] at shaped
  cases op : d.op with
  | compare c => exact ⟨c, rfl⟩
  | inList => simp [op, Op.hasRight] at shaped
  | isNull => simp [op, Op.hasRight] at shaped
  | _ => simp [op, allowedOp] at allowed

theorem isColumn_skip_setCollate (collate : Bool) (pExpr : Expr) :
    Expr.isColumn (sqlite3ExprSkipCollate (setCollate collate pExpr)) =
      Expr.isColumn (sqlite3ExprSkipCollate pExpr) := by
  cases pExpr with
  | null => rfl
  | node d =>
    obtain ⟨op, mark, distinct, iTable, iColumn⟩ := d
    cases op <;> rfl

theorem op_commute (op : d.op = .compare c) (pLeft pRight : Expr) (pList : ExprList) :
    (exprCommute pSchema (.node d pLeft pRight pList)).op? = some (.compare (commuted c)) := by
  simp [exprCommute, Expr.op?, op]

theorem isColumn_right_commute (d : Node) (pLeft pRight : Expr) (pList : ExprList) :
    Expr.isColumn (sqlite3ExprSkipCollate
        (exprCommute pSchema (.node d pLeft pRight pList)).pRight) =
      Expr.isColumn (sqlite3ExprSkipCollate pLeft) := by
  simp only [exprCommute, Expr.pRight]
  split
  · exact isColumn_skip_setCollate _ _
  · rfl

theorem isColumn_left_commute (d : Node) (pLeft pRight : Expr) (pList : ExprList) :
    Expr.isColumn (sqlite3ExprSkipCollate
        (exprCommute pSchema (.node d pLeft pRight pList)).pLeft) =
      Expr.isColumn (sqlite3ExprSkipCollate pRight) := by
  simp only [exprCommute, Expr.pLeft]
  split
  · exact isColumn_skip_setCollate _ _
  · rfl

theorem equiv_and_opMask (mask : WO) (masks : Prereqs) :
    (mask ||| woEquiv) &&& masks.opMask = mask &&& masks.opMask ||| woEquiv := by
  rw [BitVec.and_or_distrib_right, Prereqs.opMask]
  split <;> rfl

/-- The mark of an equivalence is set on equalities of two columns only. -/
def EquivOk (pExpr : Expr) (fromJoin : Bool) (equiv : WO) : Prop :=
  equiv = 0 ∨ equiv = woEquiv ∧ pExpr.op? = some (.compare .eq) ∧ fromJoin = false ∧
    Expr.isColumn (sqlite3ExprSkipCollate pExpr.pLeft) = true ∧
    Expr.isColumn (sqlite3ExprSkipCollate pExpr.pRight) = true

theorem leftTerm_derived {op : Op} (opOf : pTerm.pExpr.op? = some op)
    (left : Expr.isColumn (sqlite3ExprSkipCollate pTerm.pExpr.pLeft) = true)
    (equivOk : EquivOk pTerm.pExpr pTerm.fromJoin equiv) :
    Derived pSchema pTerm (leftTerm masks equiv op pTerm) := by
  refine ⟨.inl rfl, rfl, .inr ⟨left, rfl, rfl, op, masks.opMask, opOf, ?_⟩⟩
  rcases equivOk with rfl | ⟨rfl, eq, join, -, right⟩
  · exact .inl (BitVec.or_zero)
  · exact .inr ⟨some_inj.mp (opOf.symm.trans eq), join, right, rfl⟩

theorem commutedTerm_derived (opOf : pTerm.pExpr.op? = some (.compare c))
    (right : Expr.isColumn (sqlite3ExprSkipCollate pTerm.pExpr.pRight) = true)
    (equivOk : EquivOk pTerm.pExpr pTerm.fromJoin equiv) :
    Derived pSchema pTerm (commutedTerm pSchema masks equiv pTerm) := by
  have found : ∃ d pLeft pRight pList, pTerm.pExpr = .node d pLeft pRight pList ∧
      d.op = .compare c := by
    cases expr : pTerm.pExpr with
    | null => simp [expr, Expr.op?] at opOf
    | node d pLeft pRight pList =>
      rw [expr, Expr.op?, some_inj] at opOf
      exact ⟨d, pLeft, pRight, pList, rfl, opOf⟩
  obtain ⟨d, pLeft, pRight, pList, expr, op⟩ := found
  have opD : (exprCommute pSchema pTerm.pExpr).op? = some (.compare (commuted c)) := by
    rw [expr]
    exact op_commute op pLeft pRight pList
  have leftD : Expr.isColumn (sqlite3ExprSkipCollate (exprCommute pSchema pTerm.pExpr).pLeft) =
      true := by
    rw [expr] at right
    rwa [expr, isColumn_left_commute]
  refine ⟨.inr ⟨rfl, c, opOf⟩, rfl, .inr ⟨leftD, rfl, rfl, _, masks.opMask, opD, ?_⟩⟩
  dsimp only [commutedTerm]
  rw [opD]
  rcases equivOk with rfl | ⟨rfl, eq, join, left, -⟩
  · exact .inl (by simp)
  · have isEq : c = .eq := by
      rw [opOf, some_inj] at eq
      exact Op.compare.inj eq
    refine .inr ⟨by rw [isEq]; rfl, join, ?_, equiv_and_opMask _ _⟩
    rw [expr] at left
    rwa [expr, isColumn_right_commute]

theorem analyzed_derived (shaped : pTerm.pExpr.shaped = true) :
    Derived pSchema pTerm (analyzed pMaskSet pSchema pTerm).1 ∧
      ∀ copy, (analyzed pMaskSet pSchema pTerm).2 = some copy → Derived pSchema pTerm copy := by
  have plain (masks : Prereqs) : Derived pSchema pTerm (plainTerm masks pTerm) :=
    ⟨.inl rfl, rfl, .inl rfl⟩
  rw [analyzed]
  cases opOf : pTerm.pExpr.op? with
  | none => exact ⟨plain _, fun copy none => absurd none (by simp)⟩
  | some op =>
    dsimp only
    split
    · exact ⟨plain _, fun copy none => absurd none (by simp)⟩
    rename_i allowed
    split
    · refine ⟨?_, fun copy none => absurd none (by simp)⟩
      split
      · rename_i left
        exact leftTerm_derived opOf left (.inl rfl)
      · exact plain _
    rename_i right
    rw [Bool.not_eq_false] at allowed right
    have isCompare : ∃ c, op = .compare c := by
      cases expr : pTerm.pExpr with
      | null => simp [expr, Expr.op?] at opOf
      | node d pLeft pRight pList =>
        rw [expr] at shaped right opOf
        obtain rfl : d.op = op := some_inj.mp opOf
        exact op_compare_of_right shaped allowed right
    obtain ⟨c, rfl⟩ := isCompare
    split
    · rename_i left
      have equivOk : EquivOk pTerm.pExpr pTerm.fromJoin
          (if Op.compare c = .compare .eq ∧ pTerm.fromJoin = false then woEquiv else 0) := by
        split
        · rename_i eq
          exact .inr ⟨rfl, opOf.trans (by rw [eq.1]), eq.2, left.1, right⟩
        · exact .inl rfl
      refine ⟨?_, fun copy found => ?_⟩
      · have first : Derived pSchema pTerm (leftTerm (prereqs pMaskSet pTerm) _ _ pTerm) :=
          leftTerm_derived opOf left.1 equivOk
        exact ⟨first.pExpr, first.fromJoin, first.onLeft⟩
      · obtain rfl := some_inj.mp found
        have second : Derived pSchema pTerm
            (commutedTerm pSchema (prereqs pMaskSet pTerm) _ pTerm) :=
          commutedTerm_derived opOf right equivOk
        exact ⟨second.pExpr, second.fromJoin, second.onLeft⟩
    · exact ⟨commutedTerm_derived opOf right (.inl rfl), fun copy none => absurd none (by simp)⟩

/-- The commuted copies of the terms from number `k` on, in the order in which they are added. -/
def copies (pMaskSet : WhereMaskSet) (pSchema : Schema) : Nat → List WhereTerm → List WhereTerm
  | _, [] => []
  | k, pTerm :: rest =>
    copies pMaskSet pSchema (k + 1) rest ++
      ((analyzed pMaskSet pSchema pTerm).2.map fun copy => { copy with iParent := some k }).toList

theorem exprAnalyze_at (before after : List WhereTerm) (pTerm : WhereTerm) :
    exprAnalyze pMaskSet pSchema (before ++ pTerm :: after) before.length =
      before ++ (analyzed pMaskSet pSchema pTerm).1 :: after ++
        ((analyzed pMaskSet pSchema pTerm).2.map fun copy =>
          { copy with iParent := some before.length }).toList := by
  rw [exprAnalyze, getElem?_append_right le_rfl, Nat.sub_self, getElem?_cons_zero]
  dsimp only
  obtain ⟨term, copy⟩ := analyzed pMaskSet pSchema pTerm
  cases copy <;> simp

theorem exprAnalyze_range (before rest : List WhereTerm) :
    (List.range' before.length rest.length).reverse.foldl (exprAnalyze pMaskSet pSchema)
        (before ++ rest) =
      before ++ rest.map (fun pTerm => (analyzed pMaskSet pSchema pTerm).1) ++
        copies pMaskSet pSchema before.length rest := by
  induction rest generalizing before with
  | nil => simp [copies]
  | cons pTerm rest ih =>
    have later := ih (before ++ [pTerm])
    rw [length_append, length_singleton, append_assoc, singleton_append]
      at later
    rw [length_cons, range'_succ, reverse_cons, foldl_append, later, foldl_cons, foldl_nil,
      append_assoc, append_assoc, singleton_append, exprAnalyze_at, copies, map_cons]
    simp

theorem exprAnalyzeAll_eq (a : List WhereTerm) : exprAnalyzeAll pMaskSet pSchema a =
      a.map (fun pTerm => (analyzed pMaskSet pSchema pTerm).1) ++ copies pMaskSet pSchema 0 a := by
  have all := @exprAnalyze_range pMaskSet pSchema [] a
  simpa [exprAnalyzeAll, range_eq_range'] using all

theorem mem_copies {k : Nat} {a : List WhereTerm} {term : WhereTerm} :
    term ∈ copies pMaskSet pSchema k a ↔
      ∃ i pTerm copy, a[i]? = some pTerm ∧ (analyzed pMaskSet pSchema pTerm).2 = some copy ∧
        term = { copy with iParent := some (k + i) } := by
  induction a generalizing k with
  | nil => simp [copies]
  | cons first rest ih =>
    rw [copies, mem_append, ih, mem_toList, map_eq_some_iff]
    constructor
    · rintro (⟨i, pTerm, copy, found, second, rfl⟩ | ⟨copy, second, rfl⟩)
      · refine ⟨i + 1, pTerm, copy, found, second, ?_⟩
        rw [Nat.add_right_comm, Nat.add_assoc]
      · exact ⟨0, first, copy, rfl, second, rfl⟩
    · rintro ⟨i, pTerm, copy, found, second, rfl⟩
      cases i with
      | zero =>
        obtain rfl := some_inj.mp found
        exact .inr ⟨copy, second, rfl⟩
      | succ i =>
        refine .inl ⟨i, pTerm, copy, found, second, ?_⟩
        rw [Nat.add_right_comm, Nat.add_assoc]

end

end SeSqlite.Where
