/- source: src/where.c, src/expr.c
   digest: A term on a column that a chain of equalities leads to, as a term on the first column of
   the chain: when the affinities and the collating sequences allow it. -/
import SeSqlite.Where.Scan

set_option autoImplicit false
set_option relaxedAutoImplicit false

namespace SeSqlite.Where

open Expression List Option

section

variable {R : Type} [LinearOrder R] {env : Env R} {pExpr : Expr} {op : Op} {c : Comparison}

/-- What the left operand is compared with: the right operand, or the list of an IN. -/
def rightValues (env : Env R) (pExpr : Expr) : List (Value R) :=
  match pExpr.op? with
  | some .inList => (sqlite3ExprCodeExprList env pExpr.pList).map fun e => e.2.target
  | _ => [(sqlite3ExprCode env pExpr.pRight).target]

def comparisonOf : Op → Option Comparison
  | .compare c => some c
  | .inList => some .eq
  | _ => none

def withLeft (pX : Expr) : Expr → Expr
  | .null => .null
  | .node d _ pRight pList => .node d pX pRight pList

theorem codeCompare_iff (pLeft pRight : Expr) (r1 r2 : Value R) :
    codeCompare env c pLeft pRight r1 r2 = some true ↔
      r1 ≠ .null ∧ r2 ≠ .null ∧ c.holds (compareRegisters env pLeft pRight r1 r2) = true := by
  rw [codeCompare]
  split
  · rename_i null
    simp only [reduceCtorEq, false_iff, not_and]
    intro left right
    rcases null with h | h
    · exact absurd h left
    · exact absurd h right
  · rename_i values
    rw [not_or] at values
    simp [values]

theorem isTrue_term (opOf : pExpr.op? = some op) (comparison : comparisonOf op = some c)
    (list : op = .inList → pExpr.pRight = .null) :
    IsTrue env pExpr ↔ (sqlite3ExprCode env pExpr.pLeft).target ≠ .null ∧
      ∃ r2 ∈ rightValues env pExpr, r2 ≠ .null ∧
        c.holds (compareRegisters env pExpr.pLeft pExpr.pRight
          (sqlite3ExprCode env pExpr.pLeft).target r2) = true := by
  cases pExpr with
  | null => simp [Expr.op?] at opOf
  | node d pLeft pRight pList =>
    rw [Expr.op?, some_inj] at opOf
    cases op with
    | compare c' =>
      obtain rfl : c' = c := some_inj.mp comparison
      have coded : sqlite3ExprCode env (.node d pLeft pRight pList) =
          Coded.test (codeCompare env c' pLeft pRight (sqlite3ExprCode env pLeft).target
            (sqlite3ExprCode env pRight).target) := by
        rw [sqlite3ExprCode, codeNode, opOf]
      rw [isTrue_test coded, codeCompare_iff]
      simp [rightValues, Expr.op?, opOf, Expr.pLeft, Expr.pRight]
    | inList =>
      obtain rfl : Comparison.eq = c := some_inj.mp comparison
      have coded : sqlite3ExprCode env (.node d pLeft pRight pList) =
          Coded.test (sqlite3ExprCodeIN env pLeft (sqlite3ExprCode env pLeft).target
            ((sqlite3ExprCodeExprList env pList).map fun e => e.2.target)) := by
        rw [sqlite3ExprCode, codeNode, opOf]
      have none : pRight = .null := list rfl
      rw [isTrue_test coded, codeIN_iff]
      have affinity : binaryCompareP5 env.db env.pSchema pLeft .null =
          (sqlite3ExprAffinity env.db env.pSchema pLeft).getD .none := by
        rw [binaryCompareP5]
        cases sqlite3ExprAffinity env.db env.pSchema pLeft <;> rfl
      have coll : sqlite3BinaryCompareCollSeq env.pSchema pLeft .null =
          sqlite3ExprCollSeq env.pSchema pLeft := by
        simp [sqlite3BinaryCompareCollSeq, Expr.collate, sqlite3ExprCollSeq]
      simp [rightValues, Expr.op?, opOf, Expr.pLeft, Expr.pRight, Expr.pList, none,
        compareRegisters, affinity, coll, Comparison.holds]
    | _ => simp [comparisonOf] at comparison

theorem rightValues_withLeft (env : Env R) (pX pExpr : Expr) :
    rightValues env (withLeft pX pExpr) = rightValues env pExpr := by
  cases pExpr <;> rfl

theorem op_withLeft (pX pExpr : Expr) : (withLeft pX pExpr).op? = pExpr.op? := by
  cases pExpr <;> rfl

theorem pRight_withLeft (pX pExpr : Expr) : (withLeft pX pExpr).pRight = pExpr.pRight := by
  cases pExpr <;> rfl

theorem pLeft_withLeft (pX : Expr) {pExpr : Expr} (opOf : pExpr.op? = some op) :
    (withLeft pX pExpr).pLeft = pX := by
  cases pExpr with
  | null => simp [Expr.op?] at opOf
  | node => rfl

theorem isTrue_isNull (opOf : pExpr.op? = some .isNull) :
    IsTrue env pExpr ↔ (sqlite3ExprCode env pExpr.pLeft).target = .null := by
  cases pExpr with
  | null => simp [Expr.op?] at opOf
  | node d pLeft pRight pList =>
    rw [Expr.op?, some_inj] at opOf
    have coded : sqlite3ExprCode env (.node d pLeft pRight pList) =
        Coded.test (some ((sqlite3ExprCode env pLeft).target = .null)) := by
      rw [sqlite3ExprCode, codeNode, opOf]
    rw [isTrue_test coded]
    simp [Expr.pLeft]

end

section

variable {R : Type} {db : Engine R} {pSchema : Schema} {term pTerm : WhereTerm} {pX : Expr}

/-- The column with the collating sequence of the index for which it is looked up, or else with its
own. -/
def requestedColumn (zCollName : Option String) (iCur iColumn : Int) : Expr :=
  match zCollName with
  | some zToken => collateExpr zToken (columnExpr iCur iColumn)
  | none => setCollate true (columnExpr iCur iColumn)

theorem requestedColumn_onColumn (zCollName : Option String) (iCur iColumn : Int) :
    OnColumn (requestedColumn zCollName iCur iColumn) iCur iColumn := by
  cases zCollName <;> exact ⟨rfl, rfl, rfl⟩

theorem operatorMask_and_equiv (op : Op) (opMask : WO) :
    operatorMask op &&& opMask &&& woEquiv = 0 := by
  have none : operatorMask op &&& woEquiv = 0 := by
    cases op with
    | compare c => cases c <;> rfl
    | isNull => rfl
    | inList => rfl
    | _ => exact BitVec.zero_and
  rw [BitVec.and_assoc, BitVec.and_comm opMask, ← BitVec.and_assoc, none]
  exact BitVec.zero_and

theorem eOperator_ne_zero {mask : WO} (hit : term.eOperator &&& mask ≠ 0) : term.eOperator ≠ 0 := by
  intro zero
  rw [zero] at hit
  exact hit BitVec.zero_and

theorem Derived.equiv (derived : Derived pSchema pTerm term)
    (equiv : term.eOperator &&& woEquiv ≠ 0) :
    term.pExpr.op? = some (.compare .eq) ∧ term.fromJoin = false ∧
      OnColumn term.pExpr.pLeft term.leftCursor term.leftColumn ∧
      OnColumn term.pExpr.pRight (rightColumn term).1 (rightColumn term).2 := by
  have used := eOperator_ne_zero equiv
  rcases derived.onLeft with zero | ⟨-, -, -, op, opMask, opOf, plain | ⟨rfl, outside, right, -⟩⟩
  · exact absurd zero used
  · exact absurd (by rw [plain, operatorMask_and_equiv]) equiv
  · exact ⟨opOf, outside, derived.onColumn used, right, rfl, rfl⟩

theorem Derived.searched (derived : Derived pSchema pTerm term) (used : term.eOperator ≠ 0) :
    term.pExpr.op? = some .isNull ∨
      ∃ op c, term.pExpr.op? = some op ∧ comparisonOf op = some c ∧
        term.eOperator &&& woIsNull = 0 := by
  have noNull (op : Op) (opMask : WO) (other : operatorMask op &&& woIsNull = 0) :
      operatorMask op &&& opMask &&& woIsNull = 0 := by
    rw [BitVec.and_assoc, BitVec.and_comm opMask, ← BitVec.and_assoc, other]
    exact BitVec.zero_and
  rcases derived.onLeft with zero | ⟨-, -, -, op, opMask, opOf, plain | ⟨rfl, -, -, both⟩⟩
  · exact absurd zero used
  · rw [plain] at used ⊢
    cases op with
    | isNull => exact .inl opOf
    | inList => exact .inr ⟨_, .eq, opOf, rfl, noNull _ _ rfl⟩
    | compare c => exact .inr ⟨_, c, opOf, rfl, noNull _ _ (by cases c <;> rfl)⟩
    | _ => exact absurd (BitVec.zero_and) used
  · refine .inr ⟨_, .eq, opOf, rfl, ?_⟩
    rw [both, BitVec.and_or_distrib_right, noNull _ _ rfl]
    rfl

theorem comparisonAffinity_eq (pExpr : Expr) : comparisonAffinity db pSchema pExpr =
      binaryCompareP5 db pSchema pExpr.pLeft pExpr.pRight := by
  rw [comparisonAffinity, binaryCompareP5, compareAffinity_comm]
  cases pExpr.pRight with
  | null => cases sqlite3ExprAffinity db pSchema pExpr.pLeft <;> rfl
  | node => rfl

theorem applyAffinity_indexOk [LinearOrder R] {pExpr : Expr} {affY affX : Affinity}
    (left : sqlite3ExprAffinity db pSchema pExpr.pLeft = some affY)
    (isX : sqlite3ExprAffinity db pSchema pX = some affX)
    (indexOk : sqlite3IndexAffinityOk db pSchema pExpr affX = true)
    (converts : binaryCompareP5 db pSchema pExpr.pLeft pExpr.pRight ≠ .none) :
    applyAffinity db (binaryCompareP5 db pSchema pExpr.pLeft pExpr.pRight) =
      applyAffinity db (binaryCompareP5 db pSchema pX pExpr.pRight) := by
  rw [sqlite3IndexAffinityOk, comparisonAffinity_eq] at indexOk
  simp only [binaryCompareP5, left, isX] at indexOk converts ⊢
  generalize sqlite3ExprAffinity db pSchema pExpr.pRight = affE at indexOk converts ⊢
  rcases affE with _ | affE
  · cases affY <;> cases affX <;>
      first | rfl | exact absurd rfl converts | cases indexOk
  · cases affY <;> cases affE <;> cases affX <;>
      first | rfl | exact absurd rfl converts | cases indexOk

variable [LinearOrder R] {env : Env R} {terms links : List WhereTerm}
variable {first last : Int × Int} {pX : Expr} {term : WhereTerm}

/-- The values on the two sides of some terms. -/
def sideValues (env : Env R) (links : List WhereTerm) : List (Value R) :=
  links.flatMap fun link =>
    [(sqlite3ExprCode env link.pExpr.pLeft).target, (sqlite3ExprCode env link.pExpr.pRight).target]

/-- What the scanner does not look at, for the expression that it is asked for, the links of a chain
and the term at its end. -/
structure Compatible (env : Env R) (checked : Prop) (pX : Expr) (links : List WhereTerm)
    (term : WhereTerm) : Prop where
  /-- A link converts its values as the comparison with the end of the chain does. -/
  conversions : ∀ link ∈ links, ∀ v ∈ sideValues env [link],
    applyAffinity env.db (binaryCompareP5 env.db env.pSchema link.pExpr.pLeft link.pExpr.pRight) v =
      applyAffinity env.db (binaryCompareP5 env.db env.pSchema pX term.pExpr.pRight) v
  /-- Texts that are equal for a link are equal for the index. -/
  collations : ∀ link ∈ links,
    Finer (sqlite3BinaryCompareCollSeq env.pSchema link.pExpr.pLeft link.pExpr.pRight)
      (sqlite3BinaryCompareCollSeq env.pSchema pX term.pExpr.pRight)
  /-- No real number among the values is equal to two of the integers. -/
  numbers : ∀ v ∈ rightValues env term.pExpr, Distinguished env.db
    (((sqlite3ExprCode env pX).target :: v :: sideValues env links).map
      (applyAffinity env.db (binaryCompareP5 env.db env.pSchema pX term.pExpr.pRight)))
  /-- The term at the end, where it does without an affinity or nothing is checked. -/
  operands : ¬ checked ∨
      binaryCompareP5 env.db env.pSchema term.pExpr.pLeft term.pExpr.pRight = .none →
    ∀ v ∈ (sqlite3ExprCode env term.pExpr.pLeft).target :: rightValues env term.pExpr,
      applyAffinity env.db
          (binaryCompareP5 env.db env.pSchema term.pExpr.pLeft term.pExpr.pRight) v =
        applyAffinity env.db (binaryCompareP5 env.db env.pSchema pX term.pExpr.pRight) v
  collation : ¬ checked →
    (sqlite3BinaryCompareCollSeq env.pSchema term.pExpr.pLeft term.pExpr.pRight).getD binaryColl =
      (sqlite3BinaryCompareCollSeq env.pSchema pX term.pExpr.pRight).getD binaryColl

/-- A link that is known to hold. -/
structure Linked (env : Env R) (link : WhereTerm) : Prop where
  op : link.pExpr.op? = some (.compare .eq)
  left : OnColumn link.pExpr.pLeft link.leftCursor link.leftColumn
  right : OnColumn link.pExpr.pRight (rightColumn link).1 (rightColumn link).2
  holds : IsTrue env link.pExpr

def valueAt (env : Env R) (column : Int × Int) : Value R :=
  env.row (env.pSchema.cursor column.1) column.2

theorem valueAt_mem (chain : Chain terms first links last)
    (linked : ∀ link ∈ links, Linked env link) :
    valueAt env last ∈ valueAt env first :: sideValues env links := by
  cases chain with
  | here => exact mem_cons_self
  | link before member equiv left =>
    rename_i pTerm
    have target : (sqlite3ExprCode env pTerm.pExpr.pRight).target =
        valueAt env (rightColumn pTerm) := (linked pTerm (by simp)).right.target
    refine mem_cons_of_mem _ (mem_flatMap.mpr ⟨pTerm, by simp, ?_⟩)
    rw [← target]
    simp

/-- Along a chain the values are equal, if each link converts by `f` and is no coarser than the
collating sequence. -/
theorem chain_equal (ordered : env.db.Ordered) {affinity : Affinity} {pColl : Option CollSeq}
    (chain : Chain terms first links last) (linked : ∀ link ∈ links, Linked env link)
    (conversions : ∀ link ∈ links, ∀ v ∈ sideValues env [link],
      applyAffinity env.db
          (binaryCompareP5 env.db env.pSchema link.pExpr.pLeft link.pExpr.pRight) v =
        applyAffinity env.db affinity v) (collations : ∀ link ∈ links,
      Finer (sqlite3BinaryCompareCollSeq env.pSchema link.pExpr.pLeft link.pExpr.pRight) pColl)
    (numbers : Distinguished env.db
      ((valueAt env first :: sideValues env links).map (applyAffinity env.db affinity))) :
    sqlite3MemCompare env.db pColl (applyAffinity env.db affinity (valueAt env last))
        (applyAffinity env.db affinity (valueAt env first)) = .eq ∧
      (links ≠ [] → valueAt env first ≠ .null ∧ valueAt env last ≠ .null) := by
  induction chain with
  | here => exact ⟨memCompare_self ordered _ _, fun more => absurd rfl more⟩
  | @link links last pTerm before member equiv left ih =>
    have isLink : Linked env pTerm := linked pTerm (by simp)
    have earlier : ∀ link ∈ links, link ∈ links ++ [pTerm] := fun link inside =>
      mem_append_left _ inside
    have fewer : ∀ v ∈ valueAt env first :: sideValues env links,
        v ∈ valueAt env first :: sideValues env (links ++ [pTerm]) := by
      intro v inside
      rw [sideValues, flatMap_append]
      rcases mem_cons.mp inside with rfl | side
      · exact mem_cons_self
      · exact mem_cons_of_mem _ (mem_append_left _ side)
    obtain ⟨equal, values⟩ := ih (fun link inside => linked link (earlier link inside))
      (fun link inside => conversions link (earlier link inside))
      (fun link inside => collations link (earlier link inside))
      (numbers.mono fun v inside => by
        obtain ⟨w, known, rfl⟩ := mem_map.mp inside
        exact mem_map.mpr ⟨w, fewer w known, rfl⟩)
    have leftValue : (sqlite3ExprCode env pTerm.pExpr.pLeft).target = valueAt env last := by
      rw [isLink.left.target, valueAt, ← left]
    have rightValue : (sqlite3ExprCode env pTerm.pExpr.pRight).target =
        valueAt env (rightColumn pTerm) := isLink.right.target
    have holds := (isTrue_equality isLink.op).mp isLink.holds
    rw [codeCompare_iff, leftValue, rightValue, compareRegisters] at holds
    obtain ⟨notNull, notNull', same⟩ := holds
    have convert := conversions pTerm (by simp)
    rw [sideValues, flatMap_singleton, leftValue, rightValue] at convert
    rw [convert _ (by simp), convert _ (by simp)] at same
    have same' := of_decide_eq_true same
    have three : Distinguished env.db [applyAffinity env.db affinity (valueAt env last),
        applyAffinity env.db affinity (valueAt env (rightColumn pTerm)),
        applyAffinity env.db affinity (valueAt env first)] := by
      refine numbers.mono fun v inside => ?_
      have old := fewer _ (valueAt_mem before fun link inside => linked link (earlier link inside))
      have new := valueAt_mem (.link before member equiv left) linked
      simp only [mem_cons, not_mem_nil, or_false] at inside
      rcases inside with rfl | rfl | rfl
      · exact mem_map_of_mem old
      · exact mem_map_of_mem new
      · exact mem_map_of_mem mem_cons_self
    refine ⟨?_, fun _ => ⟨?_, notNull'⟩⟩
    · rw [← equal]
      exact (memCompare_congr ordered (collations pTerm (by simp)) three same').symm
    · by_cases none : links = []
      · rwa [before.eq_of_nil none] at notNull
      · exact (values none).1

variable {pMaskSet : WhereMaskSet}
variable {bases : List (List WhereTerm)} {iCur iColumn : Int} {opMask : WO}
variable {pIdx : Option Index} {links : List WhereTerm} {term : WhereTerm} {pSchema : Schema}

def Shaped (bases : List (List WhereTerm)) : Prop :=
  ∀ base ∈ bases, ∀ pTerm ∈ base, pTerm.pExpr.shaped = true

theorem derived_of_flatten (shaped : Shaped bases)
    (member : term ∈ (bases.map (exprAnalyzeAll pMaskSet pSchema)).flatten) :
    ∃ base ∈ bases, ∃ pTerm ∈ base, Derived pSchema pTerm term := by
  obtain ⟨clause, inside, found⟩ := mem_flatten.mp member
  obtain ⟨base, isBase, rfl⟩ := mem_map.mp inside
  obtain ⟨pTerm, known, derived⟩ := derived_of_mem (shaped base isBase) found
  exact ⟨base, isBase, pTerm, known, derived⟩

/-- A combination of rows that the terms of the WHERE clause let through. -/
def Passes (env : Env R) (bases : List (List WhereTerm)) : Prop :=
  ∀ base ∈ bases, ∀ pTerm ∈ base, pTerm.fromJoin = false → IsTrue env pTerm.pExpr

variable {first last : Int × Int} {v : Value R}

theorem linked_of_chain (lawful : env.db.Lawful) (shaped : Shaped bases) (passes : Passes env bases)
    (chain : Chain (bases.map (exprAnalyzeAll pMaskSet env.pSchema)).flatten first links last) :
    ∀ link ∈ links, Linked env link := by
  induction chain with
  | here => exact fun link inside => absurd inside not_mem_nil
  | link before member equiv left ih =>
    intro link inside
    rcases mem_append.mp inside with earlier | new
    · exact ih link earlier
    · obtain rfl := mem_singleton.mp new
      obtain ⟨base, isBase, pTerm, known, derived⟩ := derived_of_flatten shaped member
      obtain ⟨op, outside, onLeft, onRight⟩ := derived.equiv equiv
      refine ⟨op, onLeft, onRight, ?_⟩
      rw [IsTrue, derived.code lawful]
      exact passes base isBase pTerm known (derived.fromJoin.symm.trans outside)

theorem Derived.list {pTerm : WhereTerm} (derived : Derived pSchema pTerm term)
    (shaped : pTerm.pExpr.shaped = true) (op : term.pExpr.op? = some .inList) :
    term.pExpr.pRight = .null := by
  rcases derived.pExpr with same | ⟨commute, c, compare⟩
  · rw [same] at op ⊢
    cases expr : pTerm.pExpr with
    | null => rfl
    | node d pLeft pRight pList =>
      rw [expr, Expr.op?, some_inj] at op
      rw [expr] at shaped
      simp only [Expr.shaped, op, Op.hasRight] at shaped
      cases pRight with
      | null => rfl
      | node => simp [Expr.isNull] at shaped
  · cases expr : pTerm.pExpr with
    | null => simp [expr, Expr.op?] at compare
    | node d pLeft pRight pList =>
      rw [expr, Expr.op?, some_inj] at compare
      rw [commute, expr, op_commute compare] at op
      simp at op

theorem Returned.ends (ordered : env.db.Ordered) (shaped : Shaped bases) (passes : Passes env bases)
    {zCollName : Option String} {idxaff : Affinity} {checked : Prop}
    (returned : Returned env.db env.pSchema (bases.map (exprAnalyzeAll pMaskSet env.pSchema)) first
      opMask zCollName idxaff links term)
    (isX : (sqlite3ExprCode env pX).target = valueAt env first)
    (compatible : Compatible env checked pX links term) (operand : v ∈ rightValues env term.pExpr) :
    sqlite3MemCompare env.db (sqlite3BinaryCompareCollSeq env.pSchema pX term.pExpr.pRight)
        (applyAffinity env.db (binaryCompareP5 env.db env.pSchema pX term.pExpr.pRight)
          (valueAt env (term.leftCursor, term.leftColumn)))
        (applyAffinity env.db (binaryCompareP5 env.db env.pSchema pX term.pExpr.pRight)
          (valueAt env first)) = .eq ∧
      (valueAt env (term.leftCursor, term.leftColumn) = .null ↔ valueAt env first = .null) := by
  have linked := linked_of_chain ordered.toLawful shaped passes returned.chain
  have numbers := compatible.numbers v operand
  rw [isX] at numbers
  obtain ⟨equal, notNull⟩ := chain_equal ordered returned.chain linked compatible.conversions
    compatible.collations (numbers.mono fun w inside => by
      obtain ⟨u, known, rfl⟩ := mem_map.mp inside
      refine mem_map_of_mem ?_
      rcases mem_cons.mp known with rfl | side
      · exact mem_cons_self
      · exact mem_cons_of_mem _ (mem_cons_of_mem _ side))
  refine ⟨equal, ?_⟩
  by_cases none : links = []
  · rw [returned.chain.eq_of_nil none]
  · exact ⟨fun null => absurd null (notNull none).2, fun null => absurd null (notNull none).1⟩

theorem Returned.compare_eq (ordered : env.db.Ordered) {pWC : List (List WhereTerm)}
    (returned : Returned env.db env.pSchema pWC (iCur, iColumn) opMask (scanCollName iColumn pIdx)
      (env.pSchema.aCol (env.pSchema.cursor iCur) iColumn).affinity links term)
    (column : OnColumn term.pExpr.pLeft term.leftCursor term.leftColumn)
    (notIsNull : term.eOperator &&& woIsNull = 0)
    (compatible : Compatible env (scanCollName iColumn pIdx ≠ none)
      (requestedColumn (scanCollName iColumn pIdx) iCur iColumn) links term)
    (operand : v ∈ rightValues env term.pExpr) :
    compareRegisters env term.pExpr.pLeft term.pExpr.pRight
        (sqlite3ExprCode env term.pExpr.pLeft).target v =
      compareRegisters env (requestedColumn (scanCollName iColumn pIdx) iCur iColumn)
        term.pExpr.pRight (sqlite3ExprCode env term.pExpr.pLeft).target v := by
  have converts : ∀ w ∈ (sqlite3ExprCode env term.pExpr.pLeft).target ::
      rightValues env term.pExpr,
      applyAffinity env.db
          (binaryCompareP5 env.db env.pSchema term.pExpr.pLeft term.pExpr.pRight) w =
        applyAffinity env.db (binaryCompareP5 env.db env.pSchema
          (requestedColumn (scanCollName iColumn pIdx) iCur iColumn) term.pExpr.pRight) w := by
    by_cases unchecked : ¬ scanCollName iColumn pIdx ≠ none ∨
        binaryCompareP5 env.db env.pSchema term.pExpr.pLeft term.pExpr.pRight = .none
    · exact compatible.operands unchecked
    · rw [not_or, not_not] at unchecked
      have indexOk := returned.affinity unchecked.1 notIsNull
      have isColumn : ¬ iColumn < 0 := fun rowid => unchecked.1 (by rw [scanCollName, if_pos rowid])
      have xAffinity := @OnColumn.affinity R _ _ _ env.db env.pSchema
        (requestedColumn_onColumn (scanCollName iColumn pIdx) iCur iColumn)
      rw [affinityAt, if_neg isColumn] at xAffinity
      intro w _
      rw [applyAffinity_indexOk column.affinity xAffinity indexOk unchecked.2]
  have collation : (sqlite3BinaryCompareCollSeq env.pSchema term.pExpr.pLeft
      term.pExpr.pRight).getD binaryColl =
        (sqlite3BinaryCompareCollSeq env.pSchema
          (requestedColumn (scanCollName iColumn pIdx) iCur iColumn)
          term.pExpr.pRight).getD binaryColl := by
    cases name : scanCollName iColumn pIdx with
    | none => exact name ▸ compatible.collation fun index => index name
    | some z =>
      rw [returned.collation z name notIsNull]
      rfl
  rw [compareRegisters, compareRegisters, converts _ mem_cons_self,
    converts v (mem_cons_of_mem _ operand), memCompare_coll ordered collation]

theorem isTrue_withLeft (ordered : env.db.Ordered) (shaped : Shaped bases)
    (passes : Passes env bases)
    (returned : Returned env.db env.pSchema (bases.map (exprAnalyzeAll pMaskSet env.pSchema))
      (iCur, iColumn) opMask (scanCollName iColumn pIdx)
      (env.pSchema.aCol (env.pSchema.cursor iCur) iColumn).affinity links term)
    (onClause : term.fromJoin = true → IsTrue env term.pExpr)
    (compatible : Compatible env (scanCollName iColumn pIdx ≠ none)
      (requestedColumn (scanCollName iColumn pIdx) iCur iColumn) links term) :
    IsTrue env (withLeft (requestedColumn (scanCollName iColumn pIdx) iCur iColumn)
      term.pExpr) := by
  obtain ⟨base, isBase, pTerm, known, derived⟩ := derived_of_flatten shaped returned.member
  have used := eOperator_ne_zero returned.opMask
  have holds : IsTrue env term.pExpr := by
    cases join : term.fromJoin with
    | true => exact onClause join
    | false =>
      rw [IsTrue, derived.code ordered.toLawful]
      exact passes base isBase pTerm known (derived.fromJoin.symm.trans join)
  have column := derived.onColumn used
  have xColumn := requestedColumn_onColumn (scanCollName iColumn pIdx) iCur iColumn
  have valueX : (sqlite3ExprCode env
      (requestedColumn (scanCollName iColumn pIdx) iCur iColumn)).target =
        valueAt env (iCur, iColumn) := xColumn.target
  have valueY : (sqlite3ExprCode env term.pExpr.pLeft).target =
      valueAt env (term.leftCursor, term.leftColumn) := column.target
  rcases derived.searched used with isNull | ⟨op, c, opOf, comparison, notIsNull⟩
  · have null := (isTrue_isNull isNull).mp holds
    rw [isTrue_isNull (by rw [op_withLeft, isNull]), pLeft_withLeft _ isNull, valueX]
    have operand : (sqlite3ExprCode env term.pExpr.pRight).target ∈
        rightValues env term.pExpr := by
      rw [rightValues, isNull]
      exact mem_singleton_self _
    rw [valueY] at null
    exact (returned.ends ordered shaped passes valueX compatible operand).2.mp null
  · have list : op = .inList → term.pExpr.pRight = .null := by
      rintro rfl
      exact derived.list (shaped base isBase pTerm known) opOf
    rw [isTrue_term opOf comparison list, valueY] at holds
    obtain ⟨notNull, r2, member, notNull2, compares⟩ := holds
    obtain ⟨equal, nulls⟩ := returned.ends ordered shaped passes valueX compatible member
    rw [isTrue_term (by rw [op_withLeft, opOf]) comparison (by rwa [pRight_withLeft]),
      pLeft_withLeft _ opOf, pRight_withLeft, rightValues_withLeft, valueX]
    refine ⟨fun null => notNull (nulls.mpr null), r2, member, notNull2, ?_⟩
    have numbers := compatible.numbers r2 member
    rw [valueX] at numbers
    have linked := linked_of_chain ordered.toLawful shaped passes returned.chain
    have ends : valueAt env (term.leftCursor, term.leftColumn) ∈
        valueAt env (iCur, iColumn) :: r2 :: sideValues env links := by
      rcases mem_cons.mp (valueAt_mem returned.chain linked) with start | side
      · rw [start]
        exact mem_cons_self
      · exact mem_cons_of_mem _ (mem_cons_of_mem _ side)
    rw [← valueY, returned.compare_eq ordered column notIsNull compatible member, valueY,
      compareRegisters] at compares
    rw [memCompare_congr ordered (.inr rfl) (numbers.mono ?_) equal] at compares
    · exact compares
    · intro w inside
      simp only [mem_cons, not_mem_nil, or_false] at inside
      rcases inside with rfl | rfl | rfl
      · exact mem_map_of_mem ends
      · exact mem_map_of_mem mem_cons_self
      · exact mem_map_of_mem (mem_cons_of_mem _ mem_cons_self)

theorem plainEngine_ordered : plainEngine.Ordered where
  toLawful := plainEngine_lawful
  eq_trans := by
    intro pColl x y z first second
    dsimp only [plainEngine] at first second ⊢
    split at first
    · rw [if_pos ‹_›] at second ⊢
      rwa [memcmp_eq first]
    · rw [if_neg ‹_›] at second ⊢
      rwa [memcmp_eq first]
  lt_trans := by
    intro pColl x y z first second
    dsimp only [plainEngine] at first second ⊢
    split at first
    · rw [if_pos ‹_›] at second ⊢
      exact memcmp_lt_trans first second
    · rw [if_neg ‹_›] at second ⊢
      exact memcmp_lt_trans first second
  binary := by
    intro y z
    have other : binaryColl ≠ sqlite3FindCollSeq "NOCASE" := by decide
    dsimp only [plainEngine]
    rw [if_neg other]
  monotone := fun _ _ le => le

theorem Chain.mem {terms : List WhereTerm} {first : Int × Int}
    (chain : Chain terms first links last) : ∀ link ∈ links, link ∈ terms := by
  induction chain with
  | here => exact fun link inside => absurd inside not_mem_nil
  | link before member equiv left ih =>
    intro link inside
    rcases mem_append.mp inside with earlier | new
    · exact ih link earlier
    · rwa [mem_singleton.mp new]

omit [LinearOrder R] in
theorem distinguished_of_text {db : Engine R} {values : List (Value R)}
    (text : ∀ v ∈ values, Value.isNumber v = false) : Distinguished db values := by
  intro i j r member
  exact absurd (text _ member) (by simp [Value.isNumber])

theorem applyAffinity_plain_text (affinity : Affinity) (z : List UInt8) :
    applyAffinity plainEngine affinity (.text z) = .text z := by
  cases affinity <;> rfl

end

end SeSqlite.Where
