/- source: src/expr.c, src/where.c
   digest: The implication between predicates, and the partial indexes that a query may use by
   it. -/
import Mathlib.Data.Int.Order.Basic
import SeSqlite.Expression.Compare

set_option autoImplicit false
set_option relaxedAutoImplicit false

namespace SeSqlite.Expression

open List Expression.Expr Coded

def sqlite3ExprImpliesExpr (iTab : Int) (pE1 : Expr) : Expr → Bool
  | .null => sqlite3ExprCompare iTab pE1 .null = 0
  | .node d pLeft pRight pList =>
    sqlite3ExprCompare iTab pE1 (.node d pLeft pRight pList) = 0 ||
    d.op = .or && (sqlite3ExprImpliesExpr iTab pE1 pLeft ||
      sqlite3ExprImpliesExpr iTab pE1 pRight) ||
    d.op = .notNull && sqlite3ExprCompare iTab pE1.pLeft pLeft = 0 &&
      pE1.op? ≠ some .isNull && pE1.op? ≠ some .is

/-- A term of a WHERE clause. `EP_FromJoin` is on the terms of the ON clause of a LEFT JOIN, and
`iRightJoinTable` is the right table of that join. -/
structure WhereTerm where
  pExpr : Expr
  fromJoin : Bool
  iRightJoinTable : Int

def whereUsablePartialIndex (iTab : Int) (pWC : List WhereTerm) (pWhere : Expr) : Bool :=
  pWC.any fun pTerm => sqlite3ExprImpliesExpr iTab pTerm.pExpr pWhere

section

variable {iTab : Int}

/-- The predicate and, if it is an OR, its operands at every depth. -/
def orOperands : Expr → List Expr
  | .null => [.null]
  | .node d pLeft pRight pList =>
    .node d pLeft pRight pList ::
      if d.op = .or then orOperands pLeft ++ orOperands pRight else []

/-- The rule for `X NOT NULL`, where `X` is the left operand of the other predicate. -/
def NotNullRule (iTab : Int) (pE1 pE2 : Expr) : Prop :=
  pE2.op? = some .notNull ∧ sqlite3ExprCompare iTab pE1.pLeft pE2.pLeft = 0 ∧
    pE1.op? ≠ some .isNull ∧ pE1.op? ≠ some .is

theorem implies_iff (pE1 pE2 : Expr) : sqlite3ExprImpliesExpr iTab pE1 pE2 = true ↔
      ∃ pX ∈ orOperands pE2, sqlite3ExprCompare iTab pE1 pX = 0 ∨ NotNullRule iTab pE1 pX := by
  induction pE2 using sqlite3ExprImpliesExpr.induct with
  | case1 => simp [sqlite3ExprImpliesExpr, orOperands, NotNullRule, op?]
  | case2 d pLeft pRight pList left right =>
    have rule : NotNullRule iTab pE1 (.node d pLeft pRight pList) ↔
        ((d.op = .notNull ∧ sqlite3ExprCompare iTab pE1.pLeft pLeft = 0) ∧
          pE1.op? ≠ some .isNull) ∧ pE1.op? ≠ some .is := by
      simp [NotNullRule, Expr.op?, Expr.pLeft, and_assoc]
    rw [sqlite3ExprImpliesExpr, orOperands]
    simp only [Bool.or_eq_true, Bool.and_eq_true, decide_eq_true_eq, left, right,
      exists_mem_cons_iff, rule]
    by_cases or : d.op = .or
    · simp only [or, if_true, mem_append, or_and_right, exists_or]
      simp
    · simp [or]

variable {R : Type} [LinearOrder R] {env : Env R}

/-- The two ways to code a condition agree: one jumps where the other falls through. -/
def Coded.Coherent (coded : Coded R) : Prop :=
  ∀ jumpIfNull, coded.ifTrue jumpIfNull = !coded.ifFalse (!jumpIfNull)

omit [LinearOrder R] in
theorem coherent_test (outcome : Option Bool) : (test outcome : Coded R).Coherent := by
  intro jumpIfNull
  cases outcome <;> simp [test]

theorem coherent_value (db : Engine R) (target : Value R) : (value db target).Coherent := by
  intro jumpIfNull
  cases h : condition db target <;> simp [value, h]

theorem coherent_between (pLeft : Expr) (r1 : Value R) (list : List (Expr × Coded R)) :
    (exprCodeBetween env pLeft r1 list).Coherent := by
  match list with
  | [] => exact coherent_value _ _
  | [_] => exact coherent_value _ _
  | low :: high :: _ =>
    intro jumpIfNull
    have le := coherent_test (R := R)
      (codeCompare env .le (exprToRegister pLeft) high.1 r1 high.2.target) jumpIfNull
    simp [exprCodeBetween, le]

theorem coherent_code : ∀ {pExpr : Expr}, pExpr.shaped = true → pExpr.isNull = false →
    (sqlite3ExprCode env pExpr).Coherent
  | .null, _, real => by simp [Expr.isNull] at real
  | .node d pLeft pRight pList, shaped, _ => by
    simp only [Expr.shaped, Bool.and_eq_true, decide_eq_true_eq, Bool.or_eq_true,
      beq_iff_eq] at shaped
    obtain ⟨⟨⟨⟨⟨-, hasLeft⟩, hasRight⟩, shapedL⟩, shapedR⟩, -⟩ := shaped
    rw [sqlite3ExprCode, codeNode]
    cases op : d.op with
    | and =>
      have right := coherent_code shapedR (by simpa [op, Op.hasRight] using hasRight)
      intro jumpIfNull
      simp only [right jumpIfNull, Bool.not_or]
    | or =>
      have right := coherent_code shapedR (by simpa [op, Op.hasRight] using hasRight)
      intro jumpIfNull
      simp only [right jumpIfNull, Bool.not_and, Bool.not_not]
    | not =>
      have left := coherent_code shapedL (by simpa [op, Op.hasLeft] using hasLeft)
      intro jumpIfNull
      simp only [left (!jumpIfNull), Bool.not_not]
    | between => exact coherent_between _ _ _
    | isNull | notNull | compare | is | isNot | inList => exact coherent_test _
    | _ => exact coherent_value _ _

variable {d : Node} {pLeft pRight : Expr} {pList : ExprList}

section

variable (shaped : (node d pLeft pRight pList).shaped = true)

include shaped

theorem shaped_left : pLeft.shaped = true := by
  simp only [Expr.shaped, Bool.and_eq_true] at shaped
  exact shaped.1.1.2

theorem shaped_right : pRight.shaped = true := by
  simp only [Expr.shaped, Bool.and_eq_true] at shaped
  exact shaped.1.2

theorem isNull_left (base : d.op ≠ .case) : pLeft.isNull = !d.op.hasLeft := by
  simp only [Expr.shaped, Bool.and_eq_true, Bool.or_eq_true, decide_eq_true_eq, beq_iff_eq,
    base, false_or] at shaped
  exact shaped.1.1.1.1.2

omit shaped in
theorem isTrue_and (op : d.op = .and) :
    IsTrue env (.node d pLeft pRight pList) ↔ IsTrue env pLeft ∧ IsTrue env pRight := by
  simp [IsTrue, sqlite3ExprCode, codeNode, op, Bool.or_eq_false_iff]

theorem isTrue_or (op : d.op = .or) :
    IsTrue env (.node d pLeft pRight pList) ↔ IsTrue env pLeft ∨ IsTrue env pRight := by
  have left : (sqlite3ExprCode env pLeft).Coherent := by
    refine coherent_code (shaped_left shaped) ?_
    rw [isNull_left shaped (by simp [op]), op]
    rfl
  simp only [IsTrue, sqlite3ExprCode, codeNode, op, Bool.not_true, left false, Bool.not_not,
    Bool.not_false, Bool.and_eq_false_iff]

end

theorem isTrue_not (op : d.op = .not) : IsTrue env (.node d pLeft pRight pList) ↔
      (sqlite3ExprCode env pLeft).ifTrue true = false := by
  simp [IsTrue, sqlite3ExprCode, codeNode, op]

theorem isTrue_test {outcome : Option Bool}
    (coded : sqlite3ExprCode env (.node d pLeft pRight pList) = test outcome) :
    IsTrue env (.node d pLeft pRight pList) ↔ outcome = some true := by
  rw [IsTrue, coded]
  cases outcome with
  | none => simp [test]
  | some b => cases b <;> simp [test]

theorem isTrue_value {v : Value R}
    (coded : sqlite3ExprCode env (.node d pLeft pRight pList) = value env.db v) :
    IsTrue env (.node d pLeft pRight pList) ↔ condition env.db v = some true := by
  rw [IsTrue, coded]
  cases h : condition env.db v with
  | none => simp [value, h]
  | some b => cases b <;> simp [value, h]

theorem isTrue_notNull (op : d.op = .notNull) :
    IsTrue env (.node d pLeft pRight pList) ↔ (sqlite3ExprCode env pLeft).target ≠ .null := by
  have coded : sqlite3ExprCode env (.node d pLeft pRight pList) =
      test (some ((sqlite3ExprCode env pLeft).target ≠ .null)) := by
    simp [sqlite3ExprCode, codeNode, op]
  rw [isTrue_test coded]
  simp

theorem isTrue_of_operand : ∀ {pE2 pX : Expr}, pE2.shaped = true → pX ∈ orOperands pE2 →
    IsTrue env pX → IsTrue env pE2
  | .null, pX, _, member, holds => by
    rw [orOperands, mem_singleton] at member
    rwa [← member]
  | .node d pLeft pRight pList, pX, shaped, member, holds => by
    rw [orOperands, mem_cons] at member
    rcases member with rfl | inside
    · exact holds
    · split at inside
      · rename_i op
        rw [isTrue_or shaped op]
        rcases mem_append.mp inside with left | right
        · exact .inl (isTrue_of_operand (shaped_left shaped) left holds)
        · exact .inr (isTrue_of_operand (shaped_right shaped) right holds)
      · exact absurd inside not_mem_nil

variable (env : Env R)

def codeElse : List (Coded R) → Value R
  | [] => .null
  | [otherwise] => otherwise.target
  | _ :: _ :: rest => codeElse rest

/-- The left operand is NULL and the predicate is true all the same. -/
def TrueOnNull : Expr → Prop
  | .null => False
  | .node d pLeft pRight pList =>
    (sqlite3ExprCode env pLeft).target = .null ∧
    match d.op with
    | .isNot => (sqlite3ExprCode env pRight).target ≠ .null
    | .or => IsTrue env pLeft ∨ IsTrue env pRight
    | .and => IsTrue env pLeft ∧ IsTrue env pRight
    | .not => (sqlite3ExprCode env pLeft).ifTrue true = false
    | .case =>
      condition env.db (codeElse ((sqlite3ExprCodeExprList env pList).map Prod.snd)) = some true
    | _ => False

variable {env} {d : Node} {pLeft pRight : Expr} {pList : ExprList}

theorem codeBaseWhen_null (pX : Expr) (list : List (Expr × Coded R)) :
    codeBaseWhen env pX .null list = codeElse (list.map Prod.snd) := by
  fun_induction codeBaseWhen env pX .null list with
  | case1 => rfl
  | case2 otherwise => rfl
  | case3 test result rest found => simp [codeCompare] at found
  | case4 test result rest other ih => simp [codeElse, ih]

theorem not_isTrue_value_null
    (coded : sqlite3ExprCode env (.node d pLeft pRight pList) = value env.db .null) :
    ¬ IsTrue env (.node d pLeft pRight pList) := by
  rw [isTrue_value coded]
  simp [condition]

theorem not_isTrue_between (op : d.op = .between)
    (null : (sqlite3ExprCode env pLeft).target = .null) :
    ¬ IsTrue env (.node d pLeft pRight pList) := by
  rw [IsTrue, sqlite3ExprCode, codeNode, op, null]
  generalize sqlite3ExprCodeExprList env pList = list
  cases list with
  | nil => simp [exprCodeBetween, value, condition]
  | cons low rest =>
    cases rest with
    | nil => simp [exprCodeBetween, value, condition]
    | cons high rest => simp [exprCodeBetween, codeCompare, test]

theorem codeNegative_null {pExpr : Expr} (null : (sqlite3ExprCode env pExpr).target = .null) :
    codeNegative env pExpr = none := by
  cases pExpr with
  | null => rfl
  | node d pLeft pRight pList =>
    rw [codeNegative, op?]
    rw [sqlite3ExprCode, codeNode] at null
    cases op : d.op with
    | intValue i => simp [op, value] at null
    | float z => simp [op, value, codeReal] at null
    | integer z =>
      simp only [op, value, codeInteger] at null
      split at null
      · simp at null
      · simp [codeReal] at null
    | _ => rfl

theorem isTrue_iff_trueOnNull (shaped : (node d pLeft pRight pList).shaped = true)
    (has : pLeft.isNull = false) (not_isNull : d.op ≠ .isNull) (not_is : d.op ≠ .is)
    (null : (sqlite3ExprCode env pLeft).target = .null) :
    IsTrue env (.node d pLeft pRight pList) ↔ TrueOnNull env (.node d pLeft pRight pList) := by
  rw [TrueOnNull]
  cases op : d.op with
  | isNull => exact absurd op not_isNull
  | is => exact absurd op not_is
  | and => simp [isTrue_and op, null]
  | or => simp [isTrue_or shaped op, null]
  | not => simp [isTrue_not op, null]
  | notNull => simp [isTrue_notNull op, null]
  | isNot =>
    rw [isTrue_test (by rw [sqlite3ExprCode, codeNode, op])]
    simp [codeCompareNullEq, null]
  | compare c =>
    rw [isTrue_test (by rw [sqlite3ExprCode, codeNode, op])]
    simp [codeCompare, null]
  | inList =>
    rw [isTrue_test (by rw [sqlite3ExprCode, codeNode, op])]
    simp only [sqlite3ExprCodeIN]
    split <;> simp
  | case =>
    rw [isTrue_value (by rw [sqlite3ExprCode, codeNode, op])]
    simp [has, null, codeBaseWhen_null]
  | between =>
    simp only [and_false, iff_false]
    exact not_isTrue_between op null
  | collate z | cast z | uplus | bitNot | binary b =>
    simp only [and_false, iff_false]
    refine not_isTrue_value_null ?_
    rw [sqlite3ExprCode, codeNode, op]
    simp [null]
  | uminus =>
    simp only [and_false, iff_false]
    refine not_isTrue_value_null ?_
    rw [sqlite3ExprCode, codeNode, op]
    simp [null, codeNegative_null null]
  | _ =>
    have leaf := isNull_left shaped (by simp [op])
    simp [has, op, Op.hasLeft] at leaf

/-- As an expression comes from the parser. -/
def Expr.wellFormed (pExpr : Expr) : Bool := pExpr.shaped && pExpr.marked

theorem wellFormed_operand : ∀ {pE2 pX : Expr}, pE2.shaped = true → pE2.marked = true →
    pX ∈ orOperands pE2 → pX.shaped = true ∧ pX.marked = true
  | .null, pX, shaped, marked, member => by
    rw [orOperands, mem_singleton] at member
    rw [member]
    exact ⟨shaped, marked⟩
  | .node d pLeft pRight pList, pX, shaped, marked, member => by
    rw [orOperands, mem_cons] at member
    rcases member with rfl | inside
    · exact ⟨shaped, marked⟩
    · split at inside
      · simp only [Expr.marked, Bool.and_eq_true] at marked
        rcases mem_append.mp inside with left | right
        · exact wellFormed_operand (shaped_left shaped) marked.1.1.2 left
        · exact wellFormed_operand (shaped_right shaped) marked.1.2 right
      · exact absurd inside not_mem_nil

variable {env : Env R} {pE1 pE2 : Expr}

theorem NotNullRule.operands {iTab : Int} {pX : Expr} (rule : NotNullRule iTab pE1 pX)
    (shaped : pX.shaped = true) :
    ∃ d pLeft pRight pList dX xLeft xRight xList, pE1 = .node d pLeft pRight pList ∧
      pX = .node dX xLeft xRight xList ∧ dX.op = .notNull ∧ d.op ≠ .isNull ∧ d.op ≠ .is ∧
      pLeft.isNull = false ∧ sqlite3ExprCompare iTab pLeft xLeft = 0 := by
  obtain ⟨op, zero, not_isNull, not_is⟩ := rule
  obtain _ | ⟨dX, xLeft, xRight, xList⟩ := pX
  · simp [op?] at op
  rw [op?, Option.some_inj] at op
  rw [pLeft] at zero
  have has : xLeft.isNull = false := by
    rw [isNull_left shaped (by simp [op]), op]
    rfl
  have real : pE1.pLeft.isNull = false := by
    cases left : pE1.pLeft with
    | node => rfl
    | null =>
      obtain _ | _ := xLeft
      · simp [isNull] at has
      · simp [left, sqlite3ExprCompare] at zero
  obtain _ | ⟨d, pLeft, pRight, pList⟩ := pE1
  · simp [pLeft, isNull] at real
  simp only [op?, ne_eq, Option.some_inj] at not_isNull not_is
  exact ⟨d, pLeft, pRight, pList, dX, xLeft, xRight, xList, rfl, rfl, op, not_isNull, not_is, real,
    zero⟩

theorem isTrue_of_implies (shaped : pE1.shaped = true) (marked : pE1.marked = true)
    (shaped' : pE2.shaped = true) (marked' : pE2.marked = true)
    (implies : sqlite3ExprImpliesExpr env.pSchema.iPartIdxTab pE1 pE2 = true)
    (exempt : ∀ pX ∈ orOperands pE2, NotNullRule env.pSchema.iPartIdxTab pE1 pX →
      TrueOnNull env pE1 → IsTrue env pE2) (holds : IsTrue env pE1) : IsTrue env pE2 := by
  obtain ⟨pX, member, why⟩ := (implies_iff pE1 pE2).mp implies
  obtain ⟨shapedX, markedX⟩ := wellFormed_operand shaped' marked' member
  rcases why with zero | rule
  · have alike : Alike env pE1 pX := alike_of_compare rfl zero shaped shapedX marked markedX
    refine isTrue_of_operand shaped' member ?_
    rwa [IsTrue, ← alike.code]
  · have slip := exempt pX member rule
    obtain ⟨d, pLeft, pRight, pList, dX, xLeft, xRight, xList, rfl, rfl, op, not_isNull, not_is,
      real, zero⟩ := rule.operands shapedX
    simp only [Expr.marked, Bool.and_eq_true] at marked markedX
    have alike : Alike env pLeft xLeft :=
      alike_of_compare rfl zero (shaped_left shaped) (shaped_left shapedX) marked.1.1.2
        markedX.1.1.2
    by_cases null : (sqlite3ExprCode env pLeft).target = .null
    · exact slip ((isTrue_iff_trueOnNull shaped real not_isNull not_is null).mp holds)
    · refine isTrue_of_operand shaped' member ((isTrue_notNull op).mpr ?_)
      rwa [← alike.code]

def Env.at (env : Env R) (row : Int → Int → Value R) : Env R := { env with row := row }

/-- Where the rule for NOT NULL applies, no row with a NULL left operand makes the first predicate
true and the second not. -/
def SafeOnNull (env : Env R) (pE1 pE2 : Expr) : Prop :=
  ∀ pX ∈ orOperands pE2, NotNullRule env.pSchema.iPartIdxTab pE1 pX →
    ∀ row, TrueOnNull (env.at row) pE1 → IsTrue (env.at row) pE2

theorem implies_sound_iff (wellFormed : pE1.wellFormed = true)
    (wellFormed' : pE2.wellFormed = true) :
    (sqlite3ExprImpliesExpr env.pSchema.iPartIdxTab pE1 pE2 = true →
        ∀ row, IsTrue (env.at row) pE1 → IsTrue (env.at row) pE2) ↔
      SafeOnNull env pE1 pE2 := by
  simp only [Expr.wellFormed, Bool.and_eq_true] at wellFormed wellFormed'
  constructor
  · intro sound pX member rule row slip
    have implies := (implies_iff pE1 pE2).mpr ⟨pX, member, .inr rule⟩
    have shapedX := (wellFormed_operand wellFormed'.1 wellFormed'.2 member).1
    obtain ⟨d, pLeft, pRight, pList, -, -, -, -, rfl, -, -, not_isNull, not_is, real, -⟩ :=
      rule.operands shapedX
    refine sound implies row ?_
    exact (isTrue_iff_trueOnNull wellFormed.1 real not_isNull not_is slip.1).mpr slip
  · intro safe implies row holds
    refine isTrue_of_implies wellFormed.1 wellFormed.2 wellFormed'.1 wellFormed'.2 implies ?_ holds
    exact fun pX member rule => safe pX member rule row

/-- The term restricts the rows of the table that the query needs. Of the right table of a LEFT
JOIN it needs every row that its ON clause accepts; of another table it needs the rows that pass
the terms that are in no ON clause. -/
def WhereTerm.Restricts (leftJoin : Bool) (iTab : Int) (pTerm : WhereTerm) : Prop :=
  if leftJoin then pTerm.fromJoin = true ∧ pTerm.iRightJoinTable = iTab
  else pTerm.fromJoin = false

/-- The query needs the row of the table together with the rows of the other cursors. -/
def Needed (env : Env R) (leftJoin : Bool) (iTab : Int) (pWC : List WhereTerm) : Prop :=
  ∀ pTerm ∈ pWC, pTerm.Restricts leftJoin iTab → IsTrue env pTerm.pExpr

/-- For two predicates from the parser, and for the terms of a WHERE clause, where a commuted copy
can have its marks in other places. The loop ends at the first term that implies the predicate. -/
theorem partial_index_sound (env : Env R) :
    (∀ pE1 pE2 : Expr, pE1.wellFormed = true → pE2.wellFormed = true →
      ((sqlite3ExprImpliesExpr env.pSchema.iPartIdxTab pE1 pE2 = true →
          ∀ row, IsTrue (env.at row) pE1 → IsTrue (env.at row) pE2) ↔
        SafeOnNull env pE1 pE2)) ∧
    ∀ (leftJoin : Bool) (pWC : List WhereTerm) (pWhere : Expr), pWhere.wellFormed = true →
      (∀ pTerm ∈ pWC, pTerm.pExpr.shaped = true) →
      (∀ pTerm,
        pWC.find? (fun pTerm =>
          sqlite3ExprImpliesExpr env.pSchema.iPartIdxTab pTerm.pExpr pWhere) = some pTerm →
        pTerm.pExpr.marked = true ∧ pTerm.Restricts leftJoin env.pSchema.iPartIdxTab ∧
          SafeOnNull env pTerm.pExpr pWhere) →
      whereUsablePartialIndex env.pSchema.iPartIdxTab pWC pWhere = true →
      ∀ row, Needed (env.at row) leftJoin env.pSchema.iPartIdxTab pWC →
        IsTrue (env.at row) pWhere := by
  refine ⟨fun pE1 pE2 wellFormed wellFormed' => implies_sound_iff wellFormed wellFormed', ?_⟩
  intro leftJoin pWC pWhere wellFormed shaped conditions usable row needed
  simp only [Expr.wellFormed, Bool.and_eq_true] at wellFormed
  obtain ⟨pTerm, first⟩ := Option.isSome_iff_exists.mp (find?_isSome.mpr (any_eq_true.mp usable))
  have member := mem_of_find?_eq_some first
  have implies : sqlite3ExprImpliesExpr env.pSchema.iPartIdxTab pTerm.pExpr pWhere = true :=
    find?_some (p := fun pTerm : WhereTerm => sqlite3ExprImpliesExpr _ pTerm.pExpr pWhere) first
  obtain ⟨marked, restricts, safe⟩ := conditions pTerm first
  refine isTrue_of_implies (shaped pTerm member) marked wellFormed.1 wellFormed.2 implies ?_
    (needed pTerm member restricts)
  exact fun pX inside rule => safe pX inside rule row

/-- A table with two columns of text, the second without regard to case. -/
def twoColumns : Int → Int → Column := fun _ iColumn =>
  ⟨.text, sqlite3FindCollSeq (if iColumn = 2 then "NOCASE" else "BINARY")⟩

/-- `x IS NOT NULL` as the predicate of a partial index. -/
def notNullExpr : Expr :=
  .node ⟨.notNull, false, false, 0, 0⟩ (columnExpr (-1) 1) .null .nil

theorem partial_index_sound_equality :
    whereUsablePartialIndex 0 [⟨binaryExpr (.compare .eq) (columnExpr 0 1) (intExpr 5), false, 0⟩]
        notNullExpr = true ∧
      ∀ row, Needed ((plainEnv twoColumns fun _ _ => .null).at row) false 0
          [⟨binaryExpr (.compare .eq) (columnExpr 0 1) (intExpr 5), false, 0⟩] →
        IsTrue ((plainEnv twoColumns fun _ _ => .null).at row) notNullExpr := by
  have usable : whereUsablePartialIndex 0
      [⟨binaryExpr (.compare .eq) (columnExpr 0 1) (intExpr 5), false, 0⟩] notNullExpr = true := by
    decide
  refine ⟨usable, (partial_index_sound (plainEnv twoColumns fun _ _ => .null)).2 false _ _
    (by decide) ?_ ?_ usable⟩
  · intro pTerm member
    rw [mem_singleton.mp member]
    decide
  · intro pTerm first
    rw [mem_singleton.mp (mem_of_find?_eq_some first)]
    refine ⟨by decide, rfl, fun pX _ _ row slip => ?_⟩
    exact absurd slip.2 id

/-- A row without `x` passes `x IS NOT 5`. The copy `x = y` of `y = x` compares without regard to
case, and `x = y` in the index does not. A term in the ON clause of a LEFT JOIN says nothing of the
rows of its left table. -/
theorem partial_index_loses_rows :
    (sqlite3ExprImpliesExpr 0 (binaryExpr .isNot (columnExpr 0 1) (intExpr 5)) notNullExpr = true ∧
      IsTrue (plainEnv twoColumns fun _ _ => .null)
        (binaryExpr .isNot (columnExpr 0 1) (intExpr 5)) ∧
      ¬ IsTrue (plainEnv twoColumns fun _ _ => .null) notNullExpr) ∧
    (let copy := .node ⟨.compare .eq, false, false, 0, 0⟩ (columnExpr 0 1)
        (.node ⟨.column, true, false, 0, 2⟩ .null .null .nil) .nil
      let pWhere := binaryExpr (.compare .eq) (columnExpr (-1) 1) (columnExpr (-1) 2)
      let env := plainEnv twoColumns fun _ iColumn => .text (if iColumn = 2 then [65] else [97])
      sqlite3ExprImpliesExpr 0 copy pWhere = true ∧ IsTrue env copy ∧ ¬ IsTrue env pWhere) ∧
    (let pOn := .node ⟨.notNull, false, false, 0, 0⟩ (columnExpr 0 1) .null .nil
      let env := plainEnv twoColumns fun _ _ => .null
      whereUsablePartialIndex 0 [⟨pOn, true, 1⟩] notNullExpr = true ∧
        Needed env false 0 [⟨pOn, true, 1⟩] ∧ ¬ IsTrue env notNullExpr) := by
  refine ⟨⟨by decide, by decide, by decide⟩, ⟨by decide, by decide, by decide⟩, by decide, ?_,
    by decide⟩
  intro pTerm member restricts
  rw [mem_singleton.mp member] at restricts
  exact absurd restricts (by simp [WhereTerm.Restricts])

end

end SeSqlite.Expression
