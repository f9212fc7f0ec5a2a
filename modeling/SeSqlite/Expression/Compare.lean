/- source: src/expr.c
   digest: The deep comparison of expression trees: what compares as equal has the same code. -/
import Mathlib.Data.List.Forall2
import SeSqlite.Expression.Code

set_option autoImplicit false
set_option relaxedAutoImplicit false

namespace SeSqlite.Expression

open List

/-- The comparison of a node of `pA` with `pB`; the comparisons with its subtrees are given. -/
def compareNode (iTab : Int) (dA : Node) (cmpLeft cmpRight : Expr → Nat)
    (cmpList : ExprList → Nat) : Expr → Nat
  | .null => 2
  | .node dB pLeft pRight pList =>
    if dA.op.iValue.isSome || dB.op.iValue.isSome then
      if dA.op.iValue = dB.op.iValue then 0 else 2
    else if dA.op.code ≠ dB.op.code then
      if dA.op.code = .collate "" ∧ cmpLeft (.node dB pLeft pRight pList) < 2 then 1
      else if dB.op.code = .collate "" ∧
        compareNode iTab dA cmpLeft cmpRight cmpList pLeft < 2 then 1
      else 2
    else if dA.op ≠ .column ∧ dA.op.zToken.isSome ∧ dA.op.zToken ≠ dB.op.zToken then
      if dA.op.code = .collate "" then 1 else 2
    else if dA.distinct ≠ dB.distinct then 2
    else if cmpLeft pLeft ≠ 0 then 2
    else if cmpRight pRight ≠ 0 then 2
    else if cmpList pList ≠ 0 then 2
    else if dA.iColumn ≠ dB.iColumn then 2
    else if dA.iTable ≠ dB.iTable ∧ (dA.iTable ≠ iTab ∨ 0 ≤ dB.iTable) then 2
    else 0

mutual

def sqlite3ExprCompare (iTab : Int) : Expr → Expr → Nat
  | .null, .null => 0
  | .null, .node _ _ _ _ => 2
  | .node d pLeft pRight pList, pB =>
    compareNode iTab d (sqlite3ExprCompare iTab pLeft) (sqlite3ExprCompare iTab pRight)
      (sqlite3ExprListCompare iTab pList) pB

def sqlite3ExprListCompare (iTab : Int) : ExprList → ExprList → Nat
  | .nil, .nil => 0
  | .nil, .cons _ _ _ => 1
  | .cons _ _ _, .nil => 1
  | .cons pExprA sortOrderA restA, .cons pExprB sortOrderB restB =>
    if sortOrderA ≠ sortOrderB then 1
    else if sqlite3ExprCompare iTab pExprA pExprB ≠ 0 then 1
    else sqlite3ExprListCompare iTab restA restB

end

/-- Whether the operator has a left operand; the base of a CASE is optional. -/
def Op.hasLeft : Op → Bool
  | .column => false
  | .register _ _ => false
  | .variable _ => false
  | .intValue _ => false
  | .integer _ => false
  | .float _ => false
  | .string _ => false
  | .blob _ => false
  | .null _ => false
  | .function _ => false
  | _ => true

def Op.hasRight : Op → Bool
  | .compare _ => true
  | .is => true
  | .isNot => true
  | .and => true
  | .or => true
  | .binary _ => true
  | _ => false

mutual

/-- Every operator has its operands, and none is a register. -/
def Expr.shaped : Expr → Bool
  | .null => true
  | .node d pLeft pRight pList =>
    d.op.code ≠ .register false none &&
      (d.op = .case || pLeft.isNull == !d.op.hasLeft) && pRight.isNull == !d.op.hasRight &&
      pLeft.shaped && pRight.shaped && pList.shaped

def ExprList.shaped : ExprList → Bool
  | .nil => true
  | .cons pExpr _ rest => !pExpr.isNull && pExpr.shaped && rest.shaped

end

mutual

/-- `EP_Collate` is on the nodes where the parser puts it: on a COLLATE operator and over an
operand that has it. -/
def Expr.marked : Expr → Bool
  | .null => true
  | .node d pLeft pRight pList =>
    d.collate == (d.op.code = .collate "" || pLeft.collate || pRight.collate) &&
      pLeft.marked && pRight.marked && pList.marked

def ExprList.marked : ExprList → Bool
  | .nil => true
  | .cons pExpr _ rest => pExpr.marked && rest.marked

end

variable {pSchema : Schema}

section

variable {R : Type} [LinearOrder R] (env : Env R)

/-- What comparisons take from an operand is the same. -/
structure SameOperand (pA pB : Expr) : Prop where
  collate : pA.collate = pB.collate
  affinity : sqlite3ExprAffinity env.db env.pSchema pA = sqlite3ExprAffinity env.db env.pSchema pB
  collSeq : sqlite3ExprCollSeq env.pSchema pA = sqlite3ExprCollSeq env.pSchema pB

/-- Two expressions that no code tells apart. -/
structure Alike (pA pB : Expr) : Prop where
  isNull : pA.isNull = pB.isNull
  operand : SameOperand env pA pB
  register : SameOperand env (exprToRegister pA) (exprToRegister pB)
  negative : codeNegative env pA = codeNegative env pB
  code : sqlite3ExprCode env pA = sqlite3ExprCode env pB

def AlikeLists (aA aB : List (Expr × Coded R)) : Prop :=
  List.Forall₂ (fun a b => SameOperand env a.1 b.1 ∧ a.2 = b.2) aA aB

variable {env} {pA pB pA' pB' : Expr} {aA aB : List (Expr × Coded R)}

theorem SameOperand.compare (left : SameOperand env pA pA') (right : SameOperand env pB pB')
    (op : Comparison) (r1 r2 : Value R) :
    codeCompare env op pA pB r1 r2 = codeCompare env op pA' pB' r1 r2 := by
  simp [codeCompare, compareRegisters, binaryCompareP5, sqlite3BinaryCompareCollSeq, left.collate,
    right.collate, left.affinity, right.affinity, left.collSeq, right.collSeq]

theorem SameOperand.compareNullEq (left : SameOperand env pA pA')
    (right : SameOperand env pB pB') (r1 r2 : Value R) :
    codeCompareNullEq env pA pB r1 r2 = codeCompareNullEq env pA' pB' r1 r2 := by
  simp [codeCompareNullEq, compareRegisters, binaryCompareP5, sqlite3BinaryCompareCollSeq,
    left.collate, right.collate, left.affinity, right.affinity, left.collSeq, right.collSeq]

omit [LinearOrder R] in
theorem AlikeLists.map_snd (alike : AlikeLists env aA aB) : aA.map Prod.snd = aB.map Prod.snd := by
  induction alike with
  | nil => rfl
  | cons head _ ih => rw [map_cons, map_cons, head.2, ih]

omit [LinearOrder R] in
theorem AlikeLists.map_target (alike : AlikeLists env aA aB) :
    (aA.map fun e => e.2.target) = aB.map fun e => e.2.target := by
  have targets := congrArg (List.map Coded.target) alike.map_snd
  rwa [map_map, map_map] at targets

omit [LinearOrder R] in
theorem AlikeLists.findColl (alike : AlikeLists env aA aB) :
    (aA.findSome? fun arg => sqlite3ExprCollSeq env.pSchema arg.1) =
      aB.findSome? fun arg => sqlite3ExprCollSeq env.pSchema arg.1 := by
  induction alike with
  | nil => rfl
  | cons head _ ih => rw [findSome?_cons, findSome?_cons, head.1.collSeq, ih]

theorem AlikeLists.function (alike : AlikeLists env aA aB) (zId : String) :
    codeFunction env zId aA = codeFunction env zId aB := by
  simp [codeFunction, alike.map_target, alike.findColl, alike.length_eq]

theorem AlikeLists.baseWhen (register : SameOperand env (exprToRegister pA) (exprToRegister pB))
    (r1 : Value R) (alike : AlikeLists env aA aB) :
    codeBaseWhen env pA r1 aA = codeBaseWhen env pB r1 aB := by
  fun_induction codeBaseWhen env pA r1 aA generalizing aB with
  | case1 =>
    obtain rfl := forall₂_nil_left_iff.mp alike
    rfl
  | case2 otherwise =>
    obtain ⟨last, rest, head, tail, rfl⟩ := forall₂_cons_left_iff.mp alike
    obtain rfl := forall₂_nil_left_iff.mp tail
    simp [codeBaseWhen, head.2]
  | case3 test result rest found =>
    obtain ⟨test', rest', head, tail, rfl⟩ := forall₂_cons_left_iff.mp alike
    obtain ⟨result', rest', next, -, rfl⟩ := forall₂_cons_left_iff.mp tail
    rw [register.compare head.1, head.2] at found
    simp [codeBaseWhen, if_pos found, next.2]
  | case4 test result rest other ih =>
    obtain ⟨test', rest', head, tail, rfl⟩ := forall₂_cons_left_iff.mp alike
    obtain ⟨result', rest', next, later, rfl⟩ := forall₂_cons_left_iff.mp tail
    rw [register.compare head.1, head.2] at other
    simp [codeBaseWhen, if_neg other, ih later]

theorem AlikeLists.between (left : SameOperand env pA pB)
    (register : SameOperand env (exprToRegister pA) (exprToRegister pB)) (r1 : Value R)
    (alike : AlikeLists env aA aB) :
    exprCodeBetween env pA r1 aA = exprCodeBetween env pB r1 aB := by
  cases alike with
  | nil => rfl
  | cons low tail =>
    cases tail with
    | nil => rfl
    | cons high tail =>
      simp [exprCodeBetween, register.compare low.1, register.compare high.1, left.compare low.1,
        left.compare high.1, low.2, high.2]

/-- Two nodes with one operator, up to the spelling of a NULL. -/
structure SameNode (pSchema : Schema) (dA dB : Node) : Prop where
  op : dA.op = dB.op ∨ (∃ y, dA.op = .null y) ∧ ∃ z, dB.op = .null z
  collate : dA.collate = dB.collate
  cursor : pSchema.cursor dA.iTable = pSchema.cursor dB.iTable
  iColumn : dA.iColumn = dB.iColumn

section

variable {dA dB : Node} {lA lB rA rB : Expr} {sA sB : ExprList}

theorem SameNode.columnAffinity (same : SameNode pSchema dA dB) :
    columnAffinity pSchema dA = columnAffinity pSchema dB := by
  simp [Expression.columnAffinity, same.cursor, same.iColumn]

theorem SameNode.columnCollSeq (same : SameNode pSchema dA dB) :
    columnCollSeq pSchema dA = columnCollSeq pSchema dB := by
  simp [Expression.columnCollSeq, same.cursor, same.iColumn]

omit [LinearOrder R] in
theorem affinity_node (db : Engine R) (pSchema : Schema) (d : Node) (pLeft pRight : Expr)
    (pList : ExprList) : sqlite3ExprAffinity db pSchema (.node d pLeft pRight pList) =
      match d.op with
      | .collate _ => sqlite3ExprAffinity db pSchema pLeft
      | .cast zToken => some (db.sqlite3AffinityType zToken)
      | .column => some (columnAffinity pSchema d)
      | .register pTab _ => if pTab then some (columnAffinity pSchema d) else none
      | _ => none := by
  obtain ⟨op, collate, distinct, iTable, iColumn⟩ := d
  cases op <;> simp [sqlite3ExprAffinity, sqlite3ExprSkipCollate]

omit [LinearOrder R] in
theorem SameNode.operand (same : SameNode env.pSchema dA dB) (left : SameOperand env lA lB)
    (right : SameOperand env rA rB) : SameOperand env (.node dA lA rA sA) (.node dB lB rB sB) := by
  refine ⟨same.collate, ?_, ?_⟩
  · rw [affinity_node, affinity_node, left.affinity, same.columnAffinity]
    rcases same.op with one | ⟨⟨y, nullA⟩, z, nullB⟩
    · rw [one]
    · rw [nullA, nullB]
  · rw [sqlite3ExprCollSeq, sqlite3ExprCollSeq, left.collSeq, right.collSeq, left.collate,
      same.columnCollSeq, same.collate]
    rcases same.op with one | ⟨⟨y, nullA⟩, z, nullB⟩
    · rw [one]
    · rw [nullA, nullB]

omit [LinearOrder R] in
theorem SameNode.toRegister (same : SameNode env.pSchema dA dB) (left : SameOperand env lA lB)
    (right : SameOperand env rA rB) :
    SameOperand env (exprToRegister (.node dA lA rA sA)) (exprToRegister (.node dB lB rB sB)) := by
  refine SameNode.operand ⟨.inl ?_, same.collate, same.cursor, same.iColumn⟩ left right
  rcases same.op with one | ⟨⟨y, nullA⟩, z, nullB⟩
  · rw [one]
  · rw [nullA, nullB]
    simp

section

variable (same : SameNode env.pSchema dA dB) (left : Alike env lA lB) (right : Alike env rA rB)
  (list : AlikeLists env (sqlite3ExprCodeExprList env sA) (sqlite3ExprCodeExprList env sB))

include same left right list

theorem SameNode.code :
    sqlite3ExprCode env (.node dA lA rA sA) = sqlite3ExprCode env (.node dB lB rB sB) := by
  rw [sqlite3ExprCode, sqlite3ExprCode, codeNode, codeNode]
  rw [left.code, right.code, left.isNull, left.negative, list.map_snd, list.map_target,
    list.baseWhen left.register, list.between left.operand left.register,
    left.operand.compareNullEq right.operand, same.cursor, same.iColumn]
  simp only [list.function, left.operand.compare right.operand]
  have inList (r1 : Value R) (values : List (Value R)) :
      sqlite3ExprCodeIN env lA r1 values = sqlite3ExprCodeIN env lB r1 values := by
    simp [sqlite3ExprCodeIN, left.operand.affinity, left.operand.collSeq]
  rw [inList]
  rcases same.op with one | ⟨⟨y, nullA⟩, z, nullB⟩
  · rw [one]
  · rw [nullA, nullB]

theorem SameNode.alike : Alike env (.node dA lA rA sA) (.node dB lB rB sB) where
  isNull := rfl
  operand := same.operand left.operand right.operand
  register := same.toRegister left.operand right.operand
  negative := by
    rw [codeNegative, codeNegative, Expr.op?, Expr.op?]
    rcases same.op with one | ⟨⟨y, nullA⟩, z, nullB⟩
    · rw [one]
    · rw [nullA, nullB]
  code := same.code left right list

end

theorem alike_null : Alike env .null .null :=
  ⟨rfl, ⟨rfl, rfl, rfl⟩, ⟨rfl, rfl, rfl⟩, rfl, rfl⟩

theorem alike_intValue {i : Int} (intA : dA.op = .intValue i) (intB : dB.op = .intValue i)
    (plainA : dA.collate = false) (plainB : dB.collate = false) :
    Alike env (.node dA lA rA sA) (.node dB lB rB sB) where
  isNull := rfl
  operand := by
    refine ⟨plainA.trans plainB.symm, ?_, ?_⟩
    · rw [affinity_node, affinity_node, intA, intB]
    · simp [sqlite3ExprCollSeq, intA, intB, plainA, plainB]
  register := by
    refine ⟨plainA.trans plainB.symm, ?_, ?_⟩
    · rw [exprToRegister, exprToRegister, affinity_node, affinity_node]
      simp [intA, intB]
    · simp [exprToRegister, sqlite3ExprCollSeq, intA, intB, plainA, plainB]
  negative := by rw [codeNegative, codeNegative, Expr.op?, Expr.op?, intA, intB]
  code := by
    rw [sqlite3ExprCode, sqlite3ExprCode, codeNode, codeNode, intA, intB]

end

variable {iTab : Int} {dA dB : Node} {cmpLeft cmpRight : Expr → Nat} {cmpList : ExprList → Nat}
variable {lB rB : Expr} {sB : ExprList}

variable {a : Op} {i : Int}

theorem iValue_eq_some : a.iValue = some i ↔ a = .intValue i := by
  cases a <;> simp [Op.iValue]

theorem code_eq_null : a.code = .null none ↔ ∃ y, a = .null y := by
  cases a <;> simp [Op.code]

/-- An operator from its code and its token. -/
def Op.withToken : Op → Option String → Op
  | .variable _, some z => .variable z
  | .integer _, some z => .integer z
  | .float _, some z => .float z
  | .string _, some z => .string z
  | .blob _, some z => .blob z
  | .function _, some z => .function z
  | .collate _, some z => .collate z
  | .cast _, some z => .cast z
  | op, _ => op

theorem withToken_code (noValue : a.iValue = none) (plain : a.code ≠ .register false none)
    (notNull : a.code ≠ .null none) : a.code.withToken a.zToken = a := by
  cases a with
  | register => exact absurd rfl plain
  | intValue => exact absurd noValue (by simp [Op.iValue])
  | null => exact absurd rfl notNull
  | _ => rfl

theorem zToken_isSome (noValue : a.iValue = none) (notNull : a.code ≠ .null none) :
    a.zToken.isSome = a.code.zToken.isSome := by
  cases a with
  | intValue => exact absurd noValue (by simp [Op.iValue])
  | null => exact absurd rfl notNull
  | _ => rfl

theorem op_eq_of_code {b : Op} (code : a.code = b.code) (noneA : a.iValue = none)
    (noneB : b.iValue = none) (plain : a.code ≠ .register false none)
    (tokens : ¬ (a ≠ .column ∧ a.zToken.isSome ∧ a.zToken ≠ b.zToken)) :
    a = b ∨ (∃ y, a = .null y) ∧ ∃ z, b = .null z := by
  by_cases null : a.code = .null none
  · exact .inr ⟨code_eq_null.mp null, code_eq_null.mp (code ▸ null)⟩
  · left
    have same : a.zToken = b.zToken := by
      have isSome : a.zToken.isSome = b.zToken.isSome := by
        rw [zToken_isSome noneA null, zToken_isSome noneB (code ▸ null), code]
      cases tokenA : a.zToken with
      | none =>
        rw [tokenA] at isSome
        exact (Option.isNone_iff_eq_none.mp (by simpa using isSome.symm)).symm
      | some z =>
        by_contra differ
        refine tokens ⟨?_, by rw [tokenA]; rfl, by rwa [tokenA]⟩
        rintro rfl
        simp [Op.zToken] at tokenA
    rw [← withToken_code noneA plain null, ← withToken_code noneB (code ▸ plain) (code ▸ null),
      code, same]

theorem compareNode_zero
    (zero : compareNode iTab dA cmpLeft cmpRight cmpList (.node dB lB rB sB) = 0)
    (plain : dA.op.code ≠ .register false none) : (∃ i, dA.op = .intValue i ∧ dB.op = .intValue i) ∨
      (dA.op = dB.op ∨ (∃ y, dA.op = .null y) ∧ ∃ z, dB.op = .null z) ∧
        cmpLeft lB = 0 ∧ cmpRight rB = 0 ∧ cmpList sB = 0 ∧ dA.iColumn = dB.iColumn ∧
        (dA.iTable = dB.iTable ∨ dA.iTable = iTab ∧ dB.iTable < 0) := by
  rw [compareNode] at zero
  split at zero
  · rename_i some_value
    split at zero
    · rename_i same
      rw [← same, Bool.or_self, Option.isSome_iff_exists] at some_value
      obtain ⟨i, value⟩ := some_value
      exact .inl ⟨i, iValue_eq_some.mp value, iValue_eq_some.mp (same ▸ value)⟩
    · cases zero
  · rename_i no_value
    rw [Bool.or_eq_true, not_or, Option.not_isSome_iff_eq_none, Option.not_isSome_iff_eq_none]
      at no_value
    right
    split at zero
    · split at zero
      · cases zero
      · split at zero <;> cases zero
    · rename_i code
      split at zero
      · split at zero <;> cases zero
      · rename_i tokens
        refine ⟨op_eq_of_code (not_not.mp code) no_value.1 no_value.2 plain tokens, ?_⟩
        repeat' split at zero
        all_goals first | exact absurd zero (by decide) | skip
        rename_i left right list column table
        refine ⟨not_not.mp left, not_not.mp right, not_not.mp list, not_not.mp column, ?_⟩
        omega

theorem cursor_eq (self : pSchema.iPartIdxTab = iTab)
    (table : dA.iTable = dB.iTable ∨ dA.iTable = iTab ∧ dB.iTable < 0) :
    pSchema.cursor dA.iTable = pSchema.cursor dB.iTable := by
  rcases table with same | ⟨here, negative⟩
  · rw [same]
  · rw [Schema.cursor, Schema.cursor, if_pos negative, here, self, ite_self]

theorem collate_intValue {pLeft pRight : Expr} {pList : ExprList}
    (shaped : (Expr.node dA pLeft pRight pList).shaped = true)
    (marked : (Expr.node dA pLeft pRight pList).marked = true) (int : dA.op = .intValue i) :
    dA.collate = false := by
  simp only [Expr.shaped, Expr.marked, int, Op.hasLeft, Op.hasRight, Op.code,
    Bool.and_eq_true] at shaped marked
  have left : pLeft.collate = false := by
    cases pLeft with
    | null => rfl
    | node => simp [Expr.isNull] at shaped
  have right : pRight.collate = false := by
    cases pRight with
    | null => rfl
    | node => simp [Expr.isNull] at shaped
  simpa [left, right] using marked.1.1.1

variable {R : Type} [LinearOrder R] {env : Env R}

mutual

theorem alike_of_compare (self : env.pSchema.iPartIdxTab = iTab) :
    ∀ {pA pB : Expr}, sqlite3ExprCompare iTab pA pB = 0 → pA.shaped = true → pB.shaped = true →
      pA.marked = true → pB.marked = true → Alike env pA pB
  | .null, .null, _, _, _, _, _ => alike_null
  | .null, .node _ _ _ _, zero, _, _, _, _ => by simp [sqlite3ExprCompare] at zero
  | .node _ _ _ _, .null, zero, _, _, _, _ => by simp [sqlite3ExprCompare, compareNode] at zero
  | .node dA lA rA sA, .node dB lB rB sB, zero, shapedA, shapedB, markedA, markedB => by
    have plainA := fun i => collate_intValue (i := i) shapedA markedA
    have plainB := fun i => collate_intValue (i := i) shapedB markedB
    simp only [Expr.shaped, Bool.and_eq_true, decide_eq_true_eq] at shapedA shapedB
    simp only [Expr.marked, Bool.and_eq_true, beq_iff_eq] at markedA markedB
    obtain ⟨⟨⟨⟨⟨plain, -⟩, -⟩, shapedL⟩, shapedR⟩, shapedS⟩ := shapedA
    obtain ⟨⟨⟨⟨⟨-, -⟩, -⟩, shapedL'⟩, shapedR'⟩, shapedS'⟩ := shapedB
    obtain ⟨⟨⟨markA, markedL⟩, markedR⟩, markedS⟩ := markedA
    obtain ⟨⟨⟨markB, markedL'⟩, markedR'⟩, markedS'⟩ := markedB
    rcases compareNode_zero zero plain with ⟨i, intA, intB⟩ |
      ⟨op, zeroL, zeroR, zeroS, column, table⟩
    · exact alike_intValue intA intB (plainA i intA) (plainB i intB)
    · have left := alike_of_compare self zeroL shapedL shapedL' markedL markedL'
      have right := alike_of_compare self zeroR shapedR shapedR' markedR markedR'
      have list := alikeLists_of_compare self zeroS shapedS shapedS' markedS markedS'
      refine SameNode.alike ⟨op, ?_, cursor_eq self table, column⟩ left right list
      rw [markA, markB, left.operand.collate, right.operand.collate]
      rcases op with one | ⟨⟨y, nullA⟩, z, nullB⟩
      · rw [one]
      · rw [nullA, nullB]
        rfl

theorem alikeLists_of_compare (self : env.pSchema.iPartIdxTab = iTab) :
    ∀ {aA aB : ExprList}, sqlite3ExprListCompare iTab aA aB = 0 → aA.shaped = true →
      aB.shaped = true → aA.marked = true → aB.marked = true →
      AlikeLists env (sqlite3ExprCodeExprList env aA) (sqlite3ExprCodeExprList env aB)
  | .nil, .nil, _, _, _, _, _ => .nil
  | .nil, .cons _ _ _, zero, _, _, _, _ => by simp [sqlite3ExprListCompare] at zero
  | .cons _ _ _, .nil, zero, _, _, _, _ => by simp [sqlite3ExprListCompare] at zero
  | .cons pA sortA restA, .cons pB sortB restB, zero, shapedA, shapedB, markedA, markedB => by
    simp only [ExprList.shaped, ExprList.marked, Bool.and_eq_true]
      at shapedA shapedB markedA markedB
    rw [sqlite3ExprListCompare] at zero
    split at zero
    · simp at zero
    · split at zero
      · simp at zero
      · rename_i same
        have head := alike_of_compare self (not_not.mp same) shapedA.1.2 shapedB.1.2 markedA.1
          markedB.1
        have rest := alikeLists_of_compare self zero shapedA.2 shapedB.2 markedA.2 markedB.2
        rw [sqlite3ExprCodeExprList, sqlite3ExprCodeExprList]
        exact .cons ⟨head.operand, head.code⟩ rest

end

end

end SeSqlite.Expression
