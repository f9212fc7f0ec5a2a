/- source: src/where.c
   digest: An OR of equalities on one column as an IN: which column is chosen, which subterms are
   taken, and when the two say the same. -/
import SeSqlite.Where.Terms

set_option autoImplicit false
set_option relaxedAutoImplicit false

namespace SeSqlite.Where

open Expression List Expression.Expr Where.Expr

section

variable {R : Type} (db : Engine R) (pMaskSet : WhereMaskSet) (pSchema : Schema)

/-- The subterms of an OR, analyzed; the copies stand at the end. -/
def orTerms (pExpr : Expr) (fromJoin : Bool) (iRightJoinTable : Int) : List WhereTerm :=
  exprAnalyzeAll pMaskSet pSchema
    ((whereSplit .or pExpr).map fun p => newTerm p fromJoin iRightJoinTable)

/-- The tables of a subterm; a copy has those of its parent too. -/
def subtermMask (a : List WhereTerm) (pOrTerm : WhereTerm) : Bitmask :=
  let b := getMask pMaskSet pOrTerm.leftCursor
  if pOrTerm.isVirtual then
    match pOrTerm.iParent.bind fun iParent => a[iParent]? with
    | some pOther => b ||| getMask pMaskSet pOther.leftCursor
    | none => b
  else b

/-- One round of the loop for `chngToIN`. A subterm with a copy is left to its copy. -/
def chngToINStep (a : List WhereTerm) (chngToIN : Bitmask) (pOrTerm : WhereTerm) : Bitmask :=
  if pOrTerm.eOperator &&& woSingle = 0 then 0
  else if pOrTerm.isCopied then chngToIN
  else if pOrTerm.eOperator &&& woEq = 0 then 0
  else chngToIN &&& subtermMask pMaskSet a pOrTerm

/-- The tables of which every subterm may have a column. -/
def chngToIN (a : List WhereTerm) : Bitmask :=
  a.foldl (chngToINStep pMaskSet a) (BitVec.allOnes 64)

def candidate (mask : Bitmask) (iCursor : Int) : List WhereTerm → List WhereTerm
  | [] => []
  | pOrTerm :: rest =>
    if pOrTerm.leftCursor = iCursor then candidate mask iCursor rest
    else if mask &&& getMask pMaskSet pOrTerm.leftCursor = 0 then candidate mask iCursor rest
    else pOrTerm :: rest

/-- Every subterm of the cursor is on the column, and the right side needs no conversion. -/
def okToChngToIN (iCursor iColumn : Int) (a : List WhereTerm) : Bool :=
  a.all fun pOrTerm =>
    let affRight := sqlite3ExprAffinity db pSchema pOrTerm.pExpr.pRight
    let affLeft := sqlite3ExprAffinity db pSchema pOrTerm.pExpr.pLeft
    pOrTerm.leftCursor ≠ iCursor ||
      pOrTerm.leftColumn = iColumn && (affRight = none || affRight = affLeft)

def ofList : List Expr → ExprList
  | [] => .nil
  | pExpr :: rest => .cons pExpr 0 (ofList rest)

/-- The IN of the subterms that are taken, with the left operand of the last of them. -/
def inTerm (a : List WhereTerm) : Option Expr :=
  a.getLast?.map fun last =>
    .node ⟨.inList, last.pExpr.pLeft.collate, false, 0, 0⟩ last.pExpr.pLeft .null
      (ofList (a.map fun pOrTerm => pOrTerm.pExpr.pRight))

/-- The search starts with no cursor, and if its column is not common to all subterms it is made
once more for another cursor. The virtual term, if there is one. -/
def exprAnalyzeOrTerm (pExpr : Expr) (fromJoin : Bool) (iRightJoinTable : Int) : Option Expr :=
  let a := orTerms pMaskSet pSchema pExpr fromJoin iRightJoinTable
  let mask := chngToIN pMaskSet a
  if mask = 0 then none
  else
    match candidate pMaskSet mask (-1) a with
    | [] => none
    | first :: rest =>
      if okToChngToIN db pSchema first.leftCursor first.leftColumn (first :: rest) then
        inTerm ((first :: rest).filter fun pOrTerm => pOrTerm.leftCursor = first.leftCursor)
      else
        match candidate pMaskSet mask first.leftCursor a with
        | [] => none
        | other :: rest =>
          if okToChngToIN db pSchema other.leftCursor other.leftColumn (other :: rest) then
            inTerm ((other :: rest).filter fun pOrTerm => pOrTerm.leftCursor = other.leftCursor)
          else none

variable {pMaskSet : WhereMaskSet}

theorem cursor_of_bit {i j : Int} {k : Nat} (bitI : (getMask pMaskSet i).getLsbD k = true)
    (bitJ : (getMask pMaskSet j).getLsbD k = true) : i = j := by
  have position {c : Int} (bit : (getMask pMaskSet c).getLsbD k = true) :
      c ∈ pMaskSet ∧ pMaskSet.idxOf c = k := by
    rw [getMask] at bit
    split at bit
    · rename_i member
      refine ⟨member, ?_⟩
      simp only [BitVec.getLsbD_shiftLeft, BitVec.getLsbD_one, Bool.and_eq_true,
        Bool.not_eq_true', decide_eq_true_eq, decide_eq_false_iff_not] at bit
      omega
    · simp at bit
  obtain ⟨memberI, atI⟩ := position bitI
  obtain ⟨memberJ, atJ⟩ := position bitJ
  exact idxOf_inj memberI |>.mp (atI.trans atJ.symm)

theorem exists_common_bit {x y : Bitmask} (common : x &&& y ≠ 0) :
    ∃ k, x.getLsbD k = true ∧ y.getLsbD k = true := by
  by_contra none
  refine common (BitVec.eq_of_getLsbD_eq fun k _ => ?_)
  have zero : BitVec.getLsbD (0 : Bitmask) k = false := by simp
  rw [BitVec.getLsbD_and, zero, Bool.eq_false_iff]
  intro both
  exact none ⟨k, Bool.and_eq_true_iff.mp both⟩

/-- What a bit of `chngToIN` says of a subterm. -/
def TakesBit (pMaskSet : WhereMaskSet) (a : List WhereTerm) (k : Nat) (pOrTerm : WhereTerm) :
    Prop :=
  pOrTerm.eOperator &&& woSingle ≠ 0 ∧
    (pOrTerm.isCopied = false → pOrTerm.eOperator &&& woEq ≠ 0 ∧
      (subtermMask pMaskSet a pOrTerm).getLsbD k = true)

section

variable {a : List WhereTerm} {mask : Bitmask} {k : Nat} {iCursor : Int} {rest : List WhereTerm}
  {first : WhereTerm}

theorem chngToINStep_bit {pOrTerm : WhereTerm}
    (bit : (chngToINStep pMaskSet a mask pOrTerm).getLsbD k = true) :
    mask.getLsbD k = true ∧ TakesBit pMaskSet a k pOrTerm := by
  rw [chngToINStep] at bit
  split at bit
  · simp at bit
  rename_i single
  split at bit
  · rename_i copied
    exact ⟨bit, single, fun plain => absurd (copied.symm.trans plain) (by decide)⟩
  split at bit
  · simp at bit
  rename_i eq
  rw [BitVec.getLsbD_and, Bool.and_eq_true] at bit
  exact ⟨bit.1, single, fun _ => ⟨eq, bit.2⟩⟩

theorem chngToIN_bit (bit : (chngToIN pMaskSet a).getLsbD k = true) :
    ∀ pOrTerm ∈ a, TakesBit pMaskSet a k pOrTerm := by
  have loop : ∀ (l : List WhereTerm) (mask : Bitmask),
      (l.foldl (chngToINStep pMaskSet a) mask).getLsbD k = true →
      mask.getLsbD k = true ∧ ∀ pOrTerm ∈ l, TakesBit pMaskSet a k pOrTerm := by
    intro l
    induction l with
    | nil => exact fun mask bit => ⟨bit, fun _ member => absurd member not_mem_nil⟩
    | cons first rest ih =>
      intro mask bit
      obtain ⟨step, later⟩ := ih _ bit
      obtain ⟨before, takes⟩ := chngToINStep_bit step
      refine ⟨before, fun pOrTerm member => ?_⟩
      rcases mem_cons.mp member with rfl | inside
      · exact takes
      · exact later pOrTerm inside
  exact (loop a _ bit).2

variable (found : candidate pMaskSet mask iCursor a = first :: rest)

include found

theorem candidate_eq : ∃ before, a = before ++ first :: rest ∧ first.leftCursor ≠ iCursor ∧
      mask &&& getMask pMaskSet first.leftCursor ≠ 0 ∧
      ∀ pOrTerm ∈ before, pOrTerm.leftCursor = iCursor ∨
        mask &&& getMask pMaskSet pOrTerm.leftCursor = 0 := by
  induction a with
  | nil => simp [candidate] at found
  | cons head tail ih =>
    rw [candidate] at found
    have next (why : head.leftCursor = iCursor ∨ mask &&& getMask pMaskSet head.leftCursor = 0)
        (found : candidate pMaskSet mask iCursor tail = first :: rest) :
        ∃ before, head :: tail = before ++ first :: rest ∧ first.leftCursor ≠ iCursor ∧
          mask &&& getMask pMaskSet first.leftCursor ≠ 0 ∧
          ∀ pOrTerm ∈ before, pOrTerm.leftCursor = iCursor ∨
            mask &&& getMask pMaskSet pOrTerm.leftCursor = 0 := by
      obtain ⟨before, rfl, other, inside, skipped⟩ := ih found
      refine ⟨head :: before, rfl, other, inside, fun pOrTerm member => ?_⟩
      rcases mem_cons.mp member with rfl | later
      · exact why
      · exact skipped pOrTerm later
    split at found
    · rename_i same
      exact next (.inl same) found
    · rename_i other
      split at found
      · rename_i outside
        exact next (.inr outside) found
      · rename_i inside
        obtain ⟨rfl, rfl⟩ := List.cons.inj found
        exact ⟨[], rfl, other, inside, fun _ member => absurd member not_mem_nil⟩

theorem filter_candidate :
    (first :: rest).filter (fun pOrTerm => pOrTerm.leftCursor = first.leftCursor) =
      a.filter fun pOrTerm => pOrTerm.leftCursor = first.leftCursor := by
  obtain ⟨before, rfl, other, inside, skipped⟩ := candidate_eq found
  have none : before.filter (fun pOrTerm => decide (pOrTerm.leftCursor = first.leftCursor)) =
      [] := by
    rw [filter_eq_nil_iff]
    intro pOrTerm member
    simp only [decide_eq_true_eq]
    intro same
    rcases skipped pOrTerm member with old | outside
    · exact other (same.symm.trans old)
    · exact inside (same ▸ outside)
  rw [filter_append, none, nil_append]

end

variable {pSchema : Schema} {pTerm term : WhereTerm}

theorem Derived.op_eq_iff (derived : Derived pSchema pTerm term) :
    term.pExpr.op? = some (.compare .eq) ↔ pTerm.pExpr.op? = some (.compare .eq) := by
  rcases derived.pExpr with same | ⟨commute, c, op⟩
  · rw [same]
  · cases expr : pTerm.pExpr with
    | null => simp [expr, op?] at op
    | node d pLeft pRight pList =>
      rw [expr, op?, Option.some_inj] at op
      rw [commute, expr, op_commute op, op?, op]
      cases c <;> simp [commuted]

theorem op_eq_of_operatorMask {op : Op} (eq : operatorMask op &&& woEq ≠ 0) :
    op = .compare .eq := by
  cases op with
  | compare c => cases c <;> simp [operatorMask, woEq, woGt, woLe, woLt, woGe] at eq ⊢
  | _ => simp [operatorMask, woEq, woIn, woIsNull] at eq

theorem Derived.op_eq (derived : Derived pSchema pTerm term) (eq : term.eOperator &&& woEq ≠ 0) :
    term.pExpr.op? = some (.compare .eq) := by
  rcases derived.onLeft with zero | ⟨-, -, -, op, opMask, opOf, exact | ⟨isEq, -⟩⟩
  · exact absurd (by rw [zero]; rfl) eq
  · have mask : operatorMask op &&& woEq ≠ 0 := by
      intro none
      apply eq
      rw [exact, BitVec.and_assoc, BitVec.and_comm opMask, ← BitVec.and_assoc, none]
      simp
    rw [opOf, op_eq_of_operatorMask mask]
  · rw [opOf, isEq]

theorem analyzed_flags (plain : pTerm.isVirtual = false) (single : pTerm.isCopied = false) :
    (analyzed pMaskSet pSchema pTerm).1.isVirtual = false ∧
      (analyzed pMaskSet pSchema pTerm).1.isCopied = (analyzed pMaskSet pSchema pTerm).2.isSome ∧
      ∀ copy, (analyzed pMaskSet pSchema pTerm).2 = some copy →
        copy.isVirtual = true ∧ copy.isCopied = false := by
  rw [analyzed]
  cases pTerm.pExpr.op? with
  | none => exact ⟨plain, single, fun copy none => absurd none (by simp)⟩
  | some op =>
    dsimp only
    split
    · exact ⟨plain, single, fun copy none => absurd none (by simp)⟩
    split
    · refine ⟨?_, ?_, fun copy none => absurd none (by simp)⟩
      · split <;> exact plain
      · split <;> exact single
    split
    · refine ⟨plain, rfl, fun copy found => ?_⟩
      cases found
      exact ⟨rfl, single⟩
    · exact ⟨plain, single, fun copy none => absurd none (by simp)⟩

variable {subs : List WhereTerm}

theorem getElem?_analyzeAll {i : Nat} (found : subs[i]? = some pTerm) :
    (exprAnalyzeAll pMaskSet pSchema subs)[i]? = some (analyzed pMaskSet pSchema pTerm).1 := by
  have inside : i < subs.length := (List.getElem?_eq_some_iff.mp found).1
  rw [exprAnalyzeAll_eq, getElem?_append_left (by rwa [length_map]), getElem?_map, found]
  rfl

theorem mem_analyzeAll : term ∈ exprAnalyzeAll pMaskSet pSchema subs ↔
      ∃ i pTerm, subs[i]? = some pTerm ∧ (term = (analyzed pMaskSet pSchema pTerm).1 ∨
        ∃ copy, (analyzed pMaskSet pSchema pTerm).2 = some copy ∧
          term = { copy with iParent := some i }) := by
  rw [exprAnalyzeAll_eq, mem_append, mem_map, mem_copies]
  constructor
  · rintro (⟨pTerm, member, rfl⟩ | ⟨i, pTerm, copy, found, second, rfl⟩)
    · obtain ⟨i, found⟩ := mem_iff_getElem?.mp member
      exact ⟨i, pTerm, found, .inl rfl⟩
    · exact ⟨i, pTerm, found, .inr ⟨copy, second, by rw [Nat.zero_add]⟩⟩
  · rintro ⟨i, pTerm, found, rfl | ⟨copy, second, rfl⟩⟩
    · exact .inl ⟨pTerm, mem_of_getElem? found, rfl⟩
    · exact .inr ⟨i, pTerm, copy, found, second, by rw [Nat.zero_add]⟩

theorem derived_of_mem (shaped : ∀ pTerm ∈ subs, pTerm.pExpr.shaped = true)
    (member : term ∈ exprAnalyzeAll pMaskSet pSchema subs) :
    ∃ pTerm ∈ subs, Derived pSchema pTerm term := by
  obtain ⟨i, pTerm, found, which⟩ := mem_analyzeAll.mp member
  have inside := mem_of_getElem? found
  have both := @analyzed_derived pMaskSet pSchema pTerm (shaped pTerm inside)
  refine ⟨pTerm, inside, ?_⟩
  rcases which with rfl | ⟨copy, second, rfl⟩
  · exact both.1
  · have copied := both.2 copy second
    exact ⟨copied.pExpr, copied.fromJoin, copied.onLeft⟩

/-- A cursor that shares a bit with `chngToIN` is on the left of every subterm or of its copy, and
all subterms are equalities. -/
theorem exists_taken {k : Nat} {iCursor : Int} (shaped : ∀ pTerm ∈ subs, pTerm.pExpr.shaped = true)
    (fresh : ∀ pTerm ∈ subs, pTerm.isVirtual = false ∧ pTerm.isCopied = false)
    (bit : (chngToIN pMaskSet (exprAnalyzeAll pMaskSet pSchema subs)).getLsbD k = true)
    (here : (getMask pMaskSet iCursor).getLsbD k = true) (inside : pTerm ∈ subs) :
    pTerm.pExpr.op? = some (.compare .eq) ∧
      ∃ term ∈ exprAnalyzeAll pMaskSet pSchema subs, term.leftCursor = iCursor ∧
        Derived pSchema pTerm term := by
  obtain ⟨i, found⟩ := mem_iff_getElem?.mp inside
  have derived := @analyzed_derived pMaskSet pSchema pTerm (shaped pTerm inside)
  obtain ⟨isFirst, copied, isCopy⟩ :=
    @analyzed_flags pMaskSet pSchema pTerm (fresh pTerm inside).1 (fresh pTerm inside).2
  have member : (analyzed pMaskSet pSchema pTerm).1 ∈ exprAnalyzeAll pMaskSet pSchema subs :=
    mem_analyzeAll.mpr ⟨i, pTerm, found, .inl rfl⟩
  cases second : (analyzed pMaskSet pSchema pTerm).2 with
  | none =>
    rw [second] at copied
    obtain ⟨eq, mask⟩ := (chngToIN_bit bit _ member).2 copied
    rw [subtermMask] at mask
    simp only [isFirst] at mask
    exact ⟨derived.1.op_eq_iff.mp (derived.1.op_eq eq), _, member, cursor_of_bit mask here,
      derived.1⟩
  | some copy =>
    have memberC : { copy with iParent := some i } ∈ exprAnalyzeAll pMaskSet pSchema subs :=
      mem_analyzeAll.mpr ⟨i, pTerm, found, .inr ⟨copy, second, rfl⟩⟩
    have derivedC := derived.2 copy second
    obtain ⟨isVirtual, notCopied⟩ := isCopy copy second
    obtain ⟨eq, mask⟩ := (chngToIN_bit bit _ memberC).2 notCopied
    refine ⟨derivedC.op_eq_iff.mp (derivedC.op_eq eq), ?_⟩
    have parent := @getElem?_analyzeAll pMaskSet pSchema _ _ _ found
    rw [subtermMask] at mask
    simp only [isVirtual, if_true, Option.bind_some, parent, BitVec.getLsbD_or,
      Bool.or_eq_true] at mask
    rcases mask with own | other
    · exact ⟨_, memberC, cursor_of_bit own here,
        ⟨derivedC.pExpr, derivedC.fromJoin, derivedC.onLeft⟩⟩
    · exact ⟨_, member, cursor_of_bit other here, derived.1⟩

variable {db : Engine R} {pExpr pNew : Expr}
variable {fromJoin : Bool} {iRightJoinTable : Int}

/-- The subterms of one cursor that make up the IN. -/
structure Selected (db : Engine R) (pMaskSet : WhereMaskSet) (pSchema : Schema)
    (a : List WhereTerm) (iCursor iColumn : Int) : Prop where
  bit : ∃ k, (chngToIN pMaskSet a).getLsbD k = true ∧ (getMask pMaskSet iCursor).getLsbD k = true
  column : ∀ term ∈ a, term.leftCursor = iCursor → term.leftColumn = iColumn
  affinity : ∀ term ∈ a, term.leftCursor = iCursor →
    sqlite3ExprAffinity db pSchema term.pExpr.pRight = none ∨
      sqlite3ExprAffinity db pSchema term.pExpr.pRight =
        sqlite3ExprAffinity db pSchema term.pExpr.pLeft

theorem selected_of_candidate {a rest : List WhereTerm} {first : WhereTerm} {iCursor : Int}
    (found : candidate pMaskSet (chngToIN pMaskSet a) iCursor a = first :: rest)
    (ok : okToChngToIN db pSchema first.leftCursor first.leftColumn (first :: rest) = true) :
    Selected db pMaskSet pSchema a first.leftCursor first.leftColumn := by
  obtain ⟨-, -, -, inside, -⟩ := candidate_eq found
  have each (term : WhereTerm) (member : term ∈ a) (same : term.leftCursor = first.leftCursor) :
      term.leftColumn = first.leftColumn ∧
        (sqlite3ExprAffinity db pSchema term.pExpr.pRight = none ∨
          sqlite3ExprAffinity db pSchema term.pExpr.pRight =
            sqlite3ExprAffinity db pSchema term.pExpr.pLeft) := by
    have later : term ∈ (first :: rest).filter fun pOrTerm =>
        pOrTerm.leftCursor = first.leftCursor := by
      rw [filter_candidate found, mem_filter]
      exact ⟨member, by simpa using same⟩
    have checked := all_eq_true.mp ok term (mem_of_mem_filter later)
    simpa [same] using checked
  exact ⟨exists_common_bit inside, fun term member same => (each term member same).1,
    fun term member same => (each term member same).2⟩

theorem exprAnalyzeOrTerm_some
    (added : exprAnalyzeOrTerm db pMaskSet pSchema pExpr fromJoin iRightJoinTable = some pNew) :
    ∃ iCursor iColumn,
      Selected db pMaskSet pSchema (orTerms pMaskSet pSchema pExpr fromJoin iRightJoinTable) iCursor
          iColumn ∧
        inTerm ((orTerms pMaskSet pSchema pExpr fromJoin iRightJoinTable).filter fun pOrTerm =>
          pOrTerm.leftCursor = iCursor) = some pNew := by
  rw [exprAnalyzeOrTerm] at added
  split at added
  · simp at added
  split at added
  · simp at added
  rename_i first rest found
  split at added
  · rename_i ok
    rw [filter_candidate found] at added
    exact ⟨_, _, selected_of_candidate found ok, added⟩
  split at added
  · simp at added
  rename_i other rest' found'
  split at added
  · rename_i ok
    rw [filter_candidate found'] at added
    exact ⟨_, _, selected_of_candidate found' ok, added⟩
  · simp at added

variable [LinearOrder R] {env : Env R}

omit [LinearOrder R] in
theorem skipCollate_ind {P : Expr → Expr → Prop} (null : P .null .null)
    (collate : ∀ d pLeft pRight pList z pExpr, d.op = .collate z → P pLeft pExpr →
      P (.node d pLeft pRight pList) pExpr)
    (other : ∀ d pLeft pRight pList, (∀ z, d.op ≠ .collate z) →
      P (.node d pLeft pRight pList) (.node d pLeft pRight pList)) (pExpr : Expr) :
    P pExpr (sqlite3ExprSkipCollate pExpr) := by
  induction pExpr using sqlite3ExprSkipCollate.induct with
  | case1 => exact null
  | case2 d pLeft pRight pList z op ih =>
    simp only [sqlite3ExprSkipCollate, op]
    exact collate d pLeft pRight pList z _ op ih
  | case3 d pLeft pRight pList differs =>
    rw [sqlite3ExprSkipCollate]
    split
    · rename_i z op
      exact absurd op (differs z)
    · exact other d pLeft pRight pList differs

theorem skip_ne_collate {pLeft pRight : Expr} {d : Node} {pList : ExprList}
    (skip : sqlite3ExprSkipCollate pExpr = .node d pLeft pRight pList) (zToken : String) :
    d.op ≠ .collate zToken := by
  have ends := skipCollate_ind (P := fun _ e => ∀ d l r s, e = .node d l r s →
    d.op ≠ .collate zToken) (fun _ _ _ _ null => nomatch null) (fun _ _ _ _ _ _ _ ih => ih)
    (fun d l r s differs d' l' r' s' same => by cases same; exact differs zToken) pExpr
  exact ends _ _ _ _ skip

theorem target_skip (pExpr : Expr) : (sqlite3ExprCode env (sqlite3ExprSkipCollate pExpr)).target =
      (sqlite3ExprCode env pExpr).target :=
  skipCollate_ind (P := fun e e' => (sqlite3ExprCode env e').target =
    (sqlite3ExprCode env e).target)
    rfl (fun d l r s z e op ih => by simp [op, ih, sqlite3ExprCode, codeNode, Coded.value])
    (fun _ _ _ _ _ => rfl) pExpr

omit [LinearOrder R] in
theorem affinity_skip (db : Engine R) (pSchema : Schema) (pExpr : Expr) :
    sqlite3ExprAffinity db pSchema (sqlite3ExprSkipCollate pExpr) =
      sqlite3ExprAffinity db pSchema pExpr :=
  skipCollate_ind (P := fun e e' => sqlite3ExprAffinity db pSchema e' =
    sqlite3ExprAffinity db pSchema e) rfl
    (fun d l r s z e op ih => by simp [affinity_node, op, ih]) (fun _ _ _ _ _ => rfl) pExpr

structure OnColumn (pExpr : Expr) (iCursor iColumn : Int) : Prop where
  isColumn : isColumn (sqlite3ExprSkipCollate pExpr) = true
  iTable : iTable (sqlite3ExprSkipCollate pExpr) = iCursor
  iColumn : Expr.iColumn (sqlite3ExprSkipCollate pExpr) = iColumn

variable {iCursor iColumn : Int}

theorem OnColumn.node (column : OnColumn pExpr iCursor iColumn) :
    ∃ d pLeft pRight pList, sqlite3ExprSkipCollate pExpr = .node d pLeft pRight pList ∧
      d.op = .column ∧ d.iTable = iCursor ∧ d.iColumn = iColumn := by
  obtain ⟨isColumn, iTable, iColumnOf⟩ := column
  cases skip : sqlite3ExprSkipCollate pExpr with
  | null => simp [skip, Expr.isColumn, Expr.op?] at isColumn
  | node d pLeft pRight pList =>
    rw [skip] at isColumn iTable iColumnOf
    refine ⟨d, pLeft, pRight, pList, rfl, ?_, iTable, iColumnOf⟩
    simpa [Expr.isColumn, Expr.op?] using isColumn

theorem OnColumn.target (column : OnColumn pExpr iCursor iColumn) :
    (sqlite3ExprCode env pExpr).target = env.row (env.pSchema.cursor iCursor) iColumn := by
  obtain ⟨d, pLeft, pRight, pList, skip, op, rfl, rfl⟩ := column.node
  rw [← target_skip, skip, sqlite3ExprCode, codeNode, op]
  rfl

def affinityAt (pSchema : Schema) (iCursor iColumn : Int) : Affinity :=
  if iColumn < 0 then .integer else (pSchema.aCol (pSchema.cursor iCursor) iColumn).affinity

omit [LinearOrder R] in
theorem OnColumn.affinity {db : Engine R} {pSchema : Schema}
    (column : OnColumn pExpr iCursor iColumn) :
    sqlite3ExprAffinity db pSchema pExpr = some (affinityAt pSchema iCursor iColumn) := by
  obtain ⟨d, pLeft, pRight, pList, skip, op, rfl, rfl⟩ := column.node
  rw [← affinity_skip, skip, affinity_node, op]
  rfl

def Value.isNumber : Value R → Bool
  | .integer _ => true
  | .real _ => true
  | _ => false

/-- A column of text holds no number, since the affinity is applied when a row is stored, and
neither is a cast to text one. -/
structure Env.Typed (env : Env R) : Prop where
  column : ∀ iTable iColumn, (env.pSchema.aCol iTable iColumn).affinity = .text →
    Value.isNumber (env.row iTable iColumn) = false
  cast : ∀ v, Value.isNumber (env.vm.cast .text v) = false

theorem applyAffinity_text {db : Engine R} {v : Value R} (text : Value.isNumber v = false) :
    applyAffinity db .text v = v := by
  cases v <;> first | rfl | simp [Value.isNumber] at text

theorem isNumber_of_affinity (typed : Env.Typed env)
    (affinity : sqlite3ExprAffinity env.db env.pSchema pExpr = some .text) :
    Value.isNumber (sqlite3ExprCode env pExpr).target = false := by
  rw [← target_skip]
  rw [← affinity_skip] at affinity
  cases skip : sqlite3ExprSkipCollate pExpr with
  | null => rfl
  | node d pLeft pRight pList =>
    rw [skip, affinity_node] at affinity
    rw [sqlite3ExprCode, codeNode]
    cases op : d.op with
    | cast zToken =>
      simp only [op, Option.some_inj] at affinity
      dsimp only [Coded.value]
      split
      · rfl
      · rw [affinity]
        exact typed.cast _
    | column =>
      simp only [op, Option.some_inj, columnAffinity] at affinity
      split at affinity
      · simp at affinity
      · exact typed.column _ _ affinity
    | register pTab collate => rfl
    | collate zToken => exact absurd op (skip_ne_collate skip zToken)
    | _ => simp [op] at affinity

section

variable {pLeft pRight : Expr} {affinity : Affinity} (typed : Env.Typed env)
  (left : sqlite3ExprAffinity env.db env.pSchema pLeft = some affinity)
  (right : sqlite3ExprAffinity env.db env.pSchema pRight = none ∨
    sqlite3ExprAffinity env.db env.pSchema pRight = some affinity)

include typed left right

theorem applyAffinity_side {pSide : Expr} (side : pSide = pLeft ∨ pSide = pRight) :
    applyAffinity env.db (binaryCompareP5 env.db env.pSchema pLeft pRight)
        (sqlite3ExprCode env pSide).target =
      applyAffinity env.db affinity (sqlite3ExprCode env pSide).target := by
  rw [binaryCompareP5, left]
  rcases right with none | same
  · rw [none]
    rfl
  · rw [same]
    cases affinity with
    | text =>
      have text : Value.isNumber (sqlite3ExprCode env pSide).target = false := by
        rcases side with rfl | rfl
        · exact isNumber_of_affinity typed left
        · exact isNumber_of_affinity typed same
      exact (applyAffinity_text text).symm
    | none => rfl
    | numeric => rfl
    | integer => rfl
    | real => rfl

theorem codeCompare_eq_iff : codeCompare env .eq pLeft pRight (sqlite3ExprCode env pLeft).target
        (sqlite3ExprCode env pRight).target = some true ↔
      (sqlite3ExprCode env pLeft).target ≠ .null ∧ (sqlite3ExprCode env pRight).target ≠ .null ∧
        sqlite3MemCompare env.db (sqlite3BinaryCompareCollSeq env.pSchema pLeft pRight)
          (applyAffinity env.db affinity (sqlite3ExprCode env pLeft).target)
          (applyAffinity env.db affinity (sqlite3ExprCode env pRight).target) = .eq := by
  rw [codeCompare]
  split
  · rename_i null
    simp only [reduceCtorEq, false_iff, not_and]
    intro l r
    rcases null with h | h
    · exact absurd h l
    · exact absurd h r
  · rename_i values
    rw [not_or] at values
    rw [compareRegisters]
    rw [applyAffinity_side typed left right (.inl rfl),
      applyAffinity_side typed left right (.inr rfl)]
    simp [Comparison.holds, values]

end

theorem codeIN_iff (pLeft : Expr) (r1 : Value R) (list : List (Value R)) :
    sqlite3ExprCodeIN env pLeft r1 list = some true ↔
      r1 ≠ .null ∧ ∃ r2 ∈ list, r2 ≠ .null ∧
        sqlite3MemCompare env.db (sqlite3ExprCollSeq env.pSchema pLeft) (applyAffinity env.db
            ((sqlite3ExprAffinity env.db env.pSchema pLeft).getD .none) r1) (applyAffinity env.db
            ((sqlite3ExprAffinity env.db env.pSchema pLeft).getD .none) r2) = .eq := by
  rw [sqlite3ExprCodeIN]
  split
  · rename_i null
    split <;> simp [null]
  · rename_i real
    split
    · rename_i found
      simpa [real] using found
    · rename_i none
      have absent : ¬ ∃ r2 ∈ list, r2 ≠ .null ∧
          sqlite3MemCompare env.db (sqlite3ExprCollSeq env.pSchema pLeft)
            (applyAffinity env.db
              ((sqlite3ExprAffinity env.db env.pSchema pLeft).getD .none) r1)
            (applyAffinity env.db
              ((sqlite3ExprAffinity env.db env.pSchema pLeft).getD .none) r2) = .eq := by
        simpa using none
      split <;>
        simp only [reduceCtorEq, Option.some_inj, false_iff, not_and] <;>
        exact fun _ => absent

theorem condition_stored (lawful : env.db.Lawful) (outcome : Option Bool) :
    condition env.db (stored outcome : Value R) = outcome := by
  cases outcome with
  | none => rfl
  | some b => cases b <;> simp [stored, condition, sqlite3VdbeRealValue, lawful.one]

theorem isTrue_skip (lawful : env.db.Lawful) {c : Comparison}
    (op : (sqlite3ExprSkipCollate pExpr).op? = some (.compare c)) :
    IsTrue env (sqlite3ExprSkipCollate pExpr) ↔ IsTrue env pExpr := by
  cases pExpr with
  | null => exact Iff.rfl
  | node d pLeft pRight pList =>
    cases op' : d.op with
    | collate z =>
      have value := @target_skip R _ env (.node d pLeft pRight pList)
      cases skip : sqlite3ExprSkipCollate (.node d pLeft pRight pList) with
      | null => simp [skip, op?] at op
      | node dS lS rS sS =>
        rw [skip] at op value
        rw [op?, Option.some_inj] at op
        have coded : sqlite3ExprCode env (.node dS lS rS sS) = Coded.test (codeCompare env c lS rS
            (sqlite3ExprCode env lS).target (sqlite3ExprCode env rS).target) := by
          rw [sqlite3ExprCode, codeNode, op]
        have outer : sqlite3ExprCode env (.node d pLeft pRight pList) =
            Coded.value env.db (sqlite3ExprCode env (.node d pLeft pRight pList)).target := by
          rw [sqlite3ExprCode, codeNode, op']
          rfl
        rw [isTrue_test coded, isTrue_value outer, ← value, coded, Coded.test,
          condition_stored lawful]
    | _ =>
      rw [sqlite3ExprSkipCollate]
      simp [op']

theorem isTrue_whereSplit : ∀ {pExpr : Expr}, pExpr.shaped = true → pExpr.isNull = false →
    (IsTrue env pExpr ↔ ∃ p ∈ whereSplit .or pExpr, IsTrue env p)
  | .null, _, real => by simp [isNull] at real
  | .node d pLeft pRight pList, shaped, _ => by
    rw [whereSplit]
    split
    · simp
    · rename_i op
      rw [not_not] at op
      have hasLeft : pLeft.isNull = false := by
        rw [isNull_left shaped (by simp [op]), op]
        rfl
      have hasRight : pRight.isNull = false := by
        simp only [Expr.shaped, op, Op.hasRight, Bool.and_eq_true, beq_iff_eq] at shaped
        simpa using shaped.1.1.1.2
      rw [isTrue_or shaped op, isTrue_whereSplit (shaped_left shaped) hasLeft,
        isTrue_whereSplit (shaped_right shaped) hasRight]
      simp only [mem_append, or_and_right, exists_or]

end

section

variable {R : Type} [LinearOrder R] {env : Env R} {pMaskSet : WhereMaskSet} {pExpr pNew : Expr}
variable {fromJoin : Bool} {iRightJoinTable : Int}

theorem shaped_skip {pExpr : Expr} (shaped : pExpr.shaped = true) :
    (sqlite3ExprSkipCollate pExpr).shaped = true :=
  skipCollate_ind (P := fun e e' => e.shaped = true → e'.shaped = true) id
    (fun _ _ _ _ _ _ _ ih shaped => ih (shaped_left shaped)) (fun _ _ _ _ _ => id) pExpr shaped

theorem shaped_whereSplit : ∀ {pExpr p : Expr}, pExpr.shaped = true → p ∈ whereSplit .or pExpr →
    p.shaped = true
  | .null, p, _, member => absurd member not_mem_nil
  | .node d pLeft pRight pList, p, shaped, member => by
    rw [whereSplit] at member
    split at member
    · rwa [mem_singleton.mp member]
    · rcases mem_append.mp member with left | right
      · exact shaped_whereSplit (shaped_left shaped) left
      · exact shaped_whereSplit (shaped_right shaped) right

variable {pTerm term : WhereTerm}

theorem Derived.code (lawful : env.db.Lawful) (derived : Derived env.pSchema pTerm term) :
    sqlite3ExprCode env term.pExpr = sqlite3ExprCode env pTerm.pExpr := by
  rcases derived.pExpr with same | ⟨commute, c, op⟩
  · rw [same]
  · cases expr : pTerm.pExpr with
    | null => simp [expr, op?] at op
    | node d pLeft pRight pList =>
      rw [expr, op?, Option.some_inj] at op
      rw [commute, expr, code_commute lawful op]

theorem Derived.collSeq {pSchema : Schema} (derived : Derived pSchema pTerm term) :
    sqlite3BinaryCompareCollSeq pSchema term.pExpr.pLeft term.pExpr.pRight =
      sqlite3BinaryCompareCollSeq pSchema pTerm.pExpr.pLeft pTerm.pExpr.pRight := by
  rcases derived.pExpr with same | ⟨commute, c, op⟩
  · rw [same]
  · cases expr : pTerm.pExpr with
    | null => simp [expr, op?] at op
    | node d pLeft pRight pList => rw [commute, expr, collSeq_commute, Expr.pLeft, Expr.pRight]

theorem Derived.onColumn {pSchema : Schema} (derived : Derived pSchema pTerm term)
    (used : term.eOperator ≠ 0) : OnColumn term.pExpr.pLeft term.leftCursor term.leftColumn := by
  rcases derived.onLeft with zero | ⟨column, cursor, number, -⟩
  · exact absurd zero used
  · exact ⟨column, cursor.symm, number.symm⟩

theorem code_ofList (list : List Expr) :
    (sqlite3ExprCodeExprList env (ofList list)).map (fun e => e.2.target) =
      list.map fun p => (sqlite3ExprCode env p).target := by
  induction list with
  | nil => rfl
  | cons p rest ih => rw [ofList, sqlite3ExprCodeExprList, map_cons, map_cons, ih]

theorem isTrue_equality {pExpr : Expr} (op : pExpr.op? = some (.compare .eq)) :
    IsTrue env pExpr ↔ codeCompare env .eq pExpr.pLeft pExpr.pRight
      (sqlite3ExprCode env pExpr.pLeft).target (sqlite3ExprCode env pExpr.pRight).target =
        some true := by
  cases pExpr with
  | null => simp [op?] at op
  | node d pLeft pRight pList =>
    rw [op?, Option.some_inj] at op
    refine isTrue_test ?_
    rw [sqlite3ExprCode, codeNode, op]
    rfl

theorem isTrue_inTerm {a : List WhereTerm} (added : inTerm a = some pNew) :
    ∃ last ∈ a, pNew.pLeft = last.pExpr.pLeft ∧
      (IsTrue env pNew ↔
        sqlite3ExprCodeIN env last.pExpr.pLeft (sqlite3ExprCode env last.pExpr.pLeft).target
          (a.map fun term => (sqlite3ExprCode env term.pExpr.pRight).target) = some true) := by
  obtain ⟨last, isLast, rfl⟩ := Option.map_eq_some_iff.mp added
  refine ⟨last, mem_of_getLast? isLast, rfl, ?_⟩
  refine isTrue_test ?_
  rw [sqlite3ExprCode, codeNode]
  rw [code_ofList, map_map]
  rfl

def collateExpr (z : String) (pExpr : Expr) : Expr :=
  .node ⟨.collate z, true, false, 0, 0⟩ pExpr .null .nil

def variableExpr (iVar : Int) : Expr :=
  .node ⟨.variable "?", false, false, 0, iVar⟩ .null .null .nil

/-- A table with one column of text that is compared byte by byte; the parameters are `a`, `b` and
so on. -/
def textEnv (row : Int → Int → List UInt8) : Env Int :=
  { plainEnv (fun _ _ => ⟨.text, sqlite3FindCollSeq "BINARY"⟩)
      (fun iTable iColumn => .text (row iTable iColumn)) with
    aVar := fun iVar => .text [96 + UInt8.ofNat iVar.toNat] }

theorem textEnv_typed (row : Int → Int → List UInt8) : Env.Typed (textEnv row) where
  column := fun _ _ _ => rfl
  cast := fun _ => rfl

end

end SeSqlite.Where
