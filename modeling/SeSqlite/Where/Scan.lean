/- source: src/where.c, src/whereInt.h
   digest: The search for the terms on a column: which columns are taken for equal to it, and what
   a term on one of them says about the column itself. -/
import SeSqlite.Expression.Order
import SeSqlite.Where.OrTerm

set_option autoImplicit false
set_option relaxedAutoImplicit false

namespace SeSqlite.Where

open Expression List Option

section

/-- A scanner: the clause and those outside it, what is asked for, the columns found so far to be
equal to the first one, and where the search stands. -/
structure WhereScan where
  pOrigWC : List (List WhereTerm)
  zCollName : Option String
  idxaff : Affinity
  opMask : WO
  aEquiv : List (Int × Int)
  iEquiv : Nat
  pWC : List (List WhereTerm)
  k : Nat

structure Index where
  aiColumn : List Int
  azColl : List String

variable {R : Type} (db : Engine R) (pSchema : Schema)

/-- The column on the right of an equivalence is one more, if there is room for it. -/
def addEquiv (aEquiv : List (Int × Int)) (pTerm : WhereTerm) : List (Int × Int) :=
  if pTerm.eOperator &&& woEquiv ≠ 0 ∧ aEquiv.length < 11 then
    let pX := sqlite3ExprSkipCollate pTerm.pExpr.pRight
    if (Expr.iTable pX, Expr.iColumn pX) ∈ aEquiv then aEquiv
    else aEquiv ++ [(Expr.iTable pX, Expr.iColumn pX)]
  else aEquiv

/-- The affinity and the collating sequence of a term are those of the index. -/
def WhereScan.matchesIndex (pScan : WhereScan) (pTerm : WhereTerm) : Bool :=
  match pScan.zCollName with
  | none => true
  | some zCollName =>
    pTerm.eOperator &&& woIsNull ≠ 0 ||
      sqlite3IndexAffinityOk db pSchema pTerm.pExpr pScan.idxaff &&
        (sqlite3BinaryCompareCollSeq pSchema pTerm.pExpr.pLeft pTerm.pExpr.pRight).getD binaryColl =
          sqlite3FindCollSeq zCollName

/-- The term has one of the operators, fits the index, and is no equality with the first column. -/
def WhereScan.accepts (pScan : WhereScan) (pTerm : WhereTerm) : Bool :=
  pTerm.eOperator &&& pScan.opMask ≠ 0 && pScan.matchesIndex db pSchema pTerm &&
    !(pTerm.eOperator &&& woEq ≠ 0 && Expr.isColumn pTerm.pExpr.pRight &&
      pScan.aEquiv.head? = some (Expr.iTable pTerm.pExpr.pRight, Expr.iColumn pTerm.pExpr.pRight))

/-- The term is on the column; those of an ON clause count for the first column only. -/
def WhereScan.isOn (pScan : WhereScan) (column : Int × Int) (pTerm : WhereTerm) : Bool :=
  (pTerm.leftCursor, pTerm.leftColumn) = column && (pScan.iEquiv = 0 || !pTerm.fromJoin)

def scanTerms (column : Int × Int) : Nat → List WhereTerm → WhereScan →
    Option WhereTerm × WhereScan
  | k, [], pScan => (none, { pScan with k := k })
  | k, pTerm :: rest, pScan =>
    if pScan.isOn column pTerm then
      let pScan := { pScan with aEquiv := addEquiv pScan.aEquiv pTerm }
      if pScan.accepts db pSchema pTerm then (some pTerm, { pScan with k := k + 1 })
      else scanTerms column (k + 1) rest pScan
    else scanTerms column (k + 1) rest pScan

def scanClauses (column : Int × Int) : List (List WhereTerm) → WhereScan →
    Option WhereTerm × WhereScan
  | [], pScan => (none, pScan)
  | pWC :: pOuter, pScan =>
    match scanTerms db pSchema column pScan.k (pWC.drop pScan.k) { pScan with pWC := pWC :: pOuter }
      with
    | (some pTerm, pScan) => (some pTerm, pScan)
    | (none, pScan) => scanClauses column pOuter { pScan with k := 0 }

def scanEquivs : Nat → WhereScan → Option (WhereTerm × WhereScan)
  | 0, _ => none
  | rounds + 1, pScan =>
    match pScan.aEquiv[pScan.iEquiv]? with
    | none => none
    | some column =>
      match scanClauses db pSchema column pScan.pWC pScan with
      | (some pTerm, pScan) => some (pTerm, pScan)
      | (none, pScan) =>
        scanEquivs rounds
          { pScan with pWC := pScan.pOrigWC, k := 0, iEquiv := pScan.iEquiv + 1 }

/-- There are 22 slots, two for each column. -/
def whereScanNext (pScan : WhereScan) : Option (WhereTerm × WhereScan) :=
  scanEquivs db pSchema 11 pScan

def whereScanStart (pWC : List (List WhereTerm)) (iCur iColumn : Int) (opMask : WO)
    (pIdx : Option Index) : Option WhereScan :=
  let start (zCollName : Option String) : WhereScan :=
    ⟨pWC, zCollName, (pSchema.aCol (pSchema.cursor iCur) iColumn).affinity, opMask,
      [(iCur, iColumn)], 0, pWC, 0⟩
  match pIdx with
  | none => some (start none)
  | some pIdx =>
    if iColumn < 0 then some (start none)
    else ((pIdx.aiColumn.zip pIdx.azColl).lookup iColumn).map fun zColl => start (some zColl)

def whereScanInit (pWC : List (List WhereTerm)) (iCur iColumn : Int) (opMask : WO)
    (pIdx : Option Index) : Option (WhereTerm × WhereScan) :=
  (whereScanStart pSchema pWC iCur iColumn opMask pIdx).bind (whereScanNext db pSchema)

/-- What `whereScanInit` returns, and then the calls of `whereScanNext`. -/
def scanResult (pWC : List (List WhereTerm)) (iCur iColumn : Int) (opMask : WO)
    (pIdx : Option Index) : Nat → Option (WhereTerm × WhereScan)
  | 0 => whereScanInit db pSchema pWC iCur iColumn opMask pIdx
  | n + 1 =>
    (scanResult pWC iCur iColumn opMask pIdx n).bind fun found => whereScanNext db pSchema found.2

/-- A term with a constant on the right comes before the others. -/
def findLoop (notReady : Bitmask) : Nat → Option (WhereTerm × WhereScan) → Option WhereTerm →
    Option WhereTerm
  | 0, _, pResult => pResult
  | _ + 1, none, pResult => pResult
  | calls + 1, some (p, scan), pResult =>
    if p.prereqRight &&& notReady = 0 then
      if p.prereqRight = 0 ∧ p.eOperator &&& woEq ≠ 0 then some p
      else findLoop notReady calls (whereScanNext db pSchema scan) (pResult.or (some p))
    else findLoop notReady calls (whereScanNext db pSchema scan) pResult

/-- Each term is returned at most once for each of the 11 columns. -/
def findTerm (pWC : List (List WhereTerm)) (iCur iColumn : Int) (notReady : Bitmask) (op : WO)
    (pIdx : Option Index) : Option WhereTerm :=
  findLoop db pSchema notReady (12 * pWC.flatten.length + 1)
    (whereScanInit db pSchema pWC iCur iColumn op pIdx) none

variable {db : Engine R} {pSchema : Schema} {column : Int × Int}
variable {terms terms' : List WhereTerm} {pScan pScan' : WhereScan} {pTerm : WhereTerm}

def rightColumn (pTerm : WhereTerm) : Int × Int :=
  (Expr.iTable (sqlite3ExprSkipCollate pTerm.pExpr.pRight),
    Expr.iColumn (sqlite3ExprSkipCollate pTerm.pExpr.pRight))

/-- What a search through some terms keeps, and which columns it adds. -/
structure Advanced (column : Int × Int) (terms : List WhereTerm) (pScan pScan' : WhereScan) :
    Prop where
  pOrigWC : pScan'.pOrigWC = pScan.pOrigWC
  zCollName : pScan'.zCollName = pScan.zCollName
  idxaff : pScan'.idxaff = pScan.idxaff
  opMask : pScan'.opMask = pScan.opMask
  iEquiv : pScan'.iEquiv = pScan.iEquiv
  keeps : pScan.aEquiv <+: pScan'.aEquiv
  room : pScan.aEquiv.length ≤ 11 → pScan'.aEquiv.length ≤ 11
  equivs : ∀ e ∈ pScan'.aEquiv, e ∈ pScan.aEquiv ∨
    ∃ t ∈ terms, (t.leftCursor, t.leftColumn) = column ∧ t.eOperator &&& woEquiv ≠ 0 ∧
      e = rightColumn t

/-- A term that a search through some terms may return. -/
structure Accepted (db : Engine R) (pSchema : Schema) (column : Int × Int)
    (terms : List WhereTerm) (pScan : WhereScan) (pTerm : WhereTerm) : Prop where
  member : pTerm ∈ terms
  isOn : (pTerm.leftCursor, pTerm.leftColumn) = column
  fromJoin : pScan.iEquiv = 0 ∨ pTerm.fromJoin = false
  opMask : pTerm.eOperator &&& pScan.opMask ≠ 0
  index : pScan.matchesIndex db pSchema pTerm = true

private theorem Advanced.refl (pScan : WhereScan) (pWC : List (List WhereTerm)) (k : Nat) :
    Advanced column terms pScan { pScan with pWC := pWC, k := k } :=
  ⟨rfl, rfl, rfl, rfl, rfl, prefix_rfl, id, fun _ member => .inl member⟩

private theorem Advanced.trans {pScan'' : WhereScan} (first : Advanced column terms pScan pScan')
    (second : Advanced column terms pScan' pScan'') : Advanced column terms pScan pScan'' where
  pOrigWC := second.pOrigWC.trans first.pOrigWC
  zCollName := second.zCollName.trans first.zCollName
  idxaff := second.idxaff.trans first.idxaff
  opMask := second.opMask.trans first.opMask
  iEquiv := second.iEquiv.trans first.iEquiv
  keeps := first.keeps.trans second.keeps
  room := second.room ∘ first.room
  equivs := by
    intro e member
    rcases second.equivs e member with before | added
    · exact first.equivs e before
    · exact .inr added

private theorem Advanced.mono (advanced : Advanced column terms pScan pScan')
    (more : ∀ t ∈ terms, t ∈ terms') : Advanced column terms' pScan pScan' where
  pOrigWC := advanced.pOrigWC
  zCollName := advanced.zCollName
  idxaff := advanced.idxaff
  opMask := advanced.opMask
  iEquiv := advanced.iEquiv
  keeps := advanced.keeps
  room := advanced.room
  equivs := by
    intro e member
    rcases advanced.equivs e member with before | ⟨t, inside, rest⟩
    · exact .inl before
    · exact .inr ⟨t, more t inside, rest⟩

private theorem Accepted.mono (accepted : Accepted db pSchema column terms pScan' pTerm)
    (advanced : Advanced column terms' pScan pScan') (more : ∀ t ∈ terms, t ∈ terms') :
    Accepted db pSchema column terms' pScan pTerm where
  member := more pTerm accepted.member
  isOn := accepted.isOn
  fromJoin := advanced.iEquiv ▸ accepted.fromJoin
  opMask := advanced.opMask ▸ accepted.opMask
  index := by
    have index := accepted.index
    rwa [WhereScan.matchesIndex, advanced.zCollName, advanced.idxaff] at index

private theorem advanced_addEquiv (isOn : (pTerm.leftCursor, pTerm.leftColumn) = column)
    (member : pTerm ∈ terms) :
    Advanced column terms pScan { pScan with aEquiv := addEquiv pScan.aEquiv pTerm } := by
  refine ⟨rfl, rfl, rfl, rfl, rfl, ?_, ?_, ?_⟩
  · rw [addEquiv]
    split
    · dsimp only
      split
      · exact prefix_rfl
      · exact prefix_append _ _
    · exact prefix_rfl
  · intro room
    rw [addEquiv]
    split
    · rename_i more
      dsimp only
      split
      · exact room
      · rw [length_append]
        exact more.2
    · exact room
  · intro e inside
    rw [addEquiv] at inside
    split at inside
    · rename_i equiv
      dsimp only at inside
      split at inside
      · exact .inl inside
      · rcases mem_append.mp inside with before | new
        · exact .inl before
        · exact .inr ⟨pTerm, member, isOn, equiv.1, mem_singleton.mp new⟩
    · exact .inl inside

private theorem scanTerms_spec (column : Int × Int) (k : Nat) (terms : List WhereTerm)
    (pScan : WhereScan) :
    Advanced column terms pScan (scanTerms db pSchema column k terms pScan).2 ∧
      (scanTerms db pSchema column k terms pScan).2.pWC = pScan.pWC ∧
      ∀ pTerm, (scanTerms db pSchema column k terms pScan).1 = some pTerm →
        Accepted db pSchema column terms pScan pTerm := by
  induction terms generalizing k pScan with
  | nil => exact ⟨Advanced.refl pScan _ _, rfl, fun pTerm none => absurd none (by simp [scanTerms])⟩
  | cons first rest ih =>
    have later : ∀ t ∈ rest, t ∈ first :: rest := fun t inside => mem_cons_of_mem first inside
    rw [scanTerms]
    split
    · rename_i on
      rw [WhereScan.isOn, Bool.and_eq_true, decide_eq_true_eq] at on
      have added : Advanced column (first :: rest) pScan
          { pScan with aEquiv := addEquiv pScan.aEquiv first } :=
        advanced_addEquiv on.1 mem_cons_self
      dsimp only
      split
      · rename_i accepts
        refine ⟨added.trans (Advanced.refl _ _ _), rfl, ?_⟩
        intro pTerm found
        obtain rfl := some_inj.mp found
        simp only [WhereScan.accepts, Bool.and_eq_true] at accepts
        refine ⟨mem_cons_self, on.1, ?_, by simpa using accepts.1.1, accepts.1.2⟩
        simpa using on.2
      · obtain ⟨advanced, pWC, accepted⟩ :=
          ih (k + 1) { pScan with aEquiv := addEquiv pScan.aEquiv first }
        refine ⟨added.trans (advanced.mono later), pWC, ?_⟩
        exact fun pTerm found => (accepted pTerm found).mono added later
    · obtain ⟨advanced, pWC, accepted⟩ := ih (k + 1) pScan
      refine ⟨advanced.mono later, pWC, ?_⟩
      exact fun pTerm found => (accepted pTerm found).mono (Advanced.refl _ _ _) later

private theorem scanClauses_spec (column : Int × Int) (clauses : List (List WhereTerm))
    (pScan : WhereScan) :
    Advanced column clauses.flatten pScan (scanClauses db pSchema column clauses pScan).2 ∧
      ∀ pTerm, (scanClauses db pSchema column clauses pScan).1 = some pTerm →
        Accepted db pSchema column clauses.flatten pScan pTerm ∧
          ∀ pWC ∈ (scanClauses db pSchema column clauses pScan).2.pWC, pWC ∈ clauses := by
  induction clauses generalizing pScan with
  | nil => exact ⟨Advanced.refl pScan _ _, fun pTerm none => absurd none (by simp [scanClauses])⟩
  | cons pWC pOuter ih =>
    have here : ∀ t ∈ pWC.drop pScan.k, t ∈ (pWC :: pOuter).flatten := fun t inside =>
      mem_flatten.mpr ⟨pWC, mem_cons_self, mem_of_mem_drop inside⟩
    have later : ∀ t ∈ pOuter.flatten, t ∈ (pWC :: pOuter).flatten := fun t inside => by
      exact mem_append_right pWC inside
    obtain ⟨advanced, clause, accepted⟩ := @scanTerms_spec R db pSchema column
      pScan.k (pWC.drop pScan.k) { pScan with pWC := pWC :: pOuter }
    have start : Advanced column (pWC :: pOuter).flatten pScan
        { pScan with pWC := pWC :: pOuter } := Advanced.refl _ _ _
    rw [scanClauses]
    split
    · rename_i pTerm pScan' result
      rw [result] at advanced clause accepted
      refine ⟨start.trans (advanced.mono here), ?_⟩
      intro pTerm' found
      refine ⟨(accepted pTerm' found).mono start here, ?_⟩
      rw [clause]
      exact fun _ inside => inside
    · rename_i pScan' result
      rw [result] at advanced
      have next : Advanced column (pWC :: pOuter).flatten pScan { pScan' with k := 0 } :=
        (start.trans (advanced.mono here)).trans (Advanced.refl _ _ _)
      obtain ⟨advanced', found'⟩ := ih { pScan' with k := 0 }
      refine ⟨next.trans (advanced'.mono later), ?_⟩
      intro pTerm found
      obtain ⟨accepted', inside⟩ := found' pTerm found
      exact ⟨accepted'.mono next later, fun c member => mem_cons_of_mem pWC (inside c member)⟩

variable {pWC : List (List WhereTerm)} {iCur iColumn : Int} {opMask : WO} {pIdx : Option Index}

/-- Equalities of two columns that lead from one column to another. -/
inductive Chain (terms : List WhereTerm) (first : Int × Int) : List WhereTerm → Int × Int → Prop
  | here : Chain terms first [] first
  | link {links : List WhereTerm} {last : Int × Int} {pTerm : WhereTerm}
      (before : Chain terms first links last) (member : pTerm ∈ terms)
      (equiv : pTerm.eOperator &&& woEquiv ≠ 0)
      (left : (pTerm.leftCursor, pTerm.leftColumn) = last) :
      Chain terms first (links ++ [pTerm]) (rightColumn pTerm)

theorem Chain.eq_of_nil {first last : Int × Int} {links : List WhereTerm}
    (chain : Chain terms first links last) (none : links = []) : last = first := by
  cases chain with
  | here => rfl
  | link before member equiv left => simp at none

structure Searching (pWC : List (List WhereTerm)) (first : Int × Int) (opMask : WO)
    (zCollName : Option String) (idxaff : Affinity) (pScan : WhereScan) : Prop where
  pOrigWC : pScan.pOrigWC = pWC
  zCollName : pScan.zCollName = zCollName
  idxaff : pScan.idxaff = idxaff
  opMask : pScan.opMask = opMask
  clauses : ∀ clause ∈ pScan.pWC, clause ∈ pWC
  head : pScan.aEquiv.head? = some first
  room : pScan.aEquiv.length ≤ 11
  chains : ∀ e ∈ pScan.aEquiv, ∃ links, Chain pWC.flatten first links e

structure Returned (db : Engine R) (pSchema : Schema) (pWC : List (List WhereTerm))
    (first : Int × Int) (opMask : WO) (zCollName : Option String) (idxaff : Affinity)
    (links : List WhereTerm) (pTerm : WhereTerm) : Prop where
  member : pTerm ∈ pWC.flatten
  chain : Chain pWC.flatten first links (pTerm.leftCursor, pTerm.leftColumn)
  /-- A term of an ON clause is on the column itself. -/
  fromJoin : links = [] ∨ pTerm.fromJoin = false
  opMask : pTerm.eOperator &&& opMask ≠ 0
  affinity : zCollName ≠ none → pTerm.eOperator &&& woIsNull = 0 →
    sqlite3IndexAffinityOk db pSchema pTerm.pExpr idxaff = true
  collation : ∀ z, zCollName = some z → pTerm.eOperator &&& woIsNull = 0 →
    (sqlite3BinaryCompareCollSeq pSchema pTerm.pExpr.pLeft pTerm.pExpr.pRight).getD binaryColl =
      sqlite3FindCollSeq z

variable {first : Int × Int} {zCollName : Option String} {idxaff : Affinity}

section

variable {column : Int × Int} {clauses : List (List WhereTerm)}
  (searching : Searching pWC first opMask zCollName idxaff pScan)
  (at_column : pScan.aEquiv[pScan.iEquiv]? = some column)
  (inside : ∀ clause ∈ clauses, clause ∈ pWC)

include searching at_column inside

private theorem searching_round (advanced : Advanced column clauses.flatten pScan pScan')
    (inside' : ∀ clause ∈ pScan'.pWC, clause ∈ pWC) :
    Searching pWC first opMask zCollName idxaff pScan' where
  pOrigWC := advanced.pOrigWC.trans searching.pOrigWC
  zCollName := advanced.zCollName.trans searching.zCollName
  idxaff := advanced.idxaff.trans searching.idxaff
  opMask := advanced.opMask.trans searching.opMask
  clauses := inside'
  head := by
    obtain ⟨more, keeps⟩ := advanced.keeps
    rw [← keeps, head?_append, searching.head, some_or]
  room := advanced.room searching.room
  chains := by
    intro e member
    rcases advanced.equivs e member with before | ⟨t, found, isOn, equiv, rfl⟩
    · exact searching.chains e before
    · obtain ⟨links, chain⟩ := searching.chains column (mem_of_getElem? at_column)
      obtain ⟨clause, here, there⟩ := mem_flatten.mp found
      have known : t ∈ pWC.flatten := mem_flatten.mpr ⟨clause, inside clause here, there⟩
      exact ⟨links ++ [t], .link chain known equiv isOn⟩

private theorem returned_of_accepted
    (accepted : Accepted db pSchema column clauses.flatten pScan pTerm) :
    ∃ links, Returned db pSchema pWC first opMask zCollName idxaff links pTerm := by
  have chosen : ∃ links, Chain pWC.flatten first links column ∧
      (links = [] ∨ pTerm.fromJoin = false) := by
    rcases accepted.fromJoin with zero | plain
    · have same : column = first := by
        rw [zero, ← head?_eq_getElem?, searching.head] at at_column
        exact (some_inj.mp at_column).symm
      exact ⟨[], same ▸ .here, .inl rfl⟩
    · obtain ⟨links, chain⟩ := searching.chains column (mem_of_getElem? at_column)
      exact ⟨links, chain, .inr plain⟩
  obtain ⟨links, chain, fromJoin⟩ := chosen
  have matching := accepted.index
  rw [WhereScan.matchesIndex, searching.zCollName, searching.idxaff] at matching
  obtain ⟨clause, here, there⟩ := mem_flatten.mp accepted.member
  refine ⟨links, mem_flatten.mpr ⟨clause, inside clause here, there⟩,
    accepted.isOn ▸ chain, fromJoin, searching.opMask ▸ accepted.opMask, ?_, ?_⟩
  · intro index notNull
    cases zCollName with
    | none => exact absurd rfl index
    | some z => simp_all
  · intro z index notNull
    simp_all

end

private theorem scanEquivs_spec (rounds : Nat)
    (searching : Searching pWC first opMask zCollName idxaff pScan)
    (found : scanEquivs db pSchema rounds pScan = some (pTerm, pScan')) :
    Searching pWC first opMask zCollName idxaff pScan' ∧
      ∃ links, Returned db pSchema pWC first opMask zCollName idxaff links pTerm := by
  induction rounds generalizing pScan with
  | zero => exact absurd found (by simp [scanEquivs])
  | succ rounds ih =>
    rw [scanEquivs] at found
    split at found
    · cases found
    · rename_i column at_column
      obtain ⟨advanced, accepted⟩ :=
        @scanClauses_spec R db pSchema column pScan.pWC pScan
      split at found
      · rename_i pTerm' pScan'' result
        obtain ⟨rfl, rfl⟩ := found
        rw [result] at advanced accepted
        obtain ⟨isAccepted, inside'⟩ := accepted _ rfl
        refine ⟨searching_round searching at_column searching.clauses advanced ?_, ?_⟩
        · exact fun clause member => searching.clauses clause (inside' clause member)
        · exact returned_of_accepted searching at_column searching.clauses isAccepted
      · rename_i pScan'' result
        rw [result] at advanced
        refine ih ?_ found
        have round : Searching pWC first opMask zCollName idxaff
            { pScan'' with pWC := pScan''.pOrigWC, k := 0 } := by
          refine searching_round searching at_column searching.clauses
            (advanced.trans (Advanced.refl _ _ _)) ?_
          intro clause member
          have orig := advanced.pOrigWC.trans searching.pOrigWC
          exact orig ▸ member
        exact ⟨round.pOrigWC, round.zCollName, round.idxaff, round.opMask, round.clauses,
          round.head, round.room, round.chains⟩

def scanCollName (iColumn : Int) (pIdx : Option Index) : Option String :=
  if iColumn < 0 then none
  else pIdx.bind fun pIdx => (pIdx.aiColumn.zip pIdx.azColl).lookup iColumn

private theorem searching_start
    (start : whereScanStart pSchema pWC iCur iColumn opMask pIdx = some pScan) :
    Searching pWC (iCur, iColumn) opMask (scanCollName iColumn pIdx)
      (pSchema.aCol (pSchema.cursor iCur) iColumn).affinity pScan := by
  have begins (zCollName : Option String) :
      Searching pWC (iCur, iColumn) opMask zCollName
        (pSchema.aCol (pSchema.cursor iCur) iColumn).affinity
        ⟨pWC, zCollName, (pSchema.aCol (pSchema.cursor iCur) iColumn).affinity, opMask,
          [(iCur, iColumn)], 0, pWC, 0⟩ := by
    refine ⟨rfl, rfl, rfl, rfl, fun _ member => member, rfl, by simp, ?_⟩
    intro e member
    rw [mem_singleton.mp member]
    exact ⟨[], .here⟩
  cases pIdx with
  | none =>
    obtain rfl := some_inj.mp start
    have name : scanCollName iColumn none = none := by simp [scanCollName]
    rw [name]
    exact begins none
  | some pIdx =>
    simp only [whereScanStart] at start
    split at start
    · rename_i rowid
      obtain rfl := some_inj.mp start
      rw [scanCollName, if_pos rowid]
      exact begins none
    · rename_i column
      obtain ⟨zColl, known, rfl⟩ := map_eq_some_iff.mp start
      rw [scanCollName, if_neg column, bind_some, known]
      exact begins (some zColl)

theorem scanResult_spec (n : Nat) {found : WhereTerm × WhereScan}
    (result : scanResult db pSchema pWC iCur iColumn opMask pIdx n = some found) :
    Searching pWC (iCur, iColumn) opMask (scanCollName iColumn pIdx)
        (pSchema.aCol (pSchema.cursor iCur) iColumn).affinity found.2 ∧
      ∃ links, Returned db pSchema pWC (iCur, iColumn) opMask (scanCollName iColumn pIdx)
        (pSchema.aCol (pSchema.cursor iCur) iColumn).affinity links found.1 := by
  induction n generalizing found with
  | zero =>
    obtain ⟨pScan, start, next⟩ := bind_eq_some_iff.mp result
    exact scanEquivs_spec 11 (searching_start start) next
  | succ n ih =>
    obtain ⟨before, earlier, next⟩ := bind_eq_some_iff.mp result
    exact scanEquivs_spec 11 (ih earlier).1 next

variable {op : WO}

private theorem findLoop_spec (notReady : Bitmask) (calls : Nat) (n : Nat)
    {pResult : Option WhereTerm} (before : ∀ p, pResult = some p → p.prereqRight &&& notReady = 0 ∧
      ∃ m scan, scanResult db pSchema pWC iCur iColumn op pIdx m = some (p, scan))
    (result : findLoop db pSchema notReady calls
      (scanResult db pSchema pWC iCur iColumn op pIdx n) pResult = some pTerm) :
    pTerm.prereqRight &&& notReady = 0 ∧
      ∃ m scan, scanResult db pSchema pWC iCur iColumn op pIdx m = some (pTerm, scan) := by
  induction calls generalizing n pResult with
  | zero => exact before pTerm result
  | succ calls ih =>
    cases found : scanResult db pSchema pWC iCur iColumn op pIdx n with
    | none =>
      rw [found] at result
      exact before pTerm result
    | some pair =>
      obtain ⟨p, scan⟩ := pair
      have next : whereScanNext db pSchema scan =
          scanResult db pSchema pWC iCur iColumn op pIdx (n + 1) := by
        rw [scanResult, found, bind_some]
      rw [found, findLoop, next] at result
      split at result
      · rename_i usable
        split at result
        · obtain rfl := some_inj.mp result
          exact ⟨usable, n, scan, found⟩
        · refine ih (n + 1) ?_ result
          intro q isResult
          cases pResult with
          | some old => exact before q isResult
          | none =>
            obtain rfl := some_inj.mp isResult
            exact ⟨usable, n, scan, found⟩
      · exact ih (n + 1) before result

theorem findTerm_spec (notReady : Bitmask)
    (result : findTerm db pSchema pWC iCur iColumn notReady op pIdx = some pTerm) :
    pTerm.prereqRight &&& notReady = 0 ∧
      ∃ n scan, scanResult db pSchema pWC iCur iColumn op pIdx n = some (pTerm, scan) :=
  findLoop_spec notReady _ 0 (fun _ none => absurd none (by simp)) result

end

end SeSqlite.Where
