/- source: src/insert.c, src/sqliteInt.h, src/vdbe.c
   digest: One row against the constraints of its table, and the tuples that REPLACE removes. -/
import SeSqlite.Names
import SeSqlite.Sql.Insert

set_option autoImplicit false
set_option relaxedAutoImplicit false

namespace SeSqlite.Sql

open Names List

/-- `OE_Rollback` to `OE_Replace`; `OE_Default` is the absent value. -/
inductive OnError where
  | rollback
  | abort
  | fail
  | ignore
  | replace
  deriving DecidableEq, Repr

/-- How the work on a row ends before the row is written. -/
inductive Stop where
  | rollback
  | abort
  | fail
  | ignore
  deriving DecidableEq, Repr

/-- `overrideError` of the statement, else the clause of the constraint, else `OE_Abort`. -/
def resolution (overrideError onError : Option OnError) : OnError :=
  overrideError.getD (onError.getD .abort)

def OnError.stop : OnError → Option Stop
  | .rollback => some .rollback
  | .abort => some .abort
  | .fail => some .fail
  | .ignore => some .ignore
  | .replace => none

/-- Values that can also be used as a rowid: `OP_MustBeInt`. -/
class RowidValue (V : Type) extends SqlValue V where
  mustBeInt : V → Option Int
  mustBeInt_integer : ∀ i, mustBeInt (integer i) = some i
  integer_ne_null : ∀ i, integer i ≠ null

/-- NULL and the integers are enough for runs on fixed tables. -/
instance rowidValueInt : RowidValue (Option Int) where
  null := none
  integer := some
  mustBeInt := id
  mustBeInt_integer _ := rfl
  integer_ne_null _ := Option.some_ne_none _

theorem getD_null : (SqlValue.null : Option Int).getD 0 = 0 := rfl

/-- A column affinity: applied twice it does no more than once, and NULL is NULL in all. -/
structure Affinity (V : Type) [SqlValue V] where
  apply : V → V
  apply_apply : ∀ v, apply (apply v) = apply v
  apply_eq_null : ∀ v, apply v = SqlValue.null ↔ v = SqlValue.null

/-- `SQLITE_AFF_NONE`. -/
def Affinity.none {V : Type} [SqlValue V] : Affinity V := ⟨id, fun _ => rfl, fun _ => Iff.rfl⟩

/-- A column; `notNull` is absent for `OE_None`. -/
structure ColumnDef (V : Type) [SqlValue V] where
  zName : String
  notNull : Option (Option OnError)
  pDflt : Option V
  affinity : Affinity V

/-- A stored tuple. The tag is no part of the record: it is given when the tuple is created
and tells which stored tuple an UPDATE has turned into which. -/
structure Tuple (V : Type) where
  tag : Nat
  rowid : Int
  values : List V
  deriving DecidableEq

/-- A column of an index and the representatives of the values its collation identifies. -/
structure IndexColumn (V : Type) where
  iField : Nat
  collate : V → V

/-- An index; `onError` is absent when it is not UNIQUE. -/
structure Index (V : Type) where
  aiColumn : List (IndexColumn V)
  onError : Option (Option OnError)
  pPartIdxWhere : Option (List V → Bool)

/-- A table; `pPk` is the PRIMARY KEY of a WITHOUT ROWID table, which also stands in
`pIndex`. -/
structure TableDef (V : Type) [SqlValue V] where
  zName : String
  aCol : List (ColumnDef V)
  iPKey : Option Nat
  keyConf : Option OnError
  pCheck : List (List V → Bool)
  pPk : Option (Index V)
  pIndex : List (Index V)
  withoutRowid : pPk.isSome = true → iPKey = none

/-- One uniqueness test: its resolution and the stored tuples it finds in the way. -/
structure Constraint (V : Type) where
  onError : OnError
  clash : Tuple V → Bool

section

variable {V : Type}

/-- The tests run one after the other; REPLACE removes what is in the way and goes on. -/
def resolve : List (Constraint V) → List (Tuple V) → List (Tuple V) × Option Stop
  | [], rows => (rows, none)
  | c :: rest, rows =>
    if rows.any c.clash then
      match c.onError.stop with
      | some stop => (rows, some stop)
      | none => resolve rest (rows.filter fun u => !c.clash u)
    else resolve rest rows

/-- The tuple is removed by the REPLACE of one of the tests. -/
def replaced : List (Constraint V) → List (Tuple V) → Tuple V → Bool
  | [], _, _ => false
  | c :: rest, rows, u =>
    if rows.any c.clash then
      match c.onError.stop with
      | some _ => false
      | none => c.clash u || replaced rest (rows.filter fun u => !c.clash u) u
    else replaced rest rows u

theorem resolve_fst (tests : List (Constraint V)) (rows : List (Tuple V)) :
    (resolve tests rows).1 = rows.filter fun u => !replaced tests rows u := by
  induction tests generalizing rows with
  | nil => simp [resolve, replaced]
  | cons c rest ih =>
    by_cases blocked : rows.any c.clash = true
    · cases stops : c.onError.stop with
      | some stop => simp [resolve, replaced, blocked, stops]
      | none =>
        simp [resolve, replaced, blocked, stops, ih, Bool.and_comm]
    · simp [resolve, replaced, blocked, ih]

variable {tests : List (Constraint V)} {rows : List (Tuple V)}

theorem replaced_eq_false {u : Tuple V} (clear : ∀ c ∈ tests, c.clash u = false)
    (rows : List (Tuple V)) : replaced tests rows u = false := by
  induction tests generalizing rows with
  | nil => rfl
  | cons c rest ih =>
    rw [forall_mem_cons] at clear
    rw [replaced]
    split
    · split
      · rfl
      · rw [clear.1, ih clear.2, Bool.or_self]
    · exact ih clear.2 rows

/-- A test removes a stored tuple by REPLACE if it is reached, the tests before it letting the row
pass, and finds the tuple in the way. -/
theorem replaced_iff {u : Tuple V} (stored : u ∈ rows) : replaced tests rows u = true ↔
    ∃ before c after, tests = before ++ c :: after ∧ (resolve before rows).2 = none ∧
      c.onError = .replace ∧ c.clash u = true := by
  induction tests generalizing rows with
  | nil => simp [replaced]
  | cons c rest ih =>
    have split : (∃ before d after, c :: rest = before ++ d :: after ∧
          (resolve before rows).2 = none ∧ d.onError = .replace ∧ d.clash u = true) ↔
        c.onError = .replace ∧ c.clash u = true ∨ ∃ before d after, rest = before ++ d :: after ∧
          (resolve (c :: before) rows).2 = none ∧ d.onError = .replace ∧ d.clash u = true := by
      constructor
      · rintro ⟨before, d, after, order, passes, found⟩
        cases before with
        | nil =>
          obtain ⟨rfl, -⟩ := cons_eq_cons.mp order
          exact .inl found
        | cons b before =>
          obtain ⟨rfl, tail⟩ := cons_eq_cons.mp order
          exact .inr ⟨before, d, after, tail, passes, found⟩
      · rintro (found | ⟨before, d, after, rfl, passes, found⟩)
        · exact ⟨[], c, rest, rfl, rfl, found⟩
        · exact ⟨c :: before, d, after, rfl, passes, found⟩
    rw [split, replaced]
    by_cases blocked : rows.any c.clash = true
    · cases resolution : c.onError with
      | replace =>
        simp only [resolve, blocked, if_true, resolution, OnError.stop, Bool.or_eq_true, true_and]
        by_cases here : c.clash u = true
        · simp [here]
        · rw [ih (mem_filter.mpr ⟨stored, by simpa using here⟩)]
      | _ => simp [resolve, blocked, resolution, OnError.stop]
    · have missed : c.clash u = false := by
        simpa using any_eq_false.mp (Bool.eq_false_iff.mpr blocked) u stored
      simp only [resolve, blocked, missed, Bool.false_eq_true, if_false, and_false, false_or]
      exact ih stored

theorem resolve_clear (passes : (resolve tests rows).2 = none) :
    ∀ c ∈ tests, ∀ u ∈ (resolve tests rows).1, c.clash u = false := by
  induction tests generalizing rows with
  | nil => simp
  | cons c rest ih =>
    have subset : ∀ (kept : List (Tuple V)), ∀ u ∈ (resolve rest kept).1, u ∈ kept := by
      intro kept u member
      rw [resolve_fst] at member
      exact mem_of_mem_filter member
    by_cases blocked : rows.any c.clash = true
    · cases stops : c.onError.stop with
      | some stop => simp [resolve, blocked, stops] at passes
      | none =>
        simp only [resolve, blocked, stops] at passes ⊢
        rintro d (_ | ⟨_, later⟩) u member
        · simpa using (mem_filter.mp (subset _ u member)).2
        · exact ih passes d later u member
    · simp only [resolve, blocked] at passes ⊢
      rintro d (_ | ⟨_, later⟩) u member
      · have none_clash := any_eq_false.mp (Bool.not_eq_true _ ▸ blocked) u (subset _ u member)
        simpa using none_clash
      · exact ih passes d later u member

theorem resolve_of_clear (clear : ∀ c ∈ tests, ∀ u ∈ rows, c.clash u = false) :
    resolve tests rows = (rows, none) := by
  induction tests with
  | nil => rfl
  | cons c rest ih =>
    rw [forall_mem_cons] at clear
    have free := any_eq_false.mpr fun u member => Bool.eq_false_iff.mp (clear.1 u member)
    rw [resolve, if_neg (Bool.eq_false_iff.mp free), ih clear.2]

variable [RowidValue V]

/-- The value a column reference reads; the alias of the rowid is stored as NULL. -/
def TableDef.field (pTab : TableDef V) (t : Tuple V) (i : Nat) : V :=
  if pTab.iPKey = some i then SqlValue.integer t.rowid else t.values.getD i SqlValue.null

def TableDef.visible (pTab : TableDef V) (t : Tuple V) : List V :=
  (range pTab.aCol.length).map (pTab.field t)

def Index.key (pIdx : Index V) (row : List V) : List V :=
  pIdx.aiColumn.map fun column => column.collate (row.getD column.iField SqlValue.null)

/-- The key under which a row stands in the index, if it does. -/
def Index.entry (pIdx : Index V) (row : List V) : Option (List V) :=
  if pIdx.pPartIdxWhere.all fun holds => holds row then some (pIdx.key row) else none

/-- What the b-tree of the table is ordered by. -/
def TableDef.ident (pTab : TableDef V) (t : Tuple V) : Int ⊕ List V :=
  pTab.pPk.elim (.inl t.rowid) fun pk => .inr (pk.key (pTab.visible t))

/-- The column that `T.security_context` resolves to. -/
def TableDef.labelColumn (pTab : TableDef V) : Option Nat :=
  pTab.aCol.findIdx? fun column => sqlite3StrICmp column.zName securityContextColumnName

variable [DecidableEq V]

/-- The NOT NULL test of one column. REPLACE puts the default in; without a DEFAULT clause
it is ABORT. -/
def ColumnDef.notNullValue (column : ColumnDef V) (overrideError : Option OnError) (v : V) :
    Except Stop V :=
  match column.notNull with
  | none => .ok v
  | some onError =>
    if v = SqlValue.null then
      match (resolution overrideError onError).stop, column.pDflt with
      | some stop, _ => .error stop
      | none, some dflt => .ok dflt
      | none, none => .error .abort
    else .ok v

def TableDef.notNullChecks (pTab : TableDef V) (overrideError : Option OnError)
    (values : List V) : Except Stop (List V) :=
  (pTab.aCol.zipIdx.zip values).mapM fun ((column, i), v) =>
    if pTab.iPKey = some i then .ok v else column.notNullValue overrideError v

/-- CHECK constraints are not tested under `SQLITE_IgnoreChecks`, and REPLACE is ABORT. -/
def TableDef.checkChecks (pTab : TableDef V) (ignoreChecks : Bool)
    (overrideError : Option OnError) (t : Tuple V) : Except Stop Unit :=
  if ignoreChecks || pTab.pCheck.all fun holds => holds (pTab.visible t) then .ok ()
  else .error (((overrideError.getD .abort).stop).getD .abort)

/-- The part of `sqlite3GenerateConstraintChecks` that looks at the new row alone. -/
def TableDef.prepare (pTab : TableDef V) (ignoreChecks : Bool) (overrideError : Option OnError)
    (t : Tuple V) : Except Stop (Tuple V) := do
  let values ← pTab.notNullChecks overrideError t.values
  pTab.checkChecks ignoreChecks overrideError { t with values }
  pure { t with values := List.zipWith (fun column v => column.affinity.apply v) pTab.aCol values }

/-- The test of the rowid; an UPDATE that leaves the rowid skips it. -/
def TableDef.rowidConstraint (pTab : TableDef V) (overrideError : Option OnError)
    (old : Option (Tuple V)) (new : Tuple V) : Constraint V where
  onError := resolution overrideError pTab.keyConf
  clash u := decide (old.map Tuple.rowid ≠ some new.rowid) && decide (u.rowid = new.rowid)

/-- `OP_NoConflict`: a NULL in the key conflicts with nothing. -/
def Index.conflict (pIdx : Index V) (new row : List V) : Bool :=
  match pIdx.entry new with
  | none => false
  | some key => decide (SqlValue.null ∉ key) && decide (pIdx.entry row = some key)

/-- A row does not conflict with the row it replaces. -/
def TableDef.clashes (pTab : TableDef V) (pIdx : Index V) (old : Option (Tuple V))
    (new u : Tuple V) : Bool :=
  pIdx.conflict (pTab.visible new) (pTab.visible u) &&
    old.all fun o => decide (pTab.ident u ≠ pTab.ident o)

/-- The UNIQUE indexes among those that the statement touches. -/
def TableDef.indexConstraints (pTab : TableDef V) (overrideError : Option OnError)
    (touched : Index V → Bool) (old : Option (Tuple V)) (new : Tuple V) : List (Constraint V) :=
  (pTab.pIndex.filter touched).filterMap fun pIdx =>
    pIdx.onError.map fun onError =>
      ⟨resolution overrideError onError, pTab.clashes pIdx old new⟩

/-- A rowid test that replaces waits for the UNIQUE indexes when one of them is declared
FAIL or IGNORE. -/
def TableDef.ipkLast (pTab : TableDef V) (overrideError : Option OnError) : Bool :=
  decide (resolution overrideError pTab.keyConf = .replace) &&
    decide (overrideError ≠ some .replace) &&
      pTab.pIndex.any fun pIdx =>
        decide (pIdx.onError = some (some .ignore) ∨ pIdx.onError = some (some .fail))

/-- The uniqueness tests in the order in which they are made. -/
def TableDef.constraints (pTab : TableDef V) (overrideError : Option OnError) (pkChng : Bool)
    (touched : Index V → Bool) (old : Option (Tuple V)) (new : Tuple V) : List (Constraint V) :=
  let unique := pTab.indexConstraints overrideError touched old new
  if pkChng && pTab.pPk.isNone then
    let rowid := pTab.rowidConstraint overrideError old new
    if pTab.ipkLast overrideError then unique ++ [rowid] else rowid :: unique
  else unique

theorem TableDef.mem_constraints_iff (pTab : TableDef V) {overrideError : Option OnError}
    {pkChng : Bool} {touched : Index V → Bool} {old : Option (Tuple V)} {new : Tuple V}
    {c : Constraint V} : c ∈ pTab.constraints overrideError pkChng touched old new ↔
      c ∈ pTab.indexConstraints overrideError touched old new ∨
        ((pkChng && pTab.pPk.isNone) = true ∧ c = pTab.rowidConstraint overrideError old new) := by
  rw [TableDef.constraints]
  split
  · split <;> simp [or_comm, *]
  · simp [*]

def TableDef.same (pTab : TableDef V) (t u : Tuple V) : Bool := decide (pTab.ident u = pTab.ident t)

/-- `OP_Insert`, or `OP_IdxInsert` into the PRIMARY KEY: a record under the same key is
overwritten. -/
def TableDef.put (pTab : TableDef V) (new : Tuple V) (rows : List (Tuple V)) : List (Tuple V) :=
  (rows.filter fun u => !pTab.same new u) ++ [new]

/-- The uniqueness tests and `sqlite3CompleteInsertion`; an UPDATE deletes the old record
before it inserts the new one. -/
def TableDef.writeRow (pTab : TableDef V) (tests : List (Constraint V)) (old : Option (Tuple V))
    (new : Tuple V) (rows : List (Tuple V)) : List (Tuple V) × Option Stop :=
  match resolve tests rows with
  | (rest, some stop) => (rest, some stop)
  | (rest, none) =>
    (pTab.put new (rest.filter fun u => !old.any fun o => pTab.same o u), none)

/-- The stored tuple is lost when the row is written: replaced, or overwritten by a row that
no test has found to conflict with it. -/
def TableDef.removes (pTab : TableDef V) (tests : List (Constraint V)) (old : Option (Tuple V))
    (new : Tuple V) (rows : List (Tuple V)) (u : Tuple V) : Bool :=
  replaced tests rows u ||
    ((resolve tests rows).2.isNone && pTab.same new u && !old.any fun o => pTab.same o u)

/-- What is in the table after a row: what was not lost and is not the old row, and the new
row if it was written. -/
theorem TableDef.mem_writeRow (pTab : TableDef V) (tests : List (Constraint V))
    (old : Option (Tuple V)) (new : Tuple V) (rows : List (Tuple V)) (t : Tuple V) :
    t ∈ (pTab.writeRow tests old new rows).1 ↔
      (t ∈ rows ∧ pTab.removes tests old new rows t = false ∧
        ((resolve tests rows).2 = none → (old.any fun o => pTab.same o t) = false)) ∨
      ((resolve tests rows).2 = none ∧ t = new) := by
  have left := resolve_fst tests rows
  rw [TableDef.writeRow, TableDef.removes]
  rcases outcome : resolve tests rows with ⟨rest, stop⟩
  rw [outcome] at left
  subst left
  cases stop with
  | some stop => simp
  | none =>
    simp only [TableDef.put, mem_append, mem_filter, mem_singleton, Bool.or_eq_false_iff,
      Bool.not_eq_true', true_and, and_assoc]
    refine or_congr_left (and_congr_right fun _ => and_congr_right fun _ => ?_)
    cases pTab.same new t <;> cases old.any (fun o => pTab.same o t) <;> simp

theorem TableDef.writeRow_shape (pTab : TableDef V) (tests : List (Constraint V))
    (old : Option (Tuple V)) (new : Tuple V) (rows : List (Tuple V)) :
    ∃ kept, kept.Sublist (resolve tests rows).1 ∧
      ((pTab.writeRow tests old new rows).1 = kept ∨
        (resolve tests rows).2 = none ∧ (pTab.writeRow tests old new rows).1 = kept ++ [new]) := by
  rw [TableDef.writeRow]
  rcases resolve tests rows with ⟨rest, _ | stop⟩
  · exact ⟨_, filter_sublist.trans filter_sublist, .inr ⟨rfl, rfl⟩⟩
  · exact ⟨rest, .refl _, .inl rfl⟩

end

end SeSqlite.Sql
