/- source: ext/rtree/rtree.c
   digest: An operand that is not a number is converted to one, and SQL is not asked again. -/
import SeSqlite.Expression.Code

set_option autoImplicit false
set_option relaxedAutoImplicit false

namespace SeSqlite.Rtree

open Expression List

/-- `RtreeCoord`: the member that `eCoordType` selects. -/
inductive Coord (R : Type) where
  | f (f : R)
  | i (i : Int)

structure Cell (R : Type) where
  iRowid : Int
  aCoord : Nat → Coord R

/-- The cells of a node from one of them on. Those of an interior node have a child. -/
inductive Cells (R : Type) where
  | nil
  | entry (cell : Cell R) (rest : Cells R)
  | node (cell : Cell R) (child rest : Cells R)

variable {R : Type}

def Cells.append : Cells R → Cells R → Cells R
  | .nil, cells => cells
  | .entry cell rest, cells => .entry cell (rest.append cells)
  | .node cell child rest, cells => .node cell child (rest.append cells)

def Cells.entries : Cells R → List (Cell R)
  | .nil => []
  | .entry cell rest => cell :: rest.entries
  | .node _ child rest => child.entries ++ rest.entries

inductive Op where
  | eq
  | le
  | lt
  | ge
  | gt
  deriving DecidableEq

/-- A usable constraint that is offered to `xBestIndex`, with its operand. -/
structure Term (R : Type) where
  iColumn : Nat
  op : Op
  value : Value R

inductive Plan (R : Type) where
  | rowid (value : Value R)
  | query (used : List (Term R))

/-- All constraints that are used are omitted from the tests of SQL. There is room for 20. -/
def rtreeBestIndex (used : List (Term R)) : List (Term R) → Plan R
  | [] => .query used
  | p :: rest =>
    if 20 ≤ used.length then .query used
    else if p.iColumn = 0 ∧ p.op = .eq then .rowid p.value
    else rtreeBestIndex (if 0 < p.iColumn then used ++ [p] else used) rest

structure Constraint (R : Type) where
  iCoord : Nat
  op : Op
  rValue : R

variable [LinearOrder R] (db : Engine R)

def dcoord : Coord R → R
  | .f f => f
  | .i i => db.double i

def Op.holds : Op → R → R → Bool
  | .eq, coord, rValue => coord = rValue
  | .le, coord, rValue => coord ≤ rValue
  | .lt, coord, rValue => coord < rValue
  | .ge, coord, rValue => rValue ≤ coord
  | .gt, coord, rValue => rValue < coord

/-- No coordinate from `min` to `max` can satisfy the constraint. -/
def Op.excludes : Op → (min max rValue : R) → Bool
  | .eq, min, max, rValue => max < rValue ∨ rValue < min
  | .le, min, _, rValue => rValue < min
  | .lt, min, _, rValue => rValue < min
  | .ge, _, max, rValue => max < rValue
  | .gt, _, max, rValue => max < rValue

def Cell.min (cell : Cell R) (i : Nat) : R := dcoord db (cell.aCoord (i / 2 * 2))

def Cell.max (cell : Cell R) (i : Nat) : R := dcoord db (cell.aCoord (i / 2 * 2 + 1))

def testRtreeCell (aConstraint : List (Constraint R)) (cell : Cell R) : Bool :=
  aConstraint.any fun p => p.op.excludes (cell.min db p.iCoord) (cell.max db p.iCoord) p.rValue

def testRtreeEntry (aConstraint : List (Constraint R)) (cell : Cell R) : Bool :=
  aConstraint.all fun p => p.op.holds (dcoord db (cell.aCoord p.iCoord)) p.rValue

/-- The first entry that passes, and the cells that `rtreeNext` has still to visit, on this level
and on those above. -/
def descendToCell (aConstraint : List (Constraint R)) : Cells R → Option (Cell R × Cells R)
  | .nil => none
  | .entry cell rest =>
    if testRtreeEntry db aConstraint cell then some (cell, rest)
    else descendToCell aConstraint rest
  | .node cell child rest =>
    if testRtreeCell db aConstraint cell then descendToCell aConstraint rest
    else match descendToCell aConstraint child with
      | some (found, left) => some (found, left.append rest)
      | none => descendToCell aConstraint rest

/-- The rows that so many calls of `rtreeNext` give. -/
def rtreeNext (aConstraint : List (Constraint R)) : Nat → Cells R → List (Cell R)
  | 0, _ => []
  | n + 1, cells =>
    match descendToCell db aConstraint cells with
    | some (found, rest) => found :: rtreeNext aConstraint n rest
    | none => []

def rtreeFilter (root : Cells R) : Plan R → List (Cell R)
  | .rowid value =>
    (root.entries.find? fun cell => cell.iRowid = sqlite3VdbeIntValue db value).toList
  | .query used =>
    rtreeNext db (used.map fun p => ⟨p.iColumn - 1, p.op, sqlite3VdbeRealValue db p.value⟩)
      root.entries.length root

/-- The box of an interior cell holds the coordinates of the entries below. -/
def Cells.Boxed : Cells R → Prop
  | .nil => True
  | .entry _ rest => rest.Boxed
  | .node cell child rest =>
    (∀ e ∈ child.entries, ∀ i, cell.min db i ≤ dcoord db (e.aCoord i) ∧
      dcoord db (e.aCoord i) ≤ cell.max db i) ∧ child.Boxed ∧ rest.Boxed

section

variable {db} {aConstraint : List (Constraint R)} {cells : Cells R}

omit [LinearOrder R] in
@[simp] theorem entries_append (left right : Cells R) :
    (left.append right).entries = left.entries ++ right.entries := by
  induction left with
  | nil => rfl
  | entry cell rest ih => simp [Cells.append, Cells.entries, ih]
  | node cell child rest _ ih => simp [Cells.append, Cells.entries, ih]

theorem boxed_append {left right : Cells R} (boxed : left.Boxed db) (boxed' : right.Boxed db) :
    (left.append right).Boxed db := by
  induction left with
  | nil => exact boxed'
  | entry cell rest ih => exact ih boxed
  | node cell child rest _ ih => exact ⟨boxed.1, boxed.2.1, ih boxed.2.2⟩

theorem not_holds_of_excludes {op : Op} {min max coord rValue : R} (low : min ≤ coord)
    (high : coord ≤ max) (excludes : op.excludes min max rValue = true) :
    op.holds coord rValue = false := by
  cases op <;> simp only [Op.excludes, decide_eq_true_eq] at excludes <;>
    simp only [Op.holds, decide_eq_false_iff_not, not_le, not_lt]
  case eq =>
    rintro rfl
    rcases excludes with less | less
    · exact less.not_ge high
    · exact less.not_ge low
  case le => exact excludes.trans_le low
  case lt => exact excludes.le.trans low
  case ge => exact high.trans_lt excludes
  case gt => exact high.trans excludes.le

def Cells.matching (db : Engine R) (aConstraint : List (Constraint R)) (cells : Cells R) :
    List (Cell R) :=
  cells.entries.filter (testRtreeEntry db aConstraint)

theorem pruned {cell : Cell R} {child rest : Cells R}
    (boxed : (Cells.node cell child rest).Boxed db)
    (excluded : testRtreeCell db aConstraint cell = true) : child.matching db aConstraint = [] := by
  refine filter_eq_nil_iff.mpr fun e member passes => ?_
  obtain ⟨p, listed, excludes⟩ := any_eq_true.mp excluded
  have inside := boxed.1 e member p.iCoord
  have holds := all_eq_true.mp passes p listed
  rw [not_holds_of_excludes inside.1 inside.2 excludes] at holds
  cases holds

theorem descend_spec (boxed : cells.Boxed db) (aConstraint : List (Constraint R)) :
    (descendToCell db aConstraint cells).elim (cells.matching db aConstraint = []) fun next =>
      next.2.Boxed db ∧
        cells.matching db aConstraint = next.1 :: next.2.matching db aConstraint := by
  induction cells with
  | nil => rfl
  | entry cell rest ih =>
    rw [descendToCell, Cells.matching, Cells.entries]
    split
    · rename_i passes
      exact ⟨boxed, filter_cons_of_pos passes⟩
    · rename_i fails
      rw [filter_cons_of_neg fails]
      exact ih boxed
  | node cell child rest ih ih' =>
    have below := ih boxed.2.1
    have behind := ih' boxed.2.2
    have both : (Cells.node cell child rest).matching db aConstraint =
      child.matching db aConstraint ++ rest.matching db aConstraint := filter_append ..
    rw [descendToCell, both]
    split
    · rename_i excluded
      rwa [pruned boxed excluded]
    · cases result : descendToCell db aConstraint child with
      | some next =>
        rw [result] at below
        refine ⟨boxed_append below.1 boxed.2.2, ?_⟩
        rw [below.2]
        simp [Cells.matching]
      | none =>
        rw [result] at below
        rwa [show child.matching db aConstraint = [] from below]

theorem rtreeNext_eq (boxed : cells.Boxed db) (aConstraint : List (Constraint R)) {n : Nat}
    (enough : (cells.matching db aConstraint).length ≤ n) :
    rtreeNext db aConstraint n cells = cells.matching db aConstraint := by
  induction n generalizing cells with
  | zero => exact (length_eq_zero_iff.mp (Nat.le_zero.mp enough)).symm
  | succ n ih =>
    have spec := descend_spec boxed aConstraint
    rw [rtreeNext]
    cases result : descendToCell db aConstraint cells with
    | none =>
      rw [result] at spec
      exact spec.symm
    | some next =>
      rw [result] at spec
      rw [spec.2] at enough ⊢
      exact congrArg (next.1 :: ·) (ih spec.1 (Nat.le_of_succ_le_succ enough))

end

section

/-- `rtreeColumn` -/
def Cell.column (cell : Cell R) : Nat → Value R
  | 0 => .integer cell.iRowid
  | i + 1 =>
    match cell.aCoord i with
    | .f f => .real f
    | .i i => .integer i

def Op.comparison : Op → Comparison
  | .eq => .eq
  | .le => .le
  | .lt => .lt
  | .ge => .ge
  | .gt => .gt

variable (p : Term R)

/-- The comparison in SQL, in which neither side has an affinity. -/
def Term.isTrue (cell : Cell R) : Bool :=
  p.value ≠ .null ∧
    p.op.comparison.holds (sqlite3MemCompare db none (cell.column p.iColumn) p.value)

/-- Only `=` is asked of the id, with an operand that is not an integer; a coordinate is compared
with no number at all. -/
def Term.Foreign : Prop :=
  (p.iColumn = 0 → p.op = .eq) ∧
    match p.value with
    | .integer _ => False
    | .real r => p.iColumn = 0 ∧ ∀ i, db.double i ≠ r
    | _ => True

/-- The comparison with the number that the operand is converted to. -/
def Term.passes (cell : Cell R) : Bool :=
  match p.iColumn with
  | 0 => cell.iRowid = sqlite3VdbeIntValue db p.value
  | i + 1 => p.op.holds (dcoord db (cell.aCoord i)) (sqlite3VdbeRealValue db p.value)

/-- Numbers come before texts and blobs. -/
def Term.less : Bool := p.value ≠ .null ∧ (p.op = .lt ∨ p.op = .le)

variable {db p}

theorem isTrue_eq (foreign : p.Foreign db) (cell : Cell R) : p.isTrue db cell = p.less := by
  obtain ⟨iColumn, op, value⟩ := p
  obtain ⟨id, other⟩ := foreign
  have number : ∀ i, (∃ n, cell.column i = .integer n) ∨ ∃ r, cell.column i = .real r := by
    rintro (_ | i)
    · exact .inl ⟨_, rfl⟩
    · rw [Cell.column]
      split
      · exact .inr ⟨_, rfl⟩
      · exact .inl ⟨_, rfl⟩
  cases value with
  | null => rfl
  | integer i => exact other.elim
  | real r =>
    obtain rfl : iColumn = 0 := other.1
    obtain rfl : op = .eq := id rfl
    have apart : compare (db.double cell.iRowid) r ≠ .eq := fun same =>
      other.2 _ (compare_eq_iff_eq.mp same)
    simp [Term.isTrue, Term.less, Cell.column, sqlite3MemCompare, Comparison.holds, Op.comparison,
      apart]
  | text z =>
    rcases number iColumn with ⟨n, eq⟩ | ⟨r, eq⟩ <;> cases op <;>
      simp [Term.isTrue, Term.less, eq, sqlite3MemCompare, Comparison.holds, Op.comparison]
  | blob z =>
    rcases number iColumn with ⟨n, eq⟩ | ⟨r, eq⟩ <;> cases op <;>
      simp [Term.isTrue, Term.less, eq, sqlite3MemCompare, Comparison.holds, Op.comparison]

theorem filter_const {α : Type} {l : List α} {f : α → Bool} {b : Bool} :
    l.filter f = l.filter (fun _ => b) ↔ ∀ x ∈ l, f x = b := by
  cases b
  · simp
  · simp

/-- The rows of a comparison with NULL, a text, a blob or, for the id, another real are those of SQL
exactly if every row that stands so to the number converted from the operand is true in SQL. -/
theorem constraint_exact_iff {root : Cells R} (boxed : root.Boxed db) (foreign : p.Foreign db) :
    rtreeFilter db root (rtreeBestIndex [] [p]) = root.entries.filter (p.isTrue db) ↔
      ∀ cell ∈ root.entries, p.passes db cell = p.less := by
  rw [funext (isTrue_eq foreign), ← filter_const]
  obtain ⟨iColumn, op, value⟩ := p
  cases iColumn with
  | zero =>
    obtain rfl : op = .eq := foreign.1 rfl
    simp [rtreeBestIndex, rtreeFilter, Term.less, Term.passes]
  | succ i =>
    have searched := rtreeNext_eq boxed [⟨i, op, sqlite3VdbeRealValue db value⟩]
      (length_filter_le _ _)
    have same : testRtreeEntry db [⟨i, op, sqlite3VdbeRealValue db value⟩] =
        Term.passes db ⟨i + 1, op, value⟩ := by
      funext cell
      simp [testRtreeEntry, Term.passes]
    simp [rtreeBestIndex, rtreeFilter, searched, Cells.matching, same]

/-- A row with zeros below an interior cell. -/
def zeroRow : Cells Int :=
  .node ⟨2, fun _ => .i 0⟩ (.entry ⟨1, fun _ => .i 0⟩ .nil) .nil

/-- `x0 > 'a'` is true of no row, and no row is returned. -/
theorem text_greater_exact :
    rtreeFilter plainEngine zeroRow (rtreeBestIndex [] [⟨1, .gt, .text [97]⟩]) =
      zeroRow.entries.filter (Term.isTrue plainEngine ⟨1, .gt, .text [97]⟩) :=
  have boxed : zeroRow.Boxed plainEngine :=
    ⟨by simp [Cells.entries, Cell.min, Cell.max], trivial, trivial⟩
  have foreign : Term.Foreign plainEngine ⟨1, .gt, .text [97]⟩ := ⟨nofun, trivial⟩
  (constraint_exact_iff boxed foreign).mpr (by simp [zeroRow, Cells.entries]; decide)

/-- `x0 <= NULL` is true of no row, but returns the row. -/
theorem null_compared_as_zero :
    (rtreeFilter plainEngine zeroRow (rtreeBestIndex [] [⟨1, .le, .null⟩])).map Cell.iRowid = [1] ∧
      zeroRow.entries.filter (Term.isTrue plainEngine ⟨1, .le, .null⟩) = [] := by
  decide

/-- Nothing is lost by passing over boxes: the rows are those of a scan, in its order. -/
theorem search_eq_scan {root : Cells R} (boxed : root.Boxed db) (used : List (Term R)) :
    rtreeFilter db root (.query used) = root.entries.filter (testRtreeEntry db
      (used.map fun p => ⟨p.iColumn - 1, p.op, sqlite3VdbeRealValue db p.value⟩)) :=
  rtreeNext_eq boxed _ (length_filter_le _ _)

theorem zeroRow_found :
    (rtreeFilter plainEngine zeroRow (.query [⟨1, .le, .integer 0⟩])).length = 1 :=
  (congrArg length (search_eq_scan (by simp [zeroRow, Cells.Boxed, Cells.entries, Cell.min,
    Cell.max]) _)).trans (by decide)

end

end SeSqlite.Rtree
