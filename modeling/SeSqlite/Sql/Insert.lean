/- source: src/insert.c
   digest: The sources of an INSERT without a column list, and the label injected into each. -/
import Mathlib.Data.List.Dedup

set_option autoImplicit false
set_option relaxedAutoImplicit false

namespace SeSqlite.Sql

open List

/-- What the statements need to know of the values a column can hold. -/
class SqlValue (V : Type) where
  null : V
  integer : Int → V

inductive CompoundOp where
  | all
  | union
  | intersect
  | except
  deriving DecidableEq, Repr

/-- A SELECT as the chain of its `pPrior` terms. Each term has its result columns and the
rows it computes them from. -/
inductive Query (ρ V : Type) where
  | simple (pEList : List (ρ → V)) (rows : List ρ)
  | compound (pPrior : Query ρ V) (op : CompoundOp) (pEList : List (ρ → V)) (rows : List ρ)

/-- Where the values of an INSERT come from. One row of VALUES is a list of values, several
rows are a compound SELECT. -/
inductive Source (ρ V : Type) where
  | defaultValues
  | values (pList : List V)
  | select (pSelect : Query ρ V)

section

variable {ρ V : Type}

/-- The label is appended to the result columns of every term. -/
def Query.inject (label : V) : Query ρ V → Query ρ V
  | .simple pEList rows => .simple (pEList ++ [fun _ : ρ => label]) rows
  | .compound pPrior op pEList rows =>
    .compound (pPrior.inject label) op (pEList ++ [fun _ : ρ => label]) rows

/-- The rewriting of `sqlite3Insert`; DEFAULT VALUES has no list, so that one is created. -/
def Source.inject (label : V) : Source ρ V → Source ρ V
  | .defaultValues => .values [label]
  | .values pList => .values (pList ++ [label])
  | .select pSelect => .select (pSelect.inject label)

private theorem map_label (pEList : List (ρ → V)) (label : V) (rows : List ρ) :
    (rows.map fun r => (pEList ++ [fun _ : ρ => label]).map fun e => e r) =
      (rows.map fun r => pEList.map fun e => e r).map fun row => row ++ [label] := by
  simp

variable [DecidableEq V]

def CompoundOp.combine (left right : List (List V)) : CompoundOp → List (List V)
  | .all => left ++ right
  | .union => (left ++ right).dedup
  | .intersect => (left.filter fun row => row ∈ right).dedup
  | .except => (left.filter fun row => row ∉ right).dedup

/-- The number of result columns and the rows; terms of different width are an error. -/
def Query.eval : Query ρ V → Option (Nat × List (List V))
  | .simple pEList rows => some (pEList.length, rows.map fun r => pEList.map fun e => e r)
  | .compound pPrior op pEList rows =>
    pPrior.eval.bind fun left =>
      if left.1 = pEList.length then
        some (pEList.length, op.combine left.2 (rows.map fun r => pEList.map fun e => e r))
      else none

def Source.eval : Source ρ V → Option (Nat × List (List V))
  | .defaultValues => some (0, [[]])
  | .values pList => some (pList.length, [pList])
  | .select pSelect => pSelect.eval

/-- The rows that the insertion loop gets, one value for each of `nCol` columns. -/
def insertRows (nCol : Nat) (label : V) (source : Source ρ V) : Option (List (List V)) :=
  (source.inject label).eval.bind fun (nColumn, rows) => if nColumn = nCol then some rows else none

theorem CompoundOp.combine_label (op : CompoundOp) (label : V) (left right : List (List V)) :
    op.combine (left.map fun row => row ++ [label]) (right.map fun row => row ++ [label]) =
      (op.combine left right).map fun row => row ++ [label] := by
  have injective : Function.Injective fun row : List V => row ++ [label] :=
    fun _ _ eq => append_cancel_right eq
  have member : ∀ row, row ++ [label] ∈ right.map (fun row => row ++ [label]) ↔ row ∈ right :=
    fun row => mem_map_of_injective injective
  cases op with
  | all => simp [combine]
  | union => simp [combine, ← map_append, dedup_map_of_injective injective]
  | intersect =>
    simp only [combine, filter_map, Function.comp_def, member, dedup_map_of_injective injective]
  | except =>
    simp only [combine, filter_map, Function.comp_def, member, dedup_map_of_injective injective]

theorem Query.eval_inject (label : V) (query : Query ρ V) : (query.inject label).eval =
      query.eval.map fun p => (p.1 + 1, p.2.map fun row => row ++ [label]) := by
  induction query with
  | simple pEList rows => simp [inject, eval]
  | compound pPrior op pEList rows ih =>
    rw [inject, eval, ih, eval]
    cases pPrior.eval with
    | none => rfl
    | some left =>
      simp only [Option.map_some, Option.bind_some, length_append, length_singleton,
        Nat.add_right_cancel_iff, map_label, CompoundOp.combine_label]
      split <;> rfl

theorem Source.eval_inject (label : V) (source : Source ρ V) : (source.inject label).eval =
      source.eval.map fun p => (p.1 + 1, p.2.map fun row => row ++ [label]) := by
  cases source with
  | defaultValues => rfl
  | values pList => simp [inject, eval]
  | select pSelect => exact pSelect.eval_inject label

/-- DEFAULT VALUES is refused by a table that has another column beside that of the label. -/
theorem insertRows_defaultValues (nCol : Nat) (label : V) :
    insertRows nCol label (.defaultValues : Source ρ V) = none ↔ nCol ≠ 1 := by
  simp [insertRows, Source.inject, Source.eval, eq_comm]

theorem Source.length_of_eval {source : Source ρ V} {n : Nat} {rows : List (List V)}
    (evaluates : source.eval = some (n, rows)) : ∀ row ∈ rows, row.length = n := by
  have combined : ∀ (op : CompoundOp) (left right : List (List V)),
      (∀ row ∈ left, row.length = n) → (∀ row ∈ right, row.length = n) →
        ∀ row ∈ op.combine left right, row.length = n := by
    intro op left right leftWidth rightWidth row member
    cases op <;> simp only [CompoundOp.combine, mem_append, mem_dedup, mem_filter]
      at member
    · exact member.elim (leftWidth row) (rightWidth row)
    · exact member.elim (leftWidth row) (rightWidth row)
    · exact leftWidth row member.1
    · exact leftWidth row member.1
  cases source with
  | defaultValues =>
    cases evaluates
    simp
  | values pList =>
    cases evaluates
    simp
  | select pSelect =>
    have query : pSelect.eval = some (n, rows) := evaluates
    clear evaluates
    induction pSelect generalizing rows with
    | simple pEList rs =>
      cases query
      simp
    | compound pPrior op pEList rs ih =>
      rw [Query.eval, Option.bind_eq_some_iff] at query
      obtain ⟨left, prior, query⟩ := query
      split at query
      · rename_i width
        cases query
        refine combined op _ _ (ih ?_) (by simp)
        rw [prior, ← width]
      · cases query

end

end SeSqlite.Sql
