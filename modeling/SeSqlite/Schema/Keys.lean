/- source: ext/security/sesqlite/sesqlite_utils.c, ext/security/sesqlite/sesqlite_init.c
   digest: When the key of an object names it, and what reading back the rows gives a key. -/
import SeSqlite.Schema.Operations
import Mathlib.Data.List.Induction

set_option autoImplicit false
set_option relaxedAutoImplicit false

namespace SeSqlite.Schema

open Hash Contexts ObjectLabels List

/-- A name that neither the keys nor the nested statements take apart. -/
def Plain (z : String) : Prop := z ≠ "" ∧ ':' ∉ z.toList ∧ '\x27' ∉ z.toList

instance (z : String) : Decidable (Plain z) := by
  unfold Plain
  infer_instance

/-- An object with plain names, a column only under a table. -/
structure Object.Plain (o : Object) : Prop where
  db : Schema.Plain o.dbName
  tbl : ∀ t, o.tblName = some t → Schema.Plain t
  col : ∀ c, o.colName = some c → Schema.Plain c
  nested : o.tblName = none → o.colName = none

private theorem literal_of_no_quote : ∀ cs : List Char, '\x27' ∉ cs → literal cs = some cs
  | [], _ => rfl
  | c :: rest, absent => by
    have different : c ≠ '\x27' := fun eq => absent (by simp [eq])
    have tail := literal_of_no_quote rest fun member => absent (mem_cons_of_mem _ member)
    rw [literal, tail, Option.map_some]
    · exact fun _ eq _ => different eq
    · exact fun eq => different eq

theorem quoted_of_plain {z : String} (plain : Plain z) : quoted z = some z := by
  simp [quoted, literal_of_no_quote z.toList plain.2.2]

/-- The names of an object, taken apart at the colons in them. -/
def Object.pieces (o : Object) : List (List Char) :=
  o.dbName.toList.splitOn ':' ++ o.tblName.elim [] fun t =>
    t.toList.splitOn ':' ++ o.colName.elim [] fun c => c.toList.splitOn ':'

theorem Object.pieces_eq (o : Object) : o.pieces = o.key.toList.splitOn ':' := by
  obtain ⟨db, tbl, col⟩ := o
  rcases tbl with _ | t
  · simp [pieces, key, makeKey]
  · rcases col with _ | c <;>
      simp [pieces, key, makeKey, splitOn_append_cons_self]

theorem Object.key_eq_iff {o o' : Object} : o.key = o'.key ↔ o.pieces = o'.pieces := by
  rw [pieces_eq, pieces_eq]
  refine ⟨fun eq => by rw [eq], fun eq => String.toList_inj.mp ?_⟩
  simpa using congrArg [':'].intercalate eq

private theorem splitOn_of_plain {z : String} (plain : Plain z) :
    z.toList.splitOn ':' = [z.toList] := splitOn_eq_singleton plain.2.1

theorem Object.Plain.key_injective {o o' : Object} (plain : o.Plain) (plain' : o'.Plain)
    (eq : o.key = o'.key) : o = o' := by
  have pieces := Object.key_eq_iff.mp eq
  obtain ⟨db, tbl, col⟩ := o
  obtain ⟨db', tbl', col'⟩ := o'
  simp only [Object.pieces, splitOn_of_plain plain.db, splitOn_of_plain plain'.db] at pieces
  rcases tbl with _ | t <;> rcases tbl' with _ | t'
  · obtain rfl : col = none := plain.nested rfl
    obtain rfl : col' = none := plain'.nested rfl
    simpa [String.toList_inj] using pieces
  · simp at pieces
  · simp at pieces
  · simp only [Option.elim_some, splitOn_of_plain (plain.tbl t rfl),
      splitOn_of_plain (plain'.tbl t' rfl)] at pieces
    rcases col with _ | c <;> rcases col' with _ | c'
    · simpa [String.toList_inj] using pieces
    · simp at pieces
    · simp at pieces
    · simpa [splitOn_of_plain (plain.col c rfl), splitOn_of_plain (plain'.col c' rfl),
        String.toList_inj] using pieces

section

theorem lookup_insertKey (hash : SqliteHash String Int) (o : Object) (id : Int) (key : String) :
    lookup (insertKey hash o.dbName o.tblName o.colName id) key =
      if o.key = key then some id else lookup hash key := by
  rw [insertKey, lookup_insert]
  exact if_congr beq_iff_eq rfl rfl

theorem lookup_loadContexts (rows : List ContextRow) (key : String) :
    lookup (loadContexts rows) key =
      ((rows.filter fun row => row.object.key = key).map ContextRow.securityLabel).getLast? := by
  induction rows using List.reverseRecOn with
  | nil => exact lookup_init key
  | append_singleton rows row ih =>
    have last : loadContexts (rows ++ [row]) = insertKey (loadContexts rows) row.object.dbName
      row.object.tblName row.object.colName row.securityLabel := by simp [loadContexts]
    rw [last, lookup_insertKey, ih]
    by_cases hit : row.object.key = key <;> simp [hit]

theorem lookup_loadContexts_append (rows new : List ContextRow) (key : String) :
    lookup (loadContexts (rows ++ new)) key =
      (lookup (loadContexts new) key).or (lookup (loadContexts rows) key) := by
  simp [lookup_loadContexts]

variable {rows : List ContextRow} {key : String}

theorem lookup_loadContexts_eq_none (absent : ∀ row ∈ rows, row.object.key ≠ key) :
    lookup (loadContexts rows) key = none := by
  have empty : rows.filter (fun row => row.object.key = key) = [] := by
    simpa using absent
  simp [lookup_loadContexts, empty]

theorem lookup_loadContexts_eq_some {id : Int} {row : ContextRow} (member : row ∈ rows)
    (here : row.object.key = key)
    (agree : ∀ row ∈ rows, row.object.key = key → row.securityLabel = id) :
    lookup (loadContexts rows) key = some id := by
  rw [lookup_loadContexts]
  cases last : ((rows.filter fun row => row.object.key = key).map
      ContextRow.securityLabel).getLast? with
  | none =>
    have empty := getLast?_eq_none_iff.mp last
    simp only [map_eq_nil_iff, filter_eq_nil_iff, decide_eq_true_eq] at empty
    exact absurd here (empty row member)
  | some found =>
    obtain ⟨other, matching, rfl⟩ := mem_map.mp (mem_of_getLast? last)
    obtain ⟨present, hit⟩ := mem_filter.mp matching
    rw [agree other present (by simpa using hit)]

theorem lookup_loadContexts_filter {p : ContextRow → Bool}
    (kept : ∀ row ∈ rows, row.object.key = key → p row) :
    lookup (loadContexts (rows.filter p)) key = lookup (loadContexts rows) key := by
  have same_rows : (rows.filter p).filter (fun row => row.object.key = key) =
      rows.filter fun row => row.object.key = key := by
    rw [filter_filter]
    refine filter_congr fun row member => ?_
    by_cases hit : row.object.key = key
    · simp [kept row member hit]
    · simp [hit]
  rw [lookup_loadContexts, lookup_loadContexts, same_rows]

theorem lookup_loadContexts_map {key' : String} {f : ContextRow → ContextRow}
    (label : ∀ row, (f row).securityLabel = row.securityLabel)
    (moved : ∀ row ∈ rows, (f row).object.key = key' ↔ row.object.key = key) :
    lookup (loadContexts (rows.map f)) key' = lookup (loadContexts rows) key := by
  have same_rows : rows.filter (fun row => (f row).object.key = key') =
      rows.filter fun row => row.object.key = key :=
    filter_congr fun row member => by simp [moved row member]
  rw [lookup_loadContexts, lookup_loadContexts, filter_map, map_map]
  have labels : ContextRow.securityLabel ∘ f = ContextRow.securityLabel := funext label
  rw [labels, Function.comp_def, same_rows]

end

end SeSqlite.Schema
