/- digest: Insertion into a descending list in front of equal elements, and what the first element
   with a property is after any sequence of insertions. -/
import Mathlib.Data.List.Basic
import Mathlib.Data.List.Induction
import Mathlib.Data.List.Pairwise

set_option autoImplicit false
set_option relaxedAutoImplicit false

namespace SeSqlite.Lib.SortedInsert

open List

variable {α : Type} (cmp : α → α → Ordering) (p : α → Bool)

def insertDesc (list : List α) (new : α) : List α :=
  match list with
  | [] => [new]
  | head :: rest => if cmp head new = .gt then head :: insertDesc rest new else new :: head :: rest

def Descending (list : List α) : Prop := list.Pairwise fun a b => (cmp a b).isGE

variable {cmp p} {list : List α} {new : α}

theorem mem_insertDesc {x : α} : x ∈ insertDesc cmp list new ↔ x = new ∨ x ∈ list := by
  induction list with
  | nil => simp [insertDesc]
  | cons head rest ih =>
    rw [insertDesc]
    split
    · simp only [mem_cons, ih]
      tauto
    · simp

theorem find?_insertDesc_of_false (other : p new = false) :
    (insertDesc cmp list new).find? p = list.find? p := by
  induction list with
  | nil => simp [insertDesc, other]
  | cons head rest ih =>
    rw [insertDesc]
    split
    · rw [find?_cons, find?_cons, ih]
    · simp [other]

variable [Std.TransCmp cmp]

theorem isGE_of_not_gt {a b : α} (le : ¬ cmp a b = .gt) : (cmp b a).isGE := by
  rw [@Std.OrientedCmp.eq_swap _ cmp, Ordering.isGE_swap]
  exact Ordering.ne_gt_iff_isLE.mp le

theorem descending_insertDesc (sorted : Descending cmp list) :
    Descending cmp (insertDesc cmp list new) := by
  induction list with
  | nil => simp [insertDesc, Descending]
  | cons head rest ih =>
    obtain ⟨below, sorted'⟩ := pairwise_cons.mp sorted
    rw [insertDesc]
    split
    · rename_i more
      refine pairwise_cons.mpr ⟨fun x member => ?_, ih sorted'⟩
      rcases mem_insertDesc.mp member with rfl | member
      · rw [more]
        rfl
      · exact below x member
    · rename_i le
      refine pairwise_cons.mpr ⟨fun x member => ?_, sorted⟩
      rcases mem_cons.mp member with rfl | member
      · exact isGE_of_not_gt le
      · exact Std.TransCmp.isGE_trans (isGE_of_not_gt le) (below x member)

theorem find?_insertDesc (sorted : Descending cmp list) (holds : p new = true) :
    (insertDesc cmp list new).find? p = some (match list.find? p with
      | some r => if cmp r new = .gt then r else new
      | none => new) := by
  induction list with
  | nil => simp [insertDesc, holds]
  | cons head rest ih =>
    obtain ⟨below, sorted'⟩ := pairwise_cons.mp sorted
    rw [insertDesc]
    split
    · rename_i more
      rw [find?_cons, find?_cons]
      split
      · simp [more]
      · exact ih sorted'
    · rename_i le
      rw [find?_cons, holds]
      cases found : List.find? p (head :: rest) with
      | none => rfl
      | some r =>
        have le' : ¬ cmp r new = .gt := by
          intro more
          rcases mem_cons.mp (mem_of_find?_eq_some found) with rfl | member
          · exact le more
          · have down := Std.TransCmp.gt_of_isGE_of_gt (below r member) more
            exact le down
        simp [le']

/-- What the first element with the property is: none is greater, and it was inserted after all
those equal to it. -/
structure Selected (cmp : α → α → Ordering) (p : α → Bool) (items : List α) (r : α) : Prop where
  holds : p r = true
  greatest : ∀ x ∈ items, p x = true → (cmp r x).isGE
  last : ∃ before after, items = before ++ r :: after ∧ ∀ x ∈ after, p x = true → cmp r x = .gt

omit [Std.TransCmp cmp] in
theorem Selected.keep {items : List α} {r : α} (selected : Selected cmp p items r)
    (below : p new = true → cmp r new = .gt) : Selected cmp p (items ++ [new]) r := by
  obtain ⟨holds, greatest, before, after, rfl, last⟩ := selected
  refine ⟨holds, fun x member hx => ?_, before, after ++ [new], by simp, fun x member hx => ?_⟩
  · rcases mem_append.mp member with member | member
    · exact greatest x member hx
    · obtain rfl := mem_singleton.mp member
      simp [below hx]
  · rcases mem_append.mp member with member | member
    · exact last x member hx
    · obtain rfl := mem_singleton.mp member
      exact below hx

theorem Selected.replace {items : List α} (holds : p new = true)
    (greatest : ∀ x ∈ items, p x = true → (cmp new x).isGE) :
    Selected cmp p (items ++ [new]) new := by
  refine ⟨holds, fun x member hx => ?_, items, [], rfl, by simp⟩
  rcases mem_append.mp member with member | member
  · exact greatest x member hx
  · obtain rfl := mem_singleton.mp member
    simp [show cmp x x = .eq from Std.ReflCmp.compare_self]

theorem find?_foldl (items : List α) : Descending cmp (items.foldl (insertDesc cmp) []) ∧
    match (items.foldl (insertDesc cmp) []).find? p with
    | some r => Selected cmp p items r
    | none => ∀ x ∈ items, p x = false := by
  induction items using List.reverseRecOn with
  | nil => simp [Descending]
  | append_singleton items new ih =>
    obtain ⟨sorted, selected⟩ := ih
    rw [foldl_append]
    refine ⟨descending_insertDesc sorted, ?_⟩
    dsimp only [foldl_cons, foldl_nil]
    cases holds : p new with
    | false =>
      rw [find?_insertDesc_of_false holds]
      split at selected
      · exact selected.keep (by simp [holds])
      · intro x member
        rcases mem_append.mp member with member | member
        · exact selected x member
        · obtain rfl := mem_singleton.mp member
          exact holds
    | true =>
      rw [find?_insertDesc sorted holds]
      split at selected <;> dsimp only
      · rename_i r found
        by_cases more : cmp r new = .gt
        · rw [if_pos more]
          exact selected.keep fun _ => more
        · rw [if_neg more]
          refine .replace holds fun x member hx => ?_
          exact Std.TransCmp.isGE_trans (isGE_of_not_gt more) (selected.greatest x member hx)
      · exact .replace holds fun x member hx => absurd hx (by simp [selected x member])

end SeSqlite.Lib.SortedInsert
