/- digest: Comparison functions that are total preorders on a given list of values. -/
import Mathlib.Data.List.Basic

set_option autoImplicit false
set_option relaxedAutoImplicit false

namespace SeSqlite.Lib.Comparison

variable {α : Type} {cmp : α → α → Ordering} {values : List α}

/-- What search and sorting need of a comparison of the values. -/
structure PreorderOn (cmp : α → α → Ordering) (values : List α) : Prop where
  swap : ∀ x ∈ values, ∀ y ∈ values, cmp x y = (cmp y x).swap
  trans : ∀ x ∈ values, ∀ y ∈ values, ∀ z ∈ values,
    cmp x y ≠ .gt → cmp y z ≠ .gt → cmp x z ≠ .gt
  alike : ∀ x ∈ values, ∀ y ∈ values, ∀ z ∈ values, cmp x y = .eq → cmp x z = cmp y z

theorem preorderOn_of (swap : ∀ x ∈ values, ∀ y ∈ values, cmp x y = (cmp y x).swap)
    (trans : ∀ x ∈ values, ∀ y ∈ values, ∀ z ∈ values,
      cmp x y ≠ .gt → cmp y z ≠ .gt → cmp x z ≠ .gt) : PreorderOn cmp values := by
  refine ⟨swap, trans, fun x hx y hy z hz same => ?_⟩
  have back : cmp y x = .eq := by rw [swap y hy x hx, same]; rfl
  have down := trans x hx y hy z hz (by simp [same])
  have up := trans y hy x hx z hz (by simp [back])
  have down' := trans z hz x hx y hy
  have up' := trans z hz y hy x hx
  rw [swap z hz x hx, swap z hz y hy, same] at down'
  rw [swap z hz x hx, swap z hz y hy, back] at up'
  revert down up down' up'
  cases cmp x z <;> cases cmp y z <;> simp

end SeSqlite.Lib.Comparison
