/- scope: general, no program is named here
   digest: Pairs of partial functions that invert each other, and when an update keeps them so. -/
import Mathlib.Logic.Function.Basic

set_option autoImplicit false
set_option relaxedAutoImplicit false

namespace SeSqlite.Lib.PartialInverse

open Function

universe u v

variable {α : Type u} {β : Type v}

/-- The two partial functions have the same graph, read in opposite directions. -/
def Inverse (forth : α → Option β) (back : β → Option α) : Prop :=
  ∀ a b, forth a = some b ↔ back b = some a

variable [DecidableEq α] [DecidableEq β]

/-- Forget one argument, if one is named. -/
def forget (back : β → Option α) : Option β → β → Option α
  | none => back
  | some b => update back b none

/-- Bind an argument that is still unbound; a bound one is left alone. -/
def bindFresh (back : β → Option α) (b : β) (a : α) : β → Option α :=
  if back b = none then update back b (some a) else back

variable {forth : α → Option β} {back : β → Option α} {a : α} {old : β}
  (inverse : Inverse forth back)

include inverse

theorem inverse_bind_iff (unbound : forth a = none) (b : β) :
    Inverse (update forth a (some b)) (bindFresh back b a) ↔ back b = none := by
  unfold Inverse bindFresh at *
  constructor
  · intro after
    by_contra taken
    have found := (after a b).mp (by simp)
    rw [if_neg taken] at found
    simpa [unbound] using (inverse a b).mpr found
  · intro fresh x y
    grind

theorem inverse_unbind_iff (bound : forth a = some old) (named : Option β) :
    Inverse (update forth a none) (forget back named) ↔ named = some old := by
  have reverse : back old = some a := (inverse a old).mp bound
  unfold Inverse at *
  constructor
  · intro after
    have gone := (after a old).not.mp (by simp)
    cases named with
    | none => exact absurd reverse gone
    | some b => simp only [forget] at gone; grind
  · rintro rfl x y
    simp only [forget]
    grind

omit inverse in
omit [DecidableEq α] in
private theorem forget_apply (back : β → Option α) (named : Option β) (b : β) :
    forget back named b = if named = some b then none else back b := by
  cases named with
  | none => rfl
  | some x =>
    simp only [forget, update_apply, Option.some.injEq]
    simp [eq_comm]

theorem inverse_rebind_same_iff (bound : forth a = some old) (named : Option β) :
    Inverse (update forth a (some old)) (bindFresh (forget back named) old a) ↔
      ∀ b ∈ named, b = old ∨ back b = none := by
  have reverse : back old = some a := (inverse a old).mp bound
  have unchanged : update forth a (some old) = forth := by
    rw [← bound, update_eq_self]
  rw [unchanged]
  constructor
  · rintro after b rfl
    by_contra other
    obtain ⟨different, c, taken⟩ : b ≠ old ∧ ∃ c, back b = some c := by
      simpa [Option.ne_none_iff_exists'] using other
    have kept : forget back (some b) old = some a := by
      simp [forget_apply, different, reverse]
    have lost := (after c b).mp ((inverse c b).mpr taken)
    simp [bindFresh, kept, forget_apply] at lost
  · intro harmless x y
    rw [inverse x y]
    unfold bindFresh
    split <;> simp only [update_apply, forget_apply] at * <;> grind

theorem inverse_rebind_other_iff {b : β} (bound : forth a = some old) (other : old ≠ b)
    (named : Option β) : Inverse (update forth a (some b)) (bindFresh (forget back named) b a) ↔
      named = some old ∧ back b = none := by
  have reverse : back old = some a := (inverse a old).mp bound
  constructor
  · intro after
    have stale := (after a old).not.mp (by simp [other.symm])
    have named_old : named = some old := by
      by_contra different
      have same_old : bindFresh (forget back named) b a old = forget back named old := by
        unfold bindFresh
        split <;> simp [other]
      exact stale (by rw [same_old, forget_apply, if_neg different, reverse])
    refine ⟨named_old, ?_⟩
    by_contra taken
    have found := (after a b).mp (by simp)
    have kept : forget back named b = back b := by simp [forget_apply, named_old, other]
    rw [bindFresh, kept, if_neg taken, kept] at found
    exact other (Option.some.inj (bound.symm.trans ((inverse a b).mpr found)))
  · rintro ⟨rfl, free⟩ x y
    have fresh : forget back (some old) b = none := by simp [forget_apply, free]
    simp only [bindFresh, fresh, if_true, update_apply, forget_apply]
    grind [Inverse]

end SeSqlite.Lib.PartialInverse
