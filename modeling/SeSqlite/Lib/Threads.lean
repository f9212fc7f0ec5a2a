/- scope: general, no program is named here
   digest: Threads over a shared state and the invariants that speak of one or two of them. -/
import Mathlib.Logic.Function.Basic

set_option autoImplicit false
set_option relaxedAutoImplicit false

namespace SeSqlite.Lib.Threads

open Function

variable {ι γ σ : Type*} {common : γ → Prop} {each : γ → σ → Prop} {pair : γ → σ → σ → Prop}

/-- What is said of the shared state, of each thread and of each two threads. -/
structure Invariant (common : γ → Prop) (each : γ → σ → Prop) (pair : γ → σ → σ → Prop) (g : γ)
    (thread : ι → σ) : Prop where
  common : common g
  each : ∀ i, each g (thread i)
  pair : ∀ i j, i ≠ j → pair g (thread i) (thread j)

variable [DecidableEq ι] {g g' : γ} {thread : ι → σ} {moved : σ}

/-- A thread moves and changes the shared state. Each other thread has to stand the change by
itself and together with the moved one, and so have any two others. -/
theorem invariant_update (i : ι) (common' : common g') (own : each g' moved)
    (other : ∀ j, j ≠ i → each g' (thread j) ∧ pair g' moved (thread j) ∧ pair g' (thread j) moved)
    (others : ∀ j k, j ≠ i → k ≠ i → j ≠ k → pair g' (thread j) (thread k)) :
    Invariant common each pair g' (update thread i moved) := by
  refine ⟨common', fun j => ?_, fun j k differ => ?_⟩
  · by_cases here : j = i
    · subst here
      rwa [update_self]
    · rw [update_of_ne here]
      exact (other j here).1
  · by_cases first : j = i
    · subst first
      rw [update_self, update_of_ne differ.symm]
      exact (other k differ.symm).2.1
    · rw [update_of_ne first]
      by_cases second : k = i
      · subst second
        rw [update_self]
        exact (other j first).2.2
      · rw [update_of_ne second]
        exact others j k first second differ

theorem Invariant.moveQuietly (inv : Invariant common each pair g thread) (i : ι)
    (own : each g moved) (other : ∀ j, j ≠ i → pair g moved (thread j) ∧ pair g (thread j) moved) :
    Invariant common each pair g (update thread i moved) :=
  invariant_update i inv.common own (fun j differ => ⟨inv.each j, other j differ⟩)
    fun j k _ _ differ => inv.pair j k differ

end SeSqlite.Lib.Threads
