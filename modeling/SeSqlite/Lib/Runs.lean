/- scope: general, no program is named here
   digest: Guarded runs of a step function and the invariant rules they obey. -/
import Mathlib.Data.Finset.Card
import Mathlib.Data.List.Basic
import Mathlib.Logic.Function.Iterate

set_option autoImplicit false
set_option relaxedAutoImplicit false

namespace SeSqlite.Lib.Runs

variable {σ ι : Type*} (step : σ → ι → σ)

/-- Every step of the run meets `P` in the state from which it is taken. -/
def Along (P : σ → ι → Prop) : σ → List ι → Prop
  | _, [] => True
  | s, a :: rest => P s a ∧ Along P (step s a) rest

/-- Every state of the run, the first and the last included, meets `Q`. -/
def Visits (Q : σ → Prop) : σ → List ι → Prop
  | s, [] => Q s
  | s, a :: rest => Q s ∧ Visits Q (step s a) rest

@[simp] theorem along_nil (P : σ → ι → Prop) (s : σ) : Along step P s [] := trivial

@[simp] theorem along_cons (P : σ → ι → Prop) (s : σ) (a : ι) (rest : List ι) :
    Along step P s (a :: rest) ↔ P s a ∧ Along step P (step s a) rest := Iff.rfl

@[simp] theorem visits_nil (Q : σ → Prop) (s : σ) : Visits step Q s [] ↔ Q s := Iff.rfl

@[simp] theorem visits_cons (Q : σ → Prop) (s : σ) (a : ι) (rest : List ι) :
    Visits step Q s (a :: rest) ↔ Q s ∧ Visits step Q (step s a) rest := Iff.rfl

variable {Q : σ → Prop} {s : σ} {run : List ι} {P R : σ → ι → Prop}

theorem Visits.first {step : σ → ι → σ} (visits : Visits step Q s run) : Q s := by
  cases run with
  | nil => exact visits
  | cons a rest => exact visits.1

instance decidableAlong (P : σ → ι → Prop) [∀ s a, Decidable (P s a)] :
    ∀ (s : σ) (run : List ι), Decidable (Along step P s run)
  | _, [] => .isTrue trivial
  | s, a :: rest =>
    haveI := decidableAlong P (step s a) rest
    inferInstanceAs (Decidable (P s a ∧ Along step P (step s a) rest))

theorem along_of_forall (always : ∀ s a, P s a) (s : σ) (run : List ι) : Along step P s run := by
  induction run generalizing s with
  | nil => trivial
  | cons a rest ih => exact ⟨always s a, ih (step s a)⟩

theorem Along.and (first : Along step P s run) (second : Along step R s run) :
    Along step (fun s a => P s a ∧ R s a) s run := by
  induction run generalizing s with
  | nil => trivial
  | cons a rest ih => exact ⟨⟨first.1, second.1⟩, ih first.2 second.2⟩

theorem along_const_iff (P : ι → Prop) (s : σ) (run : List ι) :
    Along step (fun _ a => P a) s run ↔ ∀ a ∈ run, P a := by
  induction run generalizing s with
  | nil => simp
  | cons a rest ih => simp [ih]

variable {step}

variable {I : σ → Prop}

theorem visits_of_invariant (implies : ∀ s, I s → Q s) (keep : ∀ s a, I s → P s a → I (step s a))
    (start : I s) (guarded : Along step P s run) : Visits step Q s run := by
  induction run generalizing s with
  | nil => exact implies s start
  | cons a rest ih => exact ⟨implies s start, ih (keep s a start guarded.1) guarded.2⟩

theorem along_of_invariant (keep : ∀ s a, I s → P s a → I (step s a))
    (yields : ∀ s a, I s → P s a → R s a) (start : I s) (guarded : Along step P s run) :
    Along step R s run := by
  induction run generalizing s with
  | nil => trivial
  | cons a rest ih =>
    exact ⟨yields s a start guarded.1, ih (keep s a start guarded.1) guarded.2⟩

/-- Where the guard is exactly what one step needs to keep a property that an invariant
implies, it is exactly what a whole run needs. -/
theorem visits_iff_along_of_invariant (implies : ∀ s, I s → Q s)
    (needed : ∀ s a, I s → Q (step s a) → P s a) (keep : ∀ s a, I s → P s a → I (step s a))
    (start : I s) (run : List ι) : Visits step Q s run ↔ Along step P s run := by
  induction run generalizing s with
  | nil => simpa using implies s start
  | cons a rest ih =>
    constructor
    · rintro ⟨-, later⟩
      have guarded := needed s a start later.first
      exact ⟨guarded, (ih (keep s a start guarded)).mp later⟩
    · rintro ⟨guarded, later⟩
      exact ⟨implies s start, (ih (keep s a start guarded)).mpr later⟩

theorem visits_iff_along (exact_step : ∀ s a, I s → (I (step s a) ↔ P s a)) (start : I s)
    (run : List ι) : Visits step I s run ↔ Along step P s run :=
  visits_iff_along_of_invariant (fun _ holds => holds) (fun s a holds => (exact_step s a holds).mp)
    (fun s a holds => (exact_step s a holds).mpr) start run

/-- What is never regained once it is lost holds in every state of a run exactly when it
holds at the end. -/
theorem visits_iff_final (keep : ∀ s a, I s → I (step s a))
    (before : ∀ s a, I s → Q (step s a) → Q s) (start : I s) (run : List ι) :
    Visits step Q s run ↔ Q (run.foldl step s) := by
  induction run generalizing s with
  | nil => rfl
  | cons a rest ih =>
    rw [visits_cons, ih (keep s a start), List.foldl_cons, and_iff_right_iff_imp]
    intro final
    exact before s a start ((ih (keep s a start)).mpr final).first

section

variable {f : σ → σ} {x : σ}

theorem orbit_of_repeat {P : σ → Prop} {i j : Nat} (before : i < j)
    (again : f^[i] x = f^[j] x) (holds : ∀ l < j, P (f^[l] x)) (n : Nat) : P (f^[n] x) := by
  induction n using Nat.strong_induction_on with
  | _ n ih =>
    by_cases first : n < j
    · exact holds n first
    · have back : f^[n] x = f^[n - j + i] x := by
        have whole : n = n - j + j := by omega
        rw [whole, Function.iterate_add_apply, ← again, ← Function.iterate_add_apply]
        congr 2
        omega
      rw [back]
      exact ih _ (by omega)

theorem exists_repeat [DecidableEq σ] {places : Finset σ}
    (stays : ∀ l ≤ places.card, f^[l] x ∈ places) :
    ∃ i j, i < j ∧ j ≤ places.card ∧ f^[i] x = f^[j] x := by
  obtain ⟨i, low, j, high, ne, same⟩ := Finset.exists_ne_map_eq_of_card_lt_of_maps_to
    (s := Finset.range (places.card + 1)) (t := places) (f := fun l => f^[l] x)
    (by rw [Finset.card_range]; exact Nat.lt_succ_self _)
    fun l inside => stays l (Nat.lt_succ_iff.mp (Finset.mem_range.mp inside))
  rw [Finset.mem_range] at low high
  rcases Nat.lt_or_gt_of_ne ne with less | more
  · exact ⟨i, j, less, by omega, same⟩
  · exact ⟨j, i, more, by omega, same.symm⟩

end

end SeSqlite.Lib.Runs
