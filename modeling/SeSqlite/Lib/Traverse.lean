/- scope: general, no program is named here
   digest: A traversal succeeds with a list exactly when it succeeds element by element. -/
import Mathlib.Data.List.Forall2

set_option autoImplicit false
set_option relaxedAutoImplicit false

namespace SeSqlite.Lib.Traverse

open List

variable {α β ε : Type*} {xs : List α} {R : α → β → Prop}

theorem forall₂_getElem? {ys : List β} (fits : List.Forall₂ R xs ys) {j : Nat} {x : α}
    (at_j : xs[j]? = some x) : ∃ y, ys[j]? = some y ∧ R x y := by
  induction fits generalizing j with
  | nil => simp at at_j
  | cons related _ ih =>
    cases j with
    | zero => exact ⟨_, rfl, Option.some.inj at_j ▸ related⟩
    | succ j => exact ih at_j

theorem exists_forall₂ (each : ∀ x ∈ xs, ∃ y, R x y) : ∃ ys, List.Forall₂ R xs ys := by
  induction xs with
  | nil => exact ⟨[], .nil⟩
  | cons x xs ih =>
    rw [forall_mem_cons] at each
    obtain ⟨y, related⟩ := each.1
    obtain ⟨ys, rest⟩ := ih each.2
    exact ⟨y :: ys, .cons related rest⟩

theorem mapM_eq_ok_iff (f : α → Except ε β) (xs : List α) (ys : List β) :
    xs.mapM f = .ok ys ↔ List.Forall₂ (fun x y => f x = .ok y) xs ys := by
  induction xs generalizing ys with
  | nil =>
    rw [mapM_nil, forall₂_nil_left_iff]
    exact ⟨fun eq => (Except.ok.inj eq).symm, fun eq => congrArg Except.ok eq.symm⟩
  | cons x xs ih =>
    rw [mapM_cons]
    cases head : f x with
    | error e => simp [bind, Except.bind, forall₂_cons_left_iff, head]
    | ok y =>
      cases tail : xs.mapM f with
      | error e =>
        have none_fits : ∀ rest, ¬ List.Forall₂ (fun x y => f x = .ok y) xs rest := by
          intro rest fits
          cases ((ih rest).mpr fits).symm.trans tail
        simp [bind, Except.bind, forall₂_cons_left_iff, head, none_fits]
      | ok rest =>
        have fits := (ih rest).mp tail
        simp only [bind, Except.bind, pure, Except.pure, Except.ok.injEq,
          forall₂_cons_left_iff, head, exists_and_left, exists_eq_left']
        constructor
        · rintro rfl
          exact ⟨rest, fits, rfl⟩
        · rintro ⟨rest', fits', rfl⟩
          rw [Except.ok.inj (tail.symm.trans ((ih rest').mpr fits'))]

theorem mapM_eq_some_iff (f : α → Option β) (xs : List α) (ys : List β) :
    xs.mapM f = some ys ↔ List.Forall₂ (fun x y => f x = some y) xs ys := by
  induction xs generalizing ys with
  | nil =>
    rw [mapM_nil, forall₂_nil_left_iff]
    exact ⟨fun eq => (Option.some.inj eq).symm, fun eq => congrArg some eq.symm⟩
  | cons x xs ih =>
    simp only [mapM_cons, Option.pure_def, Option.bind_eq_bind, Option.bind_eq_some_iff,
      Option.some.injEq, ih, forall₂_cons_left_iff]
    constructor
    · rintro ⟨y, head, rest, tail, rfl⟩
      exact ⟨y, rest, head, tail, rfl⟩
    · rintro ⟨y, rest, head, tail, rfl⟩
      exact ⟨y, head, rest, tail, rfl⟩

end SeSqlite.Lib.Traverse
