/- scope: general, no program is named here
   digest: A lock of one slot that the system knows by process, held by the members of the
   processes: shared by many or had by one alone. -/
import Mathlib.Logic.Function.Basic
import SeSqlite.Lib.RecordLocks

set_option autoImplicit false
set_option relaxedAutoImplicit false

namespace SeSqlite.Lib.SharedLocks

open Lib.RecordLocks Function

variable {P C : Type*}


/-- One slot: the members that share it, those that have it for themselves, and the locks of the
processes. -/
structure Slot (process : C → P) (shared excl : C → Bool) (os : P → Held) : Prop where
  alone : ∀ c c', process c = process c' → excl c = true →
    shared c' = false ∧ (excl c' = true → c' = c)
  read : ∀ q, os q = .read ↔ ∃ c, process c = q ∧ shared c = true
  write : ∀ q, os q = .write ↔ ∃ c, process c = q ∧ excl c = true
  compatible : ∀ q q', q ≠ q' → (os q).clash (os q') = false

variable {process : C → P} {shared excl : C → Bool} {os : P → Held} {p : C}

namespace Slot

theorem local_change [DecidableEq P] {shared' excl' : C → Bool} {q : P} {held : Held}
    (slot : Slot process shared excl os)
    (same : ∀ c, process c ≠ q → shared' c = shared c ∧ excl' c = excl c)
    (alone : ∀ c c', process c = q → process c' = q → excl' c = true →
      shared' c' = false ∧ (excl' c' = true → c' = c))
    (read : held = .read ↔ ∃ c, process c = q ∧ shared' c = true)
    (write : held = .write ↔ ∃ c, process c = q ∧ excl' c = true)
    (grantable : ∀ r, r ≠ q → held.clash (os r) = false) :
    Slot process shared' excl' (update os q held) := by
  refine ⟨fun c c' together holds => ?_, fun r => ?_, fun r => ?_, fun r r' other => ?_⟩
  · by_cases here : process c = q
    · exact alone c c' here (together.symm.trans here) holds
    · rw [(same c here).2] at holds
      rw [together] at here
      rw [(same c' here).1, (same c' here).2]
      exact slot.alone c c' together holds
  · by_cases here : r = q
    · rw [here, update_self, read]
    · rw [update_of_ne here, slot.read r]
      refine exists_congr fun c => and_congr_right fun own => ?_
      rw [(same c (own.trans_ne here)).1]
  · by_cases here : r = q
    · rw [here, update_self, write]
    · rw [update_of_ne here, slot.write r]
      refine exists_congr fun c => and_congr_right fun own => ?_
      rw [(same c (own.trans_ne here)).2]
  · by_cases here : r = q
    · rw [here, update_self, update_of_ne (here ▸ other.symm)]
      exact grantable r' (here ▸ other.symm)
    · rw [update_of_ne here]
      by_cases there : r' = q
      · rw [there, update_self, Held.clash_symm]
        exact grantable r here
      · rw [update_of_ne there]
        exact slot.compatible r r' other

theorem update_elsewhere [DecidableEq C] {c : C} (value : Bool) (f : C → Bool)
    (other : process c ≠ process p) : update f p value c = f c :=
  update_of_ne (fun here => other (congrArg process here)) ..

section

variable {c : C} (slot : Slot process shared excl os)

include slot

theorem share [DecidableEq P] [DecidableEq C] (free : ∀ c, process c = process p → excl c = false)
    (grantable : ∀ q, q ≠ process p → Held.read.clash (os q) = false) :
    Slot process (update shared p true) excl
      (update os (process p) .read) := by
  refine slot.local_change (fun c other => ⟨update_elsewhere true shared other, rfl⟩)
    (fun c c' own _ holds => ?_) ?_ ?_ grantable
  · exact absurd (holds.symm.trans (free c own)) (by decide)
  · exact ⟨fun _ => ⟨p, rfl, update_self ..⟩, fun _ => rfl⟩
  · refine ⟨fun impossible => absurd impossible (by decide), fun ⟨c, own, holds⟩ => ?_⟩
    exact absurd (holds.symm.trans (free c own)) (by decide)

theorem exclude [DecidableEq P] [DecidableEq C]
    (free : ∀ c, process c = process p → shared c = false ∧ excl c = false)
    (grantable : ∀ q, q ≠ process p → Held.write.clash (os q) = false) :
    Slot process shared (update excl p true) (update os (process p) .write) := by
  have only {c : C} (own : process c = process p) (holds : update excl p true c = true) :
      c = p := by
    by_contra other
    rw [update_of_ne other, (free c own).2] at holds
    cases holds
  refine slot.local_change (fun c other => ⟨rfl, update_elsewhere true excl other⟩)
    (fun c c' own own' holds => ⟨(free c' own').1, fun holds' => ?_⟩) ?_ ?_ grantable
  · rw [only own holds, only own' holds']
  · refine ⟨fun impossible => absurd impossible (by decide), fun ⟨c, own, holds⟩ => ?_⟩
    exact absurd (holds.symm.trans (free c own).1) (by decide)
  · exact ⟨fun _ => ⟨p, rfl, update_self ..⟩, fun _ => rfl⟩

theorem release [DecidableEq P] [DecidableEq C] (holds : shared p = true ∨ excl p = true)
    (last : ∀ c, process c = process p → c ≠ p → shared c = false) :
    Slot process (update shared p false) (update excl p false)
      (update os (process p) .unlocked) := by
  have none_shared {c : C} (own : process c = process p) :
      update shared p false c = false := by
    by_cases here : c = p
    · rw [here, update_self]
    · rw [update_of_ne here, last c own here]
  have none_excl {c : C} (own : process c = process p) : update excl p false c = false := by
    by_cases here : c = p
    · rw [here, update_self]
    · rw [update_of_ne here, Bool.eq_false_iff]
      intro other
      have apart := slot.alone c p own other
      rcases holds with sharing | excluding
      · exact absurd (sharing.symm.trans apart.1) (by decide)
      · exact here (apart.2 excluding).symm
  refine slot.local_change
    (fun c other => ⟨update_elsewhere false shared other, update_elsewhere false excl other⟩)
    (fun c c' own _ holds => ?_) ?_ ?_ fun q _ => Held.unlocked_clash _
  · exact absurd (holds.symm.trans (none_excl own)) (by decide)
  · refine ⟨fun impossible => absurd impossible (by decide), fun ⟨c, own, holds⟩ => ?_⟩
    exact absurd (holds.symm.trans (none_shared own)) (by decide)
  · refine ⟨fun impossible => absurd impossible (by decide), fun ⟨c, own, holds⟩ => ?_⟩
    exact absurd (holds.symm.trans (none_excl own)) (by decide)

theorem unshare [DecidableEq P] [DecidableEq C] (own : process c = process p) (other : c ≠ p)
    (sharing : shared c = true) :
    Slot process (update shared p false) (update excl p false) os := by
  have kept : os (process p) = .read := (slot.read _).mpr ⟨c, own, sharing⟩
  have none_excl {d : C} (own' : process d = process p) : excl d = false := by
    rw [Bool.eq_false_iff]
    intro holds
    exact absurd (sharing.symm.trans (slot.alone d c (own'.trans own.symm) holds).1) (by decide)
  have excl_same : update excl p false = excl := by
    rw [← none_excl rfl, update_eq_self]
  rw [excl_same, ← update_eq_self (process p) os, kept]
  refine slot.local_change (fun d there => ⟨update_elsewhere false shared there, rfl⟩)
    (fun d d' own' _ holds => ?_) ?_ ?_ fun q there => ?_
  · exact absurd (holds.symm.trans (none_excl own')) (by decide)
  · refine ⟨fun _ => ⟨c, own, ?_⟩, fun _ => rfl⟩
    rw [update_of_ne other, sharing]
  · refine ⟨fun impossible => absurd impossible (by decide), fun ⟨d, own', holds⟩ => ?_⟩
    exact absurd (holds.symm.trans (none_excl own')) (by decide)
  · rw [← kept]
    exact slot.compatible _ q there.symm

theorem excludes {c' : C} (other : c' ≠ c) (holds : excl c = true) :
    shared c' = false ∧ excl c' = false := by
  by_cases together : process c = process c'
  · obtain ⟨none_shared, only⟩ := slot.alone c c' together holds
    exact ⟨none_shared, Bool.eq_false_iff.mpr fun also => other (only also)⟩
  · have write : os (process c) = .write := (slot.write _).mpr ⟨c, rfl, holds⟩
    have free := slot.compatible _ _ together
    rw [write] at free
    have unlocked := Held.write_clash free
    refine ⟨Bool.eq_false_iff.mpr fun sharing => ?_, Bool.eq_false_iff.mpr fun also => ?_⟩
    · exact absurd (unlocked.symm.trans ((slot.read _).mpr ⟨c', rfl, sharing⟩)) (by decide)
    · exact absurd (unlocked.symm.trans ((slot.write _).mpr ⟨c', rfl, also⟩)) (by decide)

end

end Slot

end SeSqlite.Lib.SharedLocks
