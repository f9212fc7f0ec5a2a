/- scope: general, no program is named here
   digest: The last positions of the keys in a stretch of positions, in the order of the keys. -/
import Mathlib.Data.List.Basic
import Mathlib.Data.List.Perm.Subperm
import Mathlib.Data.List.Range
import Mathlib.Order.Lattice

set_option autoImplicit false
set_option relaxedAutoImplicit false

namespace SeSqlite.Lib.LastKeys

variable {κ : Type*} [LinearOrder κ] (key : Nat → κ)

/-- The entries are the last positions of the keys of `low … high - 1`, in the order of the keys. -/
structure Latest (entries : List Nat) (low high : Nat) : Prop where
  sorted : entries.Pairwise fun x y => key x < key y
  mem_iff : ∀ x, x ∈ entries ↔ low ≤ x ∧ x < high ∧ ∀ y, x < y → y < high → key y ≠ key x

variable {key} {entries left right : List Nat} {low mid high : Nat}

theorem latest_single (k : Nat) : Latest key [k] k (k + 1) where
  sorted := List.pairwise_singleton _ _
  mem_iff := fun x => by
    rw [List.mem_singleton]
    constructor
    · rintro rfl
      exact ⟨le_rfl, Nat.lt_succ_self _, fun y above below => by omega⟩
    · rintro ⟨above, below, -⟩
      omega

theorem Latest.length_le (latest : Latest key entries low high) : entries.length ≤ high - low := by
  have nodup : entries.Nodup := latest.sorted.imp fun less => ne_of_apply_ne key less.ne
  have sub : entries ⊆ List.range' low (high - low) := by
    intro x listed
    obtain ⟨above, below, -⟩ := (latest.mem_iff x).mp listed
    exact List.mem_range'_1.mpr ⟨above, by omega⟩
  have le := (List.subperm_of_subset nodup sub).length_le
  rwa [List.length_range'] at le

theorem Latest.exists_last (latest : Latest key entries low high) {x : Nat} (above : low ≤ x)
    (below : x < high) : ∃ y ∈ entries, x ≤ y ∧ key y = key x := by
  -- the last position is sought from the end
  induction distance : high - x using Nat.strong_induction_on generalizing x with
  | _ d ih =>
    by_cases last : ∀ y, x < y → y < high → key y ≠ key x
    · exact ⟨x, (latest.mem_iff x).mpr ⟨above, below, last⟩, le_rfl, rfl⟩
    · simp only [not_forall, not_not] at last
      obtain ⟨y, later, inside, same⟩ := last
      obtain ⟨z, listed, behind, eq⟩ := ih (high - y) (by omega) (by omega) inside rfl
      exact ⟨z, listed, by omega, eq.trans same⟩

theorem Latest.append (first : Latest key left low mid) (second : Latest key right mid high)
    (ordered : low ≤ mid ∧ mid ≤ high) (sorted : entries.Pairwise fun x y => key x < key y)
    (mem_iff : ∀ x, x ∈ entries ↔ x ∈ right ∨ (x ∈ left ∧ ∀ y ∈ right, key y ≠ key x)) :
    Latest key entries low high where
  sorted := sorted
  mem_iff := fun x => by
    rw [mem_iff, second.mem_iff, first.mem_iff]
    constructor
    · rintro (⟨above, below, last⟩ | ⟨⟨above, below, last⟩, other⟩)
      · exact ⟨by omega, below, last⟩
      · refine ⟨above, by omega, fun y later inside => ?_⟩
        rcases Nat.lt_or_ge y mid with before | behind
        · exact last y later before
        · obtain ⟨z, listed, -, same⟩ := second.exists_last behind inside
          exact same ▸ other z listed
    · rintro ⟨above, below, last⟩
      rcases Nat.lt_or_ge x mid with before | behind
      · refine .inr ⟨⟨above, before, fun y later inside => last y later (by omega)⟩, ?_⟩
        intro y listed
        obtain ⟨behind, inside, -⟩ := (second.mem_iff y).mp listed
        exact last y (by omega) inside
      · exact .inl ⟨behind, below, last⟩

end SeSqlite.Lib.LastKeys
