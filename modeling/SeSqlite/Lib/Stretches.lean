/- scope: general, no program is named here
   digest: Stretches of a line, a start and a size each: stretches that do not overlap, how much
   they cover, and the merging of those that lie close to each other. -/
import Mathlib.Algebra.BigOperators.Group.List.Basic
import Mathlib.Algebra.GroupWithZero.Nat
import Mathlib.Data.Finset.Card
import Mathlib.Order.Interval.Finset.Nat

set_option autoImplicit false
set_option relaxedAutoImplicit false

namespace SeSqlite.Lib.Stretches

open List

abbrev Stretch := Nat × Nat

variable {a b : Stretch} {l m : List Stretch}

def Apart (a b : Stretch) : Prop := a.1 + a.2 ≤ b.1 ∨ b.1 + b.2 ≤ a.1

theorem Apart.symm (apart : Apart a b) : Apart b a := Or.symm apart

theorem apart_perm (perm : l.Perm m) :
    l.Pairwise Apart ↔ m.Pairwise Apart := perm.pairwise_iff Apart.symm

theorem Apart.part {c : Stretch} (apart : Apart b c) (low : b.1 ≤ a.1)
    (high : a.1 + a.2 ≤ b.1 + b.2) : Apart a c := by
  rw [Apart] at apart ⊢
  omega

def Inside (lo hi : Nat) (a : Stretch) : Prop := lo ≤ a.1 ∧ a.1 + a.2 ≤ hi

def total (l : List Stretch) : Nat := (l.map Prod.snd).sum

@[simp] theorem total_nil : total [] = 0 := rfl

@[simp] theorem total_cons (a : Stretch) (l : List Stretch) : total (a :: l) = a.2 + total l := by
  simp [total]

@[simp] theorem total_append (l m : List Stretch) : total (l ++ m) = total l + total m := by
  simp [total]

theorem total_perm (perm : l.Perm m) : total l = total m :=
  (perm.map Prod.snd).sum_eq

theorem length_le_total (some_point : ∀ a ∈ l, 0 < a.2) : l.length ≤ total l := by
  induction l with
  | nil => exact Nat.le_refl 0
  | cons a l ih =>
    have first := some_point a mem_cons_self
    have others := ih fun b member => some_point b (mem_cons_of_mem a member)
    rw [total_cons, length_cons]
    omega

def covered : List Stretch → Finset Nat
  | [] => ∅
  | a :: l => Finset.Ico a.1 (a.1 + a.2) ∪ covered l

section

variable {l : List Stretch} {lo hi : Nat}

theorem mem_covered {x : Nat} : x ∈ covered l ↔ ∃ a ∈ l, a.1 ≤ x ∧ x < a.1 + a.2 := by
  induction l with
  | nil => simp [covered]
  | cons a l ih => simp [covered, ih]

theorem card_covered (apart : l.Pairwise Apart) : (covered l).card = total l := by
  induction l with
  | nil => rfl
  | cons a l ih =>
    obtain ⟨first, rest⟩ := pairwise_cons.mp apart
    have disjoint : Disjoint (Finset.Ico a.1 (a.1 + a.2)) (covered l) := by
      refine Finset.disjoint_left.mpr fun x here there => ?_
      obtain ⟨b, member, low, high⟩ := mem_covered.mp there
      have := Finset.mem_Ico.mp here
      rcases first b member with before | behind <;> omega
    rw [covered, Finset.card_union_of_disjoint disjoint, ih rest, Nat.card_Ico, total_cons]
    omega

theorem covered_subset (inside : ∀ a ∈ l, Inside lo hi a) : covered l ⊆ Finset.Ico lo hi := by
  intro x member
  obtain ⟨a, listed, low, high⟩ := mem_covered.mp member
  obtain ⟨first, last⟩ := inside a listed
  exact Finset.mem_Ico.mpr ⟨by omega, by omega⟩

theorem total_le (apart : l.Pairwise Apart) (inside : ∀ a ∈ l, Inside lo hi a) :
    total l ≤ hi - lo := by
  have card := Finset.card_le_card (covered_subset inside)
  rwa [card_covered apart, Nat.card_Ico] at card

theorem card_free (apart : l.Pairwise Apart) (inside : ∀ a ∈ l, Inside lo hi a) :
    (Finset.Ico lo hi \ covered l).card + total l = hi - lo := by
  rw [← card_covered apart, Finset.card_sdiff_add_card_eq_card (covered_subset inside),
    Nat.card_Ico]

/-- The first stretch is before the second, by more than a distance. -/
def Before (d : Nat) (a b : Stretch) : Prop := a.1 + a.2 + d < b.1

/-- A stretch takes in the next one if that begins no farther than a distance behind it. -/
def coalesce (d : Nat) : Stretch → List Stretch → List Stretch
  | cur, [] => [cur]
  | cur, next :: rest =>
    if next.1 ≤ cur.1 + cur.2 + d then coalesce d (cur.1, next.1 + next.2 - cur.1) rest
    else cur :: coalesce d next rest

variable {d : Nat} {cur : Stretch} {rest : List Stretch}

def Ordered (l : List Stretch) : Prop := l.Pairwise fun a b => a.1 + a.2 ≤ b.1

theorem Ordered.merge {next : Stretch} (ordered : Ordered (cur :: next :: rest)) :
    Ordered ((cur.1, next.1 + next.2 - cur.1) :: rest) ∧ cur.1 + cur.2 ≤ next.1 := by
  obtain ⟨first, others⟩ := pairwise_cons.mp ordered
  obtain ⟨second, later⟩ := pairwise_cons.mp others
  have step := first next mem_cons_self
  refine ⟨pairwise_cons.mpr ⟨fun b member => ?_, later⟩, step⟩
  have := second b member
  omega

theorem Ordered.tail (ordered : Ordered (cur :: rest)) : Ordered rest :=
  (pairwise_cons.mp ordered).2

theorem coalesce_start (ordered : Ordered (cur :: rest)) :
    ∀ b ∈ coalesce d cur rest, cur.1 ≤ b.1 := by
  induction rest generalizing cur with
  | nil =>
    intro b member
    rw [coalesce, mem_singleton] at member
    rw [member]
  | cons next rest ih =>
    intro b member
    obtain ⟨merged, step⟩ := ordered.merge
    rw [coalesce] at member
    split at member
    · exact ih merged b member
    · rcases mem_cons.mp member with rfl | later
      · exact le_rfl
      · have := ih ordered.tail b later
        omega

theorem coalesce_before (ordered : Ordered (cur :: rest)) :
    (coalesce d cur rest).Pairwise (Before d) := by
  induction rest generalizing cur with
  | nil => exact pairwise_singleton _ _
  | cons next rest ih =>
    obtain ⟨merged, step⟩ := ordered.merge
    rw [coalesce]
    split
    · exact ih merged
    · refine pairwise_cons.mpr ⟨fun b member => ?_, ih ordered.tail⟩
      have := coalesce_start ordered.tail b member
      rw [Before]
      omega

theorem coalesce_head : ∃ size more, coalesce d cur rest = (cur.1, size) :: more := by
  induction rest generalizing cur with
  | nil => exact ⟨cur.2, [], rfl⟩
  | cons next rest ih =>
    rw [coalesce]
    split
    · exact ih
    · exact ⟨cur.2, _, rfl⟩

section

variable (ordered : Ordered (cur :: rest))

include ordered

theorem coalesce_forall {P : Stretch → Prop}
    (merge : ∀ a b : Stretch, P a → P b → a.1 + a.2 ≤ b.1 → b.1 ≤ a.1 + a.2 + d → P (a.1,
      b.1 + b.2 - a.1)) (all : ∀ a ∈ cur :: rest, P a) : ∀ b ∈ coalesce d cur rest, P b := by
  induction rest generalizing cur with
  | nil => exact all
  | cons next rest ih =>
    obtain ⟨merged, step⟩ := ordered.merge
    have first := all cur mem_cons_self
    have second := all next (mem_cons_of_mem _ mem_cons_self)
    rw [coalesce]
    split
    · rename_i near
      refine ih merged fun a member => ?_
      rcases mem_cons.mp member with rfl | later
      · exact merge cur next first second step near
      · exact all a (mem_cons_of_mem _ (mem_cons_of_mem _ later))
    · intro b member
      rcases mem_cons.mp member with rfl | later
      · exact first
      · exact ih ordered.tail (fun a listed => all a (mem_cons_of_mem _ listed)) b later

theorem coalesce_apart {c : Stretch} (long : d < c.2) (apart : ∀ a ∈ cur :: rest, Apart c a) :
    ∀ b ∈ coalesce d cur rest, Apart c b := by
  refine coalesce_forall ordered (fun a b first second step near => ?_) apart
  rw [Apart] at first second ⊢
  omega

theorem coalesce_inside {lo hi : Nat} (inside : ∀ a ∈ cur :: rest, Inside lo hi a) :
    ∀ b ∈ coalesce d cur rest, Inside lo hi b := by
  refine coalesce_forall ordered (fun a b first second step near => ?_) inside
  rw [Inside] at first second ⊢
  omega

theorem total_le_coalesce : total (cur :: rest) ≤ total (coalesce d cur rest) := by
  induction rest generalizing cur with
  | nil => exact le_rfl
  | cons next rest ih =>
    obtain ⟨merged, step⟩ := ordered.merge
    rw [coalesce]
    split
    · have := ih merged
      simp only [total_cons] at this ⊢
      omega
    · have := ih ordered.tail
      simp only [total_cons] at this ⊢
      omega

end

theorem before_apart (before : Before d a b) : Apart a b := by
  rw [Before] at before
  rw [Apart]
  omega

theorem ordered_of_before {l : List Stretch} (before : l.Pairwise (Before d)) : Ordered l :=
  before.imp fun step => by
    rw [Before] at step
    omega

end

end SeSqlite.Lib.Stretches
