/- scope: general, no program is named here
   digest: Linear probing with entries numbered in the order of their insertion. -/
import Mathlib.Data.Finset.Card
import Mathlib.Data.List.Basic
import Mathlib.Data.Nat.ModEq
import Mathlib.Order.Interval.Finset.Nat

set_option autoImplicit false
set_option relaxedAutoImplicit false

namespace SeSqlite.Lib.Probing

open List Function

variable {k d limit : Nat}

section

def slot (m k d : Nat) : Nat := (k + d) % m

/-- The first free slot from `k` on; the walk gives up at an occupied slot when it has passed
`limit` others. -/
def firstFree (m : Nat) (table : Nat → Nat) : (limit : Nat) → Nat → Option Nat
  | 0, k => if table k = 0 then some k else none
  | limit + 1, k => if table k = 0 then some k else firstFree m table limit ((k + 1) % m)

/-- A fold over the entries from `k` on up to a free slot, with the same limit. -/
def foldProbe {β : Type*} (m : Nat) (table : Nat → Nat) (f : β → Nat → β) :
    (limit : Nat) → Nat → β → Option β
  | 0, k, b => if table k = 0 then some b else none
  | limit + 1, k, b =>
    if table k = 0 then some b else foldProbe m table f limit ((k + 1) % m) (f b (table k))

def Gap (m : Nat) (table : Nat → Nat) (k d : Nat) : Prop :=
  table (slot m k d) = 0 ∧ ∀ e < d, table (slot m k e) ≠ 0

variable {m : Nat} {table : Nat → Nat}

theorem slot_zero (inside : k < m) : slot m k 0 = k := Nat.mod_eq_of_lt inside

theorem slot_lt (pos : 0 < m) (k d : Nat) : slot m k d < m := Nat.mod_lt _ pos

theorem slot_next (k d : Nat) : slot m ((k + 1) % m) d = slot m k (d + 1) := by
  simp only [slot, Nat.mod_add_mod]
  congr 1
  omega

theorem slot_injective {e : Nat} (small : d < m) (small' : e < m) (eq : slot m k d = slot m k e) :
    d = e := by
  have congruent : d % m = e % m := Nat.ModEq.add_left_cancel' k eq
  rwa [Nat.mod_eq_of_lt small, Nat.mod_eq_of_lt small'] at congruent

theorem Gap.next (gap : Gap m table k (d + 1)) : Gap m table ((k + 1) % m) d := by
  refine ⟨(slot_next k d).symm ▸ gap.1, fun e less => ?_⟩
  rw [slot_next]
  exact gap.2 (e + 1) (Nat.succ_lt_succ less)

theorem Gap.firstFree_eq (gap : Gap m table k d) (inside : k < m) (enough : d ≤ limit) :
    firstFree m table limit k = some (slot m k d) := by
  induction d generalizing limit k with
  | zero =>
    have free := gap.1
    rw [slot_zero inside] at free ⊢
    cases limit <;> simp [firstFree, free]
  | succ d ih =>
    obtain ⟨limit, rfl⟩ : ∃ l, limit = l + 1 := ⟨limit - 1, by omega⟩
    have occupied := gap.2 0 (Nat.succ_pos d)
    rw [slot_zero inside] at occupied
    rw [firstFree, if_neg occupied, ih gap.next (Nat.mod_lt _ (by omega)) (by omega), slot_next]

theorem Gap.foldProbe_eq {β : Type*} (gap : Gap m table k d) (inside : k < m) (enough : d ≤ limit)
    (f : β → Nat → β) (b : β) : foldProbe m table f limit k b =
      some (((range d).map fun e => table (slot m k e)).foldl f b) := by
  induction d generalizing limit k b with
  | zero =>
    have free := gap.1
    rw [slot_zero inside] at free
    cases limit <;> simp [foldProbe, free]
  | succ d ih =>
    obtain ⟨limit, rfl⟩ : ∃ l, limit = l + 1 := ⟨limit - 1, by omega⟩
    have occupied := gap.2 0 (Nat.succ_pos d)
    rw [slot_zero inside] at occupied
    rw [foldProbe, if_neg occupied, ih gap.next (Nat.mod_lt _ (by omega)) (by omega),
      range_succ_eq_map, map_cons, foldl_cons, slot_zero inside, map_map]
    simp [Function.comp_def, slot_next]

end

/-- The entries `1 … n` stand in the table, each behind entries that are older than itself. -/
structure Probed (m : Nat) (home table : Nat → Nat) (n : Nat) : Prop where
  bounded : ∀ k < m, table k ≤ n
  unique : ∀ j < m, ∀ k < m, table j ≠ 0 → table j = table k → j = k
  placed : ∀ i, 1 ≤ i → i ≤ n → ∃ d < m, table (slot m (home i) d) = i ∧
    ∀ e < d, table (slot m (home i) e) ≠ 0 ∧ table (slot m (home i) e) < i

section

variable {m n : Nat} {home table : Nat → Nat}

theorem probed_empty : Probed m home (fun _ => 0) 0 :=
  ⟨fun _ _ => le_rfl, fun _ _ _ _ occupied => absurd rfl occupied,
    fun _ pos small => by omega⟩

section

variable (probed : Probed m home table n)

include probed

theorem Probed.congr {home' : Nat → Nat} (same : ∀ i, 1 ≤ i → i ≤ n → home' i = home i) :
    Probed m home' table n :=
  ⟨probed.bounded, probed.unique, fun i pos small => same i pos small ▸ probed.placed i pos small⟩

theorem Probed.exists_gap (room : n < m) (k : Nat) : ∃ d ≤ n, Gap m table k d := by
  have pos : 0 < m := by omega
  have free : ∃ d, d ≤ n ∧ table (slot m k d) = 0 := by
    by_contra full
    -- n + 1 slots would hold different entries out of 1 … n
    have occupied : ∀ d ≤ n, table (slot m k d) ≠ 0 := fun d small zero => full ⟨d, small, zero⟩
    have maps : ∀ d ∈ Finset.range (n + 1), table (slot m k d) ∈ Finset.Icc 1 n := by
      intro d member
      rw [Finset.mem_range] at member
      have nonzero := occupied d (by omega)
      have small := probed.bounded _ (slot_lt pos k d)
      rw [Finset.mem_Icc]
      omega
    obtain ⟨d, dIn, e, eIn, differ, eq⟩ :=
      Finset.exists_ne_map_eq_of_card_lt_of_maps_to (by simp) maps
    rw [Finset.mem_range] at dIn eIn
    have same := probed.unique _ (slot_lt pos k d) _ (slot_lt pos k e)
      (occupied d (by omega)) eq
    exact differ (slot_injective (by omega) (by omega) same)
  classical
  refine ⟨Nat.find free, (Nat.find_spec free).1, (Nat.find_spec free).2, fun e less zero => ?_⟩
  exact Nat.find_min free less ⟨by have := (Nat.find_spec free).1; omega, zero⟩

theorem Probed.insert (pos : 0 < m) (gap : Gap m table (home (n + 1)) d) (small : d < m) :
    Probed m home (update table (slot m (home (n + 1)) d) (n + 1)) (n + 1) := by
  have other : ∀ k, table k ≠ 0 → k ≠ slot m (home (n + 1)) d :=
    fun k occupied eq => occupied (eq ▸ gap.1)
  refine ⟨fun k inside => ?_, fun j jIn k kIn => ?_, fun i one le => ?_⟩
  · rw [update_apply]
    split
    · exact le_rfl
    · exact Nat.le_succ_of_le (probed.bounded k inside)
  · have jLe := probed.bounded j jIn
    have kLe := probed.bounded k kIn
    rw [update_apply, update_apply]
    split
    · rename_i here
      split
      · rename_i there
        exact fun _ _ => here.trans there.symm
      · intro _ eq
        omega
    · split
      · intro _ eq
        omega
      · exact fun occupied eq => probed.unique j jIn k kIn occupied eq
  · by_cases last : i = n + 1
    · subst last
      refine ⟨d, small, update_self .., fun e less => ?_⟩
      have occupied := gap.2 e less
      rw [update_of_ne (other _ occupied)]
      exact ⟨occupied, Nat.lt_succ_of_le (probed.bounded _ (slot_lt pos _ _))⟩
    · obtain ⟨d', small', at_i, before⟩ := probed.placed i one (by omega)
      refine ⟨d', small', ?_, fun e less => ?_⟩
      · rwa [update_of_ne (other _ (by omega))]
      · rw [update_of_ne (other _ (before e less).1)]
        exact before e less

theorem Probed.truncate (le : limit ≤ n) :
    Probed m home (fun k => if limit < table k then 0 else table k) limit := by
  refine ⟨fun k _ => ?_, fun j jIn k kIn => ?_, fun i one small => ?_⟩
  · split <;> omega
  · split
    · exact fun zero => absurd rfl zero
    · split
      · exact fun occupied zero => absurd zero occupied
      · exact probed.unique j jIn k kIn
  · obtain ⟨d, inside, at_i, before⟩ := probed.placed i one (small.trans le)
    refine ⟨d, inside, ?_, fun e less => ?_⟩
    · rw [at_i, if_neg (by omega)]
    · have older := before e less
      rw [if_neg (by omega)]
      exact older

theorem Probed.walk (room : n < m) (inside : k < m) (limit : Nat) (enough : n ≤ limit) :
    ∃ es : List Nat,
      (∀ {β : Type} (f : β → Nat → β) (b : β),
        foldProbe m table f limit k b = some (es.foldl f b)) ∧
      (∀ i ∈ es, 1 ≤ i ∧ i ≤ n) ∧ (∀ i, 1 ≤ i → i ≤ n → home i = k → i ∈ es) ∧
      es.Pairwise fun a b => home b = k → a < b := by
  have pos : 0 < m := by omega
  obtain ⟨d, le, gap⟩ := probed.exists_gap room k
  -- an entry with home k is found at its own distance, which is below the gap
  have reach : ∀ i, 1 ≤ i → i ≤ n → home i = k → ∃ p < d, table (slot m k p) = i ∧
      ∀ e < p, table (slot m k e) < i := by
    rintro i one small rfl
    obtain ⟨p, -, at_i, before⟩ := probed.placed i one small
    refine ⟨p, ?_, at_i, fun e less => (before e less).2⟩
    by_contra far
    rcases Nat.lt_or_eq_of_le (Nat.le_of_not_lt far) with less | rfl
    · exact (before d less).1 gap.1
    · have zero := gap.1
      omega
  refine ⟨(range d).map fun e => table (slot m k e), fun f b =>
    gap.foldProbe_eq inside (le.trans enough) f b, ?_, ?_, ?_⟩
  · intro i listed
    obtain ⟨e, member, rfl⟩ := mem_map.mp listed
    have occupied := gap.2 e (mem_range.mp member)
    have small := probed.bounded _ (slot_lt pos k e)
    omega
  · intro i one small at_home
    obtain ⟨p, less, at_i, -⟩ := reach i one small at_home
    exact mem_map.mpr ⟨p, mem_range.mpr less, at_i⟩
  · rw [pairwise_map]
    refine pairwise_lt_range.imp_of_mem fun {a b} _ bIn less at_home => ?_
    have bLess := mem_range.mp bIn
    have occupied := gap.2 b bLess
    have small := probed.bounded _ (slot_lt pos k b)
    obtain ⟨p, pLess, at_b, before⟩ := reach (table (slot m k b)) (by omega) small at_home
    have same := probed.unique _ (slot_lt pos k p) _ (slot_lt pos k b) (by omega) at_b
    obtain rfl := slot_injective (by omega) (by omega) same
    exact before a less

end

end

/-- A fold that keeps the last match keeps the greatest, where matches come after smaller entries
only. -/
theorem foldl_last_cases {β : Type*} {P : Nat → Bool} (g : Nat → β) (b : β) {es : List Nat}
    (sorted : es.Pairwise fun i j => P j = true → i < j) :
    ((∀ i ∈ es, P i = false) ∧ es.foldl (fun acc i => if P i then g i else acc) b = b) ∨
    ∃ r ∈ es, P r = true ∧ (∀ i ∈ es, P i = true → i ≤ r) ∧
      es.foldl (fun acc i => if P i then g i else acc) b = g r := by
  induction es using List.reverseRecOn with
  | nil => exact .inl ⟨fun _ member => absurd member not_mem_nil, rfl⟩
  | append_singleton es x ih =>
    rw [pairwise_append] at sorted
    simp only [foldl_append, foldl_cons, mem_append, mem_singleton]
    by_cases hit : P x = true
    · refine .inr ⟨x, .inr rfl, hit, ?_, if_pos hit⟩
      rintro i (before | rfl) -
      · exact Nat.le_of_lt (sorted.2.2 i before x (mem_singleton_self x) hit)
      · exact le_rfl
    · have miss : P x = false := Bool.eq_false_iff.mpr hit
      rw [if_neg hit]
      rcases ih sorted.1 with ⟨none_before, eq⟩ | ⟨r, listed, r_hit, greatest, eq⟩
      · refine .inl ⟨?_, eq⟩
        rintro i (before | rfl)
        · exact none_before i before
        · exact miss
      · refine .inr ⟨r, .inl listed, r_hit, ?_, eq⟩
        rintro i (before | rfl) i_hit
        · exact greatest i before i_hit
        · exact absurd i_hit hit

end SeSqlite.Lib.Probing
