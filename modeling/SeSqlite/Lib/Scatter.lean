/- scope: general, no program is named here
   digest: A sequence of values laid out over a memory, one place each; reads and writes of a part
   of it, and the places on a first page and a chain of further ones. -/
import Mathlib.Data.List.GetD
import Mathlib.Data.List.Nodup
import Mathlib.Data.Set.Function
import Mathlib.Order.Interval.Set.Basic

set_option autoImplicit false
set_option relaxedAutoImplicit false

namespace SeSqlite.Lib.Scatter

open List

variable {i : Nat}

section

variable {α β : Type*} {mem mem' mem'' : α → β} {loc : Nat → α} {offset amount : Nat}
  {values : List β}

def gather (mem : α → β) (loc : Nat → α) (offset amount : Nat) : List β :=
  (range amount).map fun k => mem (loc (offset + k))

@[simp] theorem length_gather : (gather mem loc offset amount).length = amount := by
  simp [gather]

/-- The values stand at the places from the offset on. -/
def Stores (mem : α → β) (loc : Nat → α) (offset : Nat) (values : List β) : Prop :=
  ∀ k (inside : k < values.length), mem (loc (offset + k)) = values[k]

theorem stores_nil : Stores mem loc offset [] := fun _ inside => absurd inside (Nat.not_lt_zero _)

theorem stores_gather : Stores mem loc offset (gather mem loc offset amount) := by
  intro k inside
  simp [gather]

theorem Stores.gather_eq (stores : Stores mem loc offset values) :
    gather mem loc offset values.length = values := by
  refine ext_getElem length_gather fun k _ inside => ?_
  simp only [gather, getElem_map, getElem_range]
  exact stores k inside

theorem Stores.gather (stores : Stores mem loc 0 values)
    (inside : offset + amount ≤ values.length) :
    gather mem loc offset amount = (values.drop offset).take amount := by
  refine ext_getElem ?_ fun k first _ => ?_
  · rw [length_gather, length_take, length_drop]
    omega
  · rw [length_gather] at first
    have stored := stores (offset + k) (by omega)
    rw [Nat.zero_add] at stored
    simp [Scatter.gather, stored]

theorem stores_append {more : List β} : Stores mem loc offset (values ++ more) ↔
    Stores mem loc offset values ∧ Stores mem loc (offset + values.length) more := by
  constructor
  · intro stores
    refine ⟨fun k inside => ?_, fun k inside => ?_⟩
    · have stored := stores k (by rw [length_append]; omega)
      rwa [getElem_append_left inside] at stored
    · have stored := stores (values.length + k) (by rw [length_append]; omega)
      rw [← Nat.add_assoc] at stored
      simpa using stored
  · rintro ⟨first, second⟩ k inside
    rw [length_append] at inside
    rcases Nat.lt_or_ge k values.length with before | behind
    · rw [getElem_append_left before]
      exact first k before
    · rw [getElem_append_right behind, ← second (k - values.length) (by omega)]
      have place : offset + values.length + (k - values.length) = offset + k := by omega
      rw [place]

/-- The second memory is the first with these values at the places from the offset on. -/
structure Overwritten (mem mem' : α → β) (loc : Nat → α) (offset : Nat) (values : List β) :
    Prop where
  stores : Stores mem' loc offset values
  kept : ∀ a, (∀ k < values.length, a ≠ loc (offset + k)) → mem' a = mem a

theorem overwritten_nil : Overwritten mem mem loc offset [] := ⟨stores_nil, fun _ _ => rfl⟩

variable {values more new : List β} {bound : Nat}

theorem Overwritten.kept_loc (written : Overwritten mem mem' loc offset values)
    (apart : Set.InjOn loc (Set.Iio bound)) (inside : offset + values.length ≤ bound)
    (small : i < bound) (outside : i < offset ∨ offset + values.length ≤ i) :
    mem' (loc i) = mem (loc i) := by
  refine written.kept _ fun k less same => ?_
  have number : i = offset + k :=
    apart (Set.mem_Iio.mpr small) (Set.mem_Iio.mpr (by omega)) same
  omega

theorem Overwritten.trans (first : Overwritten mem mem' loc offset values)
    (second : Overwritten mem' mem'' loc (offset + values.length) more)
    (apart : Set.InjOn loc (Set.Iio bound))
    (inside : offset + values.length + more.length ≤ bound) :
    Overwritten mem mem'' loc offset (values ++ more) := by
  refine ⟨stores_append.mpr ⟨fun k less => ?_, second.stores⟩, fun a outside => ?_⟩
  · rw [second.kept_loc apart inside (by omega) (.inl (by omega))]
    exact first.stores k less
  · rw [length_append] at outside
    rw [second.kept a fun k less => ?_, first.kept a fun k less => outside k (by omega)]
    have place := outside (values.length + k) (by omega)
    rwa [← Nat.add_assoc] at place

/-- The sequence with a part of it replaced. -/
def splice (values : List β) (offset : Nat) (new : List β) : List β :=
  values.take offset ++ new ++ values.drop (offset + new.length)

theorem length_splice (inside : offset + new.length ≤ values.length) :
    (splice values offset new).length = values.length := by
  simp only [splice, length_append, length_take, length_drop]
  omega

theorem Stores.overwritten (stores : Stores mem loc 0 values)
    (written : Overwritten mem mem' loc offset new) (apart : Set.InjOn loc (Set.Iio values.length))
    (inside : offset + new.length ≤ values.length) :
    Stores mem' loc 0 (splice values offset new) := by
  have front : (values.take offset).length = offset := by
    rw [length_take]
    omega
  refine stores_append.mpr ⟨stores_append.mpr ⟨fun k less => ?_, ?_⟩, fun k less => ?_⟩
  · rw [front] at less
    rw [Nat.zero_add, written.kept_loc apart inside (by omega) (.inl less), getElem_take]
    have stored := stores k (by omega)
    rwa [Nat.zero_add] at stored
  · rw [front, Nat.zero_add]
    exact written.stores
  · rw [length_drop] at less
    rw [length_append, front, Nat.zero_add,
      written.kept_loc apart inside (by omega) (.inr (by omega)), getElem_drop]
    have stored := stores (offset + new.length + k) (by omega)
    rwa [Nat.zero_add] at stored

end

section

variable {ι : Type*} {first : ι} {start nLocal head room : Nat} {chain : List ι}

/-- The first so many values lie on the first page from `start` on; each further page has room for
so many behind its head. -/
def place (first : ι) (start nLocal head room : Nat) (chain : List ι) (i : Nat) : ι × Nat :=
  if i < nLocal then (first, start + i)
  else (chain.getD ((i - nLocal) / room) first, head + (i - nLocal) % room)

theorem place_first (inside : i < nLocal) :
    place first start nLocal head room chain i = (first, start + i) := if_pos inside

theorem place_chain {k j : Nat} (inside : k < chain.length) (small : j < room) :
    place first start nLocal head room chain (nLocal + k * room + j) =
      (chain[k], head + j) := by
  have behind : nLocal + k * room + j - nLocal = j + k * room := by omega
  have pos : 0 < room := by omega
  rw [place, if_neg (by omega), behind, Nat.add_mul_div_right _ _ pos, Nat.div_eq_of_lt small,
    Nat.zero_add, Nat.add_mul_mod_self_right, Nat.mod_eq_of_lt small, getD_eq_getElem _ _ inside]

theorem exists_chain (pos : 0 < room) (behind : nLocal ≤ i)
    (inside : i < nLocal + chain.length * room) :
    ∃ k j, k < chain.length ∧ j < room ∧ i = nLocal + k * room + j := by
  have division := Nat.div_add_mod' (i - nLocal) room
  refine ⟨(i - nLocal) / room, (i - nLocal) % room, ?_, Nat.mod_lt _ pos, by omega⟩
  rw [Nat.div_lt_iff_lt_mul pos]
  omega

theorem place_injOn (pos : 0 < room) (nodup : chain.Nodup) (apart : first ∉ chain) :
    Set.InjOn (place first start nLocal head room chain)
      (Set.Iio (nLocal + chain.length * room)) := by
  have mixed {i j : Nat} (before : i < nLocal) (behind : nLocal ≤ j)
      (inside : j < nLocal + chain.length * room) :
      place first start nLocal head room chain i ≠ place first start nLocal head room chain j := by
    obtain ⟨k, r, member, small, rfl⟩ := exists_chain pos behind inside
    rw [place_first before, place_chain member small]
    intro same
    exact apart ((Prod.mk.inj same).1 ▸ getElem_mem member)
  intro i i_inside j j_inside same
  rcases Nat.lt_or_ge i nLocal with before | behind
  · rcases Nat.lt_or_ge j nLocal with before' | behind'
    · rw [place_first before, place_first before'] at same
      have := (Prod.mk.inj same).2
      omega
    · exact absurd same (mixed before behind' j_inside)
  · rcases Nat.lt_or_ge j nLocal with before' | behind'
    · exact absurd same.symm (mixed before' behind i_inside)
    · obtain ⟨k, r, member, small, rfl⟩ := exists_chain pos behind i_inside
      obtain ⟨k', r', member', small', rfl⟩ := exists_chain pos behind' j_inside
      rw [place_chain member small, place_chain member' small'] at same
      obtain ⟨page, offset⟩ := Prod.mk.inj same
      obtain rfl := (List.Nodup.getElem_inj_iff nodup).mp page
      omega

theorem place_append (pos : 0 < room) (more : List ι) (inside : i < nLocal + chain.length * room) :
    place first start nLocal head room (chain ++ more) i =
      place first start nLocal head room chain i := by
  rcases Nat.lt_or_ge i nLocal with before | behind
  · rw [place_first before, place_first before]
  · obtain ⟨k, r, member, small, rfl⟩ := exists_chain pos behind inside
    have member' : k < (chain ++ more).length := by
      rw [length_append]
      omega
    rw [place_chain member' small, place_chain member small, getElem_append_left member]

theorem place_page (pos : 0 < room) (inside : i < nLocal + chain.length * room) :
    (∃ _ : i < nLocal, place first start nLocal head room chain i = (first, start + i)) ∨
    ∃ page ∈ chain, ∃ j < room, place first start nLocal head room chain i = (page, head + j) := by
  rcases Nat.lt_or_ge i nLocal with before | behind
  · exact .inl ⟨before, place_first before⟩
  · obtain ⟨k, r, member, small, rfl⟩ := exists_chain pos behind inside
    exact .inr ⟨chain[k], getElem_mem member, r, small, place_chain member small⟩

end

end SeSqlite.Lib.Scatter
