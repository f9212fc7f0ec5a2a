/- scope: general, no program is named here
   digest: Nested-loop joins with outer items, and filtering before the join or after it. -/
import Mathlib.Data.List.Basic

set_option autoImplicit false
set_option relaxedAutoImplicit false

namespace SeSqlite.Lib.NestedLoop

open List Bool

section

variable {ι ρ : Type*} (rows : ι → List ρ) (on : ι → List (Option ρ) → Bool) (left : ι → Bool)

/-- The rows that the loop over one item runs through; an outer item without a match is
absent once. -/
def choices (item : ι) (e : List (Option ρ)) : List (Option ρ) :=
  let found := (rows item).filter fun r => on item (e ++ [some r])
  if left item && found.isEmpty then [none] else found.map some

/-- All extensions of `e` by one choice for each item. -/
def join : List ι → List (Option ρ) → List (List (Option ρ))
  | [], e => [e]
  | item :: rest, e => (choices rows on left item e).flatMap fun r => join rest (e ++ [r])

/-- The extensions of `e` that the loops test: those of a choice for the items before by any row
of the next one. -/
def probes : List ι → List (Option ρ) → List (List (Option ρ))
  | [], _ => []
  | item :: rest, e => ((rows item).map fun r => e ++ [some r]) ++
      (choices rows on left item e).flatMap fun r => probes rest (e ++ [r])

/-- A test of the choice made for each item; the first item stands at position `n`. -/
def allFrom (q : ι → Option ρ → Bool) : List ι → Nat → List (Option ρ) → Bool
  | [], _, _ => true
  | item :: rest, n, e => q item (e.getD n none) && allFrom q rest (n + 1) e

variable {rows on left} {items : List ι}

theorem allFrom_iff (q : ι → Option ρ → Bool) (items : List ι) (n : Nat) (e : List (Option ρ)) :
    allFrom q items n e = true ↔
      ∀ k item, items[k]? = some item → q item (e.getD (n + k) none) = true := by
  induction items generalizing n with
  | nil => simp [allFrom]
  | cons first rest ih =>
    rw [allFrom, and_eq_true, ih]
    constructor
    · rintro ⟨now, later⟩ k item at_k
      cases k with
      | zero => exact Option.some.inj at_k ▸ now
      | succ k => exact (by omega : n + 1 + k = n + (k + 1)) ▸ later k item at_k
    · intro each
      refine ⟨each 0 first rfl, fun k item at_k => ?_⟩
      exact (by omega : n + (k + 1) = n + 1 + k) ▸ each (k + 1) item at_k

theorem getD_of_mem_join {e e' : List (Option ρ)} (member : e' ∈ join rows on left items e)
    {n : Nat} (old : n < e.length) : e'.getD n none = e.getD n none := by
  induction items generalizing e with
  | nil => rw [mem_singleton.mp member]
  | cons item rest ih =>
    obtain ⟨r, -, later⟩ := mem_flatMap.mp member
    rw [ih later (by rw [length_append]; omega)]
    simp [getElem?_append_left old]

theorem filter_join_cons (q : ι → Option ρ → Bool) (item : ι) (rest : List ι)
    (e : List (Option ρ)) :
    (join rows on left (item :: rest) e).filter (allFrom q (item :: rest) e.length) =
      ((choices rows on left item e).filter (q item)).flatMap fun r =>
        (join rows on left rest (e ++ [r])).filter (allFrom q rest (e ++ [r]).length) := by
  have decided : ∀ r, (join rows on left rest (e ++ [r])).filter
      (allFrom q (item :: rest) e.length) = if q item r then
        (join rows on left rest (e ++ [r])).filter (allFrom q rest (e ++ [r]).length) else [] := by
    intro r
    have known : ∀ e' ∈ join rows on left rest (e ++ [r]),
        allFrom q (item :: rest) e.length e' =
          (q item r && allFrom q rest (e ++ [r]).length e') := by
      intro e' member
      have last : e'.getD e.length none = r := by
        rw [getD_of_mem_join member (by simp)]
        simp
      rw [allFrom, last, length_append, length_singleton]
    rw [filter_congr known]
    cases q item r <;> simp
  rw [join, filter_flatMap]
  simp only [decided]
  induction choices rows on left item e with
  | nil => rfl
  | cons r others ih =>
    rw [flatMap_cons, ih, filter_cons]
    cases q item r <;> simp

variable (guard : ι → Option (ρ → Bool))

/-- The rows of the guarded items that pass their guard. -/
def admittedRows (rows : ι → List ρ) (item : ι) : List ρ :=
  (guard item).elim (rows item) fun keep => (rows item).filter keep

/-- The choice passes the guard of its item; an absent row passes none. -/
def passes (item : ι) (r : Option ρ) : Bool := (guard item).all fun keep => r.any keep

/-- The choice is a row wherever the item is guarded. -/
def present (item : ι) (r : Option ρ) : Bool := (guard item).isNone || r.isSome

variable {guard} {rows : ι → List ρ} {on on' : ι → List (Option ρ) → Bool} {left : ι → Bool}

theorem filter_choices {item : ι} {e : List (Option ρ)}
    (agree : ∀ r ∈ admittedRows guard rows item,
      on item (e ++ [some r]) = on' item (e ++ [some r])) :
    (choices rows on left item e).filter (passes guard item) =
      (choices (admittedRows guard rows) on' left item e).filter (present guard item) := by
  have same : (admittedRows guard rows item).filter (fun r => on item (e ++ [some r])) =
      (admittedRows guard rows item).filter fun r => on' item (e ++ [some r]) :=
    filter_congr agree
  cases guarded : guard item with
  | none =>
    have trivial : passes guard item = present guard item := by
      funext r
      simp [passes, present, guarded]
    have all : admittedRows guard rows item = rows item := by simp [admittedRows, guarded]
    rw [trivial, choices, choices, ← same, all]
  | some keep =>
    have dropped : ∀ found : List ρ,
        (if left item && found.isEmpty then [none] else found.map some).filter
          (present guard item) = found.map some := by
      intro found
      split
      · rename_i absent
        rw [and_eq_true, List.isEmpty_iff] at absent
        simp [present, guarded, absent.2]
      · simp [present]
    have kept : ∀ found : List ρ,
        (if left item && found.isEmpty then [none] else found.map some).filter
          (passes guard item) = (found.filter keep).map some := by
      intro found
      split
      · rename_i absent
        rw [and_eq_true, List.isEmpty_iff] at absent
        simp [passes, guarded, absent.2]
      · simp [passes, guarded, filter_map, Function.comp_def]
    have admitted : admittedRows guard rows item = (rows item).filter keep := by
      simp [admittedRows, guarded]
    rw [choices, choices, dropped, kept, ← same, admitted]
    simp only [filter_filter, Bool.and_comm]

/-- Dropping the rows that fail their guard after the join leaves what the join of the
admitted rows has without the absent ones, if the conditions agree wherever that join tests
them. -/
theorem filter_join {items : List ι} {e : List (Option ρ)}
    (agree : ∀ e' ∈ probes (admittedRows guard rows) on' left items e, ∀ item,
      on item e' = on' item e') :
    (join rows on left items e).filter (allFrom (passes guard) items e.length) =
      (join (admittedRows guard rows) on' left items e).filter
        (allFrom (present guard) items e.length) := by
  induction items generalizing e with
  | nil => rfl
  | cons item rest ih =>
    rw [filter_join_cons, filter_join_cons, filter_choices fun r member =>
      agree _ (mem_append_left _ (mem_map_of_mem member)) item]
    refine flatMap_congr fun r chosen => ih fun e' probed => agree e' (mem_append_right _ ?_)
    exact mem_flatMap.mpr ⟨r, mem_of_mem_filter chosen, probed⟩

end

end SeSqlite.Lib.NestedLoop
