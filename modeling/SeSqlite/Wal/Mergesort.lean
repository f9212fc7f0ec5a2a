/- source: src/wal.c
   digest: The sort of one index block, in place, keeps the last frame of each page. -/
import Mathlib.Data.List.GetD
import Mathlib.Tactic.Ring
import SeSqlite.Lib.LastKeys

set_option autoImplicit false
set_option relaxedAutoImplicit false

namespace SeSqlite.Wal.Mergesort

open Lib.LastKeys List Function

/-- `struct Sublist`: the elements of an array of slots, and where the first of them is. -/
structure Sublist where
  nList : Nat
  aList : Nat

section

variable (aContent aLeft aRight : Nat → Nat) (nLeft nRight : Nat)

/-- The loop of `walMerge`, for so many rounds; the result is what it writes to `aTmp`. -/
def mergeLoop : (rounds : Nat) → (iLeft iRight : Nat) → List Nat
  | 0, _, _ => []
  | rounds + 1, iLeft, iRight =>
    if iRight < nRight ∨ iLeft < nLeft then
      let fromLeft := iLeft < nLeft ∧
        (iRight ≥ nRight ∨ aContent (aLeft iLeft) < aContent (aRight iRight))
      let logpage := if fromLeft then aLeft iLeft else aRight iRight
      let iLeft := if fromLeft then iLeft + 1 else iLeft
      let iRight := if fromLeft then iRight else iRight + 1
      let dbpage := aContent logpage
      let iLeft := if iLeft < nLeft ∧ aContent (aLeft iLeft) = dbpage then iLeft + 1 else iLeft
      logpage :: mergeLoop rounds iLeft iRight
    else []

end

def slice (slots : Nat → Nat) (start n : Nat) : List Nat :=
  (range n).map fun i => slots (start + i)

def memcpy (slots : Nat → Nat) (start : Nat) (content : List Nat) : Nat → Nat :=
  fun i => if start ≤ i ∧ i < start + content.length then content.getD (i - start) 0 else slots i

/-- The merged list takes the place of the left one. -/
def walMerge (aContent slots : Nat → Nat) (left right : Sublist) : (Nat → Nat) × Sublist :=
  let aTmp := mergeLoop aContent (fun i => slots (left.aList + i))
    (fun i => slots (right.aList + i))
    left.nList right.nList (left.nList + right.nList) 0 0
  (memcpy slots left.aList aTmp, ⟨aTmp.length, left.aList⟩)

/-- The size of the array `aSub`. -/
def arraySize : Nat := 13

/-- The inner loop of `walMergesort`, over the low bits of `iList` that are set. -/
def mergeBits (aContent : Nat → Nat) (iList : Nat) (aSub : Nat → Sublist) :
    (rounds : Nat) → (iSub : Nat) → (Nat → Nat) × Sublist → Nat × (Nat → Nat) × Sublist
  | 0, iSub, state => (iSub, state)
  | rounds + 1, iSub, state =>
    if iList.testBit iSub then
      mergeBits aContent iList aSub rounds (iSub + 1)
        (walMerge aContent state.1 (aSub iSub) state.2)
    else (iSub, state)

/-- The variables of `walMergesort` between the rounds of its first loop. -/
structure Sorting where
  slots : Nat → Nat
  aSub : Nat → Sublist
  aMerge : Sublist
  iSub : Nat

/-- One round: the next element of the list is merged with the sublists before it. -/
def addElement (aContent : Nat → Nat) (aList : Nat) (s : Sorting) (iList : Nat) : Sorting :=
  let (iSub, slots, aMerge) :=
    mergeBits aContent iList s.aSub arraySize 0 (s.slots, ⟨1, aList + iList⟩)
  ⟨slots, update s.aSub iSub aMerge, aMerge, iSub⟩

/-- The second loop: the sublists that are left, from the shortest on. -/
def mergeRest (aContent : Nat → Nat) (nList : Nat) (aSub : Nat → Sublist) :
    (rounds : Nat) → (iSub : Nat) → (Nat → Nat) × Sublist → (Nat → Nat) × Sublist
  | 0, _, state => state
  | rounds + 1, iSub, state =>
    if iSub < arraySize then
      mergeRest aContent nList aSub rounds (iSub + 1)
        (if nList.testBit iSub then walMerge aContent state.1 (aSub iSub) state.2 else state)
    else state

/-- The array with the sorted list in the place of the old one, and the new length. -/
def walMergesort (aContent slots : Nat → Nat) (aList nList : Nat) : (Nat → Nat) × Nat :=
  let s := (range nList).foldl (addElement aContent aList)
    ⟨slots, fun _ => ⟨0, 0⟩, ⟨0, 0⟩, 0⟩
  let (slots, aMerge) := mergeRest aContent nList s.aSub arraySize (s.iSub + 1) (s.slots, s.aMerge)
  (slots, aMerge.nList)

variable {rounds : Nat}

section

variable {aContent aLeft aRight : Nat → Nat} {nLeft nRight : Nat}

/-- The elements not yet taken from a list. -/
def Rest (a : Nat → Nat) (n i x : Nat) : Prop := ∃ j, i ≤ j ∧ j < n ∧ a j = x

def Ascending (aContent a : Nat → Nat) (n : Nat) : Prop :=
  ∀ i j, i < j → j < n → aContent (a i) < aContent (a j)

section

variable {a : Nat → Nat} {n i x : Nat}

theorem rest_iff (inside : i < n) : Rest a n i x ↔ x = a i ∨ Rest a n (i + 1) x := by
  constructor
  · rintro ⟨j, low, high, eq⟩
    rcases Nat.eq_or_lt_of_le low with rfl | less
    · exact .inl eq.symm
    · exact .inr ⟨j, less, high, eq⟩
  · rintro (rfl | ⟨j, low, high, eq⟩)
    · exact ⟨i, le_rfl, inside, rfl⟩
    · exact ⟨j, by omega, high, eq⟩

theorem Ascending.lt_of_rest (ascending : Ascending aContent a n) (rest : Rest a n (i + 1) x) :
    aContent (a i) < aContent x := by
  obtain ⟨j, low, high, rfl⟩ := rest
  exact ascending i j low high

theorem Ascending.le_of_rest (ascending : Ascending aContent a n) (rest : Rest a n i x) :
    aContent (a i) ≤ aContent x := by
  obtain ⟨j, low, high, rfl⟩ := rest
  rcases Nat.eq_or_lt_of_le low with rfl | less
  · exact le_rfl
  · exact Nat.le_of_lt (ascending i j less high)

theorem not_rest (outside : n ≤ i) : ¬ Rest a n i x := by
  rintro ⟨j, low, high, -⟩
  omega

end

/-- What is merged: the elements of the right list, and those of the left whose key it does not
have. -/
def Merged (aContent aLeft aRight : Nat → Nat) (nLeft nRight iLeft iRight x : Nat) : Prop :=
  Rest aRight nRight iRight x ∨
    (Rest aLeft nLeft iLeft x ∧ ∀ y, Rest aRight nRight iRight y → aContent y ≠ aContent x)

section

variable {iLeft iRight x : Nat}

theorem merged_left (right : Ascending aContent aRight nRight) (inside : iLeft < nLeft)
    (smaller : iRight ≥ nRight ∨ aContent (aLeft iLeft) < aContent (aRight iRight)) :
    Merged aContent aLeft aRight nLeft nRight iLeft iRight x ↔
      x = aLeft iLeft ∨ Merged aContent aLeft aRight nLeft nRight (iLeft + 1) iRight x := by
  have other : ∀ y, Rest aRight nRight iRight y → aContent y ≠ aContent (aLeft iLeft) := by
    intro y rest
    rcases smaller with none | smaller
    · exact absurd rest (not_rest none)
    · exact Nat.ne_of_gt (smaller.trans_le (right.le_of_rest rest))
  rw [Merged, rest_iff inside]
  constructor
  · rintro (rest | ⟨rfl | rest, distinct⟩)
    · exact .inr (.inl rest)
    · exact .inl rfl
    · exact .inr (.inr ⟨rest, distinct⟩)
  · rintro (rfl | rest | ⟨rest, distinct⟩)
    · exact .inr ⟨.inl rfl, other⟩
    · exact .inl rest
    · exact .inr ⟨.inr rest, distinct⟩

theorem lt_of_merged_left (left : Ascending aContent aLeft nLeft)
    (right : Ascending aContent aRight nRight)
    (smaller : iRight ≥ nRight ∨ aContent (aLeft iLeft) < aContent (aRight iRight))
    (merged : Merged aContent aLeft aRight nLeft nRight (iLeft + 1) iRight x) :
    aContent (aLeft iLeft) < aContent x := by
  rcases merged with rest | ⟨rest, -⟩
  · rcases smaller with none | smaller
    · exact absurd rest (not_rest none)
    · exact smaller.trans_le (right.le_of_rest rest)
  · exact left.lt_of_rest rest

/-- The index into the left list behind an element with the key. -/
def skipKey (aContent aLeft : Nat → Nat) (nLeft iLeft dbpage : Nat) : Nat :=
  if iLeft < nLeft ∧ aContent (aLeft iLeft) = dbpage then iLeft + 1 else iLeft

section

variable (left : Ascending aContent aLeft nLeft)

include left

theorem skipKey_left :
    skipKey aContent aLeft nLeft (iLeft + 1) (aContent (aLeft iLeft)) = iLeft + 1 := by
  rw [skipKey, if_neg]
  rintro ⟨inside, same⟩
  exact absurd (left iLeft (iLeft + 1) (Nat.lt_succ_self _) inside) (by omega)

theorem lt_of_rest_skipKey
    (notLess : iLeft < nLeft → aContent (aRight iRight) ≤ aContent (aLeft iLeft))
    (rest : Rest aLeft nLeft (skipKey aContent aLeft nLeft iLeft (aContent (aRight iRight))) x) :
    aContent (aRight iRight) < aContent x := by
  rw [skipKey] at rest
  split at rest
  · rename_i same
    rw [← same.2]
    exact left.lt_of_rest rest
  · rename_i other
    have inside : iLeft < nLeft := by
      obtain ⟨j, low, high, -⟩ := rest
      omega
    have less := Nat.lt_of_le_of_ne (notLess inside) fun same => other ⟨inside, same.symm⟩
    exact less.trans_le (left.le_of_rest rest)

theorem merged_right (inside : iRight < nRight)
    (notLess : iLeft < nLeft → aContent (aRight iRight) ≤ aContent (aLeft iLeft)) :
    Merged aContent aLeft aRight nLeft nRight iLeft iRight x ↔ x = aRight iRight ∨
      Merged aContent aLeft aRight nLeft nRight
        (skipKey aContent aLeft nLeft iLeft (aContent (aRight iRight))) (iRight + 1) x := by
  rw [Merged, rest_iff inside]
  have same_rest : ∀ (free : aContent (aRight iRight) ≠ aContent x), (Rest aLeft nLeft iLeft x ↔
      Rest aLeft nLeft (skipKey aContent aLeft nLeft iLeft (aContent (aRight iRight))) x) := by
    intro free
    rw [skipKey]
    split
    · rename_i same
      rw [rest_iff same.1]
      refine or_iff_right ?_
      rintro rfl
      exact free same.2.symm
    · rfl
  constructor
  · rintro ((rfl | rest) | ⟨rest, distinct⟩)
    · exact .inl rfl
    · exact .inr (.inl rest)
    · have free := distinct _ ((rest_iff inside).mpr (.inl rfl))
      exact .inr (.inr ⟨(same_rest free).mp rest,
        fun y later => distinct y ((rest_iff inside).mpr (.inr later))⟩)
  · rintro (rfl | rest | ⟨rest, distinct⟩)
    · exact .inl (.inl rfl)
    · exact .inl (.inr rest)
    · have free := Nat.ne_of_lt (lt_of_rest_skipKey left notLess rest)
      refine .inr ⟨(same_rest free).mpr rest, fun y later => ?_⟩
      rcases (rest_iff inside).mp later with rfl | later
      · exact free
      · exact distinct y later

theorem lt_of_merged_right (right : Ascending aContent aRight nRight)
    (notLess : iLeft < nLeft → aContent (aRight iRight) ≤ aContent (aLeft iLeft))
    (merged : Merged aContent aLeft aRight nLeft nRight
      (skipKey aContent aLeft nLeft iLeft (aContent (aRight iRight))) (iRight + 1) x) :
    aContent (aRight iRight) < aContent x := by
  rcases merged with rest | ⟨rest, -⟩
  · exact right.lt_of_rest rest
  · exact lt_of_rest_skipKey left notLess rest

end

end

theorem mergeLoop_spec (left : Ascending aContent aLeft nLeft)
    (right : Ascending aContent aRight nRight) {iLeft iRight : Nat}
    (enough : nLeft - iLeft + (nRight - iRight) ≤ rounds) :
    ((mergeLoop aContent aLeft aRight nLeft nRight rounds iLeft iRight).Pairwise
      fun x y => aContent x < aContent y) ∧
    ∀ x, x ∈ mergeLoop aContent aLeft aRight nLeft nRight rounds iLeft iRight ↔
      Merged aContent aLeft aRight nLeft nRight iLeft iRight x := by
  have nothing : ∀ {iLeft iRight}, nLeft ≤ iLeft → nRight ≤ iRight → ∀ x, x ∈ ([] : List Nat) ↔
      Merged aContent aLeft aRight nLeft nRight iLeft iRight x := by
    intro iLeft iRight noLeft noRight x
    refine ⟨fun listed => absurd listed not_mem_nil, ?_⟩
    rintro (rest | ⟨rest, -⟩)
    · exact absurd rest (not_rest noRight)
    · exact absurd rest (not_rest noLeft)
  induction rounds generalizing iLeft iRight with
  | zero => exact ⟨List.Pairwise.nil, nothing (by omega) (by omega)⟩
  | succ rounds ih =>
    rw [mergeLoop]
    dsimp only
    split
    swap
    · exact ⟨List.Pairwise.nil, nothing (by omega) (by omega)⟩
    rw [← skipKey]
    by_cases fromLeft : iLeft < nLeft ∧
        (iRight ≥ nRight ∨ aContent (aLeft iLeft) < aContent (aRight iRight))
    · simp only [if_pos fromLeft]
      rw [skipKey_left left]
      have enough' : nLeft - (iLeft + 1) + (nRight - iRight) ≤ rounds := by omega
      obtain ⟨sorted, mem_iff⟩ := ih enough'
      refine ⟨pairwise_cons.mpr ⟨fun y listed => ?_, sorted⟩, fun x => ?_⟩
      · exact lt_of_merged_left left right fromLeft.2 ((mem_iff y).mp listed)
      · rw [mem_cons, mem_iff, merged_left right fromLeft.1 fromLeft.2]
    · simp only [if_neg fromLeft]
      have inside : iRight < nRight := by omega
      have notLess : iLeft < nLeft → aContent (aRight iRight) ≤ aContent (aLeft iLeft) := by
        intro inLeft
        by_contra less
        exact fromLeft ⟨inLeft, .inr (Nat.lt_of_not_le less)⟩
      have enough' : nLeft - skipKey aContent aLeft nLeft iLeft (aContent (aRight iRight)) +
          (nRight - (iRight + 1)) ≤ rounds := by
        rw [skipKey]
        split <;> omega
      obtain ⟨sorted, mem_iff⟩ := ih enough'
      refine ⟨pairwise_cons.mpr ⟨fun y listed => ?_, sorted⟩, fun x => ?_⟩
      · exact lt_of_merged_right left right notLess ((mem_iff y).mp listed)
      · rw [mem_cons, mem_iff, merged_right left inside notLess]

variable {slots slots' : Nat → Nat} {start n : Nat}

@[simp] theorem length_slice : (slice slots start n).length = n := by
  rw [slice, length_map, length_range]

theorem slice_congr (same : ∀ i, start ≤ i → i < start + n → slots' i = slots i) :
    slice slots' start n = slice slots start n := by
  refine map_congr_left fun i listed => ?_
  have inside := mem_range.mp listed
  exact same (start + i) (by omega) (by omega)

theorem slice_memcpy (slots : Nat → Nat) (start : Nat) (content : List Nat) :
    slice (memcpy slots start content) start content.length = content := by
  refine ext_getElem (by simp) fun i inside inside' => ?_
  simp only [slice, getElem_map, getElem_range, memcpy]
  rw [if_pos (by omega), Nat.add_sub_cancel_left, getD_eq_getElem _ _ inside']

theorem memcpy_outside {content : List Nat} {i : Nat}
    (outside : i < start ∨ start + content.length ≤ i) : memcpy slots start content i = slots i :=
  if_neg (by omega)

theorem mem_slice {x : Nat} :
    x ∈ slice slots start n ↔ Rest (fun i => slots (start + i)) n 0 x := by
  simp only [slice, mem_map, mem_range]
  constructor
  · rintro ⟨j, inside, eq⟩
    exact ⟨j, Nat.zero_le j, inside, eq⟩
  · rintro ⟨j, -, inside, eq⟩
    exact ⟨j, inside, eq⟩

theorem ascending_of_slice {aContent : Nat → Nat}
    (sorted : (slice slots start n).Pairwise fun x y => aContent x < aContent y) :
    Ascending aContent (fun i => slots (start + i)) n := by
  intro i j less inside
  have pair := pairwise_iff_getElem.mp sorted i j (by simp; omega) (by simpa using inside) less
  simpa [slice] using pair

variable {aContent : Nat → Nat} {aList : Nat}

/-- A sublist of the array at `aList` with the last positions of the keys of `low … high - 1`, at
the place of these elements. -/
structure Run (aContent : Nat → Nat) (aList : Nat) (slots : Nat → Nat) (sub : Sublist)
    (low high : Nat) : Prop where
  place : sub.aList = aList + low
  latest : Latest aContent (slice slots sub.aList sub.nList) low high

variable {slots slots' : Nat → Nat} {sub left right : Sublist} {low mid high : Nat}

theorem Run.nList_le (run : Run aContent aList slots sub low high) : sub.nList ≤ high - low := by
  have le := run.latest.length_le
  rwa [length_slice] at le

theorem Run.frame (run : Run aContent aList slots sub low high) (ordered : low ≤ high)
    (same : ∀ i, aList + low ≤ i → i < aList + high → slots' i = slots i) :
    Run aContent aList slots' sub low high where
  place := run.place
  latest := by
    have short := run.nList_le
    have place := run.place
    rw [slice_congr fun i above below => same i (by omega) (by omega)]
    exact run.latest

theorem Run.walMerge (first : Run aContent aList slots left low mid)
    (second : Run aContent aList slots right mid high) (ordered : low ≤ mid ∧ mid ≤ high) :
    Run aContent aList (walMerge aContent slots left right).1 (walMerge aContent slots left right).2
      low high ∧
    ∀ i, i < aList + low ∨ aList + high ≤ i → (Mergesort.walMerge aContent slots left right).1 i =
      slots i := by
  obtain ⟨sorted, mem_iff⟩ := mergeLoop_spec (ascending_of_slice first.latest.sorted)
    (ascending_of_slice second.latest.sorted)
    (Nat.le_refl (left.nList - 0 + (right.nList - 0)))
  have merged := first.latest.append second.latest ordered sorted fun x => by
    rw [mem_iff, Merged]
    simp [mem_slice]
  have run : Run aContent aList (Mergesort.walMerge aContent slots left right).1
      (Mergesort.walMerge aContent slots left right).2 low high := by
    refine ⟨first.place, ?_⟩
    rw [Mergesort.walMerge]
    rw [slice_memcpy]
    exact merged
  refine ⟨run, fun i outside => memcpy_outside ?_⟩
  have short := run.nList_le
  have place := first.place
  rw [Mergesort.walMerge] at short
  dsimp only at short
  omega

end

section

def high (k b : Nat) : Nat := k / 2 ^ b * 2 ^ b

variable {k b c : Nat}

theorem high_zero : high k 0 = k := by
  rw [high, Nat.pow_zero, Nat.div_one, Nat.mul_one]

theorem high_le : high k b ≤ k := Nat.div_mul_le_self k (2 ^ b)

theorem high_eq_zero (small : k < 2 ^ b) : high k b = 0 := by
  rw [high, Nat.div_eq_of_lt small, Nat.zero_mul]

theorem high_succ : high k b = high k (b + 1) + if k.testBit b then 2 ^ b else 0 := by
  rw [high, high, Nat.pow_succ, ← Nat.div_div_eq_div_mul, Nat.testBit_eq_decide_div_mod_eq]
  have halves := Nat.div_add_mod (k / 2 ^ b) 2
  simp only [decide_eq_true_eq]
  split
  · rename_i odd
    calc k / 2 ^ b * 2 ^ b = (2 * (k / 2 ^ b / 2) + 1) * 2 ^ b := by rw [← odd, halves]
      _ = k / 2 ^ b / 2 * (2 ^ b * 2) + 2 ^ b := by ring
  · have even : k / 2 ^ b % 2 = 0 := by omega
    calc k / 2 ^ b * 2 ^ b = (2 * (k / 2 ^ b / 2) + 0) * 2 ^ b := by rw [← even, halves]
      _ = k / 2 ^ b / 2 * (2 ^ b * 2) + 0 := by ring

theorem high_of_testBit (bit : k.testBit b = true) : high k b = high k (b + 1) + 2 ^ b := by
  rw [high_succ, if_pos bit]

theorem high_of_not_testBit (bit : k.testBit b = false) : high k b = high k (b + 1) := by
  rw [high_succ, if_neg (by simp [bit]), Nat.add_zero]

theorem high_anti (le : b ≤ c) : high k c ≤ high k b := by
  induction le with
  | refl => exact le_rfl
  | @step c _ ih =>
    have more := high_succ (k := k) (b := c)
    exact Nat.le_trans (more ▸ Nat.le_add_right _ _) ih

/-- What one more does to a number whose bits below `b` are set and whose bit `b` is not. -/
structure Carry (k b : Nat) : Prop where
  clear : k.testBit b = false
  ones : k + 1 = high k b + 2 ^ b

namespace Carry

section

variable (carry : Carry k b)

include carry

theorem div_eq (less : b < c) : (k + 1) / 2 ^ c = k / 2 ^ c := by
  have ones := carry.ones
  rw [high_of_not_testBit carry.clear, high] at ones
  have base : (k + 1) / 2 ^ (b + 1) = k / 2 ^ (b + 1) := by
    rw [ones, Nat.add_comm, Nat.add_mul_div_right _ _ (Nat.two_pow_pos _),
      Nat.div_eq_of_lt (Nat.pow_lt_pow_right Nat.one_lt_two (Nat.lt_succ_self b)), Nat.zero_add]
  obtain ⟨d, rfl⟩ : ∃ d, c = b + 1 + d := ⟨c - (b + 1), by omega⟩
  rw [Nat.pow_add, ← Nat.div_div_eq_div_mul, ← Nat.div_div_eq_div_mul, base]

theorem testBit_above (less : b < c) : (k + 1).testBit c = k.testBit c := by
  rw [Nat.testBit_eq_decide_div_mod_eq, Nat.testBit_eq_decide_div_mod_eq, carry.div_eq less]

theorem high_above (less : b < c) : high (k + 1) c = high k c := by
  rw [high, high, carry.div_eq less]

theorem eq_mul : k + 1 = (2 * (k / 2 ^ (b + 1)) + 1) * 2 ^ b := by
  have ones := carry.ones
  rw [high_of_not_testBit carry.clear] at ones
  calc k + 1 = k / 2 ^ (b + 1) * 2 ^ (b + 1) + 2 ^ b := ones
    _ = (2 * (k / 2 ^ (b + 1)) + 1) * 2 ^ b := by ring

theorem testBit_here : (k + 1).testBit b = true := by
  rw [Nat.testBit_eq_decide_div_mod_eq, carry.eq_mul, Nat.mul_div_cancel _ (Nat.two_pow_pos b)]
  simp only [decide_eq_true_eq]
  omega

theorem high_here : high (k + 1) b = k + 1 := by
  rw [high, carry.eq_mul, Nat.mul_div_cancel _ (Nat.two_pow_pos b)]

theorem testBit_below (less : c < b) : (k + 1).testBit c = false := by
  obtain ⟨d, rfl⟩ : ∃ d, b = c + 1 + d := ⟨b - (c + 1), by omega⟩
  have factor : (2 * (k / 2 ^ (c + 1 + d + 1)) + 1) * 2 ^ (c + 1 + d) =
      (2 * (k / 2 ^ (c + 1 + d + 1)) + 1) * 2 ^ d * 2 * 2 ^ c := by ring
  rw [Nat.testBit_eq_decide_div_mod_eq, carry.eq_mul, factor,
    Nat.mul_div_cancel _ (Nat.two_pow_pos c), Nat.mul_mod_left]
  rfl

end

end Carry

variable {aContent slots : Nat → Nat} {aList : Nat} {aSub : Nat → Sublist} {sub : Sublist}

/-- The sublists that the set bits of `k` from `b` on stand for. -/
def Subs (aContent : Nat → Nat) (aList : Nat) (slots : Nat → Nat) (aSub : Nat → Sublist)
    (k b : Nat) : Prop :=
  ∀ c ≥ b, k.testBit c = true → Run aContent aList slots (aSub c) (high k (c + 1)) (high k c)

variable {k b nList : Nat}

theorem Subs.frame {slots' : Nat → Nat} (subs : Subs aContent aList slots aSub k b)
    (same : ∀ i, aList ≤ i → i < aList + high k b → slots' i = slots i) :
    Subs aContent aList slots' aSub k b := by
  intro c above bit
  refine (subs c above bit).frame (high_anti (Nat.le_succ c)) fun i inside below => ?_
  have anti := high_anti (k := k) above
  exact same i (by omega) (by omega)

theorem Subs.weaken {c : Nat} (subs : Subs aContent aList slots aSub k b) (le : b ≤ c) :
    Subs aContent aList slots aSub k c :=
  fun d above bit => subs d (le.trans above) bit

theorem mergeBits_spec (small : k < 4096) (enough : b + rounds = arraySize)
    (subs : Subs aContent aList slots aSub k b)
    (run : Run aContent aList slots sub (high k b) (k + 1)) (ones : k + 1 = high k b + 2 ^ b) :
    ∃ iSub slots' sub', mergeBits aContent k aSub rounds b (slots, sub) = (iSub, slots', sub') ∧
      b ≤ iSub ∧ Carry k iSub ∧ Run aContent aList slots' sub' (high k iSub) (k + 1) ∧
      ∀ i, i < aList + high k iSub ∨ aList + (k + 1) ≤ i → slots' i = slots i := by
  induction rounds generalizing b slots sub with
  | zero =>
    obtain rfl : b = 13 := enough
    omega
  | succ rounds ih =>
    rw [mergeBits]
    split
    · rename_i bit
      have split := high_of_testBit bit
      have left := subs b (Nat.le_refl b) bit
      obtain ⟨merged, frame⟩ := left.walMerge run
        ⟨high_anti (Nat.le_succ b), Nat.le_succ_of_le high_le⟩
      have subs' : Subs aContent aList (walMerge aContent slots (aSub b) sub).1 aSub k (b + 1) :=
        (subs.weaken (Nat.le_succ b)).frame fun i _ below => frame i (.inl below)
      obtain ⟨iSub, slots', sub', eq, above, carry, run', frame'⟩ := ih (by omega) subs' merged
        (by rw [Nat.pow_succ]; omega)
      refine ⟨iSub, slots', sub', eq, Nat.le_of_succ_le above, carry, run', fun i outside => ?_⟩
      have anti := high_anti (k := k) above
      rw [frame' i outside, frame i (by omega)]
    · rename_i bit
      have clear : k.testBit b = false := by simpa using bit
      exact ⟨b, slots, sub, rfl, Nat.le_refl b, ⟨clear, ones⟩, run, fun _ _ => rfl⟩

/-- The state of the sort after `k` elements. -/
structure Inv (aContent : Nat → Nat) (aList : Nat) (slots : Nat → Nat) (k : Nat) (s : Sorting) :
    Prop where
  subs : Subs aContent aList s.slots s.aSub k 0
  rest : ∀ i, i < aList ∨ aList + k ≤ i → s.slots i = slots i
  last : 0 < k → k.testBit s.iSub = true ∧ high k s.iSub = k ∧ s.aSub s.iSub = s.aMerge

theorem Inv.addElement {s : Sorting} (inv : Inv aContent aList slots k s) (small : k < 4096)
    (fresh : slots (aList + k) = k) :
    Inv aContent aList slots (k + 1) (addElement aContent aList s k) := by
  have single : Run aContent aList s.slots ⟨1, aList + k⟩ (high k 0) (k + 1) := by
    refine ⟨by rw [high_zero], ?_⟩
    have element : slice s.slots (aList + k) 1 = [k] := by
      simp [slice, inv.rest (aList + k) (.inr le_rfl), fresh]
    rw [element, high_zero]
    exact latest_single k
  obtain ⟨iSub, slots', sub', eq, -, carry, run, frame⟩ :=
    mergeBits_spec small (Nat.zero_add arraySize) inv.subs single (by rw [high_zero, Nat.pow_zero])
  rw [Mergesort.addElement]
  simp only [eq]
  refine ⟨fun c _ bit => ?_, fun i outside => ?_, fun _ => ?_⟩
  · rcases Nat.lt_trichotomy c iSub with below | rfl | above
    · rw [carry.testBit_below below] at bit
      exact absurd bit Bool.false_ne_true
    · dsimp only
      rw [update_self, carry.high_here, carry.high_above (Nat.lt_succ_self c),
        ← high_of_not_testBit carry.clear]
      exact run
    · dsimp only
      rw [carry.testBit_above above] at bit
      rw [update_of_ne above.ne', carry.high_above (Nat.lt_succ_of_lt above),
        carry.high_above above]
      refine (inv.subs c (Nat.zero_le c) bit).frame (high_anti (Nat.le_succ c)) fun i _ below => ?_
      have anti := high_anti (k := k) above.le
      exact frame i (.inl (by omega))
  · dsimp only
    rw [frame i (by omega), inv.rest i (by omega)]
  · exact ⟨carry.testBit_here, carry.high_here, update_self ..⟩

theorem inv_foldl (small : nList ≤ 4096) (fresh : ∀ j < nList, slots (aList + j) = j) :
    Inv aContent aList slots nList ((range nList).foldl (addElement aContent aList)
      ⟨slots, fun _ => ⟨0, 0⟩, ⟨0, 0⟩, 0⟩) := by
  induction nList with
  | zero =>
    refine ⟨fun c _ bit => ?_, fun _ _ => rfl, fun positive => absurd positive (Nat.lt_irrefl 0)⟩
    rw [Nat.zero_testBit] at bit
    exact absurd bit Bool.false_ne_true
  | succ k ih =>
    rw [range_succ, foldl_append]
    exact (ih (by omega) fun j inside => fresh j (by omega)).addElement (by omega)
      (fresh k (Nat.lt_succ_self k))

theorem mergeRest_spec {n : Nat} (enough : b + rounds ≥ arraySize) (inside : b ≤ arraySize)
    (subs : Subs aContent aList slots aSub n b) (run : Run aContent aList slots sub (high n b) n) :
    ∃ slots' sub', mergeRest aContent n aSub rounds b (slots, sub) = (slots', sub') ∧
      Run aContent aList slots' sub' (high n arraySize) n ∧
      ∀ i, i < aList ∨ aList + n ≤ i → slots' i = slots i := by
  induction rounds generalizing b slots sub with
  | zero =>
    obtain rfl : b = arraySize := by omega
    exact ⟨slots, sub, rfl, run, fun _ _ => rfl⟩
  | succ rounds ih =>
    rw [mergeRest]
    split
    swap
    · obtain rfl : b = arraySize := by omega
      exact ⟨slots, sub, rfl, run, fun _ _ => rfl⟩
    rename_i more
    cases bit : n.testBit b with
    | true =>
      have left := subs b (Nat.le_refl b) bit
      obtain ⟨merged, frame⟩ := left.walMerge run ⟨high_anti (Nat.le_succ b), high_le⟩
      have subs' := (subs.weaken (Nat.le_succ b)).frame fun i _ below => frame i (.inl below)
      obtain ⟨slots', sub', eq, run', frame'⟩ := ih (by omega) more subs' merged
      refine ⟨slots', sub', eq, run', fun i outside => ?_⟩
      rw [frame' i outside, frame i (by omega)]
    | false =>
      rw [high_of_not_testBit bit] at run
      exact ih (by omega) more (subs.weaken (Nat.le_succ b)) run

theorem walMergesort_spec (positive : 0 < nList) (small : nList ≤ 4096)
    (fresh : ∀ j < nList, slots (aList + j) = j) :
    ∃ slots' n, walMergesort aContent slots aList nList = (slots', n) ∧
      Latest aContent (slice slots' aList n) 0 nList ∧
      ∀ i, i < aList ∨ aList + nList ≤ i → slots' i = slots i := by
  have inv : Inv aContent aList slots nList _ := inv_foldl small fresh
  rw [walMergesort]
  generalize (range nList).foldl (addElement aContent aList)
    ⟨slots, fun _ => ⟨0, 0⟩, ⟨0, 0⟩, 0⟩ = s at inv
  obtain ⟨bit, whole, same⟩ := inv.last positive
  have few : nList < 2 ^ arraySize := small.trans_lt (by decide)
  have less : s.iSub < arraySize := by
    by_contra large
    have low : 2 ^ arraySize ≤ 2 ^ s.iSub :=
      Nat.pow_le_pow_right Nat.two_pos (Nat.le_of_not_lt large)
    have zero : high nList s.iSub = 0 := high_eq_zero (few.trans_le low)
    omega
  have last := inv.subs s.iSub (Nat.zero_le _) bit
  rw [same, whole] at last
  have enough : s.iSub + 1 + arraySize ≥ arraySize := Nat.le_add_left _ _
  obtain ⟨slots', sub, eq, run, frame⟩ :=
    mergeRest_spec enough less (inv.subs.weaken (Nat.zero_le _)) last
  refine ⟨slots', sub.nList, ?_, ?_, fun i outside => ?_⟩
  · simp [eq]
  · rw [high_eq_zero few] at run
    have latest := run.latest
    rwa [run.place] at latest
  · rw [frame i outside, inv.rest i outside]

end

end SeSqlite.Wal.Mergesort
