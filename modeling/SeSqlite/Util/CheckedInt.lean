/- source: src/util.c
   digest: Addition, subtraction and multiplication of 64-bit numbers with a check for overflow; the
   product of two numbers below 2^32 is not checked. -/
import Mathlib.Algebra.Order.Ring.Abs
import Mathlib.Algebra.Order.Ring.Int
import Mathlib.Tactic.Linarith
import Mathlib.Tactic.Ring

set_option autoImplicit false
set_option relaxedAutoImplicit false

namespace SeSqlite.CheckedInt

variable {x : Int}

def InRange (x : Int) : Prop := -2 ^ 63 ≤ x ∧ x < 2 ^ 63

instance (x : Int) : Decidable (InRange x) := inferInstanceAs (Decidable (_ ∧ _))

/-- Computations on `i64`. The state says whether every operation so far was exact. -/
abbrev Machine := StateM Bool

def op (x : Int) : Machine Int := fun exact =>
  ((x + 2 ^ 63) % 2 ^ 64 - 2 ^ 63, exact && decide (InRange x))

/-- The result, and whether every operation was exact. -/
def Machine.result {α : Type} (m : Machine α) : α × Bool := m true

theorem op_of_inRange (fits : InRange x) : op x = pure x := by
  funext exact
  have same : (x + 2 ^ 63) % 2 ^ 64 - 2 ^ 63 = x := by
    rw [InRange] at fits
    omega
  simp only [op, same, fits, decide_true, Bool.and_true]
  rfl

theorem op_of_overflow (beyond : ¬ InRange x) : (op x).result.2 = false := by
  simp [Machine.result, op, beyond, decide_false, Bool.and_false]

def largestInt64 : Int := 2 ^ 63 - 1

def smallestInt64 : Int := -1 - largestInt64

def twoPower32 : Int := 2 ^ 32

def twoPower31 : Int := 2 ^ 31

/-- The return code, and what is then at `pA`. -/
def sqlite3AddInt64 (iA iB : Int) : Machine (Int × Int) :=
  let store : Machine (Int × Int) := do
    let sum ← op (iA + iB)
    return (0, sum)
  if iB ≥ 0 then
    if iA > 0 then do
      let room ← op (largestInt64 - iA)
      if room < iB then return (1, iA) else store
    else store
  else
    if iA < 0 then do
      let sum ← op (iA + largestInt64)
      let room ← op (-sum)
      let next ← op (iB + 1)
      if room > next then return (1, iA) else store
    else store

def sqlite3SubInt64 (iA iB : Int) : Machine (Int × Int) :=
  if iB = smallestInt64 then
    if iA ≥ 0 then return (1, iA)
    else do
      let difference ← op (iA - iB)
      return (0, difference)
  else do
    let negative ← op (-iB)
    sqlite3AddInt64 iA negative

/-- The end of `sqlite3MulInt64`, from the product of a high and a low half on. -/
def joinHalves (iA iA0 iB0 r : Int) : Machine (Int × Int) :=
  if r < -twoPower31 ∨ r ≥ twoPower31 then return (1, iA)
  else do
    let r ← op (r * twoPower32)
    let low ← op (iA0 * iB0)
    let (rc, r) ← sqlite3AddInt64 r low
    if rc ≠ 0 then return (1, iA) else return (0, r)

def sqlite3MulInt64 (iA iB : Int) : Machine (Int × Int) := do
  let iA1 ← op (iA.tdiv twoPower32)
  let iA0 ← op (iA.tmod twoPower32)
  let iB1 ← op (iB.tdiv twoPower32)
  let iB0 ← op (iB.tmod twoPower32)
  if iA1 = 0 then
    if iB1 = 0 then
      let product ← op (iA * iB)
      return (0, product)
    else
      let r ← op (iA0 * iB1)
      joinHalves iA iA0 iB0 r
  else if iB1 = 0 then
    let r ← op (iA1 * iB0)
    joinHalves iA iA0 iB0 r
  else return (1, iA)

section

variable {iA iB result : Int}

/-- What should be returned and be at `pA` for an operation with a mathematical result. -/
def checked (iA result : Int) : Int × Int := if InRange result then (0, result) else (1, iA)

theorem checked_of_inRange (fits : InRange result) : checked iA result = (0, result) := if_pos fits

theorem checked_of_overflow (beyond : ¬ InRange result) :
    checked iA result = (1, iA) := if_neg beyond

theorem addInt64_eq (rangeA : InRange iA) (rangeB : InRange iB) :
    sqlite3AddInt64 iA iB = pure (checked iA (iA + iB)) := by
  rw [InRange] at rangeA rangeB
  have store (fits : InRange (iA + iB)) :
      (do let sum ← op (iA + iB); return (0, sum) : Machine (Int × Int)) =
        pure (checked iA (iA + iB)) := by
    rw [op_of_inRange fits, pure_bind, checked_of_inRange fits]
  rw [sqlite3AddInt64]
  split
  · split
    · rw [op_of_inRange (by simp only [InRange, largestInt64]; omega), pure_bind]
      split
      · rename_i less
        rw [checked_of_overflow (by simp only [InRange, largestInt64] at less ⊢; omega)]
      · rename_i room
        exact store (by simp only [InRange, largestInt64] at room ⊢; omega)
    · exact store (by rw [InRange]; omega)
  · split
    · rw [op_of_inRange (by simp only [InRange, largestInt64]; omega), pure_bind,
        op_of_inRange (by simp only [InRange, largestInt64]; omega), pure_bind,
        op_of_inRange (by simp only [InRange]; omega), pure_bind]
      split
      · rename_i more
        rw [checked_of_overflow (by simp only [InRange, largestInt64] at more ⊢; omega)]
      · rename_i room
        exact store (by simp only [InRange, largestInt64] at room ⊢; omega)
    · exact store (by rw [InRange]; omega)

theorem subInt64_eq (rangeA : InRange iA) (rangeB : InRange iB) :
    sqlite3SubInt64 iA iB = pure (checked iA (iA - iB)) := by
  have bounds := rangeA
  rw [InRange] at bounds
  rw [sqlite3SubInt64]
  split
  · rename_i smallest
    rw [smallestInt64, largestInt64] at smallest
    split
    · rw [checked_of_overflow (by rw [InRange]; omega)]
    · have fits : InRange (iA - iB) := by
        rw [InRange]
        omega
      rw [op_of_inRange fits, pure_bind, checked_of_inRange fits]
  · rename_i other
    have negative : InRange (-iB) := by
      rw [InRange] at rangeB ⊢
      rw [smallestInt64, largestInt64] at other
      omega
    rw [op_of_inRange negative, pure_bind, addInt64_eq rangeA negative, ← Int.sub_eq_add_neg]

/-- A number in halves as C has them: both have its sign. -/
structure Halves (x x1 x0 : Int) : Prop where
  whole : x = x1 * 2 ^ 32 + x0
  signs : (0 ≤ x1 ∧ 0 ≤ x0) ∨ (x1 ≤ 0 ∧ x0 ≤ 0)
  low : -2 ^ 32 < x0 ∧ x0 < 2 ^ 32

theorem halves (x : Int) : Halves x (x.tdiv twoPower32) (x.tmod twoPower32) := by
  have power : twoPower32 = 2 ^ 32 := rfl
  have whole := Int.mul_tdiv_add_tmod x twoPower32
  rw [power] at whole ⊢
  rcases Int.le_total 0 x with pos | neg
  · have rest := Int.tmod_eq_emod_of_nonneg (b := 2 ^ 32) pos
    exact ⟨by omega, .inl ⟨by omega, by omega⟩, by omega⟩
  · have pos : 0 ≤ -x := by omega
    have rest := Int.tmod_eq_emod_of_nonneg (b := 2 ^ 32) pos
    rw [Int.neg_tmod] at rest
    exact ⟨by omega, .inr ⟨by omega, by omega⟩, by omega⟩

theorem product_nonneg {y1 y0 : Int} (small : 0 ≤ x ∧ x < 2 ^ 32) (high : 0 < y1 ∧ y1 ≤ 2 ^ 31)
    (low : 0 ≤ y0 ∧ y0 < 2 ^ 32) :
    0 ≤ x * y1 ∧ x * y1 < 2 ^ 63 ∧ x ≤ x * y1 ∧ 0 ≤ x * y0 ∧ (x ≤ 2 ^ 31 → x * y0 < 2 ^ 63) := by
  refine ⟨Int.mul_nonneg small.1 (by omega), ?_, ?_, Int.mul_nonneg small.1 low.1, fun half => ?_⟩
  · nlinarith
  · nlinarith
  · nlinarith

theorem product_halves {y1 y0 : Int} (small : -2 ^ 32 < x ∧ x < 2 ^ 32)
    (high : -2 ^ 31 ≤ y1 ∧ y1 ≤ 2 ^ 31) (some_high : y1 ≠ 0) (low : -2 ^ 32 < y0 ∧ y0 < 2 ^ 32)
    (signs : (0 ≤ y1 ∧ 0 ≤ y0) ∨ (y1 ≤ 0 ∧ y0 ≤ 0)) : InRange (x * y1) ∧
    ((x * y1 < -2 ^ 31 ∨ 2 ^ 31 ≤ x * y1) → ¬ InRange (x * y1 * 2 ^ 32 + x * y0)) ∧
    (¬ (x * y1 < -2 ^ 31 ∨ 2 ^ 31 ≤ x * y1) → InRange (x * y0)) := by
  simp only [InRange]
  -- all signs are taken out of the products
  rcases signs with ⟨high_sign, low_sign⟩ | ⟨high_sign, low_sign⟩
  · rcases Int.le_total 0 x with pos | neg
    · have facts := product_nonneg (x := x) ⟨pos, small.2⟩ (by omega : 0 < y1 ∧ y1 ≤ 2 ^ 31)
        ⟨low_sign, low.2⟩
      omega
    · have facts := product_nonneg (x := -x) (by omega) (by omega : 0 < y1 ∧ y1 ≤ 2 ^ 31)
        ⟨low_sign, low.2⟩
      simp only [Int.neg_mul] at facts
      omega
  · rcases Int.le_total 0 x with pos | neg
    · have facts := @product_nonneg x (-y1) (-y0) ⟨pos, small.2⟩ (by omega) (by omega)
      simp only [Int.mul_neg] at facts
      omega
    · have facts := @product_nonneg (-x) (-y1) (-y0) (by omega) (by omega) (by omega)
      simp only [Int.neg_mul_neg] at facts
      omega

theorem joinHalves_eq {iA0 iB0 r : Int}
    (beyond : r < -2 ^ 31 ∨ 2 ^ 31 ≤ r → ¬ InRange (r * 2 ^ 32 + iA0 * iB0))
    (low : ¬ (r < -2 ^ 31 ∨ 2 ^ 31 ≤ r) → InRange (iA0 * iB0)) :
    joinHalves iA iA0 iB0 r = pure (checked iA (r * 2 ^ 32 + iA0 * iB0)) := by
  have powers : twoPower31 = 2 ^ 31 ∧ twoPower32 = 2 ^ 32 := ⟨rfl, rfl⟩
  rw [joinHalves, powers.2]
  split
  · rename_i outside
    rw [checked_of_overflow (beyond outside)]
  · rename_i inside
    have high : InRange (r * 2 ^ 32) := by
      rw [InRange]
      omega
    rw [op_of_inRange high, pure_bind, op_of_inRange (low inside), pure_bind,
      addInt64_eq high (low inside)]
    by_cases fits : InRange (r * 2 ^ 32 + iA0 * iB0)
    · rw [checked_of_inRange fits, checked_of_inRange fits]
      rfl
    · rw [checked_of_overflow fits, checked_of_overflow fits]
      rfl

theorem overflow_of_high {y : Int} (first : x ≤ -2 ^ 32 ∨ 2 ^ 32 ≤ x)
    (second : y ≤ -2 ^ 32 ∨ 2 ^ 32 ≤ y) : ¬ InRange (x * y) := by
  rintro ⟨least, most⟩
  rcases first with neg | pos
  · rcases second with neg' | pos'
    · nlinarith
    · nlinarith
  · rcases second with neg' | pos'
    · nlinarith
    · nlinarith

theorem Halves.inRange {x1 x0 : Int} (split : Halves x x1 x0) (range : InRange x) :
    InRange x1 ∧ InRange x0 := by
  obtain ⟨whole, signs, low⟩ := split
  simp only [InRange] at range ⊢
  omega

def BothLow (iA iB : Int) : Prop := (-2 ^ 32 < iA ∧ iA < 2 ^ 32) ∧ (-2 ^ 32 < iB ∧ iB < 2 ^ 32)

theorem mulInt64_low (low : BothLow iA iB) :
    sqlite3MulInt64 iA iB = (do let product ← op (iA * iB); return (0, product)) := by
  obtain ⟨lowA, lowB⟩ := low
  have splitA := halves iA
  have splitB := halves iB
  obtain ⟨rangeA1, rangeA0⟩ := splitA.inRange (by rw [InRange]; omega)
  obtain ⟨rangeB1, rangeB0⟩ := splitB.inRange (by rw [InRange]; omega)
  rw [sqlite3MulInt64, op_of_inRange rangeA1, op_of_inRange rangeA0, op_of_inRange rangeB1,
    op_of_inRange rangeB0]
  generalize iA.tdiv twoPower32 = iA1, iA.tmod twoPower32 = iA0 at splitA
  generalize iB.tdiv twoPower32 = iB1, iB.tmod twoPower32 = iB0 at splitB
  obtain ⟨wholeA, signsA, -⟩ := splitA
  obtain ⟨wholeB, signsB, -⟩ := splitB
  simp only [pure_bind]
  rw [if_pos (by omega), if_pos (by omega)]

theorem mulInt64_high (rangeA : InRange iA) (rangeB : InRange iB) (high : ¬ BothLow iA iB) :
    sqlite3MulInt64 iA iB = pure (checked iA (iA * iB)) := by
  have splitA := halves iA
  have splitB := halves iB
  obtain ⟨rangeA1, rangeA0⟩ := splitA.inRange rangeA
  obtain ⟨rangeB1, rangeB0⟩ := splitB.inRange rangeB
  rw [sqlite3MulInt64, op_of_inRange rangeA1, op_of_inRange rangeA0, op_of_inRange rangeB1,
    op_of_inRange rangeB0]
  generalize iA.tdiv twoPower32 = iA1, iA.tmod twoPower32 = iA0 at splitA
  generalize iB.tdiv twoPower32 = iB1, iB.tmod twoPower32 = iB0 at splitB
  obtain ⟨wholeA, signsA, lowA⟩ := splitA
  obtain ⟨wholeB, signsB, lowB⟩ := splitB
  simp only [InRange] at rangeA rangeB
  simp only [BothLow] at high
  simp only [pure_bind]
  split
  · obtain rfl : iA = iA0 := by omega
    rw [if_neg (by omega)]
    obtain ⟨range, beyond, low⟩ := product_halves lowA (by omega : -2 ^ 31 ≤ iB1 ∧ iB1 ≤ 2 ^ 31)
      (by omega) lowB signsB
    have whole : iA * iB = iA * iB1 * 2 ^ 32 + iA * iB0 := by
      rw [wholeB]
      ring
    rw [op_of_inRange range, pure_bind, joinHalves_eq beyond low, whole]
  · split
    · rename_i someA noneB
      obtain rfl : iB = iB0 := by omega
      obtain ⟨range, beyond, low⟩ := product_halves lowB (by omega : -2 ^ 31 ≤ iA1 ∧ iA1 ≤ 2 ^ 31)
        someA lowA signsA
      rw [Int.mul_comm iB iA1] at range beyond low
      rw [Int.mul_comm iB iA0] at beyond low
      have whole : iA * iB = iA1 * iB * 2 ^ 32 + iA0 * iB := by
        rw [wholeA]
        ring
      rw [op_of_inRange range, pure_bind, joinHalves_eq beyond low, whole]
    · rw [checked_of_overflow (overflow_of_high (by omega) (by omega))]

/-- The operation did what it should, and nothing overflowed on the way. -/
def Exactly (m : Machine (Int × Int)) (iA result : Int) : Prop :=
  m.result = (checked iA result, true)

theorem exactly_pure (iA result : Int) : Exactly (pure (checked iA result)) iA result := rfl

/-- Addition and subtraction are exact for all numbers, and multiplication unless both numbers are
below 2^32 and their product is not a number of 64 bits. -/
theorem checked_arithmetic_iff (rangeA : InRange iA) (rangeB : InRange iB) :
    Exactly (sqlite3AddInt64 iA iB) iA (iA + iB) ∧ Exactly (sqlite3SubInt64 iA iB) iA (iA - iB) ∧
      Exactly (sqlite3MulInt64 iA iB) iA (iA * iB) ↔
    (BothLow iA iB → InRange (iA * iB)) := by
  rw [addInt64_eq rangeA rangeB, subInt64_eq rangeA rangeB]
  constructor
  · rintro ⟨-, -, product⟩ low
    by_contra beyond
    have flag := congrArg Prod.snd product
    rw [mulInt64_low low] at flag
    have lost : false = true := (op_of_overflow beyond).symm.trans flag
    cases lost
  · intro guard
    refine ⟨exactly_pure _ _, exactly_pure _ _, ?_⟩
    by_cases low : BothLow iA iB
    · rw [mulInt64_low low, op_of_inRange (guard low), pure_bind, ← checked_of_inRange (guard low)]
      exact exactly_pure _ _
    · rw [mulInt64_high rangeA rangeB low]
      exact exactly_pure _ _

theorem checked_arithmetic_max : Exactly (sqlite3MulInt64 (2 ^ 62) 2) (2 ^ 62) (2 ^ 62 * 2) :=
  ((@checked_arithmetic_iff (2 ^ 62) 2 (by decide) (by decide)).mpr
    fun low => absurd low.1.2 (by decide)).2.2

/-- Both numbers are the largest of 32 bits: the product wraps and success is reported. -/
theorem mulInt64_wraps : InRange 4294967295 ∧
    (sqlite3MulInt64 4294967295 4294967295).result = ((0, -8589934591), false) ∧
    ¬ Exactly (sqlite3MulInt64 4294967295 4294967295) 4294967295 (4294967295 * 4294967295) := by
  have value : (sqlite3MulInt64 4294967295 4294967295).result = ((0, -8589934591), false) := by
    decide +kernel
  refine ⟨by decide, value, fun exactly => ?_⟩
  have lost : false = true := congrArg Prod.snd (value.symm.trans exactly)
  cases lost

end

end SeSqlite.CheckedInt
