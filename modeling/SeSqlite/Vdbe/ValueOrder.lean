/- source: src/vdbeaux.c
   digest: sqlite3MemCompare on three values is a total preorder exactly when no real among them is
   equal to two different integers, which rounding to a double allows beyond 2^53. -/
import SeSqlite.Expression.Order
import SeSqlite.Lib.Comparison
import SeSqlite.Lib.Rounding
import Mathlib.Data.Rat.Cast.Order

set_option autoImplicit false
set_option relaxedAutoImplicit false

namespace SeSqlite.Vdbe.ValueOrder

open Expression Lib.Comparison Lib.Rounding

/-- The conversion of an `i64` to a `double`; the doubles are taken as the rationals they are. -/
def nearestDouble (i : Int) : ℚ := roundInt i

theorem nearestDouble_mono {i j : Int} (le : i ≤ j) : nearestDouble i ≤ nearestDouble j :=
  Int.cast_le.mpr (roundInt_mono le)

section

variable {R : Type} [LinearOrder R] {db : Engine R} {pColl : Option CollSeq} {x y z : Value R}

/-- The place of a value's type: NULL, numbers, texts, blobs. -/
def rank : Value R → Nat
  | .null => 0
  | .integer _ => 1
  | .real _ => 1
  | .text _ => 2
  | .blob _ => 3

omit [LinearOrder R] in
theorem memCompare_of_rank_lt [LinearOrder R] (less : rank x < rank y) :
    sqlite3MemCompare db pColl x y = .lt := by
  cases x <;> cases y <;> first | rfl | simp [rank] at less

theorem rank_le (le : sqlite3MemCompare db pColl x y ≠ .gt) : rank x ≤ rank y := by
  cases x <;> cases y <;> simp_all [rank, sqlite3MemCompare]

variable (monotone : ∀ i j, i ≤ j → db.double i ≤ db.double j)
  (texts : ∀ zs, PreorderOn (compareText db pColl) zs)

include monotone texts in
theorem memCompare_trans (apart : Distinguished db [x, y, z])
    (le : sqlite3MemCompare db pColl x y ≠ .gt) (le' : sqlite3MemCompare db pColl y z ≠ .gt) :
    sqlite3MemCompare db pColl x z ≠ .gt := by
  have ranks := rank_le le
  have ranks' := rank_le le'
  rcases Nat.lt_or_ge (rank x) (rank z) with less | same
  · simp [memCompare_of_rank_lt less]
  cases x <;> cases z <;> simp only [rank] at ranks ranks' same <;> try omega
  all_goals
    cases y <;> simp only at ranks ranks' <;> try omega
  all_goals simp only [sqlite3MemCompare, compare_le_iff_le] at le le' ⊢
  case inr.integer.integer.integer i k j => exact le.trans le'
  case inr.integer.integer.real i k r =>
    by_contra more
    have equal := le_antisymm (le.trans le') (monotone k i (not_le.mp more).le)
    exact more (apart i k r (by simp) (by simp) (by simp) (le_antisymm le (equal ▸ le'))
      (le_antisymm (equal ▸ le) le')).le
  case inr.integer.real.integer i t j => exact (monotone i j le).trans le'
  case inr.real.integer.integer r k j => exact le.trans (monotone j k le')
  case inr.integer.real.real => exact le.trans le'
  case inr.real.integer.real => exact le.trans le'
  case inr.real.real.integer => exact le.trans le'
  case inr.real.real.real => exact le.trans le'
  case inr.text.text.text s u t =>
    exact (texts [s, t, u]).trans s (by simp) t (by simp) u (by simp) le le'
  case inr.blob.blob.blob s u t => exact memcmp_le_trans le le'

end

/-- Three values are ordered as search and sorting need it exactly when no real number among them
is equal to two different integers among them. -/
theorem memCompare_preorder (db : Engine ℚ) (rounds : db.double = nearestDouble)
    (pColl : Option CollSeq) (texts : ∀ zs, PreorderOn (compareText db pColl) zs)
    (a b c : Value ℚ) :
    PreorderOn (sqlite3MemCompare db pColl) [a, b, c] ↔ Distinguished db [a, b, c] := by
  constructor
  · intro preorder i j r memberI memberJ memberR equal equal'
    have alike := preorder.alike (.integer i) memberI (.real r) memberR (.integer j) memberJ
      (compare_eq_iff_eq.mpr equal)
    rw [sqlite3MemCompare, sqlite3MemCompare, compare_eq_iff_eq.mpr equal'.symm] at alike
    exact compare_eq_iff_eq.mp alike
  · intro apart
    refine preorderOn_of (fun x _ y _ => memCompare_swap_of (fun s t => ?_) x y) ?_
    · exact (texts [s, t]).swap s (by simp) t (by simp)
    · intro x hx y hy z hz
      refine memCompare_trans ?_ texts (apart.mono fun v member => ?_)
      · intro i j le
        rw [rounds]
        exact nearestDouble_mono le
      · simp only [List.mem_cons, List.not_mem_nil, or_false] at member
        rcases member with rfl | rfl | rfl
        · exact hx
        · exact hy
        · exact hz

def binaryEngine : Engine ℚ where
  double := nearestDouble
  doubleToInt64 := Rat.floor
  negate := Neg.neg
  sqlite3AtoF := fun _ => (false, 0)
  sqlite3Atoi64 := fun _ => (1, 0)
  stringifyInt := fun _ => []
  stringifyReal := fun _ => []
  xCmp := fun _ => memcmp
  sqlite3FindFunction := fun _ _ => ⟨false, false, false, fun _ _ => .null⟩
  sqlite3AffinityType := fun _ => .none
  sqlite3HexToBlob := fun _ => []

theorem nearestDouble_values : nearestDouble 1 = 1 ∧ nearestDouble 2 = 2 ∧
    nearestDouble (2 ^ 53) = 2 ^ 53 ∧ nearestDouble (2 ^ 53 + 1) = 2 ^ 53 := by
  have rounded : roundInt 1 = 1 ∧ roundInt 2 = 2 ∧ roundInt (2 ^ 53) = 2 ^ 53 ∧
      roundInt (2 ^ 53 + 1) = 2 ^ 53 := by decide
  obtain ⟨one, two, even, odd⟩ := rounded
  simp only [nearestDouble, one, two, even, odd]
  norm_num

theorem memCompare_preorder_small : PreorderOn (sqlite3MemCompare binaryEngine none)
    [.integer 1, .real 1, .integer 2] := by
  obtain ⟨one, two, -⟩ := nearestDouble_values
  refine (memCompare_preorder binaryEngine rfl none (fun zs => ?_) _ _ _).mpr ?_
  · exact preorderOn_of (fun x _ y _ => memcmp_swap x y) fun x _ y _ z _ => memcmp_le_trans
  · intro i j r memberI memberJ memberR equal equal'
    simp only [List.mem_cons, Value.integer.injEq, List.not_mem_nil, or_false, reduceCtorEq,
      false_or] at memberI memberJ
    rcases memberI with rfl | rfl <;> rcases memberJ with rfl | rfl <;>
      simp_all [binaryEngine]

/-- 2^53 and 2^53 + 1 are both equal to the double 2^53, and different from each other. -/
theorem memCompare_not_transitive :
    sqlite3MemCompare binaryEngine none (.integer (2 ^ 53 + 1)) (.real (2 ^ 53)) = .eq ∧
    sqlite3MemCompare binaryEngine none (.real (2 ^ 53)) (.integer (2 ^ 53)) = .eq ∧
    sqlite3MemCompare binaryEngine none (.integer (2 ^ 53 + 1)) (.integer (2 ^ 53)) = .gt ∧
    ¬ PreorderOn (sqlite3MemCompare binaryEngine none)
      [.integer (2 ^ 53 + 1), .real (2 ^ 53), .integer (2 ^ 53)] := by
  obtain ⟨-, -, even, odd⟩ := nearestDouble_values
  have first : sqlite3MemCompare binaryEngine none (.integer (2 ^ 53 + 1)) (.real (2 ^ 53)) = .eq :=
    compare_eq_iff_eq.mpr odd
  have second : sqlite3MemCompare binaryEngine none (.real (2 ^ 53)) (.integer (2 ^ 53)) = .eq :=
    compare_eq_iff_eq.mpr even.symm
  have third : compare (2 ^ 53 + 1 : Int) (2 ^ 53) = .gt := by decide
  refine ⟨first, second, third, fun preorder => ?_⟩
  have chain := preorder.trans (.integer (2 ^ 53 + 1)) (by simp) (.real (2 ^ 53)) (by simp)
    (.integer (2 ^ 53)) (by simp) (by rw [first]; decide) (by rw [second]; decide)
  exact chain third

end SeSqlite.Vdbe.ValueOrder
