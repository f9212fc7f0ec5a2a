/- source: src/vdbeaux.c, src/sqlite.h.in
   digest: When a comparison may replace one of its values by an equal one: collating sequences as
   the documentation demands them, and integers beside real numbers. -/
import SeSqlite.Expression.Tree

set_option autoImplicit false
set_option relaxedAutoImplicit false

namespace SeSqlite.Expression

variable {R : Type} [LinearOrder R] (db : Engine R)

def binaryColl : CollSeq := sqlite3FindCollSeq "BINARY"

/-- The rest of what the documentation demands of a collating function; BINARY compares the bytes,
and the conversion of integers is monotone. -/
structure Engine.Ordered : Prop extends Engine.Lawful db where
  eq_trans : ∀ pColl x y z, db.xCmp pColl x y = .eq → db.xCmp pColl y z = .eq →
    db.xCmp pColl x z = .eq
  lt_trans : ∀ pColl x y z, db.xCmp pColl x y = .lt → db.xCmp pColl y z = .lt →
    db.xCmp pColl x z = .lt
  binary : ∀ y z, db.xCmp binaryColl y z = memcmp y z
  monotone : ∀ i j, i ≤ j → db.double i ≤ db.double j

section

variable {db} {pColl pColl' : Option CollSeq} {x y z : List UInt8}

theorem memcmp_eq (same : memcmp y z = .eq) : y = z := by
  fun_induction memcmp y z with
  | case1 => rfl
  | case2 => cases same
  | case3 => cases same
  | case4 a s b t less => cases same
  | case5 a s b t notLess less => cases same
  | case6 a s b t notLess notMore ih =>
    have heads : a = b := UInt8.le_antisymm (UInt8.not_lt.mp notMore) (UInt8.not_lt.mp notLess)
    rw [heads, ih same]

theorem memcmp_lt_trans (less : memcmp x y = .lt) (less' : memcmp y z = .lt) :
    memcmp x z = .lt := by
  induction x generalizing y z with
  | nil =>
    cases y with
    | nil => exact less'
    | cons b t =>
      cases z with
      | nil => exact absurd less' (by simp [memcmp])
      | cons c u => rfl
  | cons a s ih =>
    cases y with
    | nil => exact absurd less (by simp [memcmp])
    | cons b t =>
      cases z with
      | nil => exact absurd less' (by simp [memcmp])
      | cons c u =>
        simp only [memcmp, UInt8.lt_iff_toNat_lt] at less less' ⊢
        split_ifs at less less' ⊢ with ab ba bc cb ac ca <;> first | rfl | omega | skip
        all_goals exact ih less less'

theorem memcmp_le_trans (le : memcmp x y ≠ .gt) (le' : memcmp y z ≠ .gt) : memcmp x z ≠ .gt := by
  cases first : memcmp x y with
  | gt => exact absurd first le
  | eq => rwa [memcmp_eq first]
  | lt =>
    cases second : memcmp y z with
    | gt => exact absurd second le'
    | eq => simp [← memcmp_eq second, first]
    | lt => simp [memcmp_lt_trans first second]

theorem xCmp_congr (ordered : db.Ordered) (pColl : CollSeq) (same : db.xCmp pColl x y = .eq)
    (z : List UInt8) : db.xCmp pColl x z = db.xCmp pColl y z := by
  have back : db.xCmp pColl y x = .eq := by rw [ordered.swap, same]; rfl
  have not_between {u v : List UInt8} (equal : db.xCmp pColl u v = .eq)
      (less : db.xCmp pColl u z = .lt) (more : db.xCmp pColl v z = .gt) : False := by
    have less' : db.xCmp pColl z v = .lt := by rw [ordered.swap, more]; rfl
    have strict := ordered.lt_trans pColl u z v less less'
    rw [equal] at strict
    cases strict
  cases first : db.xCmp pColl x z with
  | eq => exact (ordered.eq_trans pColl y x z back first).symm
  | lt =>
    cases second : db.xCmp pColl y z with
    | lt => rfl
    | eq => exact absurd (first.symm.trans (ordered.eq_trans pColl x y z same second)) (by decide)
    | gt => exact (not_between same first second).elim
  | gt =>
    cases second : db.xCmp pColl y z with
    | lt => exact (not_between back second first).elim
    | eq => exact absurd (first.symm.trans (ordered.eq_trans pColl x y z same second)) (by decide)
    | gt => rfl

theorem compareText_getD (ordered : db.Ordered) (pColl : Option CollSeq) :
    compareText db pColl = db.xCmp (pColl.getD binaryColl) := by
  cases pColl with
  | some pColl => rfl
  | none =>
    funext y z
    exact (ordered.binary y z).symm

/-- Texts that the first collating sequence takes for equal are equal for the second one. -/
def Finer (pColl' pColl : Option CollSeq) : Prop :=
  pColl'.getD binaryColl = binaryColl ∨ pColl'.getD binaryColl = pColl.getD binaryColl

theorem compareText_congr (ordered : db.Ordered) (finer : Finer pColl' pColl)
    (same : compareText db pColl' x y = .eq) (z : List UInt8) :
    compareText db pColl x z = compareText db pColl y z := by
  rw [compareText_getD ordered] at same ⊢
  rcases finer with binary | coll
  · rw [binary, ordered.binary] at same
    rw [memcmp_eq same]
  · rw [coll] at same
    exact xCmp_congr ordered _ same z

end

section

def Distinguished (values : List (Value R)) : Prop :=
  ∀ i j r, .integer i ∈ values → .integer j ∈ values → .real r ∈ values →
    db.double i = r → db.double j = r → i = j

variable {db} {pColl pColl' : Option CollSeq} {x y z : Value R}

omit [LinearOrder R] in
theorem Distinguished.mono {values values' : List (Value R)}
    (distinguished : Distinguished db values) (fewer : ∀ v ∈ values', v ∈ values) :
    Distinguished db values' := by
  intro i j r memberI memberJ memberR
  exact distinguished i j r (fewer _ memberI) (fewer _ memberJ) (fewer _ memberR)

variable (ordered : db.Ordered)

include ordered

theorem compare_double {i j : Int} (apart : db.double i = db.double j → i = j) :
    compare (db.double i) (db.double j) = compare i j := by
  rcases lt_trichotomy i j with less | rfl | more
  · have strict := lt_of_le_of_ne (ordered.monotone i j (le_of_lt less)) fun same =>
        ne_of_lt less (apart same)
    rw [compare_lt_iff_lt.mpr less, compare_lt_iff_lt.mpr strict]
  · rw [compare_eq_iff_eq.mpr rfl, compare_eq_iff_eq.mpr rfl]
  · have strict := lt_of_le_of_ne (ordered.monotone j i (le_of_lt more)) fun same =>
        ne_of_gt more (apart same.symm)
    rw [compare_gt_iff_gt.mpr more, compare_gt_iff_gt.mpr strict]

theorem memCompare_congr (finer : Finer pColl' pColl) (distinguished : Distinguished db [x, y, z])
    (same : sqlite3MemCompare db pColl' x y = .eq) :
    sqlite3MemCompare db pColl x z = sqlite3MemCompare db pColl y z := by
  cases x with
  | null => cases y <;> first | rfl | simp [sqlite3MemCompare] at same
  | integer i =>
    cases y with
    | integer j =>
      rw [sqlite3MemCompare, compare_eq_iff_eq] at same
      rw [same]
    | real s =>
      rw [sqlite3MemCompare, compare_eq_iff_eq] at same
      cases z with
      | integer k =>
        rw [← same]
        refine (compare_double ordered fun equal => ?_).symm
        exact distinguished i k s (by simp) (by simp) (by simp) same (equal.symm.trans same)
      | real t => simp [sqlite3MemCompare, same]
      | _ => rfl
    | _ => simp [sqlite3MemCompare] at same
  | real r =>
    cases y with
    | integer j =>
      rw [sqlite3MemCompare, compare_eq_iff_eq] at same
      cases z with
      | integer k =>
        rw [same]
        refine compare_double ordered fun equal => ?_
        exact distinguished j k r (by simp) (by simp) (by simp) same.symm
          (equal.symm.trans same.symm)
      | real t => simp [sqlite3MemCompare, same]
      | _ => rfl
    | real s =>
      rw [sqlite3MemCompare, compare_eq_iff_eq] at same
      rw [same]
    | _ => simp [sqlite3MemCompare] at same
  | text s =>
    cases y with
    | text t =>
      cases z with
      | text u => exact compareText_congr ordered finer same u
      | _ => rfl
    | _ => simp [sqlite3MemCompare] at same
  | blob s =>
    cases y with
    | blob t => rw [memcmp_eq same]
    | _ => simp [sqlite3MemCompare] at same

theorem memCompare_self (pColl : Option CollSeq) (x : Value R) :
    sqlite3MemCompare db pColl x x = .eq := by
  have swapped := memCompare_swap ordered.toLawful pColl x x
  cases res : sqlite3MemCompare db pColl x x with
  | eq => rfl
  | lt => exact absurd (res ▸ swapped) (by decide)
  | gt => exact absurd (res ▸ swapped) (by decide)

theorem memCompare_coll (coll : pColl'.getD binaryColl = pColl.getD binaryColl) (x y : Value R) :
    sqlite3MemCompare db pColl' x y = sqlite3MemCompare db pColl x y := by
  cases x <;> cases y <;> first | rfl | skip
  simp [sqlite3MemCompare, compareText_getD ordered, coll]

end

end SeSqlite.Expression
