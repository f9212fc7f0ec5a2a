/- source: src/vdbe.c, src/vdbemem.c
   digest: OP_SeekLT, LE, GE and GT on a rowid table honour every key but the real 2^63, which
   is rounded to the largest rowid. -/
import SeSqlite.Lib.Rounding
import Mathlib.Data.Rat.Floor

set_option autoImplicit false
set_option relaxedAutoImplicit false

namespace SeSqlite.Vdbe.Seek

open Lib.Rounding List

inductive Opcode
  | lt
  | le
  | ge
  | gt
  deriving DecidableEq

/-- `oc--` for the opcodes with the parity of `OP_SeekGT` -/
def Opcode.down : Opcode → Opcode
  | .le => .lt
  | .gt => .ge
  | oc => oc

/-- `oc++` for the opcodes with the parity of `OP_SeekLT` -/
def Opcode.up : Opcode → Opcode
  | .lt => .le
  | .ge => .gt
  | oc => oc

def maxInt : Int := 0x7fffffffffffffff

def minInt : Int := -0x8000000000000000

/-- The cast of a `double` to `i64`. -/
def truncate (r : ℚ) : Int := if 0 ≤ r then ⌊r⌋ else ⌈r⌉

def doubleToInt64 (r : ℚ) : Int :=
  if r ≤ roundInt minInt then minInt else if roundInt maxInt ≤ r then maxInt else truncate r

/-- The opcode and the rowid that are searched for the real `r`. -/
def searchReal (oc : Opcode) (r : ℚ) : Opcode × Int :=
  let iKey := doubleToInt64 r
  (if r < roundInt iKey then oc.down else if roundInt iKey < r then oc.up else oc, iKey)

/-- What `sqlite3BtreeMovetoUnpacked` documents: it stops at the key or beside its place. The cursor
is at the first entry of `after`, or nowhere in an empty table. -/
inductive Moved (iKey : Int) : (before after : List Int) → (res : Ordering) → Prop
  | empty : Moved iKey [] [] .lt
  | entry {before large : List Int} {x : Int} (less : ∀ y ∈ before, y < iKey)
      (more : ∀ y ∈ large, iKey < y) : Moved iKey before (x :: large) (compare x iKey)

abbrev Opcode.Above (oc : Opcode) : Prop := oc = .ge ∨ oc = .gt

/-- The rowid at which the cursor ends; `none` is the jump to P2. -/
def seek (oc : Opcode) (before after : List Int) (res : Ordering) : Option Int :=
  if oc.Above then
    if res = .lt ∨ res = .eq ∧ oc = .gt then after.tail.head? else after.head?
  else if res = .gt ∨ res = .eq ∧ oc = .lt then before.getLast? else after.head?

def Wanted : Opcode → ℚ → Int → Prop
  | .lt, v, x => x < v
  | .le, v, x => x ≤ v
  | .ge, v, x => v ≤ x
  | .gt, v, x => v < x

/-- The largest rowid below the key, or the smallest above it. -/
def Correct (oc : Opcode) (v : ℚ) (rows : List Int) (found : Option Int) : Prop :=
  match found with
  | none => ∀ y ∈ rows, ¬ Wanted oc v y
  | some x => x ∈ rows ∧ Wanted oc v x ∧
    ∀ y ∈ rows, Wanted oc v y → if oc.Above then x ≤ y else y ≤ x

def IsDouble (r : ℚ) : Prop :=
  ∃ (m : Int) (e : Nat), m.natAbs < 2 ^ 53 ∧ (r = m * 2 ^ e ∨ r = m / 2 ^ e)

section

variable {oc : Opcode} {v : ℚ} {small big before after : List Int} {iKey : Int} {n : Nat}

section

variable (sorted : (small ++ big).Pairwise (· < ·))

include sorted

theorem correct_head (above : oc.Above) (out : ∀ y ∈ small, ¬ Wanted oc v y)
    (inside : ∀ y ∈ big, Wanted oc v y) : Correct oc v (small ++ big) big.head? := by
  cases big with
  | nil => simpa [Correct] using out
  | cons x large =>
    refine ⟨by simp, inside x mem_cons_self, fun y member wanted => ?_⟩
    rw [if_pos above]
    rcases mem_append.mp member with low | high
    · exact absurd wanted (out y low)
    · rcases mem_cons.mp high with rfl | later
      · exact Int.le_refl y
      · exact Int.le_of_lt (rel_of_pairwise_cons (pairwise_append.mp sorted).2.1 later)

theorem correct_getLast (below : ¬ oc.Above) (inside : ∀ y ∈ small, Wanted oc v y)
    (out : ∀ y ∈ big, ¬ Wanted oc v y) : Correct oc v (small ++ big) small.getLast? := by
  obtain rfl | ⟨small, x, rfl⟩ := eq_nil_or_concat' small
  · simpa [Correct] using out
  · rw [getLast?_concat]
    refine ⟨by simp, inside x (by simp), fun y member wanted => ?_⟩
    rw [if_neg below]
    rcases mem_append.mp member with low | high
    · rcases mem_append.mp low with earlier | last
      · have rising := (pairwise_append.mp sorted).1
        exact Int.le_of_lt ((pairwise_append.mp rising).2.2 y earlier x mem_cons_self)
      · exact Int.le_of_eq (mem_singleton.mp last)
    · exact absurd wanted (out y high)

/-- The rows on the left of the place of a key, for the opcode. -/
def Left (oc : Opcode) (iKey y : Int) : Prop := y < iKey ∨ y = iKey ∧ (oc = .le ∨ oc = .gt)

omit sorted in
theorem wanted_iff (oc : Opcode) (iKey y : Int) :
    Wanted oc iKey y ↔ (Left oc iKey y ↔ ¬ oc.Above) := by
  cases oc <;> simp [Wanted, Left] <;> omega

theorem correct_split {found : Option Int} (left : ∀ y ∈ small, Left oc iKey y)
    (right : ∀ y ∈ big, ¬ Left oc iKey y)
    (at_ : found = if oc.Above then big.head? else small.getLast?) :
    Correct oc iKey (small ++ big) found := by
  rw [at_]
  split
  · rename_i above
    refine correct_head sorted above (fun y low => ?_) fun y high => ?_
    · simp [wanted_iff, left y low, above]
    · simp [wanted_iff, right y high, above]
  · rename_i below
    refine correct_getLast sorted below (fun y low => ?_) fun y high => ?_
    · simp [wanted_iff, left y low, below]
    · simp [wanted_iff, right y high, below]

end

theorem seek_correct {res : Ordering} (moved : Moved iKey before after res)
    (sorted : (before ++ after).Pairwise (· < ·)) (oc : Opcode) :
    Correct oc iKey (before ++ after) (seek oc before after res) := by
  cases moved with
  | empty => cases oc <;> simp [seek, Correct]
  | @entry _ large x less more =>
    have high : ∀ y ∈ large, ¬ Left oc iKey y := by
      intro y later
      have := more y later
      rw [Left]
      omega
    by_cases left : Left oc iKey x
    · rw [append_cons] at sorted ⊢
      refine correct_split sorted (fun y low => ?_) high ?_
      · rcases mem_append.mp low with earlier | last
        · exact Or.inl (less y earlier)
        · rwa [mem_singleton.mp last]
      · rcases left with lt | ⟨rfl, either⟩
        · simp [seek, compare_lt_iff_lt.mpr lt]
        · rcases either with rfl | rfl <;> simp [seek]
    · refine correct_split sorted (fun y low => Or.inl (less y low)) ?_ ?_
      · simpa [left] using high
      · rw [Left, not_or, Int.not_lt] at left
        rcases Int.lt_or_eq_of_le left.1 with gt | rfl
        · simp [seek, compare_gt_iff_gt.mpr gt]
        · have : oc = .lt ∨ oc = .ge := by
            cases oc <;> simp_all
          rcases this with rfl | rfl <;> simp [seek]

theorem roundNat_eq_self (divides : 2 ^ exponent n ∣ n) : roundNat n = n := by
  rw [roundNat, significand, if_neg, Nat.div_mul_cancel divides]
  rw [RoundsUp]
  omega

theorem roundInt_scaled {i : Int} {a e : Nat} (few : a < 2 ^ 53) (scaled : i.natAbs = a * 2 ^ e) :
    roundInt i = i := by
  have log : Nat.log 2 i.natAbs < 53 + e := by
    refine Nat.log_lt_of_lt_pow' (by omega) ?_
    rw [scaled, pow_add]
    exact Nat.mul_lt_mul_of_pos_right few (Nat.two_pow_pos e)
  have divides : 2 ^ exponent i.natAbs ∣ i.natAbs := by
    have : 2 ^ exponent i.natAbs ∣ 2 ^ e := Nat.pow_dvd_pow 2 (by rw [exponent]; omega)
    rw [scaled] at this ⊢
    exact this.mul_left a
  rw [roundInt, roundNat_eq_self divides]
  split <;> omega

theorem truncate_near (r : ℚ) : (truncate r : ℚ) - 1 < r ∧ r < truncate r + 1 := by
  rw [truncate]
  split
  · have := Int.floor_le r
    have := Int.lt_floor_add_one r
    constructor <;> linarith
  · have := Int.le_ceil r
    have := Int.ceil_lt_add_one r
    constructor <;> linarith

variable {r : ℚ} {x : Int}

theorem natAbs_truncate_le (bound : |r| ≤ n) : (truncate r).natAbs ≤ n := by
  have near := truncate_near r
  rw [abs_le] at bound
  have upper : (truncate r : ℚ) < (n + 1 : Int) := by push_cast; linarith
  have lower : ((-n - 1 : Int) : ℚ) < truncate r := by push_cast; linarith
  rw [Int.cast_lt] at upper lower
  omega

theorem roundInt_truncate (double : IsDouble r) : roundInt (truncate r) = truncate r := by
  obtain ⟨m, e, few, rfl | rfl⟩ := double
  · have whole : truncate (m * 2 ^ e) = m * 2 ^ e := by
      rw [truncate, show (m : ℚ) * 2 ^ e = (m * 2 ^ e : Int) by push_cast; rfl, Int.floor_intCast,
        Int.ceil_intCast, ite_self]
    rw [whole]
    refine roundInt_scaled (e := e) few ?_
    rw [Int.natAbs_mul]
    rfl
  · refine roundInt_scaled (e := 0) (lt_of_le_of_lt (natAbs_truncate_le ?_) few)
      (Nat.mul_one _).symm
    rw [abs_div, abs_of_pos (show (0 : ℚ) < 2 ^ e by positivity), Nat.cast_natAbs, Int.cast_abs]
    exact div_le_self (abs_nonneg _) (one_le_pow₀ (by norm_num))

/-- Every key but `2^63` lies on the same side of its rowid as of the rounded one, and no row is
between the two. -/
theorem doubleToInt64_near (double : IsDouble r) (other : r ≠ 2 ^ 63) (low : minInt ≤ x)
    (high : x ≤ maxInt) : (r < roundInt (doubleToInt64 r) ↔ r < doubleToInt64 r) ∧
      (roundInt (doubleToInt64 r) < r ↔ doubleToInt64 r < r) ∧
      (x < doubleToInt64 r → (x : ℚ) < r) ∧ (doubleToInt64 r < x → r < x) := by
  rw [doubleToInt64]
  split
  · rename_i under
    refine ⟨Iff.rfl, Iff.rfl, fun less => absurd low less.not_ge, fun more => ?_⟩
    exact under.trans_lt (Int.cast_lt.mpr more)
  · split
    · rename_i beyond
      have rounded : (maxInt : ℚ) < (2 ^ 63 : Int) := Int.cast_lt.mpr (by decide)
      have larger : ((2 ^ 63 : Int) : ℚ) < r := lt_of_le_of_ne beyond (mod_cast other.symm)
      refine ⟨iff_of_false ?_ ?_, iff_of_true larger ?_, fun less => ?_, fun more => ?_⟩
      · linarith
      · linarith
      · linarith
      · have : (x : ℚ) < maxInt := Int.cast_lt.mpr less
        linarith
      · exact absurd high more.not_ge
    · have near := truncate_near r
      rw [roundInt_truncate double]
      refine ⟨Iff.rfl, Iff.rfl, fun less => ?_, fun more => ?_⟩
      · have : (x : ℚ) ≤ (truncate r - 1 : Int) := Int.cast_le.mpr (Int.le_sub_one_of_lt less)
        push_cast at this
        linarith
      · have : ((truncate r + 1 : Int) : ℚ) ≤ x := Int.cast_le.mpr more
        push_cast at this
        linarith

theorem wanted_searchReal (oc : Opcode) (double : IsDouble r) (other : r ≠ 2 ^ 63)
    (low : minInt ≤ x) (high : x ≤ maxInt) :
    Wanted (searchReal oc r).1 (searchReal oc r).2 x ↔ Wanted oc r x := by
  obtain ⟨less, more, before, after⟩ := doubleToInt64_near double other low high
  have place : (x : ℚ) < doubleToInt64 r ∧ x < r ∨ (x : ℚ) = doubleToInt64 r ∨
      (doubleToInt64 r : ℚ) < x ∧ r < x := by
    rcases lt_trichotomy x (doubleToInt64 r) with lt | rfl | gt
    · exact Or.inl ⟨Int.cast_lt.mpr lt, before lt⟩
    · exact Or.inr (Or.inl rfl)
    · exact Or.inr (Or.inr ⟨Int.cast_lt.mpr gt, after gt⟩)
  simp only [searchReal, less, more]
  rcases place with ⟨_, _⟩ | _ | ⟨_, _⟩ <;> split_ifs <;> cases oc <;>
    simp only [Wanted, Opcode.down, Opcode.up] <;> constructor <;> intro <;> linarith

theorem wanted_limit_iff (oc : Opcode) {y : Int} (high : y ≤ maxInt) :
    (Wanted oc maxInt y ↔ Wanted oc (2 ^ 63) y) ↔ ¬ ((oc = .lt ∨ oc = .ge) ∧ y = maxInt) := by
  rw [show (2 : ℚ) ^ 63 = (2 ^ 63 : Int) by norm_cast, wanted_iff, wanted_iff]
  rw [maxInt] at *
  cases oc <;> simp [Left] <;> omega

end

inductive Key
  | int (i : Int)
  | real (r : ℚ)

def Key.value : Key → ℚ
  | .int i => i
  | .real r => r

def search (oc : Opcode) : Key → Opcode × Int
  | .int i => (oc, i)
  | .real r => searchReal oc r

theorem above_search (oc : Opcode) (key : Key) : (search oc key).1.Above ↔ oc.Above := by
  cases key with
  | int i => rfl
  | real r =>
    rw [search, searchReal]
    split_ifs <;> cases oc <;> simp [Opcode.Above, Opcode.down, Opcode.up]

theorem wanted_mono {oc : Opcode} {v : ℚ} {x y : Int} (wanted : Wanted oc v x)
    (beyond : if oc.Above then x ≤ y else y ≤ x) : Wanted oc v y := by
  cases oc <;> simp only [Opcode.Above, Wanted] at * <;> simp at beyond <;>
    have := Int.cast_le (R := ℚ).mpr beyond <;> linarith

/-- A position is right for two keys exactly when they ask for the same rows. -/
theorem correct_iff {oc other : Opcode} {v w : ℚ} {rows : List Int} {found : Option Int}
    (first : Correct other w rows found) (side : other.Above ↔ oc.Above) :
    Correct oc v rows found ↔ ∀ y ∈ rows, Wanted other w y ↔ Wanted oc v y := by
  cases found with
  | none => exact forall₂_congr fun y member => by simp [first y member]
  | some x =>
    obtain ⟨member, wanted, best⟩ := first
    simp only [side] at best
    constructor
    · rintro ⟨-, wanted', best'⟩ y present
      refine ⟨fun asked => wanted_mono wanted' (best y present asked), fun asked => ?_⟩
      refine wanted_mono wanted ?_
      simpa only [side] using best' y present asked
    · intro same
      exact ⟨member, (same x member).mp wanted,
        fun y present asked => best y present ((same y present).mpr asked)⟩

theorem seek_honours_iff {oc : Opcode} {key : Key} (double : ∀ r, key = .real r → IsDouble r)
    {before after : List Int} (sorted : (before ++ after).Pairwise (· < ·))
    (range : ∀ x ∈ before ++ after, minInt ≤ x ∧ x ≤ maxInt) {res : Ordering}
    (moved : Moved (search oc key).2 before after res) :
    Correct oc key.value (before ++ after) (seek (search oc key).1 before after res) ↔
      ¬ (key = .real (2 ^ 63) ∧ (oc = .lt ∨ oc = .ge) ∧ maxInt ∈ before ++ after) := by
  rw [correct_iff (seek_correct moved sorted _) (above_search oc key)]
  cases key with
  | int i => simp [search, Key.value]
  | real r =>
    rw [Key.real.injEq, search]
    by_cases limit : r = 2 ^ 63
    · subst limit
      constructor
      · rintro same ⟨-, either, member⟩
        exact (wanted_limit_iff oc le_rfl).mp (same maxInt member) ⟨either, rfl⟩
      · intro clear y member
        refine (wanted_limit_iff oc (range y member).2).mpr ?_
        rintro ⟨either, rfl⟩
        exact clear ⟨rfl, either, member⟩
    · simp only [limit, false_and, not_false_eq_true, iff_true]
      intro y member
      exact wanted_searchReal oc (double r rfl) limit (range y member).1 (range y member).2

theorem seek_honours_fraction : Correct .gt (9 / 2) [4, 5] (seek .gt [] [4, 5] .eq) := by
  have searched : search .gt (.real (9 / 2)) = (.gt, 4) := by decide +kernel
  have double : ∀ r, Key.real (9 / 2) = .real r → IsDouble r := by
    rintro r ⟨⟩
    exact ⟨9, 1, by decide, Or.inr (by norm_num)⟩
  have moved : Moved 4 [] [4, 5] .eq := @Moved.entry 4 [] [5] 4 (by simp) (by simp)
  have honoured := @seek_honours_iff .gt _ double [] [4, 5] (by decide) (by decide) .eq
  rw [searched] at honoured
  exact (honoured moved).mpr (by simp)

/-- The row 9223372036854775807 is taken for a row that is at least 9223372036854775808.0. -/
theorem seek_finds_less : IsDouble (2 ^ 63) ∧
    Moved (search .ge (.real (2 ^ 63))).2 [] [maxInt] .eq ∧
    ¬ Correct .ge (2 ^ 63) [maxInt] (seek (search .ge (.real (2 ^ 63))).1 [] [maxInt] .eq) := by
  refine ⟨⟨1, 63, by decide, Or.inl (by norm_num)⟩, ?_, fun correct => ?_⟩
  · have moved : Moved maxInt [] [maxInt] (compare maxInt maxInt) := .entry (by simp) (by simp)
    exact moved
  · have : (2 : ℚ) ^ 63 ≤ maxInt := correct.2.1
    rw [maxInt] at this
    norm_num at this

end SeSqlite.Vdbe.Seek
