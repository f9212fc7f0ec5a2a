/- source: src/main.c, src/util.c
   digest: The collating sequences BINARY, NOCASE and RTRIM. The first two are total preorders of
   all byte strings; RTRIM is not one of strings with bytes below the space. -/
import SeSqlite.Expression.Order
import SeSqlite.Lib.Comparison

set_option autoImplicit false
set_option relaxedAutoImplicit false

namespace SeSqlite.Collations

open Expression Lib.Comparison List

def allSpaces (z : List UInt8) : Bool := z.all (· == 32)

/-- With `padFlag` it is RTRIM, without it BINARY. -/
def binCollFunc (padFlag : Bool) (pKey1 pKey2 : List UInt8) : Ordering :=
  let n := min pKey1.length pKey2.length
  match memcmp (pKey1.take n) (pKey2.take n) with
  | .eq =>
    if padFlag && allSpaces (pKey1.drop n) && allSpaces (pKey2.drop n) then .eq
    else compare pKey1.length pKey2.length
  | rc => rc

def sqlite3UpperToLower (c : UInt8) : UInt8 := if 65 ≤ c ∧ c ≤ 90 then c + 32 else c

/-- The loop ends after `n` characters, at a difference, and also at a terminator. -/
def sqlite3StrNICmp : Nat → List UInt8 → List UInt8 → Ordering
  | n + 1, a :: zLeft, b :: zRight =>
    if a ≠ 0 ∧ sqlite3UpperToLower a = sqlite3UpperToLower b then sqlite3StrNICmp n zLeft zRight
    else compare (sqlite3UpperToLower a).toNat (sqlite3UpperToLower b).toNat
  | _, _, _ => .eq

def nocaseCollatingFunc (pKey1 pKey2 : List UInt8) : Ordering :=
  match sqlite3StrNICmp (min pKey1.length pKey2.length) pKey1 pKey2 with
  | .eq => compare pKey1.length pKey2.length
  | r => r

/-- The collating sequences that every connection has. -/
inductive BuiltIn where
  | binary
  | nocase
  | rtrim
  deriving DecidableEq

def BuiltIn.xCmp : BuiltIn → List UInt8 → List UInt8 → Ordering
  | .binary => binCollFunc false
  | .nocase => nocaseCollatingFunc
  | .rtrim => binCollFunc true

section

variable (padFlag : Bool) (a b : UInt8) (s t : List UInt8)

theorem binCollFunc_cons : binCollFunc padFlag (a :: s) (b :: t) =
    if a < b then .lt else if b < a then .gt else binCollFunc padFlag s t := by
  simp only [binCollFunc, length_cons, Nat.add_min_add_right, take_succ_cons, memcmp,
    drop_succ_cons]
  split_ifs <;> simp [Nat.compare_eq_ite_lt]

theorem binCollFunc_nil_left : binCollFunc padFlag [] t =
    if (padFlag && allSpaces t) = true ∨ t = [] then .eq else .lt := by
  cases t <;> simp [binCollFunc, memcmp, allSpaces, Nat.compare_eq_ite_lt]

theorem binCollFunc_nil_right : binCollFunc padFlag s [] =
    if (padFlag && allSpaces s) = true ∨ s = [] then .eq else .gt := by
  cases s <;> simp [binCollFunc, memcmp, allSpaces, Nat.compare_eq_ite_lt]

/-- The place of a character in the order of NOCASE. -/
def weight (c : UInt8) : Nat := (sqlite3UpperToLower c).toNat

theorem toNat_lower : (sqlite3UpperToLower a).toNat = weight a := rfl

theorem weight_eq_zero : weight a = 0 ↔ a = 0 := by
  simp only [weight, sqlite3UpperToLower, UInt8.le_iff_toNat_le, ← UInt8.toNat_inj]
  split
  · rename_i letter
    simp only [UInt8.toNat_add, UInt8.reduceToNat] at letter ⊢
    omega
  · rfl

theorem nocase_nil_left : nocaseCollatingFunc [] t = if t = [] then .eq else .lt := by
  cases t <;> simp [nocaseCollatingFunc, sqlite3StrNICmp, Nat.compare_eq_ite_lt]

theorem nocase_nil_right : nocaseCollatingFunc s [] = if s = [] then .eq else .gt := by
  cases s <;> simp [nocaseCollatingFunc, sqlite3StrNICmp, Nat.compare_eq_ite_lt]

theorem nocase_cons : nocaseCollatingFunc (a :: s) (b :: t) =
    if weight a < weight b then .lt else if weight b < weight a then .gt
    else if a = 0 then compare s.length t.length else nocaseCollatingFunc s t := by
  simp only [nocaseCollatingFunc, length_cons, Nat.add_min_add_right, sqlite3StrNICmp,
    ← UInt8.toNat_inj (b := sqlite3UpperToLower b), toNat_lower]
  rcases Nat.lt_trichotomy (weight a) (weight b) with less | same | more
  · simp [less.ne, less, Nat.compare_eq_lt.mpr less]
  · rw [same]
    by_cases zero : a = 0 <;> simp [zero, Nat.compare_eq_ite_lt]
  · simp [more.ne', more, Nat.lt_asymm more, Nat.compare_eq_gt.mpr more]

end

theorem binCollFunc_swap (padFlag : Bool) : ∀ s t : List UInt8,
    binCollFunc padFlag s t = (binCollFunc padFlag t s).swap
  | [], t => by
    rw [binCollFunc_nil_left, binCollFunc_nil_right]
    split <;> rfl
  | a :: s, [] => by
    rw [binCollFunc_nil_left, binCollFunc_nil_right]
    split <;> rfl
  | a :: s, b :: t => by
    rw [binCollFunc_cons, binCollFunc_cons, binCollFunc_swap padFlag s t]
    simp only [UInt8.lt_iff_toNat_lt]
    split_ifs <;> first | rfl | omega

theorem nocase_swap : ∀ s t : List UInt8,
    nocaseCollatingFunc s t = (nocaseCollatingFunc t s).swap
  | [], t => by
    rw [nocase_nil_left, nocase_nil_right]
    split <;> rfl
  | a :: s, [] => by
    rw [nocase_nil_left, nocase_nil_right]
    split <;> rfl
  | a :: s, b :: t => by
    have zeros : weight a = weight b → (a = 0 ↔ b = 0) := fun same => by
      rw [← weight_eq_zero, same, weight_eq_zero]
    rw [nocase_cons, nocase_cons, nocase_swap s t]
    rcases Nat.lt_trichotomy (weight a) (weight b) with less | same | more
    · simp [less, Nat.lt_asymm less]
    · simp only [same, Nat.lt_irrefl, if_false, zeros same]
      split
      · exact Std.OrientedCmp.eq_swap
      · rfl
    · simp [more, Nat.lt_asymm more]

section

variable {x y z : List UInt8}

theorem binCollFunc_false : ∀ s t : List UInt8, binCollFunc false s t = memcmp s t
  | [], t => by cases t <;> simp [binCollFunc_nil_left, memcmp]
  | a :: s, [] => by simp [binCollFunc_nil_right, memcmp]
  | a :: s, b :: t => by rw [binCollFunc_cons, memcmp, binCollFunc_false s t]

theorem nocase_trans (le : nocaseCollatingFunc x y ≠ .gt) (le' : nocaseCollatingFunc y z ≠ .gt) :
    nocaseCollatingFunc x z ≠ .gt := by
  induction x generalizing y z with
  | nil =>
    rw [nocase_nil_left]
    split <;> simp
  | cons a s ih =>
    cases y with
    | nil => simp [nocase_nil_right] at le
    | cons b t =>
      cases z with
      | nil => simp [nocase_nil_right] at le'
      | cons c u =>
        have zeros : weight a = weight b → (a = 0 ↔ b = 0) := fun same => by
          rw [← weight_eq_zero, same, weight_eq_zero]
        rw [nocase_cons] at le le' ⊢
        have not_more : ¬ weight c < weight b := fun more => le' (by simp [more, Nat.lt_asymm more])
        rcases Nat.lt_trichotomy (weight a) (weight b) with less | same | more
        · simp [show weight a < weight c by omega]
        · simp only [same, zeros same, Nat.lt_irrefl, if_false, not_more] at le le' ⊢
          by_cases less : weight b < weight c
          · simp [less]
          · rw [if_neg less] at le' ⊢
            split at le
            · rename_i zero
              rw [if_pos zero, Nat.compare_ne_gt] at *
              exact le.trans le'
            · rename_i notZero
              rw [if_neg notZero] at le' ⊢
              exact ih le le'
        · simp [more, Nat.lt_asymm more] at le

/-- The second string is the first one with spaces added, and the third one lies between the two:
fewer spaces and then a byte below the space. -/
def Splits (u v w : List UInt8) : Prop :=
  ∃ j k c rest, j < k ∧ c < 32 ∧ v = u ++ replicate k 32 ∧
    w = u ++ (replicate j 32 ++ c :: rest)

variable {x y z : List UInt8}

theorem Splits.cons (a : UInt8) (splits : Splits x y z) : Splits (a :: x) (a :: y) (a :: z) := by
  obtain ⟨j, k, c, rest, fewer, low, rfl, rfl⟩ := splits
  exact ⟨j, k, c, rest, fewer, low, rfl, rfl⟩

theorem below_spaces (k : Nat) (less : binCollFunc true z (replicate k 32) = .lt) :
    Splits [] (replicate k 32) z := by
  induction k generalizing z with
  | zero =>
    rw [replicate_zero, binCollFunc_nil_right] at less
    split at less <;> simp at less
  | succ k ih =>
    rw [replicate_succ] at less ⊢
    cases z with
    | nil => simp [binCollFunc_nil_left, allSpaces] at less
    | cons c rest =>
      rw [binCollFunc_cons] at less
      split_ifs at less with low high
      · exact ⟨0, k + 1, c, rest, by omega, low, rfl, rfl⟩
      · have space : c = 32 := UInt8.le_antisymm (UInt8.not_lt.mp high) (UInt8.not_lt.mp low)
        obtain ⟨j, k', c', rest', fewer, low', more, rfl⟩ := ih less
        exact ⟨j + 1, k' + 1, c', rest', by omega, low', by simp [more, replicate_succ],
          by simp [space, replicate_succ]⟩

theorem allSpaces_of_eq (k : Nat) (same : binCollFunc true x (replicate k 32) = .eq) :
    allSpaces x = true := by
  induction k generalizing x with
  | zero =>
    rw [replicate_zero, binCollFunc_nil_right] at same
    split at same
    · rename_i spaces
      rcases spaces with spaces | rfl
      · exact spaces
      · rfl
    · simp at same
  | succ k ih =>
    cases x with
    | nil => rfl
    | cons c rest =>
      rw [replicate_succ, binCollFunc_cons] at same
      split_ifs at same with low high
      have space : c = 32 := UInt8.le_antisymm (UInt8.not_lt.mp high) (UInt8.not_lt.mp low)
      simpa [allSpaces, space] using ih same

theorem replicate_of_allSpaces (spaces : allSpaces x = true) : x = replicate x.length 32 := by
  simpa [allSpaces, eq_replicate_iff] using spaces

theorem rtrim_gt (le : binCollFunc true x y ≠ .gt) (le' : binCollFunc true y z ≠ .gt)
    (gt : binCollFunc true x z = .gt) : Splits y x z ∨ Splits z y x := by
  induction x generalizing y z with
  | nil =>
    rw [binCollFunc_nil_left] at gt
    split at gt <;> simp at gt
  | cons a s ih =>
    cases y with
    | nil =>
      have spaces : allSpaces (a :: s) = true := by
        rw [binCollFunc_nil_right] at le
        by_contra other
        simp [other] at le
      rw [replicate_of_allSpaces spaces] at gt ⊢
      refine .inl (below_spaces _ ?_)
      rw [binCollFunc_swap, gt]
      rfl
    | cons b t =>
      cases z with
      | nil =>
        have spaces : allSpaces (b :: t) = true := by
          rw [binCollFunc_nil_right] at le'
          by_contra other
          simp [other] at le'
        rw [replicate_of_allSpaces spaces] at le ⊢
        refine .inr (below_spaces _ ?_)
        cases res : binCollFunc true (a :: s) (replicate (b :: t).length 32) with
        | lt => rfl
        | gt => exact absurd res le
        | eq => simp [binCollFunc_nil_right, allSpaces_of_eq _ res] at gt
      | cons c u =>
        rw [binCollFunc_cons] at le le' gt
        simp only [UInt8.lt_iff_toNat_lt] at le le' gt
        have ab : a.toNat ≤ b.toNat := by
          by_contra more
          simp [show b.toNat < a.toNat by omega, show ¬ a.toNat < b.toNat by omega] at le
        have bc : b.toNat ≤ c.toNat := by
          by_contra more
          simp [show c.toNat < b.toNat by omega, show ¬ b.toNat < c.toNat by omega] at le'
        have ca : ¬ a.toNat < c.toNat := fun less => by simp [less] at gt
        obtain rfl : a = b := UInt8.toNat_inj.mp (by omega)
        obtain rfl : a = c := UInt8.toNat_inj.mp (by omega)
        simp only [Nat.lt_irrefl] at le le' gt
        exact (ih le le' gt).imp (.cons a) (.cons a)

theorem Splits.breaks (splits : Splits x y z) : binCollFunc true y x = .eq ∧
    binCollFunc true x z ≠ .gt ∧ binCollFunc true y z = .gt := by
  obtain ⟨j, k, c, rest, fewer, low, rfl, rfl⟩ := splits
  induction x with
  | cons a x ih => simpa [binCollFunc_cons] using ih
  | nil =>
    refine ⟨by simp [binCollFunc_nil_right, allSpaces], ?_, ?_⟩
    · rw [binCollFunc_nil_left]
      split <;> simp
    · induction j generalizing k with
      | zero =>
        obtain ⟨k, rfl⟩ : ∃ k', k = k' + 1 := ⟨k - 1, by omega⟩
        simp [replicate_succ, binCollFunc_cons, low, UInt8.lt_asymm low]
      | succ j ih =>
        obtain ⟨k, rfl⟩ : ∃ k', k = k' + 1 := ⟨k - 1, by omega⟩
        simpa [replicate_succ, binCollFunc_cons] using ih k (by omega)

theorem rtrim_preorderOn (values : List (List UInt8)) : PreorderOn (binCollFunc true) values ↔
    ∀ u ∈ values, ∀ v ∈ values, ∀ w ∈ values, ¬ Splits u v w := by
  constructor
  · intro preorder u hu v hv w hw splits
    obtain ⟨same, le, gt⟩ := splits.breaks
    exact preorder.trans v hv u hu w hw (by simp [same]) le gt
  · intro unsplit
    refine preorderOn_of (fun x _ y _ => binCollFunc_swap true x y) ?_
    intro x hx y hy z hz le le' gt
    rcases rtrim_gt le le' gt with splits | splits
    · exact unsplit y hy x hx z hz splits
    · exact unsplit z hz y hy x hx splits

end

/-- BINARY and NOCASE order all byte strings; RTRIM orders three strings exactly when none of them
lies between another one and that one with spaces added. -/
theorem builtIn_preorder (coll : BuiltIn) (a b c : List UInt8) : PreorderOn coll.xCmp [a, b, c] ↔
      (coll = .rtrim → ∀ u ∈ [a, b, c], ∀ v ∈ [a, b, c], ∀ w ∈ [a, b, c], ¬ Splits u v w) := by
  cases coll with
  | binary =>
    refine iff_of_true ?_ (by simp)
    refine preorderOn_of (fun x _ y _ => binCollFunc_swap false x y) fun x _ y _ z _ => ?_
    simp only [BuiltIn.xCmp, binCollFunc_false]
    exact memcmp_le_trans
  | nocase =>
    refine iff_of_true ?_ (by simp)
    exact preorderOn_of (fun x _ y _ => nocase_swap x y) fun x _ y _ z _ => nocase_trans
  | rtrim =>
    rw [BuiltIn.xCmp, rtrim_preorderOn]
    simp

/-- RTRIM takes "a" and "a " for equal, and puts a string with a control character after the first
and before the second one. -/
theorem rtrim_not_preorder : BuiltIn.rtrim.xCmp [97] [97, 32] = .eq ∧
    BuiltIn.rtrim.xCmp [97] [97, 9] = .lt ∧ BuiltIn.rtrim.xCmp [97, 32] [97, 9] = .gt ∧
    ¬ PreorderOn BuiltIn.rtrim.xCmp [[97], [97, 32], [97, 9]] := by
  have equal : BuiltIn.rtrim.xCmp [97] [97, 32] = .eq := by decide
  have less : BuiltIn.rtrim.xCmp [97] [97, 9] = .lt := by decide
  have more : BuiltIn.rtrim.xCmp [97, 32] [97, 9] = .gt := by decide
  refine ⟨equal, less, more, fun preorder => ?_⟩
  have alike := preorder.alike [97] (by simp) [97, 32] (by simp) [97, 9] (by simp) equal
  cases alike

end SeSqlite.Collations
