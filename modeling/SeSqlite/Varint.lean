/- source: src/util.c
   digest: Numbers of variable length: what is written is read back. -/
import Mathlib.Data.List.Basic
import Mathlib.Algebra.Ring.Nat

set_option autoImplicit false
set_option relaxedAutoImplicit false

namespace SeSqlite.Varint

open List

/-- The bytes of `buf`, seven bits each from the lowest, all with the eighth bit set; for so many
rounds of the loop. -/
def buf : (rounds : Nat) → (v : Nat) → List UInt8
  | 0, _ => []
  | rounds + 1, v =>
    UInt8.ofNat (v % 2 ^ 7 + 2 ^ 7) :: if v / 2 ^ 7 = 0 then [] else buf rounds (v / 2 ^ 7)

def nineBytes : (bytes : Nat) → (v : Nat) → List UInt8
  | 0, _ => []
  | bytes + 1, v => UInt8.ofNat (v % 2 ^ 7 + 2 ^ 7) :: nineBytes bytes (v / 2 ^ 7)

/-- `buf[0] &= 0x7f` -/
def clearFirst : List UInt8 → List UInt8
  | [] => []
  | b :: rest => UInt8.ofNat (b.toNat % 2 ^ 7) :: rest

def sqlite3PutVarint (v : Nat) : List UInt8 :=
  if v / 2 ^ 56 % 2 ^ 8 ≠ 0 then (nineBytes 8 (v / 2 ^ 8)).reverse ++ [UInt8.ofNat v]
  else (clearFirst (buf 9 v)).reverse

/-- The macro `putVarint32` over `sqlite3PutVarint32`. -/
def putVarint32 (v : Nat) : List UInt8 :=
  if v < 2 ^ 7 then [UInt8.ofNat v]
  else if v < 2 ^ 14 then [UInt8.ofNat (v / 2 ^ 7 + 2 ^ 7), UInt8.ofNat (v % 2 ^ 7)]
  else sqlite3PutVarint v

/-- The length of a value, for so many more rounds of the loop. -/
def varintLen : (rounds : Nat) → (v : Nat) → Nat
  | 0, _ => 1
  | rounds + 1, v => if v / 2 ^ 7 = 0 then 1 else varintLen rounds (v / 2 ^ 7) + 1

def sqlite3VarintLen (v : Nat) : Nat := varintLen 8 v

/-- The bytes from the `i`th on, after a value. A byte without its eighth bit is the last, and so
is the one behind so many rounds, of which all eight bits count. -/
def getFrom (p : Nat → UInt8) : (rounds : Nat) → (i v : Nat) → Nat × Nat
  | 0, i, v => (v * 2 ^ 8 + (p i).toNat, i + 1)
  | rounds + 1, i, v =>
    if (p i).toNat < 2 ^ 7 then (v * 2 ^ 7 + (p i).toNat, i + 1)
    else getFrom p rounds (i + 1) (v * 2 ^ 7 + (p i).toNat % 2 ^ 7)

/-- The value and the number of bytes. -/
def sqlite3GetVarint (p : Nat → UInt8) : Nat × Nat := getFrom p 8 0 0

/-- The macro `getVarint32` over `sqlite3GetVarint32`. -/
def getVarint32 (p : Nat → UInt8) : Nat × Nat :=
  let (v, n) := sqlite3GetVarint p
  (if v < 2 ^ 32 then v else 0xffffffff, n)

section

variable {p : Nat → UInt8} {i : Nat} {b : UInt8}

def At (p : Nat → UInt8) (i : Nat) (bytes : List UInt8) : Prop :=
  ∀ k (inside : k < bytes.length), p (i + k) = bytes[k]

theorem At.head {rest : List UInt8} (stands : At p i (b :: rest)) :
    p i = b ∧ At p (i + 1) rest := by
  refine ⟨stands 0 (Nat.succ_pos _), fun k inside => ?_⟩
  have next := stands (k + 1) (Nat.succ_lt_succ inside)
  rwa [getElem_cons_succ, Nat.add_comm k 1, ← Nat.add_assoc] at next

/-- What seven bits each of these bytes add to a value. -/
def sevens (v : Nat) (bytes : List UInt8) : Nat :=
  bytes.foldl (fun v b => v * 2 ^ 7 + b.toNat % 2 ^ 7) v

variable {v : Nat}

theorem getFrom_append {more last : List UInt8} (rounds : Nat) (stands : At p i (more ++ last))
    (marked : ∀ b ∈ more, 2 ^ 7 ≤ b.toNat) : getFrom p (rounds + more.length) i v =
      getFrom p rounds (i + more.length) (sevens v more) ∧ At p (i + more.length) last := by
  induction more generalizing i v with
  | nil => exact ⟨rfl, stands⟩
  | cons b more ih =>
    obtain ⟨here, rest⟩ := stands.head
    have high : ¬ (p i).toNat < 2 ^ 7 := by
      rw [here]
      exact Nat.not_lt.mpr (marked b mem_cons_self)
    obtain ⟨same, behind⟩ := ih (v := v * 2 ^ 7 + b.toNat % 2 ^ 7) rest
      fun c member => marked c (mem_cons_of_mem _ member)
    rw [length_cons, ← Nat.add_assoc, getFrom, if_neg high, here]
    have shift : i + 1 + more.length = i + (more.length + 1) := by omega
    rw [shift] at same behind
    exact ⟨same, behind⟩

theorem toNat_marked (v : Nat) : (UInt8.ofNat (v % 2 ^ 7 + 2 ^ 7)).toNat = v % 2 ^ 7 + 2 ^ 7 := by
  rw [UInt8.toNat_ofNat']
  omega

variable {rounds : Nat}

theorem buf_marked : ∀ b ∈ buf rounds v, 2 ^ 7 ≤ b.toNat := by
  induction rounds generalizing v with
  | zero => exact fun b member => absurd member not_mem_nil
  | succ rounds ih =>
    intro b member
    rcases mem_cons.mp member with rfl | later
    · rw [toNat_marked]
      omega
    · split at later
      · exact absurd later not_mem_nil
      · exact ih b later

theorem nineBytes_marked {bytes : Nat} : ∀ b ∈ nineBytes bytes v, 2 ^ 7 ≤ b.toNat := by
  induction bytes generalizing v with
  | zero => exact fun b member => absurd member not_mem_nil
  | succ bytes ih =>
    intro b member
    rcases mem_cons.mp member with rfl | later
    · rw [toNat_marked]
      omega
    · exact ih b later

theorem sevens_reverse (v : Nat) (b : UInt8) (bytes : List UInt8) :
    sevens v (b :: bytes).reverse = sevens v bytes.reverse * 2 ^ 7 + b.toNat % 2 ^ 7 := by
  rw [sevens, reverse_cons, foldl_append, foldl_cons, foldl_nil, ← sevens]

theorem sevens_buf (rounds : Nat) (small : v < 2 ^ (7 * rounds)) :
    sevens 0 (buf rounds v).reverse = v := by
  induction rounds generalizing v with
  | zero =>
    obtain rfl : v = 0 := by omega
    rfl
  | succ rounds ih =>
    rw [buf, sevens_reverse, toNat_marked]
    split
    · have none : sevens 0 ([] : List UInt8).reverse = 0 := rfl
      omega
    · have less : v / 2 ^ 7 < 2 ^ (7 * rounds) := by
        rw [Nat.div_lt_iff_lt_mul (Nat.two_pow_pos 7), ← Nat.pow_add]
        exact small
      rw [ih less]
      omega

theorem sevens_nineBytes (bytes : Nat) (small : v < 2 ^ (7 * bytes)) :
    sevens 0 (nineBytes bytes v).reverse = v := by
  induction bytes generalizing v with
  | zero =>
    obtain rfl : v = 0 := by omega
    rfl
  | succ bytes ih =>
    have less : v / 2 ^ 7 < 2 ^ (7 * bytes) := by
      rw [Nat.div_lt_iff_lt_mul (Nat.two_pow_pos 7), ← Nat.pow_add]
      exact small
    rw [nineBytes, sevens_reverse, toNat_marked, ih less]
    omega

theorem length_nineBytes (bytes v : Nat) : (nineBytes bytes v).length = bytes := by
  induction bytes generalizing v with
  | zero => rfl
  | succ bytes ih => rw [nineBytes, length_cons, ih]

theorem length_buf_small {k : Nat} (some_byte : 1 ≤ k) (small : v < 2 ^ (7 * k)) :
    (buf rounds v).length ≤ k := by
  induction rounds generalizing v k with
  | zero => exact Nat.zero_le _
  | succ rounds ih =>
    rw [buf, length_cons]
    split
    · exact some_byte
    · have two : 2 ≤ k := by
        rcases Nat.lt_or_ge k 2 with one | two
        · obtain rfl : k = 1 := by omega
          omega
        · exact two
      have less : v / 2 ^ 7 < 2 ^ (7 * (k - 1)) := by
        rw [Nat.div_lt_iff_lt_mul (Nat.two_pow_pos 7), ← Nat.pow_add]
        have same : 7 * (k - 1) + 7 = 7 * k := by omega
        rwa [same]
      have := ih (by omega) less
      omega

theorem getFrom_last (stands : At p i [b]) (low : b.toNat < 2 ^ 7) (some_round : 0 < rounds) :
    getFrom p rounds i v = (v * 2 ^ 7 + b.toNat, i + 1) := by
  obtain ⟨here, -⟩ := stands.head
  obtain ⟨rounds, rfl⟩ := Nat.exists_eq_succ_of_ne_zero (Nat.pos_iff_ne_zero.mp some_round)
  rw [getFrom, here, if_pos low]

theorem getVarint_of_buf (small : v < 2 ^ 56) (stands : At p 0 (clearFirst (buf 9 v)).reverse) :
    sqlite3GetVarint p = (v, (buf 9 v).length) := by
  have most : (buf 9 v).length ≤ 8 := length_buf_small (by decide) small
  have value := sevens_buf 9 (Nat.lt_trans small (by decide) : v < 2 ^ (7 * 9))
  have marked : ∀ b ∈ buf 9 v, 2 ^ 7 ≤ b.toNat := buf_marked
  cases bytes : buf 9 v with
  | nil => simp [buf] at bytes
  | cons b rest =>
    rw [bytes] at most value marked stands
    rw [clearFirst, reverse_cons] at stands
    rw [length_cons] at most
    obtain ⟨walk, last⟩ := getFrom_append (v := 0) (8 - rest.length) stands
      fun c member => marked c (mem_cons_of_mem _ (mem_reverse.mp member))
    have low : (UInt8.ofNat (b.toNat % 2 ^ 7)).toNat = b.toNat % 2 ^ 7 := by
      rw [UInt8.toNat_ofNat']
      omega
    have rounds : 8 - rest.length + rest.reverse.length = 8 := by
      rw [length_reverse]
      omega
    rw [rounds] at walk
    rw [sqlite3GetVarint, walk, getFrom_last last (by rw [low]; omega) (by omega), low,
      ← sevens_reverse, value, length_reverse, length_cons, Nat.zero_add]

theorem getVarint_of_nine (small : v < 2 ^ 64)
    (stands : At p 0 ((nineBytes 8 (v / 2 ^ 8)).reverse ++ [UInt8.ofNat v])) :
    sqlite3GetVarint p = (v, 9) := by
  have value := sevens_nineBytes 8 (v := v / 2 ^ 8) (by omega)
  have marked : ∀ b ∈ (nineBytes 8 (v / 2 ^ 8)).reverse, 2 ^ 7 ≤ b.toNat :=
    fun b member => nineBytes_marked b (mem_reverse.mp member)
  have length : (nineBytes 8 (v / 2 ^ 8)).reverse.length = 8 := by
    rw [length_reverse, length_nineBytes]
  obtain ⟨walk, last⟩ := getFrom_append (v := 0) 0 stands marked
  rw [length, value] at walk
  rw [length] at last
  have low : (UInt8.ofNat v).toNat = v % 2 ^ 8 := by
    rw [UInt8.toNat_ofNat']
  rw [sqlite3GetVarint, walk, getFrom, last.head.1, low]
  have whole := Nat.div_add_mod' v (2 ^ 8)
  rw [whole]

theorem length_clearFirst (bytes : List UInt8) : (clearFirst bytes).length = bytes.length := by
  cases bytes <;> rfl

theorem getVarint_putVarint (small : v < 2 ^ 64) (stands : At p 0 (sqlite3PutVarint v)) :
    sqlite3GetVarint p = (v, (sqlite3PutVarint v).length) := by
  rw [sqlite3PutVarint] at stands ⊢
  split at stands
  · rename_i nine
    rw [if_pos nine, getVarint_of_nine small stands, length_append, length_reverse,
      length_nineBytes, length_singleton]
  · rename_i fewer
    rw [if_neg fewer, getVarint_of_buf (by omega) stands, length_reverse, length_clearFirst]

theorem varintLen_le (rounds v : Nat) : varintLen rounds v ≤ rounds + 1 := by
  induction rounds generalizing v with
  | zero => exact Nat.le_refl 1
  | succ rounds ih =>
    rw [varintLen]
    split
    · omega
    · have := ih (v / 2 ^ 7)
      omega

theorem varintLen_pos (rounds v : Nat) : 0 < varintLen rounds v := by
  cases rounds with
  | zero => exact Nat.one_pos
  | succ rounds =>
    rw [varintLen]
    split <;> omega

theorem varintLen_of_large (large : v / 2 ^ (7 * rounds) ≠ 0) :
    varintLen rounds v = rounds + 1 := by
  induction rounds generalizing v with
  | zero => rfl
  | succ rounds ih =>
    have further : v / 2 ^ 7 / 2 ^ (7 * rounds) ≠ 0 := by
      rwa [Nat.div_div_eq_div_mul, ← Nat.pow_add, Nat.add_comm 7]
    have more : ¬ v / 2 ^ 7 = 0 := by
      intro none
      rw [none, Nat.zero_div] at further
      exact further rfl
    rw [varintLen, if_neg more, ih further]

theorem length_buf (rounds v : Nat) : (buf (rounds + 1) v).length = varintLen rounds v := by
  induction rounds generalizing v with
  | zero =>
    rw [buf]
    split <;> rfl
  | succ rounds ih =>
    rw [buf, varintLen]
    split
    · rfl
    · rw [length_cons, ih]

theorem length_putVarint (v : Nat) : (sqlite3PutVarint v).length = sqlite3VarintLen v := by
  rw [sqlite3PutVarint, sqlite3VarintLen]
  split
  · have large : v / 2 ^ (7 * 8) ≠ 0 := by omega
    rw [varintLen_of_large large, length_append, length_reverse, length_nineBytes, length_singleton]
  · rw [length_reverse, length_clearFirst, length_buf]

theorem putVarint32_eq (v : Nat) : putVarint32 v = sqlite3PutVarint v := by
  have clear (v : Nat) : UInt8.ofNat ((UInt8.ofNat (v % 2 ^ 7 + 2 ^ 7)).toNat % 2 ^ 7) =
      UInt8.ofNat (v % 2 ^ 7) := by
    rw [toNat_marked, Nat.add_mod_right, Nat.mod_mod]
  rw [putVarint32]
  split
  · rename_i one
    have low : v % 2 ^ 7 = v := Nat.mod_eq_of_lt one
    have done : v / 2 ^ 7 = 0 := Nat.div_eq_of_lt one
    rw [sqlite3PutVarint, if_neg (by omega), buf, if_pos done, clearFirst, clear, low,
      reverse_singleton]
  · split
    · have high : v / 2 ^ 7 % 2 ^ 7 = v / 2 ^ 7 := Nat.mod_eq_of_lt (by omega)
      have notYet : ¬ v / 2 ^ 7 = 0 := by omega
      have done : v / 2 ^ 7 / 2 ^ 7 = 0 := Nat.div_eq_of_lt (by omega)
      rw [sqlite3PutVarint, if_neg (by omega), buf, if_neg notYet, buf, if_pos done, clearFirst,
        clear, high]
      rfl
    · rfl

theorem getVarint32_putVarint (small : v < 2 ^ 32) (stands : At p 0 (sqlite3PutVarint v)) :
    getVarint32 p = (v, (sqlite3PutVarint v).length) := by
  rw [getVarint32, getVarint_putVarint (Nat.lt_trans small (by decide)) stands]
  dsimp only
  rw [if_pos small]

end

end SeSqlite.Varint
