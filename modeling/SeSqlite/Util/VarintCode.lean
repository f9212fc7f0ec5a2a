/- source: src/util.c
   digest: The unrolled decoders of numbers of variable length do what the loop over their bytes
   does. -/
import Mathlib.Tactic.IntervalCases
import SeSqlite.Varint

set_option autoImplicit false
set_option relaxedAutoImplicit false

namespace SeSqlite.Varint.Code

open BitVec

def byte (p : Nat → UInt8) (i : Nat) : BitVec 32 := (p i).toBitVec.setWidth 32

/-- `SLOT_2_0` -/
def slot20 : BitVec 32 := 0x001fc07f

/-- `SLOT_4_2_0` -/
def slot420 : BitVec 32 := 0xf01fc07f

/-- `((u64)s)<<32 | a` -/
def wide (s a : BitVec 32) : BitVec 64 := s.setWidth 64 <<< 32 ||| a.setWidth 64

section

-- the registers `a`, `b` and `s` after each assignment, named by the bytes that they hold

variable (p : Nat → UInt8)

/-- a: p0<<14 | p2 (unmasked) -/
def a02 : BitVec 32 := byte p 0 <<< 14 ||| byte p 2

/-- a: p0<<14 | p2 (masked) -/
def a02m : BitVec 32 := a02 p &&& slot20

/-- b: p1<<14 | p3 (unmasked) -/
def b13 : BitVec 32 := byte p 1 <<< 14 ||| byte p 3

/-- b: p1<<14 | p3 (masked) -/
def b13m : BitVec 32 := b13 p &&& slot20

/-- a: p0<<28 | p2<<14 | p4 (unmasked) -/
def a024 : BitVec 32 := a02m p <<< 14 ||| byte p 4

/-- s: p0<<21 | p1<<14 | p2<<7 | p3 (masked) -/
def s0123 : BitVec 32 := a02m p <<< 7 ||| b13m p

/-- b: p1<<28 | p3<<14 | p5 (unmasked) -/
def b135 : BitVec 32 := b13m p <<< 14 ||| byte p 5

/-- a: p2<<28 | p4<<14 | p6 (unmasked) -/
def a246 : BitVec 32 := a024 p <<< 14 ||| byte p 6

/-- The same after `a &= SLOT_2_0`. -/
def a46m : BitVec 32 := a246 p &&& slot20

/-- b: p3<<28 | p5<<14 | p7 (unmasked) -/
def b357 : BitVec 32 := b135 p <<< 14 ||| byte p 7

/-- a: p4<<29 | p6<<15 | p8 (unmasked) -/
def a468 : BitVec 32 := a46m p <<< 15 ||| byte p 8

def sqlite3GetVarint : BitVec 64 × Nat :=
  if byte p 0 &&& 0x80 = 0 then ((byte p 0).setWidth 64, 1)
  else if byte p 1 &&& 0x80 = 0 then (((byte p 0 &&& 0x7f) <<< 7 ||| byte p 1).setWidth 64, 2)
  else if a02 p &&& 0x80 = 0 then ((a02 p &&& slot20 ||| (byte p 1 &&& 0x7f) <<< 7).setWidth 64, 3)
  else if b13 p &&& 0x80 = 0 then ((a02m p <<< 7 ||| (b13 p &&& slot20)).setWidth 64, 4)
  else if a024 p &&& 0x80 = 0 then (wide (a02m p >>> 18) (a024 p ||| b13m p <<< 7), 5)
  else if b135 p &&& 0x80 = 0 then
    (wide (s0123 p >>> 18) ((a024 p &&& slot20) <<< 7 ||| b135 p), 6)
  else if a246 p &&& 0x80 = 0 then
    (wide (s0123 p >>> 11) ((a246 p &&& slot420) ||| (b135 p &&& slot20) <<< 7), 7)
  else if b357 p &&& 0x80 = 0 then
    (wide (s0123 p >>> 4) (a46m p <<< 7 ||| (b357 p &&& slot420)), 8)
  else
    (wide (s0123 p <<< 4 ||| (byte p 4 &&& 0x7f) >>> 3) (a468 p ||| (b357 p &&& slot20) <<< 8), 9)

end

/-- The first byte is taken to have its eighth bit set. -/
def sqlite3GetVarint32 (p : Nat → UInt8) : BitVec 32 × Nat :=
  let a := byte p 0
  let b := byte p 1
  if b &&& 0x80 = 0 then ((a &&& 0x7f) <<< 7 ||| b, 2)
  else
    let a := a <<< 14 ||| byte p 2
    if a &&& 0x80 = 0 then (a &&& (0x7f#32 <<< 14 ||| 0x7f#32) ||| (b &&& 0x7f) <<< 7, 3)
    else
      let (v64, n) := sqlite3GetVarint p
      if v64 &&& 0xffffffff ≠ v64 then (0xffffffff, n) else (v64.setWidth 32, n)

def getVarint32 (p : Nat → UInt8) : BitVec 32 × Nat :=
  if p 0 < 0x80 then (byte p 0, 1) else sqlite3GetVarint32 p

/-- The value is taken to have more than seven bits. -/
def sqlite3PutVarint32 (v : Nat) : List UInt8 :=
  if v < 2 ^ 14 then [UInt8.ofNat (v / 2 ^ 7 + 2 ^ 7), UInt8.ofNat (v % 2 ^ 7)]
  else sqlite3PutVarint v

theorem putVarint32_def (v : Nat) :
    putVarint32 v = if v < 2 ^ 7 then [UInt8.ofNat v] else sqlite3PutVarint32 v := rfl

section

variable {x y c : BitVec 32} {k : Nat}

theorem toNat_and_low (x : BitVec 32) : (x &&& 0x7f).toNat = x.toNat % 2 ^ 7 :=
  Nat.and_two_pow_sub_one_eq_mod x.toNat 7

theorem toNat_shift_or (fits : k ≤ 32) (small : c.toNat < 2 ^ k) :
    (x <<< k ||| c).toNat = x.toNat * 2 ^ k % 2 ^ 32 + c.toNat := by
  have split : x.toNat <<< k % 2 ^ 32 = (x.toNat % 2 ^ (32 - k)) <<< k := by
    rw [Nat.shiftLeft_eq, Nat.shiftLeft_eq, ← Nat.mul_mod_mul_right, ← Nat.pow_add,
      Nat.sub_add_cancel fits]
  rw [toNat_or, toNat_shiftLeft, split, ← Nat.shiftLeft_add_eq_or_of_lt small, ← split,
    Nat.shiftLeft_eq]

theorem and_slot20 (x : BitVec 32) :
    x &&& slot20 = (x >>> 14 &&& 0x7f) <<< 14 ||| (x &&& 0x7f) := by
  apply eq_of_getLsbD_eq
  intro i inside
  rw [slot20]
  interval_cases i <;> simp

theorem and_slot420 (x : BitVec 32) : x &&& slot420 = (x >>> 28) <<< 28 ||| (x &&& slot20) := by
  apply eq_of_getLsbD_eq
  intro i inside
  rw [slot20, slot420]
  interval_cases i <;> simp

theorem toNat_and_slot20 (x : BitVec 32) :
    (x &&& slot20).toNat = x.toNat / 2 ^ 14 % 2 ^ 7 * 2 ^ 14 + x.toNat % 2 ^ 7 := by
  have high : (x >>> 14 &&& 0x7f).toNat = x.toNat / 2 ^ 14 % 2 ^ 7 := by
    rw [toNat_and_low, toNat_ushiftRight, Nat.shiftRight_eq_div_pow]
  have low := toNat_and_low x
  rw [and_slot20, toNat_shift_or (by decide) (by omega), high, low]
  omega

theorem toNat_and_slot420 (x : BitVec 32) : (x &&& slot420).toNat =
      x.toNat / 2 ^ 28 * 2 ^ 28 + x.toNat / 2 ^ 14 % 2 ^ 7 * 2 ^ 14 + x.toNat % 2 ^ 7 := by
  have lanes := toNat_and_slot20 x
  have high : (x >>> 28).toNat = x.toNat / 2 ^ 28 := by
    rw [toNat_ushiftRight, Nat.shiftRight_eq_div_pow]
  rw [and_slot420, toNat_shift_or (by decide) (by omega), high, lanes]
  omega

theorem slots_apart (x y : BitVec 32) : (x &&& slot420) &&& ((y &&& slot20) <<< 7) = 0#32 := by
  apply eq_of_getLsbD_eq
  intro i inside
  rw [slot20, slot420]
  interval_cases i <;> simp

theorem toNat_interleave (lanesX : (x &&& slot420) = x) (lanesY : (y &&& slot20) = y) :
    (x ||| y <<< 7).toNat = x.toNat + y.toNat * 2 ^ 7 := by
  have apart := slots_apart x y
  have boundX := toNat_and_slot420 x
  have boundY := toNat_and_slot20 y
  rw [lanesX] at apart boundX
  rw [lanesY] at apart boundY
  have shifted : (y <<< 7).toNat = y.toNat * 2 ^ 7 := by
    rw [toNat_shiftLeft, Nat.shiftLeft_eq]
    omega
  rw [← add_eq_or_of_and_eq_zero _ _ apart, toNat_add_of_lt (by omega), shifted]

theorem toNat_lanes {x₄ x₂ x₀ y₂ y₀ : Nat} (valueX : x.toNat = x₄ * 2 ^ 28 + x₂ * 2 ^ 14 + x₀)
    (valueY : y.toNat = y₂ * 2 ^ 14 + y₀) (lowX : x₂ < 2 ^ 7 ∧ x₀ < 2 ^ 7)
    (lowY : y₂ < 2 ^ 7 ∧ y₀ < 2 ^ 7) : (x ||| y <<< 7).toNat = x.toNat + y.toNat * 2 ^ 7 := by
  have lanesX : (x &&& slot420) = x := eq_of_toNat_eq (by rw [toNat_and_slot420]; omega)
  have lanesY : (y &&& slot20) = y := eq_of_toNat_eq (by rw [toNat_and_slot20]; omega)
  exact toNat_interleave lanesX lanesY

theorem ninth_apart (x y : BitVec 32) (c : BitVec 8) :
    ((x &&& slot20) <<< 15 ||| c.setWidth 32) &&& ((y &&& slot20) <<< 8) = 0#32 := by
  apply eq_of_getLsbD_eq
  intro i inside
  rw [slot20]
  interval_cases i <;> simp

theorem toNat_wide (s a : BitVec 32) : (wide s a).toNat = s.toNat * 2 ^ 32 + a.toNat := by
  have boundA := a.isLt
  have high : (s.setWidth 64 <<< 32 : BitVec 64).toNat = s.toNat <<< 32 := by
    rw [toNat_shiftLeft, toNat_setWidth, Nat.shiftLeft_eq, Nat.shiftLeft_eq]
    omega
  rw [wide, toNat_or, high, toNat_setWidth, Nat.mod_eq_of_lt (by omega),
    ← Nat.shiftLeft_add_eq_or_of_lt boundA, Nat.shiftLeft_eq]

theorem toNat_byte (p : Nat → UInt8) (i : Nat) : (byte p i).toNat = (p i).toNat := by
  have bound := (p i).toNat_lt
  rw [byte, toNat_setWidth, UInt8.toNat_toBitVec]
  omega

theorem and_80_eq_zero_iff (x : BitVec 32) : x &&& 0x80 = 0 ↔ x.toNat / 2 ^ 7 % 2 = 0 := by
  have bit : x &&& (0x80 : BitVec 32) = (x >>> 7 &&& 1) <<< 7 := by
    apply eq_of_getLsbD_eq
    intro i inside
    interval_cases i <;> simp
  have value : (x &&& 0x80).toNat = x.toNat / 2 ^ 7 % 2 * 2 ^ 7 := by
    have one : (x >>> 7 &&& 1).toNat = x.toNat / 2 ^ 7 % 2 := by
      rw [toNat_and, toNat_ushiftRight, Nat.shiftRight_eq_div_pow]
      exact Nat.and_two_pow_sub_one_eq_mod _ 1
    rw [bit, toNat_shiftLeft, one, Nat.shiftLeft_eq]
    omega
  rw [← toNat_inj, value]
  constructor
  · intro zero
    have : x.toNat / 2 ^ 7 % 2 * 2 ^ 7 = 0 := zero
    omega
  · intro zero
    rw [zero]
    rfl

variable {p : Nat → UInt8} {v : Nat}

def numbers {w : Nat} (r : BitVec w × Nat) : Nat × Nat := (r.1.toNat, r.2)

theorem byte_slide (x : BitVec 32) (i : Nat) :
    (x <<< 14 ||| byte p i).toNat = x.toNat * 2 ^ 14 % 2 ^ 32 + (p i).toNat := by
  have bound := (p i).toNat_lt
  rw [toNat_shift_or (by decide) (by rw [toNat_byte]; omega), toNat_byte]

theorem toNat_a02m (p : Nat → UInt8) :
    (a02m p).toNat = (p 0).toNat % 2 ^ 7 * 2 ^ 14 + (p 2).toNat % 2 ^ 7 := by
  have first := toNat_byte p 0
  have slide := byte_slide (p := p) (byte p 0) 2
  have bound' := (p 2).toNat_lt
  rw [a02m, toNat_and_slot20, a02]
  omega

theorem toNat_b13m (p : Nat → UInt8) :
    (b13m p).toNat = (p 1).toNat % 2 ^ 7 * 2 ^ 14 + (p 3).toNat % 2 ^ 7 := by
  have first := toNat_byte p 1
  have slide := byte_slide (p := p) (byte p 1) 3
  have bound' := (p 3).toNat_lt
  rw [b13m, toNat_and_slot20, b13]
  omega

theorem toNat_a024 (p : Nat → UInt8) : (a024 p).toNat =
      (p 0).toNat % 2 ^ 4 * 2 ^ 28 + (p 2).toNat % 2 ^ 7 * 2 ^ 14 + (p 4).toNat := by
  have lanes := toNat_a02m p
  rw [a024, byte_slide]
  omega

theorem toNat_b135 (p : Nat → UInt8) : (b135 p).toNat =
      (p 1).toNat % 2 ^ 4 * 2 ^ 28 + (p 3).toNat % 2 ^ 7 * 2 ^ 14 + (p 5).toNat := by
  have lanes := toNat_b13m p
  rw [b135, byte_slide]
  omega

theorem toNat_a246 (p : Nat → UInt8) :
    (a246 p).toNat = (p 2).toNat % 2 ^ 4 * 2 ^ 28 + (p 4).toNat * 2 ^ 14 + (p 6).toNat := by
  have lanes := toNat_a024 p
  have bound := (p 4).toNat_lt
  rw [a246, byte_slide]
  omega

theorem toNat_b357 (p : Nat → UInt8) :
    (b357 p).toNat = (p 3).toNat % 2 ^ 4 * 2 ^ 28 + (p 5).toNat * 2 ^ 14 + (p 7).toNat := by
  have lanes := toNat_b135 p
  have bound := (p 5).toNat_lt
  rw [b357, byte_slide]
  omega

theorem toNat_a46m (p : Nat → UInt8) :
    (a46m p).toNat = (p 4).toNat % 2 ^ 7 * 2 ^ 14 + (p 6).toNat % 2 ^ 7 := by
  have lanes := toNat_a246 p
  have bound' := (p 6).toNat_lt
  rw [a46m, toNat_and_slot20]
  omega

theorem toNat_s0123 (p : Nat → UInt8) :
    (s0123 p).toNat = (p 0).toNat % 2 ^ 7 * 2 ^ 21 + (p 1).toNat % 2 ^ 7 * 2 ^ 14 +
      (p 2).toNat % 2 ^ 7 * 2 ^ 7 + (p 3).toNat % 2 ^ 7 := by
  have upper := toNat_a02m p
  have lower := toNat_b13m p
  have none_above : (b13m p).toNat =
      0 * 2 ^ 28 + (p 1).toNat % 2 ^ 7 * 2 ^ 14 + (p 3).toNat % 2 ^ 7 := by
    rw [lower, Nat.zero_mul, Nat.zero_add]
  rw [s0123, BitVec.or_comm, toNat_lanes none_above upper (by omega) (by omega), upper, lower]
  omega

theorem toNat_ninth (p : Nat → UInt8) : (a468 p ||| (b357 p &&& slot20) <<< 8).toNat =
      (p 4).toNat % 2 ^ 3 * 2 ^ 29 + (p 5).toNat % 2 ^ 7 * 2 ^ 22 + (p 6).toNat % 2 ^ 7 * 2 ^ 15 +
        (p 7).toNat % 2 ^ 7 * 2 ^ 8 + (p 8).toNat := by
  have lanes := toNat_a46m p
  have lanes' := toNat_b357 p
  have masked := toNat_and_slot20 (b357 p)
  have last := toNat_byte p 8
  have bound' := (p 7).toNat_lt
  have bound'' := (p 8).toNat_lt
  have upper : (a468 p).toNat = (a46m p).toNat * 2 ^ 15 % 2 ^ 32 + (byte p 8).toNat :=
    toNat_shift_or (by decide) (by omega)
  have shifted : ((b357 p &&& slot20) <<< 8).toNat = (b357 p &&& slot20).toNat * 2 ^ 8 := by
    rw [toNat_shiftLeft, Nat.shiftLeft_eq]
    omega
  have apart : a468 p &&& ((b357 p &&& slot20) <<< 8) = 0#32 := ninth_apart _ _ _
  rw [← add_eq_or_of_and_eq_zero _ _ apart, toNat_add_of_lt (by omega)]
  omega

theorem toNat_high (p : Nat → UInt8) : (s0123 p <<< 4 ||| (byte p 4 &&& 0x7f) >>> 3).toNat =
      (s0123 p).toNat * 2 ^ 4 + (p 4).toNat % 2 ^ 7 / 2 ^ 3 := by
  have lanes := toNat_s0123 p
  have bits : ((byte p 4 &&& 0x7f) >>> 3).toNat = (p 4).toNat % 2 ^ 7 / 2 ^ 3 := by
    rw [toNat_ushiftRight, toNat_and_low, toNat_byte, Nat.shiftRight_eq_div_pow]
  rw [toNat_shift_or (by decide) (by omega), bits]
  omega

theorem toNat_shiftRight (x : BitVec 32) (k : Nat) : (x >>> k).toNat = x.toNat / 2 ^ k := by
  rw [toNat_ushiftRight, Nat.shiftRight_eq_div_pow]

theorem toNat_short (x : BitVec 32) : (x.setWidth 64).toNat = x.toNat := by
  rw [toNat_setWidth]
  omega

theorem value2 (last : (p 1).toNat < 2 ^ 7) :
    ((byte p 0 &&& 0x7f) <<< 7 ||| byte p 1).toNat = (p 0).toNat % 2 ^ 7 * 2 ^ 7 + (p 1).toNat := by
  rw [toNat_shift_or (by decide) (by rwa [toNat_byte]), toNat_and_low, toNat_byte, toNat_byte]
  omega

theorem value3 (last : (p 2).toNat < 2 ^ 7) :
    (a02 p &&& slot20 ||| (byte p 1 &&& 0x7f) <<< 7).toNat =
      (p 0).toNat % 2 ^ 7 * 2 ^ 14 + (p 1).toNat % 2 ^ 7 * 2 ^ 7 + (p 2).toNat := by
  have lanes := toNat_a02m p
  have middle : (byte p 1 &&& 0x7f).toNat = 0 * 2 ^ 14 + (p 1).toNat % 2 ^ 7 := by
    rw [toNat_and_low, toNat_byte, Nat.zero_mul, Nat.zero_add]
  have none_above : (a02m p).toNat =
      0 * 2 ^ 28 + (p 0).toNat % 2 ^ 7 * 2 ^ 14 + (p 2).toNat % 2 ^ 7 := by
    rw [lanes, Nat.zero_mul, Nat.zero_add]
  rw [← a02m, toNat_lanes none_above middle (by omega) (by omega), lanes, middle]
  omega

theorem value5 (last : (p 4).toNat < 2 ^ 7) :
    (wide (a02m p >>> 18) (a024 p ||| b13m p <<< 7)).toNat =
      (p 0).toNat % 2 ^ 7 * 2 ^ 28 + (p 1).toNat % 2 ^ 7 * 2 ^ 21 + (p 2).toNat % 2 ^ 7 * 2 ^ 14 +
        (p 3).toNat % 2 ^ 7 * 2 ^ 7 + (p 4).toNat := by
  have lanes := toNat_a024 p
  have lanes' := toNat_b13m p
  rw [toNat_wide, toNat_shiftRight, toNat_a02m,
    toNat_lanes lanes lanes' (by omega) (by omega), lanes, lanes']
  omega

theorem value6 (last : (p 5).toNat < 2 ^ 7) :
    (wide (s0123 p >>> 18) ((a024 p &&& slot20) <<< 7 ||| b135 p)).toNat =
      (s0123 p).toNat * 2 ^ 14 + (p 4).toNat % 2 ^ 7 * 2 ^ 7 + (p 5).toNat := by
  have lanes := toNat_b135 p
  have lanes' : (a024 p &&& slot20).toNat = (p 2).toNat % 2 ^ 7 * 2 ^ 14 + (p 4).toNat % 2 ^ 7 := by
    have bound := (p 4).toNat_lt
    rw [toNat_and_slot20, toNat_a024]
    omega
  rw [toNat_wide, toNat_shiftRight, BitVec.or_comm, toNat_lanes lanes lanes' (by omega) (by omega),
    lanes, lanes', toNat_s0123]
  omega

theorem value7 (last : (p 6).toNat < 2 ^ 7) :
    (wide (s0123 p >>> 11) ((a246 p &&& slot420) ||| (b135 p &&& slot20) <<< 7)).toNat =
      (s0123 p).toNat * 2 ^ 21 + (p 4).toNat % 2 ^ 7 * 2 ^ 14 + (p 5).toNat % 2 ^ 7 * 2 ^ 7 +
        (p 6).toNat := by
  have bound := (p 4).toNat_lt
  have bound' := (p 5).toNat_lt
  have lanes : (a246 p &&& slot420).toNat =
      (p 2).toNat % 2 ^ 4 * 2 ^ 28 + (p 4).toNat % 2 ^ 7 * 2 ^ 14 + (p 6).toNat := by
    rw [toNat_and_slot420, toNat_a246]
    omega
  have lanes' : (b135 p &&& slot20).toNat = (p 3).toNat % 2 ^ 7 * 2 ^ 14 + (p 5).toNat % 2 ^ 7 := by
    rw [toNat_and_slot20, toNat_b135]
    omega
  rw [toNat_wide, toNat_shiftRight, toNat_lanes lanes lanes' (by omega) (by omega), lanes, lanes',
    toNat_s0123]
  omega

theorem value8 (last : (p 7).toNat < 2 ^ 7) :
    (wide (s0123 p >>> 4) (a46m p <<< 7 ||| (b357 p &&& slot420))).toNat =
      (s0123 p).toNat * 2 ^ 28 + (p 4).toNat % 2 ^ 7 * 2 ^ 21 + (p 5).toNat % 2 ^ 7 * 2 ^ 14 +
        (p 6).toNat % 2 ^ 7 * 2 ^ 7 + (p 7).toNat := by
  have bound := (p 5).toNat_lt
  have lanes : (b357 p &&& slot420).toNat =
      (p 3).toNat % 2 ^ 4 * 2 ^ 28 + (p 5).toNat % 2 ^ 7 * 2 ^ 14 + (p 7).toNat := by
    rw [toNat_and_slot420, toNat_b357]
    omega
  have lanes' := toNat_a46m p
  rw [toNat_wide, toNat_shiftRight, BitVec.or_comm, toNat_lanes lanes lanes' (by omega) (by omega),
    lanes, lanes', toNat_s0123]
  omega

theorem getVarint_eq (p : Nat → UInt8) :
    numbers (sqlite3GetVarint p) = Varint.sqlite3GetVarint p := by
  have v₀ := toNat_byte p 0
  have v₁ := toNat_byte p 1
  have b₀ := (p 0).toNat_lt
  have b₁ := (p 1).toNat_lt
  have b₂ := (p 2).toNat_lt
  have b₃ := (p 3).toNat_lt
  have b₄ := (p 4).toNat_lt
  have b₅ := (p 5).toNat_lt
  have b₆ := (p 6).toNat_lt
  have b₇ := (p 7).toNat_lt
  have n₀₂ : (a02 p).toNat = (byte p 0).toNat * 2 ^ 14 % 2 ^ 32 + (p 2).toNat := byte_slide _ 2
  have n₁₃ : (b13 p).toNat = (byte p 1).toNat * 2 ^ 14 % 2 ^ 32 + (p 3).toNat := byte_slide _ 3
  have n₀₂₄ := toNat_a024 p
  have n₁₃₅ := toNat_b135 p
  have n₂₄₆ := toNat_a246 p
  have n₃₅₇ := toNat_b357 p
  rw [sqlite3GetVarint, Varint.sqlite3GetVarint]
  simp only [and_80_eq_zero_iff, getFrom, Nat.zero_add, Nat.reduceAdd]
  have c₀ : (byte p 0).toNat / 2 ^ 7 % 2 = 0 ↔ (p 0).toNat < 2 ^ 7 := by omega
  have c₁ : (byte p 1).toNat / 2 ^ 7 % 2 = 0 ↔ (p 1).toNat < 2 ^ 7 := by omega
  have c₂ : (a02 p).toNat / 2 ^ 7 % 2 = 0 ↔ (p 2).toNat < 2 ^ 7 := by omega
  have c₃ : (b13 p).toNat / 2 ^ 7 % 2 = 0 ↔ (p 3).toNat < 2 ^ 7 := by omega
  have c₄ : (a024 p).toNat / 2 ^ 7 % 2 = 0 ↔ (p 4).toNat < 2 ^ 7 := by omega
  have c₅ : (b135 p).toNat / 2 ^ 7 % 2 = 0 ↔ (p 5).toNat < 2 ^ 7 := by omega
  have c₆ : (a246 p).toNat / 2 ^ 7 % 2 = 0 ↔ (p 6).toNat < 2 ^ 7 := by omega
  have c₇ : (b357 p).toNat / 2 ^ 7 % 2 = 0 ↔ (p 7).toNat < 2 ^ 7 := by omega
  simp only [c₀, c₁, c₂, c₃, c₄, c₅, c₆, c₇]
  clear c₀ c₁ c₂ c₃ c₄ c₅ c₆ c₇ n₀₂ n₁₃ n₀₂₄ n₁₃₅ n₂₄₆ n₃₅₇ b₀ b₁ b₂ b₃ b₄ b₅ b₆ b₇ v₁
  have joined := toNat_s0123 p
  split
  · rw [numbers, toNat_short, v₀, Prod.mk.injEq]
    omega
  split
  · rename_i last
    rw [numbers, toNat_short, value2 last, Prod.mk.injEq]
    omega
  split
  · rename_i last
    rw [numbers, toNat_short, value3 last, Prod.mk.injEq]
    omega
  split
  · rw [numbers, toNat_short, ← b13m, ← s0123, joined, Prod.mk.injEq]
    omega
  split
  · rename_i last
    rw [numbers, value5 last, Prod.mk.injEq]
    omega
  split
  · rename_i last
    rw [numbers, value6 last, joined, Prod.mk.injEq]
    omega
  split
  · rename_i last
    rw [numbers, value7 last, joined, Prod.mk.injEq]
    omega
  split
  · rename_i last
    rw [numbers, value8 last, joined, Prod.mk.injEq]
    omega
  · rw [numbers, toNat_wide, toNat_high, toNat_ninth, joined, Prod.mk.injEq]
    omega

theorem getFrom_more (more : ¬ (p 0).toNat < 2 ^ 7) :
    Varint.sqlite3GetVarint p = getFrom p 7 1 ((p 0).toNat % 2 ^ 7) := by
  rw [Varint.sqlite3GetVarint, getFrom, if_neg more, Nat.zero_mul, Nat.zero_add, Nat.zero_add]

def saturated (r : Nat × Nat) : Nat × Nat := (min r.1 0xffffffff, r.2)

theorem saturated_small {n : Nat} (small : v < 2 ^ 32) : saturated (v, n) = (v, n) := by
  rw [saturated, Nat.min_eq_left (by omega)]

theorem getVarint32_of_more (more : ¬ (p 0).toNat < 2 ^ 7) :
    numbers (sqlite3GetVarint32 p) = saturated (Varint.sqlite3GetVarint p) := by
  have b₁ := (p 1).toNat_lt
  have b₂ := (p 2).toNat_lt
  have v₁ := toNat_byte p 1
  have n₀₂ : (byte p 0 <<< 14 ||| byte p 2).toNat =
    (byte p 0).toNat * 2 ^ 14 % 2 ^ 32 + (p 2).toNat := byte_slide _ 2
  have c₁ : (byte p 1).toNat / 2 ^ 7 % 2 = 0 ↔ (p 1).toNat < 2 ^ 7 := by omega
  have c₂ : (byte p 0 <<< 14 ||| byte p 2).toNat / 2 ^ 7 % 2 = 0 ↔ (p 2).toNat < 2 ^ 7 := by omega
  have loop := getFrom_more more
  rw [sqlite3GetVarint32]
  simp only [and_80_eq_zero_iff, c₁, c₂]
  split
  · rename_i last
    rw [loop, getFrom, if_pos last, saturated_small (by omega), numbers, value2 last]
  · rename_i further
    rw [getFrom, if_neg further, getFrom] at loop
    split
    · rename_i last
      rw [if_pos last] at loop
      simp only [Nat.reduceAdd] at loop
      rw [loop, saturated_small (by omega), numbers]
      have value := value3 last
      have mask : 0x7f#32 <<< 14 ||| 0x7f#32 = slot20 := by decide
      rw [a02] at value
      rw [mask, value, Prod.mk.injEq]
      omega
    · rw [← getVarint_eq p, numbers, numbers, saturated]
      generalize sqlite3GetVarint p = r
      obtain ⟨v, n⟩ := r
      have low : (v &&& 0xffffffff).toNat = v.toNat % 2 ^ 32 :=
        Nat.and_two_pow_sub_one_eq_mod v.toNat 32
      dsimp only
      by_cases fits : v.toNat < 2 ^ 32
      · have same : v &&& 0xffffffff = v := eq_of_toNat_eq (by omega)
        rw [if_neg (not_not_intro same), Nat.min_eq_left (by omega), toNat_setWidth,
          Nat.mod_eq_of_lt fits]
      · have other : v &&& 0xffffffff ≠ v := by
          intro same
          rw [same] at low
          omega
        rw [if_pos other, Nat.min_eq_right (by omega)]
        rfl

theorem getVarint32_eq (p : Nat → UInt8) :
    numbers (getVarint32 p) = saturated (Varint.sqlite3GetVarint p) := by
  have eighth : p 0 < 0x80 ↔ (p 0).toNat < 2 ^ 7 := UInt8.lt_iff_toNat_lt
  rw [getVarint32]
  split
  · rename_i one
    have last := eighth.mp one
    rw [Varint.sqlite3GetVarint, getFrom, if_pos last, Nat.zero_mul, Nat.zero_add, Nat.zero_add,
      saturated_small (by omega), numbers, toNat_byte]
  · rename_i more
    exact getVarint32_of_more (mt eighth.mpr more)

theorem sqlite3PutVarint32_eq (more : 2 ^ 7 ≤ v) : sqlite3PutVarint32 v = sqlite3PutVarint v := by
  rw [← putVarint32_eq, putVarint32_def, if_neg more.not_gt]

/-- What is written is read back, by the macros for all values of 32 bits and by the functions
behind them for those of more than one byte. -/
theorem varint_roundTrip : (∀ v < 2 ^ 64, (sqlite3PutVarint v).length = sqlite3VarintLen v ∧
      1 ≤ sqlite3VarintLen v ∧ sqlite3VarintLen v ≤ 9 ∧
      ∀ p, At p 0 (sqlite3PutVarint v) →
        numbers (sqlite3GetVarint p) = (v, sqlite3VarintLen v)) ∧
    (∀ v < 2 ^ 32, putVarint32 v = sqlite3PutVarint v ∧
      (2 ^ 7 ≤ v → sqlite3PutVarint32 v = sqlite3PutVarint v) ∧
      ∀ p, At p 0 (putVarint32 v) → numbers (getVarint32 p) = (v, sqlite3VarintLen v)) ∧
    (∀ p, numbers (getVarint32 p) = saturated (numbers (sqlite3GetVarint p)) ∧
      (2 ^ 7 ≤ (p 0).toNat → sqlite3GetVarint32 p = getVarint32 p)) := by
  refine ⟨fun v small => ⟨length_putVarint v, varintLen_pos 8 v, varintLen_le 8 v,
    fun p stands => ?_⟩,
    fun v small => ⟨putVarint32_eq v, sqlite3PutVarint32_eq, fun p stands => ?_⟩,
    fun p => ⟨?_, fun more => ?_⟩⟩
  · rw [getVarint_eq, getVarint_putVarint small stands, length_putVarint]
  · rw [putVarint32_eq] at stands
    rw [getVarint32_eq, getVarint_putVarint (small.trans (by decide)) stands,
      saturated_small small, length_putVarint]
  · rw [getVarint32_eq, getVarint_eq]
  · have eighth : ¬ p 0 < 0x80 := fun one => more.not_gt (UInt8.lt_iff_toNat_lt.mp one)
    rw [getVarint32, if_neg eighth]

theorem varint_roundTrip_300 :
    numbers (sqlite3GetVarint fun k => [0x82, 0x2c, 9].getD k 0) = (300, 2) := by
  refine (varint_roundTrip.1 300 (by decide)).2.2.2 _ fun k inside => ?_
  have less : k < 2 := inside
  interval_cases k <;> rfl

/-- The number 5 as the functions write and read it if the macros are left out. -/
theorem varint32_without_macros : sqlite3PutVarint32 5 = [0x80, 5] ∧ sqlite3PutVarint 5 = [5] ∧
    numbers (sqlite3GetVarint32 fun k => [5, 6].getD k 0) = (646, 2) ∧
    numbers (sqlite3GetVarint fun k => [5, 6].getD k 0) = (5, 1) := by
  decide +kernel

end

end SeSqlite.Varint.Code
