/- scope: general, no program is named here
   digest: A file as its size and bytes; what a read gives after a write or a truncation. -/
import Mathlib.Data.List.GetD

set_option autoImplicit false
set_option relaxedAutoImplicit false

namespace SeSqlite.Lib

open List

/-- The bytes at and behind the size are zero in a file made by the operations below. -/
structure ByteFile where
  size : Nat
  byte : Nat → UInt8

namespace ByteFile

def empty : ByteFile := ⟨0, fun _ => 0⟩

def write (file : ByteFile) (offset : Nat) (bytes : List UInt8) : ByteFile where
  size := max file.size (offset + bytes.length)
  byte := fun i =>
    if offset ≤ i ∧ i < offset + bytes.length then bytes.getD (i - offset) 0 else file.byte i

def truncate (file : ByteFile) (size : Nat) : ByteFile where
  size := min file.size size
  byte := fun i => if i < size then file.byte i else 0

def read (file : ByteFile) (offset amount : Nat) : List UInt8 :=
  (range amount).map fun i => file.byte (offset + i)

variable {file : ByteFile} {offset amount : Nat} {bytes : List UInt8}

@[simp] theorem length_read : (file.read offset amount).length = amount := by
  simp [read]

theorem read_congr {file' : ByteFile}
    (same : ∀ i, offset ≤ i → i < offset + amount → file'.byte i = file.byte i) :
    file'.read offset amount = file.read offset amount := by
  refine map_congr_left fun i inside => same (offset + i) (by omega) ?_
  have := mem_range.mp inside
  omega

theorem read_write_same (file : ByteFile) (offset : Nat) (bytes : List UInt8) :
    (file.write offset bytes).read offset bytes.length = bytes := by
  refine ext_getElem (by simp) fun i _ inside => ?_
  simp only [read, write, getElem_map, getElem_range]
  rw [if_pos ⟨by omega, by omega⟩, Nat.add_sub_cancel_left, getD_eq_getElem _ _ inside]

theorem read_write_apart {offset' : Nat}
    (apart : offset' + amount ≤ offset ∨ offset + bytes.length ≤ offset') :
    (file.write offset bytes).read offset' amount = file.read offset' amount := by
  refine read_congr fun i low high => ?_
  simp only [write]
  rw [if_neg (by omega)]

theorem read_truncate {size : Nat} (inside : offset + amount ≤ size) :
    (file.truncate size).read offset amount = file.read offset amount := by
  refine read_congr fun i low high => ?_
  simp only [truncate]
  rw [if_pos (by omega)]

theorem read_add {more : Nat} : file.read offset (amount + more) =
    file.read offset amount ++ file.read (offset + amount) more := by
  simp [read, range_add, Function.comp_def, Nat.add_assoc]

end ByteFile

end SeSqlite.Lib
