/- source: src/util.c
   digest: Four-byte big-endian numbers. -/
import Mathlib.Data.List.Basic
import Mathlib.Algebra.Ring.Nat

set_option autoImplicit false
set_option relaxedAutoImplicit false

namespace SeSqlite.Bytes

def sqlite3Put4byte (v : Nat) : List UInt8 :=
  [UInt8.ofNat (v / 2 ^ 24), UInt8.ofNat (v / 2 ^ 16), UInt8.ofNat (v / 2 ^ 8), UInt8.ofNat v]

/-- The four bytes at the head of a buffer. -/
def sqlite3Get4byte : List UInt8 → Nat
  | p0 :: p1 :: p2 :: p3 :: _ =>
    p0.toNat * 2 ^ 24 + p1.toNat * 2 ^ 16 + p2.toNat * 2 ^ 8 + p3.toNat
  | _ => 0

@[simp] theorem length_put4byte (v : Nat) : (sqlite3Put4byte v).length = 4 := rfl

theorem get4byte_put4byte {v : Nat} (small : v < 2 ^ 32) (rest : List UInt8) :
    sqlite3Get4byte (sqlite3Put4byte v ++ rest) = v := by
  simp only [sqlite3Put4byte, List.cons_append, List.nil_append, sqlite3Get4byte,
    UInt8.toNat_ofNat']
  omega

end SeSqlite.Bytes
