/- source: src/vdbe.c, src/vdbeaux.c
   digest: OP_MakeRecord tests the limit on the header and the real data; the virtual zeros at the
   end of the record are counted apart. -/
import SeSqlite.Varint

set_option autoImplicit false
set_option relaxedAutoImplicit false

namespace SeSqlite.Vdbe.MakeRecord

open Varint List Option

/-- A register. A blob has `n` bytes and `nZero` virtual zero bytes behind them. -/
inductive Mem
  | null
  | int (i : Int)
  | real
  | str (n : Nat)
  | blob (n nZero : Nat)

def Mem.nZero : Mem → Nat
  | .blob _ nZero => nZero
  | _ => 0

def max6Byte : Int := 0x7fffffffffff

def sqlite3VdbeSerialType (fileFormat : Nat) : Mem → Nat
  | .null => 0
  | .int i =>
    if i < -max6Byte then 6
    else if i.natAbs ≤ 127 then if (i = 0 ∨ i = 1) ∧ 4 ≤ fileFormat then 8 + i.natAbs else 1
    else if i.natAbs ≤ 32767 then 2
    else if i.natAbs ≤ 8388607 then 3
    else if i.natAbs ≤ 2147483647 then 4
    else if i.natAbs ≤ max6Byte then 5
    else 6
  | .real => 7
  | .str n => n * 2 + 12 + 1
  | .blob n nZero => (n + nZero) * 2 + 12

def sqlite3VdbeSerialTypeLen (serialType : Nat) : Nat :=
  if 12 ≤ serialType then (serialType - 12) / 2
  else [0, 1, 2, 3, 4, 6, 8, 8, 0, 0, 0, 0].getD serialType 0

/-- A counter of type `int` that does not overflow. -/
def toInt (n : Nat) : Option Nat := if n < 2 ^ 31 then some n else none

structure Sizes where
  nData : Nat
  nHdr : Nat
  nZero : Nat

inductive Outcome
  | overflow
  | tooBig
  | record (n nZero : Nat)
  deriving DecidableEq

section

variable (fileFormat : Nat)

/-- One round of the loop over the registers. -/
def addField (sizes : Sizes) (pRec : Mem) : Option Sizes := do
  let serialType ← toInt (sqlite3VdbeSerialType fileFormat pRec)
  let len := sqlite3VdbeSerialTypeLen serialType
  -- a blob in front of real data is expanded
  let zeros := if sizes.nData = 0 then pRec.nZero else 0
  let nZero ← toInt (sizes.nZero + zeros)
  let nHdr ← toInt (sizes.nHdr + if serialType ≤ 127 then 1 else sqlite3VarintLen serialType)
  return ⟨sizes.nData + (len - zeros), nHdr, nZero⟩

/-- The loop, which begins with the last register. -/
def fieldSizes : List Mem → Option Sizes
  | [] => some ⟨0, 0, 0⟩
  | pRec :: rest => (fieldSizes rest).bind fun sizes => addField fileFormat sizes pRec

/-- The header with its own size in front. -/
def headerSize (nHdr : Nat) : Nat :=
  if nHdr ≤ 126 then nHdr + 1
  else
    let nVarint := sqlite3VarintLen nHdr
    if nVarint < sqlite3VarintLen (nHdr + nVarint) then nHdr + nVarint + 1 else nHdr + nVarint

/-- The sizes of the record that `OP_MakeRecord` makes, after the affinities have been applied. -/
def opMakeRecord (limit : Nat) (fields : List Mem) : Outcome :=
  match (do
    let sizes ← fieldSizes fileFormat fields
    let nHdr ← toInt (headerSize sizes.nHdr)
    return (nHdr + sizes.nData, sizes.nZero)) with
  | none => .overflow
  | some (nByte, nZero) => if limit < nByte then .tooBig else .record nByte nZero

/-- The record is refused, or its whole length is within the limit. -/
def Bounded (limit : Nat) : Outcome → Prop
  | .overflow => False
  | .tooBig => True
  | .record n nZero => n + nZero ≤ limit

variable (fmt : Nat)

def Mem.len (pRec : Mem) : Nat := sqlite3VdbeSerialTypeLen (sqlite3VdbeSerialType fmt pRec)

/-- The bytes of a field, `false` for a virtual zero. -/
def Mem.bytes (pRec : Mem) : List Bool :=
  replicate (pRec.len fmt - pRec.nZero) true ++ replicate pRec.nZero false

def content (fields : List Mem) : List Bool := fields.flatMap (Mem.bytes fmt)

/-- The virtual zeros behind the last real byte. -/
def zeros (fields : List Mem) : Nat := ((content fmt fields).reverse.takeWhile (!·)).length

def typeBytes (fields : List Mem) : Nat :=
  (fields.map fun pRec =>
    let serialType := sqlite3VdbeSerialType fmt pRec
    if serialType ≤ 127 then 1 else sqlite3VarintLen serialType).sum

/-- A text or a blob is within the limit. -/
def Mem.Within (limit : Nat) : Mem → Prop
  | .str n => n ≤ limit
  | .blob n nZero => n + nZero ≤ limit
  | _ => True

theorem zeros_le (fields : List Mem) : zeros fmt fields ≤ (content fmt fields).length := by
  have le := ( takeWhile_prefix (!·) (l := (content fmt fields).reverse)).length_le
  rwa [length_reverse] at le

theorem nZero_le (pRec : Mem) : pRec.nZero ≤ pRec.len fmt := by
  cases pRec <;> simp [Mem.nZero, Mem.len, sqlite3VdbeSerialType, sqlite3VdbeSerialTypeLen]

theorem length_content_cons (pRec : Mem) (rest : List Mem) :
    (content fmt (pRec :: rest)).length = (content fmt rest).length + pRec.len fmt := by
  have blob := nZero_le fmt pRec
  rw [content, flatMap_cons, ← content, length_append, Mem.bytes, length_append,
    length_replicate, length_replicate]
  omega

theorem zeros_cons (pRec : Mem) (rest : List Mem) : zeros fmt (pRec :: rest) = zeros fmt rest +
      if (content fmt rest).length - zeros fmt rest = 0 then pRec.nZero else 0 := by
  have le := zeros_le fmt rest
  rw [zeros, content, flatMap_cons, ← content, reverse_append, takeWhile_append,
    length_reverse, ← zeros]
  have last : (Mem.bytes fmt pRec).reverse.takeWhile (!·) =
      replicate pRec.nZero false := by
    simp [Mem.bytes]
  split
  · rename_i all
    rw [if_pos (by omega), length_append, last, length_replicate, length_reverse, all]
  · rw [if_neg (by omega), ← zeros, Nat.add_zero]

theorem serialType_lt {limit : Nat} (hard : limit ≤ 1000000000) {pRec : Mem}
    (within : pRec.Within limit) : sqlite3VdbeSerialType fmt pRec < 2 ^ 31 := by
  cases pRec with
  | int i =>
    simp only [sqlite3VdbeSerialType]
    split_ifs <;> omega
  | str n =>
    rw [Mem.Within] at within
    rw [sqlite3VdbeSerialType]
    omega
  | blob n nZero =>
    rw [Mem.Within] at within
    rw [sqlite3VdbeSerialType]
    omega
  | null => exact Nat.two_pow_pos 31
  | real => exact Nat.lt_of_sub_eq_succ rfl

theorem fieldSizes_eq {limit : Nat} (hard : limit ≤ 1000000000) {fields : List Mem}
    (within : ∀ pRec ∈ fields, pRec.Within limit) : fieldSizes fmt fields =
      if zeros fmt fields < 2 ^ 31 ∧ typeBytes fmt fields < 2 ^ 31 then
        some ⟨(content fmt fields).length - zeros fmt fields, typeBytes fmt fields,
          zeros fmt fields⟩
      else none := by
  induction fields with
  | nil => rfl
  | cons pRec rest ih =>
    rw [forall_mem_cons] at within
    have types : typeBytes fmt (pRec :: rest) = typeBytes fmt rest +
        if sqlite3VdbeSerialType fmt pRec ≤ 127 then 1
        else sqlite3VarintLen (sqlite3VdbeSerialType fmt pRec) := by
      rw [typeBytes, map_cons, sum_cons, ← typeBytes, Nat.add_comm]
    have le := zeros_le fmt rest
    have more := zeros_cons fmt pRec rest
    rw [fieldSizes, ih within.2]
    split
    · simp only [bind_some, addField, toInt, if_pos (serialType_lt fmt hard within.1),
        bind, ← more, ← types, length_content_cons]
      have data : (content fmt rest).length - zeros fmt rest + (pRec.len fmt -
          if (content fmt rest).length - zeros fmt rest = 0 then pRec.nZero else 0) =
            (content fmt rest).length + pRec.len fmt - zeros fmt (pRec :: rest) := by
        rw [more]
        split <;> omega
      rw [← Mem.len, data]
      split_ifs <;> first | rfl | omega
    · rw [bind_none, if_neg (by omega)]

/-- The header and the real data decide whether the record is refused, so it is too long exactly
when they are within the limit and the virtual zeros behind them are not. -/
theorem makeRecord_bounded_iff {limit : Nat} (hard : limit ≤ 1000000000) (fields : List Mem)
    (within : ∀ pRec ∈ fields, pRec.Within limit) :
    Bounded limit (opMakeRecord fmt limit fields) ↔
      zeros fmt fields < 2 ^ 31 ∧ headerSize (typeBytes fmt fields) < 2 ^ 31 ∧
      (headerSize (typeBytes fmt fields) + ((content fmt fields).length - zeros fmt fields) ≤
        limit →
        headerSize (typeBytes fmt fields) + (content fmt fields).length ≤ limit) := by
  have le := zeros_le fmt fields
  have header : typeBytes fmt fields ≤ headerSize (typeBytes fmt fields) := by
    dsimp only [headerSize]
    split_ifs <;> omega
  simp only [opMakeRecord, fieldSizes_eq fmt hard within, toInt, bind]
  by_cases counted : zeros fmt fields < 2 ^ 31 ∧ typeBytes fmt fields < 2 ^ 31
  · by_cases headed : headerSize (typeBytes fmt fields) < 2 ^ 31
    · simp only [if_pos counted, if_pos headed, bind_some, pure]
      split <;> simp only [Bounded, true_iff] <;> omega
    · simp only [if_pos counted, if_neg headed, bind_some, bind_none, Bounded, false_iff]
      omega
  · simp only [if_neg counted, bind_none, Bounded, false_iff]
    omega

theorem makeRecord_bounded_two : Bounded 100 (opMakeRecord 4 100 [.blob 1 20, .null, .blob 0 30]) :=
  (makeRecord_bounded_iff 4 (by decide) _ (by simp [Mem.Within])).mpr (by decide)

/-- One column and three columns, each a blob of a billion zeros. -/
theorem makeRecord_unbounded : (Mem.blob 0 1000000000).Within 1000000000 ∧
    opMakeRecord 4 1000000000 [.blob 0 1000000000] = .record 6 1000000000 ∧
    opMakeRecord 4 1000000000 (replicate 3 (.blob 0 1000000000)) = .overflow :=
  ⟨le_rfl, by decide +kernel, by decide +kernel⟩

end

end SeSqlite.Vdbe.MakeRecord
