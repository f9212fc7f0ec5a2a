/- source: ext/security/sesqlite/sesqlite_hash.c
   digest: The two-table bidirectional map and the exact condition under which it is one. -/
import SeSqlite.Hash
import SeSqlite.Lib.PartialInverse
import SeSqlite.Lib.Runs

set_option autoImplicit false
set_option relaxedAutoImplicit false

namespace SeSqlite.BiHash

universe u v

open Hash Lib.PartialInverse Lib.Runs

structure SesqliteBihash (κ : Type u) (ν : Type v) [KeyClass κ] [KeyClass ν] where
  key2val : SqliteHash κ ν
  val2key : SqliteHash ν κ

/-- The arguments of one `SESQLITE_BIHASH_INSERT`. The old value's buffer is freed by
the first table before the second table is searched for it; `released n` is what `n`
bytes read from that freed buffer then are, which the allocator decides. -/
structure Insertion (κ : Type u) (ν : Type v) where
  pKey : κ
  pVal : Option ν
  released : Nat → ν

variable {κ : Type u} {ν δ : Type v} [KeyClass κ] [KeyClass ν]

def sesqliteBihashInit : SesqliteBihash κ ν := ⟨sqliteHashInit, sqliteHashInit⟩

def sesqliteBihashFind (b : SesqliteBihash κ ν) (pKey : κ) : Option (ν × Nat) :=
  sqliteHashFind b.key2val pKey

def sesqliteBihashFindkey (b : SesqliteBihash κ ν) (pVal : ν) : Option (κ × Nat) :=
  sqliteHashFind b.val2key pVal

/-- Removal of the old association, by the stored length of the old value. -/
def removeOld (val2key : SqliteHash ν κ) (released : Nat → ν) : Option (ν × Nat) → SqliteHash ν κ
  | none => val2key
  | some (_, nOld) =>
    -- a zero length only prints "cannot remove old value -> key association"
    if nOld = 0 then val2key else sesqliteHashRemove val2key (released nOld)

def insertReverse (val2key : SqliteHash ν κ) (pKey : κ) : Option ν → SqliteHash ν κ
  | none => val2key
  | some pVal =>
    match sqliteHashFind val2key pVal with
    -- only prints "value already associated to another key in BiHash (not injective)"
    | some _ => val2key
    | none => sqliteHashInsert val2key pVal (some pKey) (size pKey)

def sesqliteBihashInsert (b : SesqliteBihash κ ν) (op : Insertion κ ν) : SesqliteBihash κ ν where
  key2val := sqliteHashInsert b.key2val op.pKey op.pVal ((op.pVal.map size).getD 0)
  val2key := insertReverse (removeOld b.val2key op.released (sesqliteBihashFind b op.pKey))
    op.pKey op.pVal

/-- A search for `k` leaves in `pRes` a buffer equal to `v`. -/
def FindYields (b : SesqliteBihash κ ν) (k : κ) (v : ν) : Prop :=
  ∃ found ∈ sesqliteBihashFind b k, same found.1 v

/-- A reverse search for `v` leaves in `pRes` a buffer equal to `k`. -/
def FindkeyYields (b : SesqliteBihash κ ν) (v : ν) (k : κ) : Prop :=
  ∃ found ∈ sesqliteBihashFindkey b v, same found.1 k

/-- The two directions describe one partial bijection. -/
def PartialBijection (b : SesqliteBihash κ ν) : Prop :=
  ∀ k v, FindYields b k v ↔ FindkeyYields b v k

/-- What one insertion needs. An unbound key must come with an unbound value. When the
key is bound, the freed buffer read at the stored length must still be the old value,
unless the value stays the same and the freed buffer names no other association. -/
def KeepsBijection (b : SesqliteBihash κ ν) (op : Insertion κ ν) : Prop :=
  match sesqliteBihashFind b op.pKey, op.pVal with
  | none, none => True
  | none, some v => sesqliteBihashFindkey b v = none
  | some (old, nOld), none => nOld ≠ 0 ∧ same (op.released nOld) old
  | some (old, nOld), some v =>
    if same old v then
      nOld = 0 ∨ same (op.released nOld) old ∨ sesqliteBihashFindkey b (op.released nOld) = none
    else
      nOld ≠ 0 ∧ same (op.released nOld) old ∧ sesqliteBihashFindkey b v = none

private theorem graph_eq_some {κ : Type u} [KeyClass κ] [KeyClass δ] (h : SqliteHash κ δ) (a : κ)
    (d : δ) :
    graph h (keyOf a) = some (keyOf d) ↔ ∃ found ∈ sqliteHashFind h a, same found.1 d := by
  rw [graph_keyOf, ← sqliteHashFind_fst]
  cases sqliteHashFind h a <;> simp [keyOf_eq_iff]

private theorem graph_eq_none {κ : Type u} [KeyClass κ] [KeyClass δ] (h : SqliteHash κ δ) (a : κ) :
    graph h (keyOf a) = none ↔ sqliteHashFind h a = none := by
  rw [graph_keyOf, ← sqliteHashFind_fst]
  simp

private theorem partialBijection_iff (b : SesqliteBihash κ ν) :
    PartialBijection b ↔ Inverse (graph b.key2val) (graph b.val2key) := by
  constructor
  · intro bijection k v
    induction k using Quotient.inductionOn
    induction v using Quotient.inductionOn
    rename_i k v
    exact (graph_eq_some b.key2val k v).trans
      ((bijection k v).trans (graph_eq_some b.val2key v k).symm)
  · intro inverse k v
    exact (graph_eq_some b.key2val k v).symm.trans
      ((inverse (keyOf k) (keyOf v)).trans (graph_eq_some b.val2key v k))

/-- The value whose reverse association an insertion tries to remove. -/
private def dropped (released : Nat → ν) : Option (ν × Nat) → Option ν
  | none => none
  | some (_, nOld) => if nOld = 0 then none else some (released nOld)

private theorem graph_removeOld (h : SqliteHash ν κ) (released : Nat → ν) (old : Option (ν × Nat)) :
    graph (removeOld h released old) = forget (graph h) ((dropped released old).map keyOf) := by
  rcases old with _ | ⟨w, nOld⟩
  · rfl
  · by_cases zero : nOld = 0
    · simp [removeOld, dropped, zero, forget]
    · simp only [removeOld, dropped, if_neg zero]
      exact graph_insert h (released nOld) none 0

private theorem graph_insertReverse (h : SqliteHash ν κ) (k : κ) (v : ν) :
    graph (insertReverse h k (some v)) = bindFresh (graph h) (keyOf v) (keyOf k) := by
  cases found : sqliteHashFind h v with
  | none =>
    simp only [insertReverse, found, bindFresh, (graph_eq_none h v).mpr found]
    exact graph_insert h v (some k) (size k)
  | some _ =>
    have taken : graph h (keyOf v) ≠ none := by simp [graph_eq_none, found]
    simp [insertReverse, found, bindFresh, taken]

theorem partialBijection_insert_iff (b : SesqliteBihash κ ν) (op : Insertion κ ν)
    (bijection : PartialBijection b) :
    PartialBijection (sesqliteBihashInsert b op) ↔ KeepsBijection b op := by
  have inverse := (partialBijection_iff b).mp bijection
  rw [partialBijection_iff]
  simp only [sesqliteBihashInsert, graph_insert, KeepsBijection, sesqliteBihashFind,
    sesqliteBihashFindkey]
  -- the four cases: is the key bound, and is there a new value
  rcases found : sqliteHashFind b.key2val op.pKey with _ | ⟨old, nOld⟩
  · have unbound := (graph_eq_none b.key2val op.pKey).mpr found
    cases op.pVal with
    | none =>
      simp only [Option.map_none, ← unbound, Function.update_eq_self]
      exact iff_true_intro inverse
    | some v =>
      rw [graph_insertReverse]
      exact (inverse_bind_iff inverse unbound (keyOf v)).trans (graph_eq_none b.val2key v)
  · have bound : graph b.key2val (keyOf op.pKey) = some (keyOf old) := by
      rw [graph_keyOf, ← sqliteHashFind_fst, found]
      rfl
    cases op.pVal with
    | none =>
      rw [insertReverse, graph_removeOld]
      refine (inverse_unbind_iff inverse bound _).trans ?_
      simp [dropped, keyOf_eq_iff]
    | some v =>
      rw [graph_insertReverse, graph_removeOld]
      by_cases eqv : same old v
      · have eq : keyOf v = keyOf old := ((keyOf_eq_iff old v).mpr eqv).symm
        simp only [if_pos eqv, Option.map_some, eq]
        refine (inverse_rebind_same_iff inverse bound _).trans ?_
        by_cases zero : nOld = 0
        · simp [dropped, zero]
        · simp [dropped, zero, keyOf_eq_iff, graph_eq_none]
      · have other : keyOf old ≠ keyOf v := fun eq => eqv ((keyOf_eq_iff old v).mp eq)
        simp only [if_neg eqv]
        refine (inverse_rebind_other_iff inverse bound other _).trans ?_
        simp [dropped, keyOf_eq_iff, graph_eq_none, and_assoc]

theorem partialBijection_init : PartialBijection (sesqliteBihashInit : SesqliteBihash κ ν) := by
  rw [partialBijection_iff]
  intro k v
  induction k using Quotient.inductionOn
  induction v using Quotient.inductionOn
  exact iff_of_false nofun nofun

/-- From the empty map, the two directions agree in every state of a run exactly when
every insertion of the run meets `KeepsBijection` where it is made. -/
theorem visits_partialBijection_iff (run : List (Insertion BinaryKey StringKey)) :
    Visits sesqliteBihashInsert PartialBijection sesqliteBihashInit run ↔
      Along sesqliteBihashInsert KeepsBijection sesqliteBihashInit run :=
  visits_iff_along partialBijection_insert_iff partialBijection_init run

def twoKeysOneValue : List (Insertion BinaryKey StringKey) :=
  [⟨⟨[1]⟩, some (.ofText [97]), fun _ => ⟨[]⟩⟩, ⟨⟨[2]⟩, some (.ofText [97]), fun _ => ⟨[]⟩⟩]

/-- After it `2` yields `a` while `a` still yields `1`. -/
theorem not_partialBijection_twoKeysOneValue :
    ¬ PartialBijection (twoKeysOneValue.foldl sesqliteBihashInsert sesqliteBihashInit) := by
  intro bijection
  obtain ⟨found, hit, eqv⟩ := (bijection ⟨[2]⟩ (.ofText [97])).mp ⟨_, rfl, by decide⟩
  obtain rfl : (⟨⟨[1]⟩, 1⟩ : BinaryKey × Nat) = found := Option.some.inj hit
  cases eqv

end SeSqlite.BiHash
