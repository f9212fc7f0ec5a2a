/- source: ext/security/sesqlite/hash/sqlite/sesqlite_hash_impl.c
   digest: The chained hash table as a keyed element list that overwrites in place. -/
import Mathlib.Data.List.Basic
import Mathlib.Data.List.Pairwise
import Mathlib.Logic.Function.Basic

set_option autoImplicit false
set_option relaxedAutoImplicit false

namespace SeSqlite.Hash

open List Function

universe u v

/-- A key class fixes the comparison and the byte count that accompanies a buffer.
The comparison must be an equivalence; the three classes of the source are. -/
class KeyClass (κ : Type u) where
  same : κ → κ → Bool
  size : κ → Nat
  same_refl : ∀ a, same a a
  same_symm : ∀ a b, same a b → same b a
  same_trans : ∀ a b c, same a b → same b c → same a c

export KeyClass (same size)

/-- An `int`, either as `nKey` itself (`SQLITE_HASH_INT`) or as a four-byte buffer. -/
instance intKey : KeyClass Int where
  same a b := a == b
  size _ := 4
  same_refl := by simp
  same_symm a b eqv := by simpa using (beq_iff_eq.mp eqv).symm
  same_trans := by simp +contextual

/-- A `SQLITE_HASH_BINARY` buffer; its length travels as `nKey`. -/
structure BinaryKey where
  bytes : List UInt8
  deriving DecidableEq, Repr

def sqliteBinCompare (a b : BinaryKey) : Bool :=
  a.bytes.length == b.bytes.length && a.bytes == b.bytes

instance binaryKey : KeyClass BinaryKey where
  same := sqliteBinCompare
  size k := k.bytes.length
  same_refl := by simp [sqliteBinCompare]
  same_symm := by simp +contextual [sqliteBinCompare]
  same_trans := by simp +contextual [sqliteBinCompare]

/-- A `SQLITE_HASH_STRING` buffer, terminator included when there is one. -/
structure StringKey where
  bytes : List UInt8
  deriving DecidableEq, Repr

/-- The bytes that `strncmp` looks at: it stops at the first terminator. -/
def StringKey.text (s : StringKey) : List UInt8 := s.bytes.takeWhile (· != 0)

/-- The buffer passed for a C string when the length argument is negative. -/
def StringKey.ofText (text : List UInt8) : StringKey := ⟨text ++ [0]⟩

def sqliteStrCompare (a b : StringKey) : Bool :=
  a.bytes.length == b.bytes.length && a.text == b.text

instance stringKey : KeyClass StringKey where
  same := sqliteStrCompare
  size k := k.bytes.length
  same_refl := by simp [sqliteStrCompare]
  same_symm := by simp +contextual [sqliteStrCompare]
  same_trans := by simp +contextual [sqliteStrCompare]

/-- A C string passed with a negative length argument. -/
instance cStringKey : KeyClass String where
  same a b := a == b
  size z := z.utf8ByteSize + 1
  same_refl := by simp
  same_symm a b eqv := by simpa using (beq_iff_eq.mp eqv).symm
  same_trans := by simp +contextual

section

variable {κ : Type u} {δ : Type v} [KeyClass κ]

theorem same_comm (a b : κ) : same a b = same b a :=
  Bool.eq_iff_iff.mpr ⟨KeyClass.same_symm a b, KeyClass.same_symm b a⟩

theorem same_congr {a b : κ} (eqv : same a b) (c : κ) : same a c = same b c :=
  Bool.eq_iff_iff.mpr ⟨KeyClass.same_trans b a c (KeyClass.same_symm a b eqv),
    KeyClass.same_trans a b c eqv⟩

/-- One element; the stored key keeps the bytes of the first insertion. -/
structure SqliteHashElem (κ : Type u) (δ : Type v) where
  pKey : κ
  pData : δ
  nData : Nat

/-- The element list of a table. Insertion looks for an equal key first, so no two
elements ever carry equal keys. Buckets only decide where an element is linked. -/
structure SqliteHash (κ : Type u) (δ : Type v) [KeyClass κ] where
  elems : List (SqliteHashElem κ δ)
  distinct : elems.Pairwise fun a b => same a.pKey b.pKey = false

instance apart_symm :
    Std.Symm fun a b : SqliteHashElem κ δ => same a.pKey b.pKey = false :=
  ⟨fun a b miss => by rw [same_comm, miss]⟩

/-- `sqliteHashInit`, and also the table left by `sqliteHashClear`. -/
def sqliteHashInit : SqliteHash κ δ := ⟨[], .nil⟩

/-- `sqliteFindElementGivenHash`. -/
def findElement (elems : List (SqliteHashElem κ δ)) (pKey : κ) : Option (SqliteHashElem κ δ) :=
  elems.find? fun elem => same elem.pKey pKey

/-- `sqliteRemoveElementGivenHash` on the element that matches `pKey`. -/
def removeElement (elems : List (SqliteHashElem κ δ)) (pKey : κ) : List (SqliteHashElem κ δ) :=
  elems.filter fun elem => !same elem.pKey pKey

/-- The overwriting branch: the data is replaced, key and length stay. -/
def overwrite (pKey : κ) (pData : δ) (elem : SqliteHashElem κ δ) : SqliteHashElem κ δ :=
  if same elem.pKey pKey then { elem with pData := pData } else elem

/-- The body of `sqliteHashInsert` on the element list. -/
def insertElement (elems : List (SqliteHashElem κ δ)) (pKey : κ) (pData : Option δ)
    (nData : Nat) : List (SqliteHashElem κ δ) :=
  match findElement elems pKey, pData with
  | some _, none => removeElement elems pKey
  | some _, some d => elems.map (overwrite pKey d)
  | none, none => elems
  | none, some d => ⟨pKey, d, nData⟩ :: elems

@[simp] theorem overwrite_pKey (pKey : κ) (pData : δ) (elem : SqliteHashElem κ δ) :
    (overwrite pKey pData elem).pKey = elem.pKey := by
  unfold overwrite
  split <;> rfl

private theorem insertElement_distinct (elems : List (SqliteHashElem κ δ))
    (distinct : elems.Pairwise fun a b => same a.pKey b.pKey = false)
    (pKey : κ) (pData : Option δ) (nData : Nat) :
    (insertElement elems pKey pData nData).Pairwise fun a b => same a.pKey b.pKey = false := by
  unfold insertElement
  cases found : findElement elems pKey with
  | some _ =>
    cases pData with
    | none => exact distinct.filter _
    | some d => simpa [pairwise_map] using distinct
  | none =>
    cases pData with
    | none => exact distinct
    | some d =>
      refine pairwise_cons.mpr ⟨fun elem member => ?_, distinct⟩
      rw [same_comm]
      simpa using find?_eq_none.mp found elem member

/-- `sqliteHashFind`: the data pointer and the stored length. -/
def sqliteHashFind (h : SqliteHash κ δ) (pKey : κ) : Option (δ × Nat) :=
  (findElement h.elems pKey).map fun elem => (elem.pData, elem.nData)

/-- `sqliteHashInsert`. A null datum removes the element; an existing element is
overwritten without refreshing `nData`; otherwise a new element is linked. -/
def sqliteHashInsert (h : SqliteHash κ δ) (pKey : κ) (pData : Option δ) (nData : Nat) :
    SqliteHash κ δ where
  elems := insertElement h.elems pKey pData nData
  distinct := insertElement_distinct h.elems h.distinct pKey pData nData

def sesqliteHashRemove (h : SqliteHash κ δ) (pKey : κ) : SqliteHash κ δ :=
  sqliteHashInsert h pKey none 0

/-- The data pointer that a lookup leaves in `pRes`. -/
def lookup (h : SqliteHash κ δ) (pKey : κ) : Option δ :=
  (findElement h.elems pKey).map SqliteHashElem.pData

@[simp] theorem lookup_init (pKey : κ) : lookup (sqliteHashInit : SqliteHash κ δ) pKey = none :=
  rfl

variable (h : SqliteHash κ δ)

include h

theorem sqliteHashFind_fst (pKey : κ) : (sqliteHashFind h pKey).map Prod.fst = lookup h pKey := by
  simp [lookup, sqliteHashFind, Function.comp_def]

omit h in
private theorem findElement_congr (elems : List (SqliteHashElem κ δ)) {a b : κ}
    (eqv : same a b) : findElement elems a = findElement elems b := by
  unfold findElement
  congr 1
  funext elem
  rw [same_comm, same_congr eqv, same_comm]

theorem lookup_congr {a b : κ} (eqv : same a b) : lookup h a = lookup h b := by
  rw [lookup, lookup, findElement_congr h.elems eqv]

omit h in
private theorem findElement_remove (elems : List (SqliteHashElem κ δ)) (a b : κ) :
    findElement (removeElement elems a) b = if same a b then none else findElement elems b := by
  unfold findElement removeElement
  rw [find?_filter]
  split <;> rename_i eqv
  · rw [find?_eq_none]
    intro elem _ hit
    simp [same_comm elem.pKey, same_congr eqv] at hit
  · congr 1
    funext elem
    by_cases hit : same elem.pKey b
    · simp [same_congr hit, same_comm b a, eqv]
    · simp [hit]

omit h in
private theorem findElement_map_overwrite (elems : List (SqliteHashElem κ δ)) (a b : κ)
    (d : δ) : findElement (elems.map (overwrite a d)) b =
      (findElement elems b).map (overwrite a d) := by
  simp only [findElement, List.find?_map, Function.comp_def, overwrite_pKey]

omit h in
private theorem findElement_same {elems : List (SqliteHashElem κ δ)} {pKey : κ}
    {elem : SqliteHashElem κ δ} (found : findElement elems pKey = some elem) :
    same elem.pKey pKey := by
  simpa using find?_some found

/-- An overwriting insertion leaves the length of the first one. -/
theorem sqliteHashFind_insert (a b : κ) (pData : Option δ) (n : Nat) :
    sqliteHashFind (sqliteHashInsert h a pData n) b =
      if same a b then pData.map fun d => (d, ((sqliteHashFind h a).map Prod.snd).getD n)
      else sqliteHashFind h b := by
  simp only [sqliteHashFind, sqliteHashInsert, insertElement]
  cases found : findElement h.elems a with
  | none =>
    cases pData with
    | none =>
      by_cases eqv : same a b
      · simp [← findElement_congr h.elems eqv, found]
      · simp [eqv]
    | some d =>
      simp only [findElement]
      split <;> simp_all
  | some elem =>
    cases pData with
    | none =>
      simp only [findElement_remove]
      split <;> rfl
    | some d =>
      simp only [findElement_map_overwrite]
      split <;> rename_i eqv
      · rw [← findElement_congr h.elems eqv, found]
        simp [overwrite, findElement_same found]
      · cases hit : findElement h.elems b with
        | none => rfl
        | some other =>
          have miss : same other.pKey a = false := by
            rw [same_congr (findElement_same hit), same_comm]
            simpa using eqv
          simp [overwrite, miss]

theorem lookup_insert (a b : κ) (pData : Option δ) (n : Nat) :
    lookup (sqliteHashInsert h a pData n) b = if same a b then pData else lookup h b := by
  simp only [← sqliteHashFind_fst, sqliteHashFind_insert]
  split <;> simp [Function.comp_def]

def keySetoid (κ : Type u) [KeyClass κ] : Setoid κ where
  r a b := same a b
  iseqv := ⟨KeyClass.same_refl, KeyClass.same_symm _ _, KeyClass.same_trans _ _ _⟩

abbrev KeyOf (κ : Type u) [KeyClass κ] := Quotient (keySetoid κ)

def keyOf (a : κ) : KeyOf κ := Quotient.mk (keySetoid κ) a

omit h in
theorem keyOf_eq_iff (a b : κ) : keyOf a = keyOf b ↔ same a b :=
  ⟨fun eq => Quotient.exact eq, fun eqv => Quotient.sound eqv⟩

instance decidableEqKeyOf : DecidableEq (KeyOf κ) :=
  haveI : ∀ a b : κ, Decidable ((keySetoid κ).r a b) := fun a b =>
    inferInstanceAs (Decidable (same a b = true))
  inferInstanceAs (DecidableEq (Quotient (keySetoid κ)))

/-- What a table is for: a partial function between keys and data. -/
def graph [KeyClass δ] (h : SqliteHash κ δ) : KeyOf κ → Option (KeyOf δ) :=
  Quotient.lift (fun a => (lookup h a).map keyOf) fun _ _ eqv => by rw [lookup_congr h eqv]

theorem graph_keyOf [KeyClass δ] (a : κ) : graph h (keyOf a) = (lookup h a).map keyOf := rfl

theorem graph_insert [KeyClass δ] (a : κ) (pData : Option δ) (n : Nat) :
    graph (sqliteHashInsert h a pData n) =
      update (graph h) (keyOf a) (pData.map keyOf) := by
  funext key
  induction key using Quotient.inductionOn with
  | h b =>
    change graph (sqliteHashInsert h a pData n) (keyOf b) =
      update (graph h) (keyOf a) (pData.map keyOf) (keyOf b)
    rw [graph_keyOf, lookup_insert, update_apply]
    simp only [keyOf_eq_iff, same_comm b a]
    split <;> rfl

end

end SeSqlite.Hash
