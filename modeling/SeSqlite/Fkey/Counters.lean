/- source: src/fkey.c
   digest: The checks move the counters by exactly the change in the missing parents. -/
import Mathlib.Algebra.Ring.Int.Defs
import SeSqlite.Fkey.Violations

set_option autoImplicit false
set_option relaxedAutoImplicit false

namespace SeSqlite.Fkey

open List

variable {T V A C : Type} [DecidableEq T] [DecidableEq V] [DecidableEq C]
variable {vals : Values V A C} {sc : Schema T V A C} {fk : FKey T} {loc : Located V C}
  {keys : List (FKey T)} {n m : FKey T → Int} {t : T} (sound : sc.Sound vals)
  (member : fk ∈ sc.fkeys)
  (located : sqlite3FkLocateIndex vals (sc.table fk.zTo) fk.aCol = some loc)

theorem all_congr_mem {α : Type} {l m : List α} {f g : α → Bool} (same : ∀ x, x ∈ l ↔ x ∈ m)
    (agree : ∀ x ∈ m, f x = g x) : l.all f = m.all g := by
  rw [Bool.eq_iff_iff, all_eq_true, all_eq_true]
  constructor
  · intro all x member
    rw [← agree x member]
    exact all x ((same x).mpr member)
  · intro all x member
    rw [agree x ((same x).mp member)]
    exact all x ((same x).mp member)

omit [DecidableEq V] in
private theorem bothEqual_map {same : V → V → Bool} {f : V → V} {a b : Option V} :
    bothEqual same (a.map f) b = bothEqual (fun v w => same (f v) w) a b := by
  cases a <;> cases b <;> rfl

private theorem all_zip_map {α β γ : Type} (l : List α) (m : List β) (g : β → γ)
    (f : α × γ → Bool) :
    ((l.zip m).all fun term => f (term.1, g term.2)) = (l.zip (m.map g)).all f := by
  rw [zip_map_right, all_map]
  rfl

omit [DecidableEq T] [DecidableEq C] in
private theorem rowid_found (vals : Values V A C) (rowid : toRowid (sc.table fk.zTo) fk.aCol = true)
    (c p : Row V) : fk.refers vals sc c p =
      match (fk.aCol.iFrom.head?.bind ((sc.table fk.pFrom).value c)).bind vals.mustBeInt with
      | none => false
      | some regTemp => p.rowid == some regTemp := by
  obtain ⟨i, j, ipk, iFrom, pairs⟩ := toRowid_pairs rowid
  simp only [FKey.refers, pairs, iFrom, all_cons, all_nil, Bool.and_true, head?_cons,
    Option.bind_some, Table.value, ipk]
  cases child : if (sc.table fk.pFrom).iPKey = some i then c.rowid else c.data[i]?.join with
  | none => rfl
  | some v =>
    simp only [Option.bind_some]
    cases int : vals.mustBeInt v with
    | none =>
      cases p.rowid with
      | none => rfl
      | some w => simp [bothEqual, FKey.matches, rowid, int]
    | some regTemp =>
      cases p.rowid with
      | none => rfl
      | some w =>
        simp only [bothEqual, FKey.matches, rowid, int, if_true]
        exact BEq.comm

section

include sound member located

omit [DecidableEq T] in
private theorem index_found {idx : Index V C} (isIdx : loc.pIdx = some idx) (c p : Row V) :
    ((loc.aiCol.zip idx.aiColumn).all fun term =>
      bothEqual (vals.equal term.2.2) (((sc.table fk.pFrom).value c term.1).map
          (vals.apply ((sc.table fk.zTo).affinity vals term.2.1)))
        ((sc.table fk.zTo).value p term.2.1)) = fk.refers vals sc c p := by
  have notRowid : toRowid (sc.table fk.zTo) fk.aCol = false := by
    obtain ⟨-, rfl⟩ | ⟨rowid, -⟩ := located_cases located
    · cases isIdx
    · exact rowid
  have columns : loc.parentCols (sc.table fk.zTo) = idx.aiColumn.map Prod.fst := by
    simp [Located.parentCols, isIdx]
  have terms := terms_pairs sound member located
  rw [columns] at terms
  rw [FKey.refers, ← all_congr_mem terms fun _ _ => rfl, ← all_zip_map]
  apply all_congr_mem fun _ => Iff.rfl
  intro term termMember
  have coll := (exists_pair_of_index sound member located isIdx
    (of_mem_zip termMember).2).2
  rw [bothEqual_map, coll]
  apply bothEqual_congr
  intro v w _ _
  simp [FKey.matches, notRowid]

private theorem parentFound_old (db : Db T V) (row : Row V) :
    parentFound vals sc db fk loc row false = (db fk.zTo).any (fk.refers vals sc row) := by
  obtain ⟨rowid, rfl⟩ | ⟨-, idx, -, -, rfl⟩ := located_cases located
  · have found := funext fun p => rowid_found vals rowid row p
    simp only [parentFound, found]
    cases (fk.aCol.iFrom.head?.bind ((sc.table fk.pFrom).value row)).bind vals.mustBeInt with
    | none => simp
    | some regTemp => rfl
  · have holds := Index.holds_of_whole (sound.whole fk member _ located idx rfl)
    simp [parentFound, holds, index_found sound member located rfl]

end

/-- The values in the registers of a row are as the columns can hold them. -/
def Table.Held (vals : Values V A C) (tab : Table V A C) (row : Row V) : Prop :=
  ∀ i v, tab.value row i = some v → tab.Holds vals i v

section

include sound member located

private theorem parentFound_new (db : Db T V) {row : Row V}
    (held : fk.zTo = fk.pFrom → loc.pIdx.isSome → (sc.table fk.pFrom).Held vals row) :
    parentFound vals sc db fk loc row true =
      ((fk.zTo == fk.pFrom && fk.refers vals sc row row) ||
        (db fk.zTo).any (fk.refers vals sc row)) := by
  have old := parentFound_old sound member located db row
  obtain ⟨rowid, rfl⟩ | ⟨notRowid, idx, -, -, rfl⟩ := located_cases located
  · simp only [parentFound, rowid_found vals rowid row row] at old ⊢
    rw [← old]
    cases (fk.aCol.iFrom.head?.bind ((sc.table fk.pFrom).value row)).bind vals.mustBeInt with
    | none => simp
    | some regTemp => rfl
  · simp only [parentFound, Bool.false_and, Bool.false_or] at old ⊢
    congr 1
    by_cases self : fk.zTo = fk.pFrom
    · congr 1
      rw [all_zip_map (indexColumns fk.aCol idx) idx.aiColumn Prod.fst fun term =>
        bothEqual (vals.equal vals.binary) ((sc.table fk.pFrom).value row term.1)
          ((sc.table fk.zTo).value row term.2)]
      apply all_congr_mem (terms_pairs sound member located)
      intro pair pairMember
      apply bothEqual_congr
      intro v w child parent
      have heldRow := held self rfl
      refine sound.self_agrees fk member self notRowid pair pairMember v w (heldRow _ _ child) ?_
      rw [self] at parent ⊢
      exact heldRow _ _ parent
    · rw [show (fk.zTo == fk.pFrom) = false from beq_false_of_ne self]
      rfl

private theorem scanned_refers {p c : Row V}
    (heldParent : ∀ pair ∈ fk.pairs sc, ∀ w, (sc.table fk.zTo).value p pair.2 = some w →
      (sc.table fk.zTo).Holds vals pair.2 w) (heldChild : (sc.table fk.pFrom).Held vals c)
    (isNew : Bool) : scanned vals sc fk loc p isNew c = (fk.refers vals sc c p &&
      (isNew || fk.zTo != fk.pFrom || notSelf vals sc fk loc.pIdx p c)) := by
  simp only [scanned]
  congr 1
  apply all_congr_mem (terms_pairs sound member located)
  intro pair pairMember
  cases parent : (sc.table fk.zTo).value p pair.2 with
  | none => cases (sc.table fk.pFrom).value c pair.1 <;> rfl
  | some w =>
    cases child : (sc.table fk.pFrom).value c pair.1 with
    | none => rfl
    | some v =>
      exact sound.scan_agrees fk member pair pairMember v w (heldChild _ _ child)
        (heldParent pair pairMember w parent)

end

section

variable {tab : Table V A C} {row : Row V} {i : Nat}

omit [DecidableEq V] [DecidableEq C] in
private theorem allColumns_primary {idx : Index V C} (member : idx ∈ tab.pIndex)
    (primary : idx.primary = true) :
    (allColumns tab idx).take tab.primaryKey.length = tab.primaryKey := by
  unfold allColumns
  rw [primaryKey_of_primary member primary]
  simp

omit [DecidableEq C] in
private theorem held_of_valid {rows : List (Row V)} (valid : tab.Valid vals rows)
    (member : row ∈ rows) :
    tab.Held vals row := fun _ _ value =>
  holds_of_stored (valid.fits row member) (valid.stored row member) value

omit [DecidableEq V] [DecidableEq C] in
private theorem compare_held (noIpk : tab.iPKey = none) (held : tab.Held vals row) {v : V}
    (value : tab.value row i = some v) :
    vals.apply (vals.compareAffinity (tab.affinity vals i) (tab.affinity vals i)) v = v := by
  have holds := held i v value
  rw [Table.Holds, if_neg (by simp [noIpk])] at holds
  rw [← holds]
  exact vals.apply_compareAffinity _ v

omit [DecidableEq C] in
private theorem primaryKey_isSome (noRowid : tab.withoutRowid = true)
    (fits : tab.fits vals row = true)
    (key : i ∈ tab.primaryKey) : ∃ v, tab.value row i = some v := by
  simp only [Table.fits, noRowid, if_true, all_eq_true] at fits
  exact Option.isSome_iff_exists.mp (fits i key)

end

omit [DecidableEq T] in
private theorem notSelf_iff (sound : sc.Sound vals) (member : fk ∈ sc.fkeys)
    (located : sqlite3FkLocateIndex vals (sc.table fk.zTo) fk.aCol = some loc)
    (self : fk.zTo = fk.pFrom) {p c : Row V} (fitsP : (sc.table fk.zTo).fits vals p = true)
    (fitsC : (sc.table fk.zTo).fits vals c = true) (heldP : (sc.table fk.zTo).Held vals p)
    (heldC : (sc.table fk.zTo).Held vals c) : (c = p → notSelf vals sc fk loc.pIdx p c = false) ∧
      ((sc.table fk.zTo).clash vals p c = false → notSelf vals sc fk loc.pIdx p c = true) := by
  cases noRowid : (sc.table fk.zTo).withoutRowid with
  | false =>
    simp only [notSelf, noRowid]
    constructor
    · rintro rfl
      simp
    · intro apart
      simp only [Table.clash, noRowid, Bool.not_false, Bool.true_and, Bool.or_eq_false_iff,
        beq_eq_false_iff_ne] at apart
      simpa using apart.1.symm
  | true =>
    obtain ⟨rowid, rfl⟩ | ⟨-, idx, inTable, usable_idx, rfl⟩ := located_cases located
    · obtain ⟨_, _, ipk, -⟩ := toRowid_pairs rowid
      have := ((sc.table fk.zTo).ipk_alone (by simp [ipk])).1
      rw [noRowid] at this
      cases this
    · have primary := sound.self_primary fk member self noRowid idx inTable usable_idx
      have noIpk : (sc.table fk.zTo).iPKey = none := by
        by_contra ipk
        rw [((sc.table fk.zTo).ipk_alone ipk).1] at noRowid
        cases noRowid
      simp only [notSelf, noRowid, if_true, Option.elim_some, allColumns_primary inTable primary]
      constructor
      · rintro rfl
        rw [any_eq_false]
        intro i key
        obtain ⟨v, value⟩ := primaryKey_isSome noRowid fitsC key
        simpa [value] using (vals.equal_equivalence _).refl _
      · intro apart
        simp only [Table.clash, noRowid, Bool.not_true, Bool.false_and, Bool.false_or,
          any_eq_false, Bool.and_eq_true, not_and, Bool.not_eq_true] at apart
        obtain ⟨unique, whole⟩ := (sc.table fk.zTo).primary_unique idx inTable primary
        have differ := apart idx inTable
          ⟨⟨unique, Index.holds_of_whole whole p⟩, Index.holds_of_whole whole c⟩
        rw [Table.sameKey, all_eq_false] at differ
        obtain ⟨col, column, differ⟩ := differ
        have key : col.1 ∈ (sc.table fk.zTo).primaryKey := by
          rw [primaryKey_of_primary inTable primary]
          exact mem_map_of_mem column
        obtain ⟨v, valueP⟩ := primaryKey_isSome noRowid fitsP key
        obtain ⟨w, valueC⟩ := primaryKey_isSome noRowid fitsC key
        rw [any_eq_true]
        refine ⟨col.1, key, ?_⟩
        rw [valueP, valueC, sound.primary_coll _ idx inTable primary col column]
          at differ
        rw [valueP, valueC, bothEqual, compare_held noIpk heldP valueP,
          compare_held noIpk heldC valueC]
        simpa using differ

private theorem add_zero (c : Counters) (d : Bool) : c.add d 0 = c := by
  cases d <;> simp [Counters.add]

section

include sound member located

omit [DecidableEq T] in
private theorem nonNull_eq (row : Row V) :
    (loc.aiCol.any fun i => ((sc.table fk.pFrom).value row i).isNone) =
      !fk.aCol.iFrom.all fun i => ((sc.table fk.pFrom).value row i).isSome := by
  rw [Bool.eq_iff_iff, Bool.not_eq_true', any_eq_true, all_eq_false]
  simp [mem_iFrom_iff sound member located]

private theorem lookup_old (db : Db T V) (row : Row V) (c : Counters) :
    fkLookupParent vals sc db fk loc row false true c =
      .ok (if c.get fk.isDeferred = 0 then c
        else c.add fk.isDeferred (-(fk.lacks vals sc db row).toNat)) := by
  unfold fkLookupParent
  rw [nonNull_eq sound member located, parentFound_old sound member located]
  by_cases zero : c.get fk.isDeferred = 0
  · simp [zero]
  · unfold FKey.lacks
    cases fk.aCol.iFrom.all fun i => ((sc.table fk.pFrom).value row i).isSome with
    | false => simp [add_zero]
    | true =>
      cases (db fk.zTo).any (fk.refers vals sc row) with
      | true => simp [add_zero]
      | false => simp [zero]

end

omit [DecidableEq C] in
private theorem any_refers_add (db : Db T V) (row : Row V) :
    (db.add fk.pFrom row fk.zTo).any (fk.refers vals sc row) =
      ((fk.zTo == fk.pFrom && fk.refers vals sc row row) ||
        (db fk.zTo).any (fk.refers vals sc row)) := by
  by_cases self : fk.zTo = fk.pFrom
  · rw [self, Db.add_same, any_cons, beq_self_eq_true, Bool.true_and]
  · rw [Db.add_other db row self, show (fk.zTo == fk.pFrom) = false from beq_false_of_ne self]
    rfl

omit [DecidableEq V] [DecidableEq C] in
private theorem isSome_registers (tab : Table V A C) (row : Row V) (i : Nat) :
    (tab.value (tab.registers vals row) i).isSome =
      (tab.value (tab.store vals row) i).isSome := by
  unfold Table.registers
  split
  · rw [value_store]
    split
    · rename_i ipk
      rw [Table.value, if_pos ipk]
    · rw [Option.isSome_map]
  · rfl

omit [DecidableEq T] in
private theorem refers_registers (sound : sc.Sound vals) (member : fk ∈ sc.fkeys) (row p : Row V) :
    fk.refers vals sc ((sc.table fk.pFrom).registers vals row) p =
      fk.refers vals sc ((sc.table fk.pFrom).store vals row) p := by
  unfold Table.registers
  split
  · rename_i noIndex
    apply all_congr_mem fun _ => Iff.rfl
    intro pair pairMember
    rw [value_store]
    split
    · rename_i ipk
      rw [Table.value, if_pos ipk]
    · rw [bothEqual_map]
      apply bothEqual_congr
      intro v w _ _
      exact (sound.raw_agrees fk member (isEmpty_iff.mp noIndex) pair pairMember v w).symm
  · rfl

omit [DecidableEq V] [DecidableEq C] in
private theorem rowid_registers (tab : Table V A C) (row : Row V) :
    (tab.registers vals row).rowid = row.rowid := by
  unfold Table.registers
  split <;> rfl

omit [DecidableEq T] [DecidableEq V] in
private theorem value_registers_parent
    (located : sqlite3FkLocateIndex vals (sc.table fk.zTo) fk.aCol = some loc) (row : Row V)
    {pair : Nat × Nat} (pairMember : pair ∈ fk.pairs sc) :
    (sc.table fk.zTo).value ((sc.table fk.zTo).registers vals row) pair.2 =
      (sc.table fk.zTo).value ((sc.table fk.zTo).store vals row) pair.2 := by
  obtain ⟨rowid, -⟩ | ⟨-, idx, inTable, -, -⟩ := located_cases located
  · obtain ⟨i, j, ipk, -, pairs⟩ := toRowid_pairs rowid
    rw [pairs, mem_singleton] at pairMember
    rw [pairMember, value_store, if_pos ipk, Table.value, if_pos ipk, rowid_registers]
  · rw [Table.registers, if_neg (by simpa using ne_nil_of_mem inTable)]

private theorem lookup_new (sound : sc.Sound vals) (member : fk ∈ sc.fkeys)
    (located : sqlite3FkLocateIndex vals (sc.table fk.zTo) fk.aCol = some loc) (db : Db T V)
    (row : Row V) (fits : (sc.table fk.pFrom).fits vals ((sc.table fk.pFrom).store vals row) = true)
    (isMultiWrite : Bool) (c : Counters) :
    fkLookupParent vals sc db fk loc ((sc.table fk.pFrom).registers vals row) true isMultiWrite c =
      if fk.lacks vals sc (db.add fk.pFrom ((sc.table fk.pFrom).store vals row))
          ((sc.table fk.pFrom).store vals row) then
        if !fk.isDeferred && !isMultiWrite then .error c else .ok (c.add fk.isDeferred 1)
      else .ok c := by
  set stored := (sc.table fk.pFrom).store vals row with stored_eq
  have held : fk.zTo = fk.pFrom → loc.pIdx.isSome →
      (sc.table fk.pFrom).Held vals ((sc.table fk.pFrom).registers vals row) := by
    intro self isIdx i v value
    obtain ⟨-, rfl⟩ | ⟨-, idx, inTable, -, -⟩ := located_cases located
    · cases isIdx
    · rw [self] at inTable
      rw [Table.registers, if_neg (by simpa using ne_nil_of_mem inTable)] at value
      exact holds_of_stored fits (store_store row) value
  have found : parentFound vals sc db fk loc ((sc.table fk.pFrom).registers vals row) true =
      (db.add fk.pFrom stored fk.zTo).any (fk.refers vals sc stored) := by
    rw [parentFound_new sound member located db held, any_refers_add]
    simp only [funext (refers_registers sound member row)]
    by_cases self : fk.zTo = fk.pFrom
    · congr 2
      apply all_congr_mem fun _ => Iff.rfl
      intro pair pairMember
      have parent := value_registers_parent located row pairMember
      rw [self] at parent ⊢
      rw [parent]
    · rw [show (fk.zTo == fk.pFrom) = false from beq_false_of_ne self]
      rfl
  unfold fkLookupParent
  rw [nonNull_eq sound member located, found]
  simp only [isSome_registers, ← stored_eq, FKey.lacks]
  by_cases nonNull : (fk.aCol.iFrom.all fun i =>
      ((sc.table fk.pFrom).value stored i).isSome) = true
  · by_cases parent : (db.add fk.pFrom stored fk.zTo).any (fk.refers vals sc stored) = true
    · simp [parent]
    · simp [nonNull, parent]
  · simp [nonNull]

section

variable {db : Db T V} {row : Row V} (valid : db.Valid vals sc)

include sound member located valid

private theorem scan_new (fits : (sc.table fk.zTo).fits vals ((sc.table fk.zTo).store vals row) =
    true)
    (c : Counters) :
    fkScanChildren vals sc db fk loc ((sc.table fk.zTo).registers vals row) true c =
      if c.get fk.isDeferred = 0 then c
      else c.add fk.isDeferred (-((db fk.pFrom).countP fun child =>
        fk.refers vals sc child ((sc.table fk.zTo).store vals row) : Nat)) := by
  have count : (db fk.pFrom).countP
        (scanned vals sc fk loc ((sc.table fk.zTo).registers vals row) true) =
      (db fk.pFrom).countP fun child =>
        fk.refers vals sc child ((sc.table fk.zTo).store vals row) := by
    apply countP_congr
    intro child childMember
    rw [scanned_refers sound member located ?_ (held_of_valid (valid _) childMember), Bool.true_or,
      Bool.true_or, Bool.and_true]
    · have same : fk.refers vals sc child ((sc.table fk.zTo).registers vals row) =
          fk.refers vals sc child ((sc.table fk.zTo).store vals row) := by
        apply all_congr_mem fun _ => Iff.rfl
        intro pair pairMember
        rw [value_registers_parent located row pairMember]
      rw [same]
    · intro pair pairMember w value
      rw [value_registers_parent located row pairMember] at value
      exact holds_of_stored fits (store_store row) value
  simp [fkScanChildren, count]

private theorem scan_old (present : row ∈ db fk.zTo) (c : Counters) :
    fkScanChildren vals sc db fk loc row false c =
      c.add fk.isDeferred ((db.remove fk.zTo row fk.pFrom).countP fun child =>
        fk.refers vals sc child row : Nat) := by
  have heldRow := held_of_valid (valid _) present
  have count : (db fk.pFrom).countP (scanned vals sc fk loc row false) =
      (db.remove fk.zTo row fk.pFrom).countP fun child => fk.refers vals sc child row := by
    have scan : ∀ child ∈ db fk.pFrom, scanned vals sc fk loc row false child =
        (fk.refers vals sc child row &&
          (fk.zTo != fk.pFrom || notSelf vals sc fk loc.pIdx row child)) := by
      intro child childMember
      rw [scanned_refers sound member located (fun pair _ w value => heldRow _ w value)
        (held_of_valid (valid _) childMember), Bool.false_or]
    by_cases self : fk.zTo = fk.pFrom
    · have perm := perm_cons_erase (self ▸ present)
      have validCons := (self ▸ valid fk.zTo : (sc.table fk.zTo).Valid vals (db fk.pFrom)).perm perm
      rw [perm.countP_eq, countP_cons_of_neg ?_]
      · rw [Db.remove, self, Function.update_self]
        apply countP_congr
        intro child childMember
        have apart := rel_of_pairwise_cons validCons.apart childMember
        have other := (notSelf_iff sound member located self (validCons.fits row mem_cons_self)
          (validCons.fits child (mem_cons_of_mem _ childMember))
          (held_of_valid validCons mem_cons_self)
          (held_of_valid validCons (mem_cons_of_mem _ childMember))).2 apart
        rw [scan child (mem_of_mem_erase childMember), other, Bool.or_true, Bool.and_true]
      · have own := (notSelf_iff sound member located self (validCons.fits row mem_cons_self)
          (validCons.fits row mem_cons_self) (held_of_valid validCons mem_cons_self)
          (held_of_valid validCons mem_cons_self)).1 rfl
        rw [scan row (self ▸ present), own]
        simp [self]
    · rw [Db.remove, Function.update_of_ne (Ne.symm self)]
      apply countP_congr
      intro child childMember
      rw [scan child childMember, show (fk.zTo != fk.pFrom) = true by simpa using self,
        Bool.true_or, Bool.and_true]
  simp [fkScanChildren, count]

end

def total (keys : List (FKey T)) (n : FKey T → Int) (d : Bool) : Int :=
  (keys.map fun fk => if fk.isDeferred = d then n fk else 0).sum

section

omit [DecidableEq T]

theorem total_cons (fk : FKey T) (keys : List (FKey T)) (n : FKey T → Int) (d : Bool) :
    total (fk :: keys) n d = (if fk.isDeferred = d then n fk else 0) + total keys n d := rfl

private theorem total_filter (keys : List (FKey T)) (p : FKey T → Bool) (n : FKey T → Int)
    (d : Bool) :
    total (keys.filter p) n d = total keys (fun fk => if p fk then n fk else 0) d := by
  induction keys with
  | nil => rfl
  | cons fk keys ih =>
    rw [total_cons, ← ih, filter_cons]
    cases p fk
    · simp
    · simp [total_cons]

theorem total_congr_flag {d : Bool} (same : ∀ fk ∈ keys, fk.isDeferred = d → n fk = m fk) :
    total keys n d = total keys m d := by
  unfold total
  congr 1
  apply map_congr_left
  intro fk member
  split
  · rename_i flag
    exact same fk member flag
  · rfl

theorem total_congr (same : ∀ fk ∈ keys, n fk = m fk) (d : Bool) :
    total keys n d = total keys m d :=
  total_congr_flag fun fk member _ => same fk member

theorem total_add (keys : List (FKey T)) (n m : FKey T → Int) (d : Bool) :
    total keys n d + total keys m d = total keys (fun fk => n fk + m fk) d := by
  induction keys with
  | nil => rfl
  | cons fk keys ih =>
    rw [total_cons, total_cons, total_cons]
    split <;> omega

theorem total_le (le : ∀ fk ∈ keys, n fk ≤ m fk) (d : Bool) : total keys n d ≤ total keys m d := by
  induction keys with
  | nil => exact Int.le_refl _
  | cons fk keys ih =>
    have head := le fk mem_cons_self
    have tail := ih fun other member => le other (mem_cons_of_mem _ member)
    rw [total_cons, total_cons]
    split <;> omega

theorem total_nonneg (nonneg : ∀ fk ∈ keys, 0 ≤ n fk) (d : Bool) : 0 ≤ total keys n d := by
  induction keys with
  | nil => exact Int.le_refl _
  | cons fk keys ih =>
    have head := nonneg fk mem_cons_self
    have tail := ih fun other member => nonneg other (mem_cons_of_mem _ member)
    rw [total_cons]
    split <;> omega

end

private theorem get_add (c : Counters) (d e : Bool) (n : Int) :
    (c.add d n).get e = c.get e + if d = e then n else 0 := by
  cases d <;> cases e <;> simp [Counters.add, Counters.get]

section

variable {f : Counters → FKey T → Except Counters Counters} {g : Counters → FKey T → Counters}

section

omit [DecidableEq T]

private theorem foldlM_ok (each : ∀ fk ∈ keys, ∀ c, f c fk = .ok (g c fk)) (c : Counters) :
    keys.foldlM f c = .ok (keys.foldl g c) := by
  induction keys generalizing c with
  | nil => rfl
  | cons fk keys ih =>
    rw [foldlM_cons, each fk mem_cons_self]
    exact ih (fun other member => each other (mem_cons_of_mem _ member)) _

private theorem foldlM_halts (bad : FKey T → Prop)
    (halts : ∀ fk ∈ keys, bad fk → ∀ c, f c fk = .error c)
    (passes : ∀ fk ∈ keys, ¬bad fk → ∀ c, ∃ c', f c fk = .ok c') (some_bad : ∃ fk ∈ keys, bad fk)
    (c : Counters) : ∃ c', keys.foldlM f c = .error c' ∧
      ((∀ fk ∈ keys, ¬bad fk → ∀ c, f c fk = .ok c) → c' = c) := by
  induction keys generalizing c with
  | nil => exact absurd some_bad (by simp)
  | cons fk keys ih =>
    rw [foldlM_cons]
    by_cases first : bad fk
    · rw [halts fk mem_cons_self first]
      exact ⟨c, rfl, fun _ => rfl⟩
    · obtain ⟨next, passed⟩ := passes fk mem_cons_self first c
      obtain ⟨c', halted, same⟩ := ih
        (fun other member => halts other (mem_cons_of_mem _ member))
        (fun other member => passes other (mem_cons_of_mem _ member))
        (((exists_mem_cons_iff _ _ _).mp some_bad).resolve_left first) next
      rw [passed]
      refine ⟨c', halted, fun unchanged => ?_⟩
      have stays := unchanged fk mem_cons_self first c
      rw [passed, Except.ok.injEq] at stays
      rw [same fun other member => unchanged other (mem_cons_of_mem _ member), stays]

private theorem foldl_increase (each : ∀ fk ∈ keys, ∀ c, g c fk = c.add fk.isDeferred (n fk))
    (c : Counters) (d : Bool) : (keys.foldl g c).get d = c.get d + total keys n d := by
  induction keys generalizing c with
  | nil => exact (Int.add_zero _).symm
  | cons fk keys ih =>
    rw [foldl_cons, ih fun other member => each other (mem_cons_of_mem _ member),
      each fk mem_cons_self, get_add, total_cons, Int.add_assoc]

private theorem foldl_decrease (nonneg : ∀ fk ∈ keys, 0 ≤ n fk)
    (each : ∀ fk ∈ keys, ∀ c, g c fk = if c.get fk.isDeferred =
      0 then c else c.add fk.isDeferred (-(n fk)))
    (c : Counters) (enough : ∀ d, total keys n d ≤ c.get d) (d : Bool) :
    (keys.foldl g c).get d = c.get d - total keys n d := by
  induction keys generalizing c with
  | nil => exact (Int.sub_zero _).symm
  | cons fk keys ih =>
    have rest : ∀ e, 0 ≤ total keys n e :=
      total_nonneg fun other member => nonneg other (mem_cons_of_mem _ member)
    have head := nonneg fk mem_cons_self
    have own := enough fk.isDeferred
    rw [total_cons, if_pos rfl] at own
    have first : ∀ e, (g c fk).get e = c.get e - if fk.isDeferred = e then n fk else 0 := by
      intro e
      rw [each fk mem_cons_self]
      split
      · have none := rest fk.isDeferred
        split <;> omega
      · rw [get_add]
        split <;> omega
    rw [foldl_cons, ih (fun other member => nonneg other (mem_cons_of_mem _ member))
      (fun other member => each other (mem_cons_of_mem _ member)), first, total_cons]
    · omega
    · intro e
      have now := enough e
      rw [total_cons] at now
      rw [first]
      omega

end

end

/-- What a row that lacks its parent counts in the first loop. -/
def childPart (vals : Values V A C) (sc : Schema T V A C) (t : T) (aChange : Option Changed)
    (db : Db T V) (row : Row V) (fk : FKey T) : Int :=
  if fk.pFrom = t ∧ skipsChild sc fk aChange = false then (fk.lacks vals sc db row).toNat else 0

/-- What the rows that refer to a row count in the second loop. -/
def parentPart (vals : Values V A C) (sc : Schema T V A C) (t : T) (aChange : Option Changed)
    (db : Db T V) (row : Row V) (fk : FKey T) : Int :=
  if fk.zTo = t ∧ skipsParent sc fk aChange = false then
    ((db fk.pFrom).countP fun child => fk.refers vals sc child row : Nat)
  else 0

/-- A single row that is inserted is not checked as the parent of an immediate key. -/
def scanPart (vals : Values V A C) (sc : Schema T V A C) (t : T) (aChange : Option Changed)
    (isMultiWrite : Bool) (db : Db T V) (row : Row V) (fk : FKey T) : Int :=
  if isMultiWrite || fk.isDeferred then parentPart vals sc t aChange db row fk else 0

omit [DecidableEq C] in
theorem scanPart_multi (t : T) (aChange : Option Changed) (db : Db T V) (row : Row V) :
    scanPart vals sc t aChange true db row = parentPart vals sc t aChange db row := by
  funext fk
  simp [scanPart]

section

variable {aChange : Option Changed}

section

omit [DecidableEq C]

private theorem childPart_skip (skip : skipsChild sc fk aChange = true) (db : Db T V)
    (row : Row V) :
    childPart vals sc t aChange db row fk = 0 := by
  simp [childPart, skip]

private theorem childPart_own (skip : ¬skipsChild sc fk aChange = true) (db : Db T V)
    (row : Row V) :
    childPart vals sc fk.pFrom aChange db row fk = (fk.lacks vals sc db row).toNat := by
  simp [childPart, skip]

theorem parentPart_skip (skip : skipsParent sc fk aChange = true) (db : Db T V) (row : Row V) :
    parentPart vals sc t aChange db row fk = 0 := by
  simp [parentPart, skip]

private theorem parentPart_own (skip : ¬skipsParent sc fk aChange = true) (db : Db T V)
    (row : Row V) :
    parentPart vals sc fk.zTo aChange db row fk =
      ((db fk.pFrom).countP fun child => fk.refers vals sc child row : Nat) := by
  simp [parentPart, skip]

end

end

omit [DecidableEq C] in
private theorem childPart_nonneg (t : T) (aChange : Option Changed) (db : Db T V) (row : Row V)
    (fk : FKey T) : 0 ≤ childPart vals sc t aChange db row fk := by
  unfold childPart
  split <;> omega

omit [DecidableEq C] in
private theorem parentPart_nonneg (t : T) (aChange : Option Changed) (db : Db T V) (row : Row V)
    (fk : FKey T) : 0 ≤ parentPart vals sc t aChange db row fk := by
  unfold parentPart
  split <;> omega

omit [DecidableEq T] in
private theorem total_filter_eq {p : FKey T → Bool} (zero : ∀ fk, p fk = false → n fk = 0)
    (d : Bool) :
    total (keys.filter p) n d = total keys n d := by
  rw [total_filter]
  refine total_congr (fun fk _ => ?_) d
  cases here : p fk with
  | true => rfl
  | false => exact (zero fk here).symm

omit [DecidableEq C] in
private theorem total_childPart (t : T) (aChange : Option Changed) (db : Db T V) (row : Row V)
    (d : Bool) :
    total (sc.pFKey t) (childPart vals sc t aChange db row) d =
      total sc.fkeys (childPart vals sc t aChange db row) d :=
  total_filter_eq (fun fk other => by simp_all [childPart]) d

omit [DecidableEq C] in
private theorem parentPart_other (other : (fk.zTo == t) = false) (aChange : Option Changed)
    (db : Db T V) (row : Row V) : parentPart vals sc t aChange db row fk = 0 := by
  simp_all [parentPart]

private theorem located_child (sound : sc.Sound vals) (member : fk ∈ sc.pFKey t) :
    fk ∈ sc.fkeys ∧ fk.pFrom = t ∧
      ∃ loc, sqlite3FkLocateIndex vals (sc.table fk.zTo) fk.aCol = some loc := by
  obtain ⟨inKeys, child⟩ : fk ∈ sc.fkeys ∧ fk.pFrom = t := by simpa [Schema.pFKey] using member
  exact ⟨inKeys, child, Option.isSome_iff_exists.mp (sound.located fk inKeys)⟩

private theorem located_parent (sound : sc.Sound vals) (member : fk ∈ sqlite3FkReferences sc t) :
    fk ∈ sc.fkeys ∧ fk.zTo = t ∧
      ∃ loc, sqlite3FkLocateIndex vals (sc.table fk.zTo) fk.aCol = some loc := by
  obtain ⟨inKeys, parent⟩ : fk ∈ sc.fkeys ∧ fk.zTo = t := by
    simpa [sqlite3FkReferences] using member
  exact ⟨inKeys, parent, Option.isSome_iff_exists.mp (sound.located fk inKeys)⟩

section

variable {db : Db T V} {row stored : Row V}

private theorem fkCheck_ok {isNew isMultiWrite : Bool} {aChange : Option Changed}
    {g : Counters → FKey T → Counters}
    (each : ∀ fk ∈ sc.pFKey t, ∀ c, checkChild vals sc db fk row isNew isMultiWrite aChange c =
      .ok (g c fk)) (c : Counters) : sqlite3FkCheck vals sc db t row isNew isMultiWrite aChange c =
      .ok ((sqlite3FkReferences sc t).foldl
        (fun c fk => checkParent vals sc db fk row isNew isMultiWrite aChange c)
        ((sc.pFKey t).foldl g c)) := by
  unfold sqlite3FkCheck
  rw [foldlM_ok each]
  rfl

theorem fkCheck_old (sound : sc.Sound vals) (valid : db.Valid vals sc) (present : row ∈ db t)
    (aChange : Option Changed) (c : Counters)
    (enough : ∀ d, total sc.fkeys (childPart vals sc t aChange db row) d ≤ c.get d) :
    ∃ c', sqlite3FkCheck vals sc db t row false true aChange c = .ok c' ∧
      ∀ d, c'.get d = c.get d - total sc.fkeys (childPart vals sc t aChange db row) d +
        total sc.fkeys (parentPart vals sc t aChange (db.remove t row) row) d := by
  have child : ∀ fk ∈ sc.pFKey t, ∀ c, checkChild vals sc db fk row false true aChange c =
      .ok (if c.get fk.isDeferred = 0 then c
        else c.add fk.isDeferred (-(childPart vals sc t aChange db row fk))) := by
    intro fk member c
    obtain ⟨inKeys, rfl, loc, located⟩ := located_child sound member
    unfold checkChild
    by_cases skip : skipsChild sc fk aChange = true
    · rw [childPart_skip skip, if_pos skip]
      simp [add_zero]
    · rw [childPart_own skip, if_neg skip, located]
      exact lookup_old sound inKeys located db row c
  have parent : ∀ fk ∈ sqlite3FkReferences sc t, ∀ c,
      checkParent vals sc db fk row false true aChange c =
        c.add fk.isDeferred (parentPart vals sc t aChange (db.remove t row) row fk) := by
    intro fk member c
    obtain ⟨inKeys, rfl, loc, located⟩ := located_parent sound member
    unfold checkParent
    by_cases skip : skipsParent sc fk aChange = true
    · rw [parentPart_skip skip, if_pos skip, add_zero]
    · rw [parentPart_own skip, if_neg skip, if_neg (by simp), located]
      exact scan_old sound inKeys located valid present c
  have childEnough : ∀ d, total (sc.pFKey t) (childPart vals sc t aChange db row) d ≤ c.get d := by
    intro d
    rw [total_childPart]
    exact enough d
  refine ⟨_, fkCheck_ok child c, fun d => ?_⟩
  rw [foldl_increase parent, foldl_decrease (fun fk _ => childPart_nonneg t aChange db row fk)
    (fun _ _ _ => rfl) c childEnough, total_childPart, sqlite3FkReferences,
    total_filter_eq fun _ other => parentPart_other other ..]

theorem fkCheck_new (sound : sc.Sound vals) (valid : db.Valid vals sc)
    (stored_eq : (sc.table t).store vals row = stored) (fits : (sc.table t).fits vals stored = true)
    (aChange : Option Changed) (isMultiWrite : Bool)
    (noHalt : isMultiWrite = true ∨ ∀ fk ∈ sc.pFKey t,
      fk.lacks vals sc (db.add t stored) stored = true → fk.isDeferred = true) (c : Counters)
    (enough : ∀ d, total sc.fkeys (scanPart vals sc t aChange isMultiWrite db stored) d ≤
      c.get d + total sc.fkeys (childPart vals sc t aChange (db.add t stored) stored) d) :
    ∃ c', sqlite3FkCheck vals sc db t ((sc.table t).registers vals row) true isMultiWrite
        aChange c = .ok c' ∧
      ∀ d, c'.get d =
        c.get d + total sc.fkeys (childPart vals sc t aChange (db.add t stored) stored) d -
          total sc.fkeys (scanPart vals sc t aChange isMultiWrite db stored) d := by
  have child : ∀ fk ∈ sc.pFKey t, ∀ c,
      checkChild vals sc db fk ((sc.table t).registers vals row) true isMultiWrite aChange c =
        .ok (c.add fk.isDeferred (childPart vals sc t aChange (db.add t stored) stored fk)) := by
    intro fk member c
    have halts : fk.lacks vals sc (db.add t stored) stored = true →
        (!fk.isDeferred && !isMultiWrite) = false := by
      intro lacks
      obtain multi | deferred := noHalt
      · simp [multi]
      · simp [deferred fk member lacks]
    obtain ⟨inKeys, rfl, loc, located⟩ := located_child sound member
    subst stored_eq
    unfold checkChild
    by_cases skip : skipsChild sc fk aChange = true
    · rw [childPart_skip skip, if_pos skip, add_zero]
    · rw [childPart_own skip, if_neg skip, located]
      refine (lookup_new sound inKeys located db row fits isMultiWrite c).trans ?_
      split
      · rename_i lacks
        rw [halts lacks, lacks]
        rfl
      · rename_i lacks
        rw [Bool.eq_false_iff.mpr lacks]
        simp [add_zero]
  have parent : ∀ fk ∈ sqlite3FkReferences sc t, ∀ c,
      checkParent vals sc db fk ((sc.table t).registers vals row) true isMultiWrite aChange c =
        if c.get fk.isDeferred = 0 then c
        else c.add fk.isDeferred (-(scanPart vals sc t aChange isMultiWrite db stored fk)) := by
    intro fk member c
    obtain ⟨inKeys, rfl, loc, located⟩ := located_parent sound member
    subst stored_eq
    unfold checkParent scanPart
    by_cases skip : skipsParent sc fk aChange = true
    · rw [parentPart_skip skip, if_pos skip]
      simp [add_zero]
    · rw [parentPart_own skip, if_neg skip, located]
      have halts : (!fk.isDeferred && !isMultiWrite) = !(isMultiWrite || fk.isDeferred) := by
        cases isMultiWrite <;> cases fk.isDeferred <;> rfl
      rw [halts]
      cases isMultiWrite || fk.isDeferred with
      | true => exact scan_new sound inKeys located valid fits c
      | false => simp [add_zero]
  have parentTotal : ∀ d, total (sqlite3FkReferences sc t)
        (scanPart vals sc t aChange isMultiWrite db stored) d =
      total sc.fkeys (scanPart vals sc t aChange isMultiWrite db stored) d :=
    total_filter_eq fun fk other => by simp [scanPart, parentPart_other other]
  refine ⟨_, fkCheck_ok child c, fun d => ?_⟩
  rw [foldl_decrease ?_ parent, foldl_increase (fun _ _ _ => rfl), total_childPart, parentTotal]
  · intro d
    rw [foldl_increase (fun _ _ _ => rfl), total_childPart, parentTotal]
    exact enough d
  · intro fk _
    unfold scanPart
    split
    · exact parentPart_nonneg t aChange db _ fk
    · exact Int.le_refl 0

theorem fkCheck_halts (sound : sc.Sound vals) (stored_eq : (sc.table t).store vals row = stored)
    (fits : (sc.table t).fits vals stored = true)
    (lacking : ∃ fk ∈ sc.pFKey t, fk.isDeferred = false ∧
      fk.lacks vals sc (db.add t stored) stored = true) (c : Counters) :
    ∃ c', sqlite3FkCheck vals sc db t ((sc.table t).registers vals row) true false none c =
        .error c' ∧
      ((∀ fk ∈ sc.pFKey t, fk.isDeferred = true →
        fk.lacks vals sc (db.add t stored) stored = false) → c' = c) := by
  have each : ∀ fk ∈ sc.pFKey t, ∀ c,
      checkChild vals sc db fk ((sc.table t).registers vals row) true false none c =
        if fk.lacks vals sc (db.add t stored) stored then
          if !fk.isDeferred && !false then .error c else .ok (c.add fk.isDeferred 1)
        else .ok c := by
    intro fk member c
    obtain ⟨inKeys, rfl, loc, located⟩ := located_child sound member
    subst stored_eq
    rw [checkChild, located]
    exact lookup_new sound inKeys located db row fits false c
  have halts : ∀ fk ∈ sc.pFKey t,
      (fk.isDeferred = false ∧ fk.lacks vals sc (db.add t stored) stored = true) →
      ∀ c, checkChild vals sc db fk ((sc.table t).registers vals row) true false none c =
        .error c := by
    intro fk member bad c
    rw [each fk member c, bad.1, bad.2]
    rfl
  have passes : ∀ fk ∈ sc.pFKey t,
      ¬(fk.isDeferred = false ∧ fk.lacks vals sc (db.add t stored) stored = true) →
      ∀ c, ∃ c', checkChild vals sc db fk ((sc.table t).registers vals row) true false none c =
        .ok c' := by
    intro fk member fine c
    rw [each fk member c]
    split
    · rename_i lacks
      cases flag : fk.isDeferred with
      | false => exact absurd ⟨flag, lacks⟩ fine
      | true => exact ⟨_, rfl⟩
    · exact ⟨_, rfl⟩
  obtain ⟨c', halted, same⟩ := foldlM_halts _ halts passes lacking c
  refine ⟨c', ?_, fun none => same ?_⟩
  · unfold sqlite3FkCheck
    rw [halted]
    rfl
  · intro fk member fine c
    rw [each fk member c]
    split
    · rename_i lacks
      cases flag : fk.isDeferred with
      | false => exact absurd ⟨flag, lacks⟩ fine
      | true =>
        rw [none fk member flag] at lacks
        cases lacks
    · rfl

end

end SeSqlite.Fkey
