/- source: src/fkey.c
   digest: What a foreign key demands of the tables, and how one row changes the missing parents. -/
import Mathlib.Data.List.Nodup
import Mathlib.Data.List.Perm.Subperm
import SeSqlite.Fkey.Model

set_option autoImplicit false
set_option relaxedAutoImplicit false

namespace SeSqlite.Fkey

open List

variable {T V A C : Type} [DecidableEq T] [DecidableEq V] [DecidableEq C]

section

variable (vals : Values V A C) (sc : Schema T V A C)

/-- The columns of the key, each with the column of the parent it refers to. -/
def FKey.pairs (fk : FKey T) : List (Nat × Nat) :=
  match fk.aCol with
  | .toPrimary iFrom => iFrom.zip (sc.table fk.zTo).primaryKey
  | .named aCol => aCol

/-- The affinity of the parent column is applied to the child value, and the collating sequence is
that of the parent column; a rowid is compared as an integer. -/
def FKey.matches (fk : FKey T) (j : Nat) (v w : V) : Bool :=
  let parent := sc.table fk.zTo
  if toRowid parent fk.aCol then vals.mustBeInt v == some w
  else vals.equal (parent.zColl vals j) (vals.apply (parent.affinity vals j) v) w

/-- The row `p` is a parent row of `c`. -/
def FKey.refers (fk : FKey T) (c p : Row V) : Bool :=
  (fk.pairs sc).all fun pair => bothEqual (fk.matches vals sc pair.2)
    ((sc.table fk.pFrom).value c pair.1) ((sc.table fk.zTo).value p pair.2)

/-- No column of the key is NULL and there is no parent row. -/
def FKey.lacks (fk : FKey T) (db : Db T V) (c : Row V) : Bool :=
  (fk.aCol.iFrom.all fun i => ((sc.table fk.pFrom).value c i).isSome) &&
    !(db fk.zTo).any (fk.refers vals sc c)

def FKey.violations (fk : FKey T) (db : Db T V) : Nat :=
  (db fk.pFrom).countP (fk.lacks vals sc db)

/-- A value as column `i` of the table can hold it. -/
def Table.Holds (tab : Table V A C) (i : Nat) (v : V) : Prop :=
  if tab.iPKey = some i then vals.mustBeInt v = some v
  else vals.apply (tab.affinity vals i) v = v

/-- The keys of the schema, and the comparisons of their columns, as the checks take them. -/
structure Schema.Sound : Prop where
  whole : ∀ fk ∈ sc.fkeys, ∀ loc, sqlite3FkLocateIndex vals (sc.table fk.zTo) fk.aCol = some loc →
    ∀ idx ∈ loc.pIdx, idx.pPartIdxWhere = none
  located : ∀ fk ∈ sc.fkeys, (sqlite3FkLocateIndex vals (sc.table fk.zTo) fk.aCol).isSome
  distinct_named : ∀ fk ∈ sc.fkeys, ∀ aCol, fk.aCol = .named aCol → (aCol.map Prod.snd).Nodup
  distinct_index : ∀ t, ∀ idx ∈ (sc.table t).pIndex, (idx.aiColumn.map Prod.fst).Nodup
  primary_coll : ∀ t, ∀ idx ∈ (sc.table t).pIndex, idx.primary = true →
    ∀ col ∈ idx.aiColumn, col.2 = (sc.table t).zColl vals col.1
  scan_agrees : ∀ fk ∈ sc.fkeys, ∀ pair ∈ fk.pairs sc, ∀ v w,
    (sc.table fk.pFrom).Holds vals pair.1 v → (sc.table fk.zTo).Holds vals pair.2 w →
      scanEqual vals sc fk pair.1 pair.2 w v = fk.matches vals sc pair.2 v w
  self_agrees : ∀ fk ∈ sc.fkeys, fk.zTo = fk.pFrom → toRowid (sc.table fk.zTo) fk.aCol = false →
    ∀ pair ∈ fk.pairs sc, ∀ v w,
      (sc.table fk.pFrom).Holds vals pair.1 v → (sc.table fk.zTo).Holds vals pair.2 w →
        vals.equal vals.binary v w = fk.matches vals sc pair.2 v w
  raw_agrees : ∀ fk ∈ sc.fkeys, (sc.table fk.pFrom).pIndex = [] → ∀ pair ∈ fk.pairs sc, ∀ v w,
    fk.matches vals sc pair.2 (vals.apply ((sc.table fk.pFrom).affinity vals pair.1) v) w =
      fk.matches vals sc pair.2 v w
  self_primary : ∀ fk ∈ sc.fkeys, fk.zTo = fk.pFrom → (sc.table fk.zTo).withoutRowid = true →
    ∀ idx ∈ (sc.table fk.zTo).pIndex, usable vals (sc.table fk.zTo) fk.aCol idx = true →
      idx.primary = true

/-- The rows of a table: no two clash, and each is as the table holds it. -/
structure Table.Valid (tab : Table V A C) (rows : List (Row V)) : Prop where
  apart : rows.Pairwise fun a b => tab.clash vals a b = false
  fits : ∀ row ∈ rows, tab.fits vals row = true
  stored : ∀ row ∈ rows, tab.store vals row = row

def Db.Valid (db : Db T V) : Prop :=
  ∀ t, (sc.table t).Valid vals (db t)

variable {vals : Values V A C} {tab : Table V A C}

omit [DecidableEq V] in
@[simp] theorem bothEqual_iff {same : V → V → Bool} {a b : Option V} :
    bothEqual same a b = true ↔ ∃ v w, a = some v ∧ b = some w ∧ same v w = true := by
  cases a <;> cases b <;> simp [bothEqual]

omit [DecidableEq V] in
theorem bothEqual_congr {same other : V → V → Bool} {a b : Option V}
    (agree : ∀ v w, a = some v → b = some w → same v w = other v w) :
    bothEqual same a b = bothEqual other a b := by
  cases a with
  | none => rfl
  | some v =>
    cases b with
    | none => rfl
    | some w => exact agree v w rfl rfl

omit [DecidableEq V] [DecidableEq C] in
theorem value_store (row : Row V) (i : Nat) : tab.value (tab.store vals row) i =
      if tab.iPKey = some i then row.rowid
      else (tab.value row i).map (vals.apply (tab.affinity vals i)) := by
  unfold Table.value Table.store
  split
  · rfl
  · simp only [getElem?_mapIdx]
    cases row.data[i]? with
    | none => rfl
    | some v => rfl

omit [DecidableEq V] [DecidableEq C] in
theorem store_store (row : Row V) : tab.store vals (tab.store vals row) = tab.store vals row := by
  unfold Table.store
  simp only [Row.mk.injEq, true_and, mapIdx_mapIdx]
  congr 1
  funext i v
  cases v with
  | none => rfl
  | some v => exact congrArg some (vals.apply_apply _ v)

variable {row : Row V} {i : Nat}

omit [DecidableEq C] in
theorem holds_of_stored {v : V} (fits : tab.fits vals row = true)
    (stored : tab.store vals row = row) (value : tab.value row i = some v) :
    tab.Holds vals i v := by
  unfold Table.Holds
  split
  · rename_i ipk
    have rowid := (tab.ipk_alone (by simp [ipk])).1
    rw [Table.value, if_pos ipk] at value
    simpa [Table.fits, rowid, value] using fits
  · rename_i ipk
    rw [← stored, value_store, if_neg ipk] at value
    obtain ⟨v', -, rfl⟩ := Option.map_eq_some_iff.mp value
    exact vals.apply_apply _ v'

omit [DecidableEq V] [DecidableEq C] in
private theorem sameKey_symm (idx : Index V C) (a b : Row V) :
    tab.sameKey vals idx a b = tab.sameKey vals idx b a := by
  unfold Table.sameKey
  congr 1
  funext col
  have symm : ∀ v w, vals.equal col.2 v w = vals.equal col.2 w v := fun v w =>
    Bool.eq_iff_iff.mpr ⟨(vals.equal_equivalence col.2).symm, (vals.equal_equivalence col.2).symm⟩
  cases tab.value a col.1 <;> cases tab.value b col.1 <;> simp [bothEqual, symm]

omit [DecidableEq C] in
private theorem clash_symm (a b : Row V) : tab.clash vals a b = tab.clash vals b a := by
  have entries : ∀ idx : Index V C, (idx.unique && idx.holds a && idx.holds b) =
      (idx.unique && idx.holds b && idx.holds a) := fun _ => Bool.and_right_comm ..
  unfold Table.clash
  simp [entries, sameKey_symm _ a b, BEq.comm (a := a.rowid)]

omit [DecidableEq V] [DecidableEq C] in
theorem Index.holds_of_whole {idx : Index V C} (whole : idx.pPartIdxWhere = none) (row : Row V) :
    idx.holds row = true := by
  simp [Index.holds, whole]

variable {rows : List (Row V)}

section

omit [DecidableEq C]

theorem Table.Valid.perm {others : List (Row V)} (valid : tab.Valid vals rows)
    (perm : rows.Perm others) : tab.Valid vals others where
  apart := by
    refine (perm.pairwise_iff ?_).mp valid.apart
    intro a b apart
    rwa [clash_symm]
  fits row member := valid.fits row (perm.mem_iff.mpr member)
  stored row member := valid.stored row (perm.mem_iff.mpr member)

theorem Table.Valid.cons (valid : tab.Valid vals rows)
    (fine : tab.conflicts vals rows (tab.store vals row) = false) :
    tab.Valid vals (tab.store vals row :: rows) := by
  rw [Table.conflicts, Bool.or_eq_false_iff, Bool.not_eq_false', any_eq_false] at fine
  refine ⟨pairwise_cons.mpr ⟨?_, valid.apart⟩, ?_, ?_⟩
  · intro other member
    exact Bool.eq_false_iff.mpr (fine.2 other member)
  · rintro other (_ | ⟨_, member⟩)
    · exact fine.1
    · exact valid.fits other member
  · rintro other (_ | ⟨_, member⟩)
    · exact store_store row
    · exact valid.stored other member

theorem Table.Valid.of_cons (valid : tab.Valid vals (row :: rows)) : tab.Valid vals rows where
  apart := (pairwise_cons.mp valid.apart).2
  fits other member := valid.fits other (mem_cons_of_mem _ member)
  stored other member := valid.stored other (mem_cons_of_mem _ member)

end

variable {sc : Schema T V A C} {fk : FKey T} {loc : Located V C} {parent : Table V A C}
  {aCol : List (Nat × Nat)}

omit [DecidableEq V] in
theorem located_cases {cols : KeyColumns}
    (located : sqlite3FkLocateIndex vals parent cols = some loc) :
    (toRowid parent cols = true ∧ loc = ⟨none, cols.iFrom⟩) ∨
      toRowid parent cols = false ∧ ∃ idx ∈ parent.pIndex, usable vals parent cols idx = true ∧
        loc = ⟨some idx, indexColumns cols idx⟩ := by
  unfold sqlite3FkLocateIndex at located
  split at located
  · rename_i rowid
    exact .inl ⟨rowid, (Option.some.inj located).symm⟩
  · rename_i rowid
    obtain ⟨idx, found, rfl⟩ := Option.map_eq_some_iff.mp located
    exact .inr ⟨Bool.eq_false_iff.mpr rowid, idx, mem_of_find?_eq_some found,
      find?_some found, rfl⟩

private theorem childOf_of_mem (distinct : (aCol.map Prod.snd).Nodup) {pair : Nat × Nat}
    (member : pair ∈ aCol) : childOf aCol pair.2 = pair.1 := by
  unfold childOf
  cases found : aCol.find? fun other => other.2 == pair.2 with
  | none =>
    rw [find?_eq_none] at found
    exact absurd (beq_self_eq_true pair.2) (found pair member)
  | some other =>
    have same : other.2 = pair.2 := by simpa using find?_some found
    rw [inj_on_of_nodup_map distinct (mem_of_find?_eq_some found) member same]
    rfl

variable {idx : Index V C}

omit [DecidableEq V] in
private theorem mem_named_iff (distinct : (aCol.map Prod.snd).Nodup)
    (distinctIndex : (idx.aiColumn.map Prod.fst).Nodup)
    (usable_idx : usable vals parent (.named aCol) idx = true) (pair : Nat × Nat) :
    pair ∈ (idx.aiColumn.map Prod.fst).map (fun j => (childOf aCol j, j)) ↔ pair ∈ aCol := by
  simp only [usable, Bool.and_eq_true, beq_iff_eq, all_eq_true, any_eq_true,
    KeyColumns.iFrom] at usable_idx
  obtain ⟨⟨sameLength, -⟩, named⟩ := usable_idx
  have included : idx.aiColumn.map Prod.fst ⊆ aCol.map Prod.snd := by
    intro j member
    obtain ⟨col, colMember, rfl⟩ := mem_map.mp member
    obtain ⟨other, otherMember, same⟩ := (named col colMember).2
    exact mem_map.mpr ⟨other, otherMember, same⟩
  have perm := (subperm_of_subset distinctIndex included).perm_of_length_le (by simp [sameLength])
  rw [mem_map]
  constructor
  · rintro ⟨j, member, rfl⟩
    obtain ⟨other, otherMember, rfl⟩ := mem_map.mp (included member)
    rwa [childOf_of_mem distinct otherMember]
  · intro member
    refine ⟨pair.2, perm.mem_iff.mpr (mem_map_of_mem member), ?_⟩
    rw [childOf_of_mem distinct member]

omit [DecidableEq V] [DecidableEq C] in
theorem primaryKey_of_primary {tab : Table V A C} (member : idx ∈ tab.pIndex)
    (primary : idx.primary = true) : tab.primaryKey = idx.aiColumn.map Prod.fst := by
  have noIpk : tab.iPKey = none := by
    by_contra ipk
    rw [(tab.ipk_alone ipk).2 idx member] at primary
    cases primary
  have found : tab.primaryIndex = some idx := by
    unfold Table.primaryIndex
    cases found : tab.pIndex.find? Index.primary with
    | none =>
      rw [find?_eq_none] at found
      exact absurd primary (found idx member)
    | some other =>
      rw [tab.one_primary other (mem_of_find?_eq_some found) idx member (find?_some found) primary]
  simp [Table.primaryKey, noIpk, found]

omit [DecidableEq T] [DecidableEq V] [DecidableEq C] in
theorem toRowid_pairs (rowid : toRowid (sc.table fk.zTo) fk.aCol = true) :
    ∃ i j, (sc.table fk.zTo).iPKey = some j ∧ fk.aCol.iFrom = [i] ∧ fk.pairs sc = [(i, j)] := by
  unfold FKey.pairs
  cases cols : fk.aCol with
  | toPrimary iFrom =>
    rw [cols] at rowid
    match iFrom, rowid with
    | [i], ipk =>
      obtain ⟨j, ipk⟩ := Option.isSome_iff_exists.mp ipk
      exact ⟨i, j, ipk, rfl, by simp [Table.primaryKey, ipk]⟩
  | named aCol =>
    rw [cols] at rowid
    match aCol, rowid with
    | [(i, j)], ipk => exact ⟨i, j, by simpa [toRowid] using ipk, rfl, rfl⟩

section

variable (sound : sc.Sound vals) (member : fk ∈ sc.fkeys)

include sound member

section

variable (located : sqlite3FkLocateIndex vals (sc.table fk.zTo) fk.aCol = some loc)

include located

omit [DecidableEq T] in
theorem terms_pairs (pair : Nat × Nat) :
    pair ∈ loc.aiCol.zip (loc.parentCols (sc.table fk.zTo)) ↔ pair ∈ fk.pairs sc := by
  obtain ⟨rowid, rfl⟩ | ⟨-, idx, inTable, usable_idx, rfl⟩ := located_cases located
  · obtain ⟨i, j, ipk, iFrom, pairs⟩ := toRowid_pairs rowid
    rw [pairs]
    simp [Located.parentCols, ipk, iFrom]
  · cases cols : fk.aCol with
    | toPrimary iFrom =>
      have primary : idx.primary = true := by
        simp only [usable, cols, Bool.and_eq_true] at usable_idx
        exact usable_idx.2
      simp [Located.parentCols, indexColumns, FKey.pairs, cols,
        primaryKey_of_primary inTable primary]
    | named aCol =>
      rw [cols] at usable_idx
      have mem_iff := mem_named_iff (sound.distinct_named fk member aCol cols)
        (sound.distinct_index _ idx inTable) usable_idx pair
      have terms : (indexColumns (.named aCol) idx).zip (idx.aiColumn.map Prod.fst) =
          (idx.aiColumn.map Prod.fst).map fun j => (childOf aCol j, j) := by
        simp [indexColumns, zip_map', Function.comp_def]
      simpa only [Located.parentCols, terms, FKey.pairs, cols] using mem_iff

omit [DecidableEq T] in
theorem mem_iFrom_iff (i : Nat) : i ∈ fk.aCol.iFrom ↔ i ∈ loc.aiCol := by
  obtain ⟨-, rfl⟩ | ⟨-, idx, inTable, usable_idx, rfl⟩ := located_cases located
  · rfl
  · cases cols : fk.aCol with
    | toPrimary iFrom => rfl
    | named aCol =>
      rw [cols] at usable_idx
      have mem_iff := mem_named_iff (sound.distinct_named fk member aCol cols)
        (sound.distinct_index _ idx inTable) usable_idx
      simp only [KeyColumns.iFrom, indexColumns, mem_map]
      constructor
      · rintro ⟨pair, pairMember, rfl⟩
        obtain ⟨j, jMember, rfl⟩ := mem_map.mp ((mem_iff pair).mpr pairMember)
        obtain ⟨col, colMember, rfl⟩ := mem_map.mp jMember
        exact ⟨col, colMember, rfl⟩
      · rintro ⟨col, colMember, rfl⟩
        refine ⟨(childOf aCol col.1, col.1), (mem_iff _).mp ?_, rfl⟩
        exact mem_map_of_mem (mem_map_of_mem colMember)

omit located in
omit [DecidableEq T] in
private theorem exists_pair {i : Nat} (key : i ∈ fk.aCol.iFrom) : ∃ j, (i, j) ∈ fk.pairs sc := by
  obtain ⟨loc, located⟩ := Option.isSome_iff_exists.mp (sound.located fk member)
  cases cols : fk.aCol with
  | named aCol =>
    rw [cols, KeyColumns.iFrom, mem_map] at key
    obtain ⟨pair, pairMember, rfl⟩ := key
    exact ⟨pair.2, by rwa [FKey.pairs, cols]⟩
  | toPrimary iFrom =>
    obtain ⟨rowid, -⟩ | ⟨-, idx, inTable, usable_idx, -⟩ := located_cases located
    · obtain ⟨i', j, -, iFrom', pairs⟩ := toRowid_pairs rowid
      rw [iFrom', mem_singleton] at key
      exact ⟨j, by rw [pairs, key]; exact mem_singleton_self _⟩
    · simp only [usable, cols, KeyColumns.iFrom, Bool.and_eq_true, beq_iff_eq] at usable_idx
      rw [cols, KeyColumns.iFrom] at key
      have fst : (fk.pairs sc).map Prod.fst = iFrom := by
        rw [FKey.pairs, cols]
        simp only [primaryKey_of_primary inTable usable_idx.2]
        exact map_fst_zip (by simp [usable_idx.1.1])
      rw [← fst, mem_map] at key
      obtain ⟨pair, pairMember, rfl⟩ := key
      exact ⟨pair.2, pairMember⟩

omit [DecidableEq T] in
theorem exists_pair_of_index (isIdx : loc.pIdx = some idx) {col : Nat × C}
    (column : col ∈ idx.aiColumn) :
    (∃ i, (i, col.1) ∈ fk.pairs sc) ∧ col.2 = (sc.table fk.zTo).zColl vals col.1 := by
  obtain ⟨-, rfl⟩ | ⟨-, idx', inTable, usable_idx, rfl⟩ := located_cases located
  · cases isIdx
  · obtain rfl := Option.some.inj isIdx
    have sameLength : idx'.aiColumn.length = (indexColumns fk.aCol idx').length := by
      simp only [usable, Bool.and_eq_true] at usable_idx
      cases cols : fk.aCol with
      | toPrimary iFrom => simpa [cols, KeyColumns.iFrom, indexColumns] using usable_idx.1.1
      | named aCol => simp [indexColumns]
    have snd : ((indexColumns fk.aCol idx').zip (idx'.aiColumn.map Prod.fst)).map Prod.snd =
        idx'.aiColumn.map Prod.fst := map_snd_zip (by simp [sameLength])
    have paired : col.1 ∈ idx'.aiColumn.map Prod.fst := mem_map_of_mem column
    rw [← snd, mem_map] at paired
    obtain ⟨pair, pairMember, same⟩ := paired
    refine ⟨⟨pair.1, ?_⟩, ?_⟩
    · rw [← same]
      exact (terms_pairs sound member located pair).mp pairMember
    · cases cols : fk.aCol with
      | toPrimary iFrom =>
        simp only [usable, cols, Bool.and_eq_true] at usable_idx
        exact sound.primary_coll _ idx' inTable usable_idx.2 col column
      | named aCol =>
        simp only [usable, cols, Bool.and_eq_true, all_eq_true, beq_iff_eq] at usable_idx
        exact (usable_idx.2 col column).1

end

omit [DecidableEq T] in
private theorem clash_of_refers {c p q : Row V} (first : fk.refers vals sc c p = true)
    (second : fk.refers vals sc c q = true) : (sc.table fk.zTo).clash vals p q = true := by
  obtain ⟨loc, located⟩ := Option.isSome_iff_exists.mp (sound.located fk member)
  simp only [FKey.refers, all_eq_true, bothEqual_iff] at first second
  simp only [Table.clash, Bool.or_eq_true, Bool.and_eq_true, Bool.not_eq_true', beq_iff_eq,
    any_eq_true]
  have cases := located_cases located
  obtain ⟨rowid, rfl⟩ | ⟨rowid, idx, inTable, usable_idx, rfl⟩ := cases
  · obtain ⟨i, j, ipk, -, pairs⟩ := toRowid_pairs rowid
    obtain ⟨v, w, child, parent, same⟩ := first (i, j) (by simp [pairs])
    obtain ⟨v', w', child', parent', same'⟩ := second (i, j) (by simp [pairs])
    simp only [FKey.matches, rowid, if_true, beq_iff_eq] at same same'
    cases child.symm.trans child'
    cases same.symm.trans same'
    simp only [Table.value, ipk] at parent parent'
    exact .inl ⟨((sc.table fk.zTo).ipk_alone (by simp [ipk])).1, parent.trans parent'.symm⟩
  · have unique : idx.unique = true := by
      simp only [usable, Bool.and_eq_true] at usable_idx
      exact usable_idx.1.2
    have holds := Index.holds_of_whole (sound.whole fk member _ located idx rfl)
    refine .inr ⟨idx, inTable, ⟨⟨unique, holds p⟩, holds q⟩, ?_⟩
    simp only [Table.sameKey, all_eq_true, bothEqual_iff]
    intro col column
    obtain ⟨⟨i, pair⟩, coll⟩ := exists_pair_of_index sound member located rfl column
    obtain ⟨v, w, child, parent, same⟩ := first _ pair
    obtain ⟨v', w', child', parent', same'⟩ := second _ pair
    cases child.symm.trans child'
    simp only [FKey.matches, rowid] at same same'
    rw [← coll] at same same'
    have equivalence := vals.equal_equivalence col.2
    exact ⟨w, w', parent, parent', equivalence.trans (equivalence.symm same) same'⟩

end

private theorem countP_add {α : Type} {f g h : α → Bool} {l : List α}
    (pointwise : ∀ x ∈ l, (f x).toNat + (g x).toNat = (h x).toNat) :
    l.countP f + l.countP g = l.countP h := by
  induction l with
  | nil => rfl
  | cons x l ih =>
    have head := pointwise x mem_cons_self
    have tail := ih fun y member => pointwise y (mem_cons_of_mem _ member)
    have count : ∀ k : α → Bool, (x :: l).countP k = l.countP k + (k x).toNat := by
      intro k
      rw [countP_cons]
      cases k x <;> rfl
    rw [count, count, count]
    omega

omit [DecidableEq T] in
private theorem nonNull_of_refers (sound : sc.Sound vals) (member : fk ∈ sc.fkeys) {c p : Row V}
    (refers : fk.refers vals sc c p = true) (key : i ∈ fk.aCol.iFrom) :
    ((sc.table fk.pFrom).value c i).isSome = true := by
  obtain ⟨j, pair⟩ := exists_pair sound member key
  simp only [FKey.refers, all_eq_true, bothEqual_iff] at refers
  obtain ⟨v, w, child, -, -⟩ := refers _ pair
  simp [child]

omit [DecidableEq V] in
theorem Db.add_same (db : Db T V) (t : T) (row : Row V) : db.add t row t = row :: db t := by
  simp [Db.add]

omit [DecidableEq V] in
theorem Db.add_other (db : Db T V) {t u : T} (row : Row V) (other : u ≠ t) :
    db.add t row u = db u := by
  simp [Db.add, other]

section

variable {db : Db T V} {t : T} {r : Row V} (sound : sc.Sound vals) (member : fk ∈ sc.fkeys)
  (apart : ∀ p ∈ db t, (sc.table t).clash vals r p = false)

include sound member apart

theorem violations_of_rest (rows : List (Row V)) : rows.countP (fk.lacks vals sc (db.add t r)) +
        (if fk.zTo = t then rows.countP fun c => fk.refers vals sc c r else 0) =
      rows.countP (fk.lacks vals sc db) := by
  by_cases to_t : fk.zTo = t
  · subst to_t
    rw [if_pos rfl]
    apply countP_add
    intro c _
    simp only [FKey.lacks, Db.add_same, any_cons]
    cases refers : fk.refers vals sc c r with
    | false => simp
    | true =>
      have nonNull := all_eq_true.mpr fun i key => nonNull_of_refers sound member refers key
      have none : (db fk.zTo).any (fk.refers vals sc c) = false := by
        rw [any_eq_false]
        intro p parent also
        have clash := clash_of_refers sound member refers also
        rw [apart p parent] at clash
        cases clash
      simp [nonNull, none]
  · simp only [if_neg to_t, Nat.add_zero]
    congr 1
    funext c
    simp [FKey.lacks, Db.add_other db r to_t]

theorem violations_add : fk.violations vals sc (db.add t r) +
        (if fk.zTo = t then (db fk.pFrom).countP fun c => fk.refers vals sc c r else 0) =
      fk.violations vals sc db +
        (if fk.pFrom = t then (fk.lacks vals sc (db.add t r) r).toNat else 0) := by
  have rest := violations_of_rest sound member apart (db fk.pFrom)
  unfold FKey.violations
  by_cases from_t : fk.pFrom = t
  · rw [if_pos from_t, ← rest]
    conv_lhs => rw [show db.add t r fk.pFrom = r :: db fk.pFrom by rw [from_t, Db.add_same]]
    rw [countP_cons]
    cases fk.lacks vals sc (db.add t r) r
    · simp
    · simp only [if_true, Bool.toNat_true]
      omega
  · rw [if_neg from_t, Db.add_other db r from_t, ← rest, Nat.add_zero]

end

end

end SeSqlite.Fkey
