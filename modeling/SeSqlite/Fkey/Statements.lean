/- source: src/fkey.c, src/insert.c, src/update.c, src/delete.c
   digest: What a statement does to the tables, and that its counters follow the missing parents. -/
import SeSqlite.Fkey.Counters

set_option autoImplicit false
set_option relaxedAutoImplicit false

namespace SeSqlite.Fkey

open List Function

variable {T V A C : Type} [DecidableEq T] [DecidableEq V] [DecidableEq C]

section

variable (vals : Values V A C) (sc : Schema T V A C)

/-- Some row lacks its parent row for a key that is deferred, or for one that is not. -/
def Violated (db : Db T V) (isDeferred : Bool) : Prop :=
  ∃ fk ∈ sc.fkeys, fk.isDeferred = isDeferred ∧ ∃ c ∈ db fk.pFrom, fk.lacks vals sc db c = true

instance (db : Db T V) (d : Bool) : Decidable (Violated vals sc db d) :=
  inferInstanceAs (Decidable (∃ fk ∈ sc.fkeys, fk.isDeferred = d ∧
    ∃ c ∈ db fk.pFrom, fk.lacks vals sc db c = true))

/-- The content after one row change made without a look at the foreign keys; `none` if another
constraint stands against it. -/
def effect (t : T) (db : Db T V) : Change V → Option (Db T V)
  | .refused => none
  | .insert row =>
    let stored := (sc.table t).store vals row
    if (sc.table t).conflicts vals (db t) stored then none else some (db.add t stored)
  | .delete row => some (if row ∈ db t then db.remove t row else db)
  | .update old new ch =>
    let stored := (sc.table t).store vals (ch.merge old new)
    if old ∈ db t then
      if (sc.table t).conflicts vals (db.remove t old t) stored then none
      else some ((db.remove t old).add t stored)
    else some db

def effects (t : T) (onError : OnError) (db : Db T V) : List (Change V) → Db T V × Stop
  | [] => (db, .done)
  | change :: rest =>
    match effect vals sc t db change with
    | some db => effects t onError db rest
    | none => if onError = .ignore then effects t onError db rest else (db, .conflict)

def Statement.after (db : Db T V) : Statement T V → Db T V × Stop
  | .insertRow t row onError => effects vals sc t onError db [.insert row]
  | .rows t changes onError => effects vals sc t onError db changes

/-- The changes up to the end are kept unless a foreign key is found. -/
def Statement.Finishes (db : Db T V) (s : Statement T V) : Prop :=
  (s.after vals sc db).2 = .done ∨ s.onError = .fail

def missing (db : Db T V) (d : Bool) : Int :=
  total sc.fkeys (fun fk => (fk.violations vals sc db : Int)) d

end

variable {vals : Values V A C} {sc : Schema T V A C} {fk : FKey T}
variable {db without other : Db T V} {t : T} {row old new stored : Row V} {ch : Changed}
  {c : Counters} {tab : Table V A C} {i : Nat} {d : Bool}

section

omit [DecidableEq T] [DecidableEq C]

theorem missing_nonneg (vals : Values V A C) (sc : Schema T V A C) (db : Db T V)
    (d : Bool) : 0 ≤ missing vals sc db d :=
  total_nonneg (fun fk _ => Int.natCast_nonneg (fk.violations vals sc db)) d

theorem missing_pos_iff (db : Db T V) (d : Bool) :
    0 < missing vals sc db d ↔ Violated vals sc db d := by
  unfold missing Violated
  induction sc.fkeys with
  | nil => simp [total]
  | cons fk keys ih =>
    have rest : 0 ≤ total keys (fun fk => (fk.violations vals sc db : Int)) d :=
      total_nonneg (fun fk _ => Int.natCast_nonneg (fk.violations vals sc db)) d
    have own : 0 < fk.violations vals sc db ↔ ∃ c ∈ db fk.pFrom, fk.lacks vals sc db c = true :=
      countP_pos_iff
    rw [total_cons, exists_mem_cons_iff, ← ih, ← own]
    split
    · rename_i flag
      simp only [flag, true_and]
      omega
    · rename_i flag
      simp [flag]

theorem missing_eq_zero_iff (db : Db T V) (d : Bool) :
    missing vals sc db d = 0 ↔ ¬Violated vals sc db d := by
  rw [← missing_pos_iff]
  have nonneg := missing_nonneg vals sc db d
  omega

private theorem lacks_perm (vals : Values V A C) (sc : Schema T V A C) (fk : FKey T)
    (perm : ∀ u, (db u).Perm (other u)) (row : Row V) :
    fk.lacks vals sc db row = fk.lacks vals sc other row := by
  unfold FKey.lacks
  congr 2
  rw [Bool.eq_iff_iff, any_eq_true, any_eq_true]
  simp [(perm fk.zTo).mem_iff]

private theorem violations_perm (vals : Values V A C) (sc : Schema T V A C) (fk : FKey T)
    (perm : ∀ u, (db u).Perm (other u)) :
    fk.violations vals sc db = fk.violations vals sc other := by
  unfold FKey.violations
  rw [(perm fk.pFrom).countP_eq]
  congr 1
  funext row
  exact lacks_perm vals sc fk perm row

end

private theorem remove_add_perm (present : row ∈ db t) (u : T) :
    (db u).Perm ((db.remove t row).add t row u) := by
  by_cases same : u = t
  · subst same
    rw [Db.add_same, Db.remove, update_self]
    exact perm_cons_erase present
  · rw [Db.add_other _ _ same, Db.remove, update_of_ne same]

section

omit [DecidableEq C]

private theorem Db.Valid.remove (valid : db.Valid vals sc) (t : T) (row : Row V) :
    (db.remove t row).Valid vals sc := by
  intro u
  by_cases same : u = t
  · subst same
    rw [Db.remove, update_self]
    by_cases present : row ∈ db u
    · exact ((valid u).perm (perm_cons_erase present)).of_cons
    · rw [erase_of_not_mem present]
      exact valid u
  · rw [Db.remove, update_of_ne same]
    exact valid u

theorem Db.Valid.add (valid : db.Valid vals sc)
    (fine : (sc.table t).conflicts vals (db t) ((sc.table t).store vals row) = false) :
    (db.add t ((sc.table t).store vals row)).Valid vals sc := by
  intro u
  by_cases same : u = t
  · subst same
    rw [Db.add_same]
    exact (valid u).cons fine
  · rw [Db.add_other _ _ same]
    exact valid u

private theorem apart_of_present (valid : db.Valid vals sc) (present : row ∈ db t) :
    ∀ p ∈ db.remove t row t, (sc.table t).clash vals row p = false := by
  intro p member
  rw [Db.remove, update_self] at member
  exact rel_of_pairwise_cons
    ((valid t).perm (perm_cons_erase present)).apart member

theorem apart_of_fine {rows : List (Row V)} (fine : tab.conflicts vals rows row = false) :
    tab.fits vals row = true ∧ ∀ p ∈ rows, tab.clash vals row p = false := by
  rw [Table.conflicts, Bool.or_eq_false_iff, Bool.not_eq_false', any_eq_false] at fine
  exact ⟨fine.1, fun p member => Bool.eq_false_iff.mpr (fine.2 p member)⟩

private theorem parts_none (vals : Values V A C) (sc : Schema T V A C) (fk : FKey T) (t : T)
    (db other : Db T V) (row : Row V) : childPart vals sc t none db row fk =
        ((if fk.pFrom = t then (fk.lacks vals sc db row).toNat else 0 : Nat) : Int) ∧
      parentPart vals sc t none other row fk =
        ((if fk.zTo = t then
          (other fk.pFrom).countP fun c => fk.refers vals sc c row else 0 : Nat) :
          Int) := by
  unfold childPart parentPart skipsChild skipsParent
  simp only [Option.any_none, and_true]
  constructor <;> split <;> simp

end

private theorem violations_insert (sound : sc.Sound vals) (member : fk ∈ sc.fkeys)
    (apart : ∀ p ∈ db t, (sc.table t).clash vals row p = false) :
    (fk.violations vals sc (db.add t row) : Int) + parentPart vals sc t none db row fk =
      fk.violations vals sc db + childPart vals sc t none (db.add t row) row fk := by
  have parts := parts_none vals sc fk t (db.add t row) db row
  have added := violations_add sound member apart
  rw [parts.1, parts.2]
  exact_mod_cast added

private theorem violations_delete (sound : sc.Sound vals) (member : fk ∈ sc.fkeys)
    (valid : db.Valid vals sc) (present : row ∈ db t) :
    (fk.violations vals sc db : Int) + parentPart vals sc t none (db.remove t row) row fk =
      fk.violations vals sc (db.remove t row) + childPart vals sc t none db row fk := by
  have added := violations_insert sound member (apart_of_present valid present)
  have same := violations_perm vals sc fk (remove_add_perm present)
  have lacks := lacks_perm vals sc fk (remove_add_perm present) row
  rw [← same] at added
  rw [added, childPart, childPart, lacks]

omit [DecidableEq C] in
private theorem childPart_le (t : T) (aChange : Option Changed) (present : row ∈ db t)
    (fk : FKey T) :
    childPart vals sc t aChange db row fk ≤ fk.violations vals sc db := by
  unfold childPart
  split
  · rename_i own
    cases lacks : fk.lacks vals sc db row with
    | false => simp
    | true =>
      have : 0 < fk.violations vals sc db :=
        countP_pos_iff.mpr ⟨row, own.1 ▸ present, lacks⟩
      simp only [Bool.toNat_true]
      omega
  · omega

omit [DecidableEq V] [DecidableEq C] in
private theorem value_merge (stored : tab.store vals old = old) (same : ch.column tab i = false) :
    tab.value (tab.store vals (ch.merge old new)) i = tab.value old i := by
  simp only [Changed.column, Bool.or_eq_false_iff] at same
  rw [value_store]
  split
  · rename_i ipk
    have rowid : ch.chngRowid = false := by simpa [ipk] using same.2
    simp [Table.value, ipk, Changed.merge, rowid]
  · rename_i ipk
    rw [← stored, value_store, if_neg ipk, stored]
    rw [Table.value, if_neg ipk, Table.value, if_neg ipk]
    simp only [Changed.merge, getElem?_mapIdx]
    cases old.data[i]? with
    | none => rfl
    | some v =>
      rw [same.1]
      rfl

omit [DecidableEq T] [DecidableEq C] in
private theorem refers_update (new : Row V) (stored : (sc.table fk.zTo).store vals old = old)
    (skip : skipsParent sc fk (some ch) = true) (c : Row V) :
    fk.refers vals sc c ((sc.table fk.zTo).store vals (ch.merge old new)) =
      fk.refers vals sc c old := by
  apply all_congr_mem fun _ => Iff.rfl
  intro pair pairMember
  have unchanged : ch.column (sc.table fk.zTo) pair.2 = false := by
    simp only [skipsParent, Option.any_some, Bool.not_eq_true', fkParentIsModified] at skip
    cases cols : fk.aCol with
    | toPrimary iFrom =>
      simp only [cols, any_eq_false] at skip
      rw [FKey.pairs, cols] at pairMember
      exact Bool.eq_false_iff.mpr (skip pair.2 (of_mem_zip pairMember).2)
    | named aCol =>
      simp only [cols, any_eq_false] at skip
      rw [FKey.pairs, cols] at pairMember
      exact Bool.eq_false_iff.mpr (skip pair pairMember)
  rw [value_merge stored unchanged]

omit [DecidableEq T] [DecidableEq V] [DecidableEq C] in
private theorem mem_iFrom_of_pair {pair : Nat × Nat} (pairMember : pair ∈ fk.pairs sc) :
    pair.1 ∈ fk.aCol.iFrom := by
  unfold FKey.pairs at pairMember
  cases cols : fk.aCol with
  | toPrimary iFrom =>
    rw [cols] at pairMember
    exact (of_mem_zip pairMember).1
  | named aCol =>
    rw [cols] at pairMember
    exact mem_map_of_mem pairMember

omit [DecidableEq T] [DecidableEq V] [DecidableEq C] in
private theorem value_child (stored : (sc.table fk.pFrom).store vals old = old)
    (unmodified : fkChildIsModified sc fk ch = false) (key : i ∈ fk.aCol.iFrom) :
    (sc.table fk.pFrom).value ((sc.table fk.pFrom).store vals (ch.merge old new)) i =
      (sc.table fk.pFrom).value old i := by
  rw [fkChildIsModified, any_eq_false] at unmodified
  exact value_merge stored (Bool.eq_false_iff.mpr (unmodified i key))

omit [DecidableEq C] in
/-- An UPDATE that leaves the child columns alone, and the parent columns if they are in the same
table, leaves the row with or without its parent. -/
theorem lacks_update (own : fk.pFrom = t) (stored : (sc.table t).store vals old = old)
    (unmodified : fkChildIsModified sc fk ch = false)
    (parents : fk.zTo = t → skipsParent sc fk (some ch) = true) :
    fk.lacks vals sc (without.add t ((sc.table t).store vals (ch.merge old new)))
        ((sc.table t).store vals (ch.merge old new)) =
      fk.lacks vals sc (without.add t old) old := by
  subst own
  have child : ∀ p, fk.refers vals sc ((sc.table fk.pFrom).store vals (ch.merge old new)) p =
      fk.refers vals sc old p := by
    intro p
    apply all_congr_mem fun _ => Iff.rfl
    intro pair pairMember
    rw [value_child stored unmodified (mem_iFrom_of_pair pairMember)]
  unfold FKey.lacks
  congr 1
  · apply all_congr_mem fun _ => Iff.rfl
    intro i key
    rw [value_child stored unmodified key]
  · rw [funext child]
    by_cases self : fk.zTo = fk.pFrom
    · rw [self, Db.add_same, Db.add_same, any_cons, any_cons]
      have parent := refers_update new (self ▸ stored) (parents self) old
      rw [self] at parent
      rw [parent]
    · rw [Db.add_other _ _ self, Db.add_other _ _ self]

private theorem violations_update (sound : sc.Sound vals) (member : fk ∈ sc.fkeys)
    (valid : db.Valid vals sc) (present : old ∈ db t) (without_eq : db.remove t old = without)
    (stored_eq : (sc.table t).store vals (ch.merge old new) = stored)
    (fine : (sc.table t).conflicts vals (without t) stored = false) :
    (fk.violations vals sc (without.add t stored) : Int) +
        parentPart vals sc t (some ch) without stored fk =
      fk.violations vals sc db - childPart vals sc t (some ch) db old fk +
        parentPart vals sc t (some ch) without old fk +
          childPart vals sc t (some ch) (without.add t stored) stored fk := by
  have held := (valid t).stored old present
  have removed := without_eq ▸ violations_delete sound member valid present
  have added := violations_insert sound member (apart_of_fine fine).2
  -- where a loop passes over the key, its two counts would have been the same
  have childSame : childPart vals sc t (some ch) (without.add t stored) stored fk +
        childPart vals sc t none db old fk =
      childPart vals sc t none (without.add t stored) stored fk +
        childPart vals sc t (some ch) db old fk := by
    by_cases skip : fk.pFrom = t ∧ skipsChild sc fk (some ch) = true
    · have modified := skip.2
      simp only [skipsChild, Option.any_some, Bool.and_eq_true, bne_iff_ne,
        Bool.not_eq_true'] at modified
      have lacks : fk.lacks vals sc (without.add t stored) stored = fk.lacks vals sc db old := by
        rw [lacks_perm vals sc fk (remove_add_perm present), without_eq, ← stored_eq]
        exact lacks_update skip.1 held modified.2
          fun self => absurd (skip.1.trans self.symm) modified.1
      simp only [childPart, lacks]
      omega
    · have count : ∀ (db : Db T V) (row : Row V), childPart vals sc t (some ch) db row fk =
          childPart vals sc t none db row fk := by
        intro db row
        by_cases own : fk.pFrom = t
        · simp only [own, true_and, Bool.not_eq_true] at skip
          rw [childPart, childPart, if_pos ⟨own, skip⟩, if_pos ⟨own, rfl⟩]
        · simp [childPart, own]
      rw [count, count]
  have parentSame : parentPart vals sc t (some ch) without stored fk +
        parentPart vals sc t none without old fk =
      parentPart vals sc t none without stored fk +
        parentPart vals sc t (some ch) without old fk := by
    by_cases skip : fk.zTo = t ∧ skipsParent sc fk (some ch) = true
    · obtain ⟨rfl, skip⟩ := skip
      simp only [parentPart, ← stored_eq, refers_update new held skip]
      omega
    · have count : ∀ row : Row V, parentPart vals sc t (some ch) without row fk =
          parentPart vals sc t none without row fk := by
        intro row
        by_cases own : fk.zTo = t
        · simp only [own, true_and, Bool.not_eq_true] at skip
          rw [parentPart, parentPart, if_pos ⟨own, skip⟩, if_pos ⟨own, rfl⟩]
        · simp [parentPart, own]
      rw [count, count]
  omega

def Counted (vals : Values V A C) (sc : Schema T V A C) (vm : Vm T V) : Prop :=
  ∀ d, vm.counters.get d = missing vals sc vm.db d

section

variable {vm : Vm T V} (sound : sc.Sound vals)

include sound

section

variable (valid : db.Valid vals sc)

include valid

private theorem insert_counted
    (fine : (sc.table t).conflicts vals (db t) ((sc.table t).store vals row) = false)
    (counted : Counted vals sc ⟨db, c⟩) :
    ∃ c', sqlite3FkCheck vals sc db t ((sc.table t).registers vals row) true true none c = .ok c' ∧
      Counted vals sc ⟨db.add t ((sc.table t).store vals row), c'⟩ := by
  obtain ⟨fits, apart⟩ := apart_of_fine fine
  set stored := (sc.table t).store vals row with stored_eq
  have sums : ∀ d, missing vals sc (db.add t stored) d +
        total sc.fkeys (parentPart vals sc t none db stored) d =
      missing vals sc db d +
        total sc.fkeys (childPart vals sc t none (db.add t stored) stored) d := by
    intro d
    unfold missing
    rw [total_add, total_add]
    exact total_congr (fun fk member => violations_insert sound member apart) d
  obtain ⟨c', checked, get⟩ := fkCheck_new sound valid stored_eq.symm fits none true (.inl rfl) c
    (by
    intro d
    have sum := sums d
    have now : c.get d = missing vals sc db d := counted d
    have rest := missing_nonneg vals sc (db.add t stored) d
    rw [scanPart_multi]
    omega)
  refine ⟨c', checked, fun d => ?_⟩
  have sum := sums d
  have now : c.get d = missing vals sc db d := counted d
  have result := get d
  rw [scanPart_multi] at result
  change c'.get d = missing vals sc (db.add t stored) d
  omega

private theorem delete_counted (present : row ∈ db t) (counted : Counted vals sc ⟨db, c⟩) :
    ∃ c', sqlite3FkCheck vals sc db t row false true none c = .ok c' ∧
      Counted vals sc ⟨db.remove t row, c'⟩ := by
  obtain ⟨c', checked, get⟩ := fkCheck_old sound valid present none c (by
    intro d
    rw [show c.get d = missing vals sc db d from counted d]
    exact total_le (fun fk _ => childPart_le t none present fk) d)
  refine ⟨c', checked, fun d => ?_⟩
  have sum : missing vals sc db d +
        total sc.fkeys (parentPart vals sc t none (db.remove t row) row) d =
      missing vals sc (db.remove t row) d +
        total sc.fkeys (childPart vals sc t none db row) d := by
    unfold missing
    rw [total_add, total_add]
    exact total_congr (fun fk member => violations_delete sound member valid present) d
  have now : c.get d = missing vals sc db d := counted d
  change c'.get d = missing vals sc (db.remove t row) d
  rw [get d]
  omega

private theorem update_counted (present : old ∈ db t) (without_eq : db.remove t old = without)
    (stored_eq : (sc.table t).store vals (ch.merge old new) = stored)
    (fine : (sc.table t).conflicts vals (without t) stored = false)
    (counted : Counted vals sc ⟨db, c⟩) :
    ∃ c' c'', sqlite3FkCheck vals sc db t old false true (some ch) c = .ok c' ∧
      sqlite3FkCheck vals sc without t ((sc.table t).registers vals (ch.merge old new))
        true true (some ch) c' = .ok c'' ∧
      Counted vals sc ⟨without.add t stored, c''⟩ := by
  obtain ⟨fits, apart⟩ := apart_of_fine fine
  obtain ⟨c', checked, get⟩ := fkCheck_old sound valid present (some ch) c (by
    intro d
    rw [show c.get d = missing vals sc db d from counted d]
    exact total_le (fun fk _ => childPart_le t (some ch) present fk) d)
  rw [without_eq] at get
  have sums : ∀ d, missing vals sc (without.add t stored) d +
        total sc.fkeys (parentPart vals sc t (some ch) without stored) d =
      c'.get d +
        total sc.fkeys (childPart vals sc t (some ch) (without.add t stored) stored) d := by
    intro d
    have now : c.get d = missing vals sc db d := counted d
    have sum : missing vals sc (without.add t stored) d +
          total sc.fkeys (parentPart vals sc t (some ch) without stored) d +
            total sc.fkeys (childPart vals sc t (some ch) db old) d =
        missing vals sc db d + total sc.fkeys (parentPart vals sc t (some ch) without old) d +
          total sc.fkeys (childPart vals sc t (some ch) (without.add t stored) stored) d := by
      unfold missing
      rw [total_add, total_add, total_add, total_add]
      apply total_congr
      intro fk member
      have change := violations_update sound member valid present without_eq stored_eq fine
      omega
    rw [get d]
    omega
  have validWithout : without.Valid vals sc := without_eq ▸ valid.remove t old
  obtain ⟨c'', checked', get'⟩ := fkCheck_new sound validWithout stored_eq fits
    (some ch) true (.inl rfl) c' (by
      intro d
      have sum := sums d
      have rest := missing_nonneg vals sc (without.add t stored) d
      rw [scanPart_multi]
      omega)
  refine ⟨c', c'', checked, checked', fun d => ?_⟩
  have sum := sums d
  have result := get' d
  rw [scanPart_multi] at result
  change c''.get d = missing vals sc (without.add t stored) d
  omega

private theorem update_unrelated (present : old ∈ db t) (without_eq : db.remove t old = without)
    (stored_eq : (sc.table t).store vals (ch.merge old new) = stored)
    (fine : (sc.table t).conflicts vals (without t) stored = false)
    (unrelated : sqlite3FkRequired sc t ch = false) (d : Bool) :
    missing vals sc (without.add t stored) d = missing vals sc db d := by
  have held := (valid t).stored old present
  simp only [sqlite3FkRequired, Bool.or_eq_false_iff, any_eq_false, Schema.pFKey,
    sqlite3FkReferences, mem_filter, beq_iff_eq, and_imp] at unrelated
  apply total_congr
  intro fk member
  have change := violations_update sound member valid present without_eq stored_eq fine
  have parent : fk.zTo = t → skipsParent sc fk (some ch) = true := by
    intro own
    simpa [skipsParent] using unrelated.2 fk member own
  have parentPart_zero : ∀ (db : Db T V) (row : Row V),
      parentPart vals sc t (some ch) db row fk = 0 := by
    intro db row
    by_cases own : fk.zTo = t
    · exact parentPart_skip (parent own) db row
    · simp [parentPart, own]
  have childSame : childPart vals sc t (some ch) (without.add t stored) stored fk =
      childPart vals sc t (some ch) db old fk := by
    by_cases own : fk.pFrom = t
    · have unmodified := Bool.eq_false_iff.mpr (unrelated.1 fk member own)
      rw [childPart, childPart, ← stored_eq, lacks_update own held unmodified parent,
        lacks_perm vals sc fk (remove_add_perm present), without_eq]
    · simp [childPart, own]
  rw [parentPart_zero, parentPart_zero] at change
  omega

end

private theorem makeChange_rows (valid : vm.db.Valid vals sc) (counted : Counted vals sc vm) (t : T)
    (change : Change V) :
    (effect vals sc t vm.db change = none ∧ makeChange vals sc t true vm change = .conflict) ∨
      ∃ next, effect vals sc t vm.db change = some next.db ∧
        makeChange vals sc t true vm change = .made next ∧ next.db.Valid vals sc ∧
          Counted vals sc next := by
  obtain ⟨db, c⟩ := vm
  cases change with
  | refused => exact .inl ⟨rfl, rfl⟩
  | insert row =>
    simp only [effect, makeChange]
    cases fine : (sc.table t).conflicts vals (db t) ((sc.table t).store vals row) with
    | true => exact .inl ⟨rfl, rfl⟩
    | false =>
      obtain ⟨c', checked, counted'⟩ := insert_counted sound valid fine counted
      rw [checked]
      exact .inr ⟨⟨_, c'⟩, rfl, rfl, valid.add fine, counted'⟩
  | delete row =>
    simp only [effect, makeChange]
    by_cases present : row ∈ db t
    · obtain ⟨c', checked, counted'⟩ := delete_counted sound valid present counted
      rw [if_pos present, if_pos present, checked]
      exact .inr ⟨⟨_, c'⟩, rfl, rfl, valid.remove t row, counted'⟩
    · rw [if_neg present, if_neg present]
      exact .inr ⟨⟨db, c⟩, rfl, rfl, valid, counted⟩
  | update old new ch =>
    simp only [effect, makeChange]
    by_cases present : old ∈ db t
    · rw [if_pos present, if_pos present]
      cases fine : (sc.table t).conflicts vals (db.remove t old t)
          ((sc.table t).store vals (ch.merge old new)) with
      | true => exact .inl ⟨rfl, rfl⟩
      | false =>
        have valid' := (valid.remove t old).add fine
        cases required : sqlite3FkRequired sc t ch with
        | true =>
          obtain ⟨c', c'', checked, checked', counted'⟩ :=
            update_counted sound valid present rfl rfl fine counted
          refine .inr ⟨⟨_, c''⟩, rfl, ?_, valid', counted'⟩
          simp only [checked]
          change Ended.of _ (sqlite3FkCheck _ _ _ _ _ _ _ _ _) = _
          rw [checked']
          rfl
        | false =>
          refine .inr ⟨⟨_, c⟩, rfl, rfl, valid', fun d => ?_⟩
          exact (counted d).trans
            (update_unrelated sound valid present rfl rfl fine required d).symm
    · rw [if_neg present, if_neg present]
      exact .inr ⟨⟨db, c⟩, rfl, rfl, valid, counted⟩

/-- A statement that may write several rows never halts on its way, and its counters are right at
the end. -/
theorem runChanges_rows (valid : vm.db.Valid vals sc) (counted : Counted vals sc vm) (t : T)
    (onError : OnError) (changes : List (Change V)) :
    ∃ c, runChanges vals sc t true onError vm changes =
        (⟨(effects vals sc t onError vm.db changes).1, c⟩,
          (effects vals sc t onError vm.db changes).2) ∧
      (effects vals sc t onError vm.db changes).1.Valid vals sc ∧
        Counted vals sc ⟨(effects vals sc t onError vm.db changes).1, c⟩ := by
  induction changes generalizing vm with
  | nil => exact ⟨vm.counters, rfl, valid, counted⟩
  | cons change rest ih =>
    unfold runChanges effects
    obtain ⟨none, conflict⟩ | ⟨next, made, run, valid', counted'⟩ :=
      makeChange_rows sound valid counted t change
    · rw [none, conflict]
      by_cases ignore : onError = .ignore
      · simp only [if_pos ignore]
        exact ih valid counted
      · simp only [if_neg ignore]
        exact ⟨vm.counters, rfl, valid, counted⟩
    · rw [made, run]
      exact ih valid' counted'

private theorem parentPart_eq_zero (member : fk ∈ sc.fkeys)
    (apart : ∀ p ∈ db t, (sc.table t).clash vals row p = false)
    (satisfied : fk.violations vals sc db = 0) : parentPart vals sc t none db row fk = 0 := by
  have rest := violations_of_rest sound member apart (db fk.pFrom)
  rw [show (db fk.pFrom).countP (fk.lacks vals sc db) = 0 from satisfied] at rest
  rw [(parts_none vals sc fk t db db row).2]
  omega

end

omit [DecidableEq T] [DecidableEq C] in
private theorem violations_eq_zero (satisfied : missing vals sc db d = 0) (member : fk ∈ sc.fkeys)
    (flag : fk.isDeferred = d) : fk.violations vals sc db = 0 := by
  rw [missing_eq_zero_iff] at satisfied
  rw [FKey.violations, countP_eq_zero]
  intro c childMember lacks
  exact satisfied ⟨fk, member, flag, c, childMember, lacks⟩

/-- A single row that is inserted is the only one that can lack its parent for a key of which
none was missing. -/
theorem violated_insert_iff (sound : sc.Sound vals)
    (apart : ∀ p ∈ db t, (sc.table t).clash vals row p = false)
    (satisfied : missing vals sc db d = 0) : Violated vals sc (db.add t row) d ↔
      ∃ fk ∈ sc.pFKey t, fk.isDeferred = d ∧ fk.lacks vals sc (db.add t row) row = true := by
  constructor
  · rintro ⟨fk, member, flag, c, childMember, lacks⟩
    have before := violations_eq_zero satisfied member flag
    have change := violations_insert sound member apart
    rw [parentPart_eq_zero sound member apart before] at change
    have positive : 0 < fk.violations vals sc (db.add t row) :=
      countP_pos_iff.mpr ⟨c, childMember, lacks⟩
    have own : fk.pFrom = t ∧ fk.lacks vals sc (db.add t row) row = true := by
      by_contra other
      have part : childPart vals sc t none (db.add t row) row fk = 0 := by
        rw [(parts_none vals sc fk t (db.add t row) db row).1]
        split
        · rename_i from_t
          simp [Bool.eq_false_iff.mpr fun lacks => other ⟨from_t, lacks⟩]
        · rfl
      omega
    exact ⟨fk, by simp [Schema.pFKey, member, own.1], flag, own.2⟩
  · rintro ⟨fk, member, flag, lacks⟩
    obtain ⟨inKeys, rfl⟩ : fk ∈ sc.fkeys ∧ fk.pFrom = t := by simpa [Schema.pFKey] using member
    exact ⟨fk, inKeys, flag, row, by simp [Db.add_same], lacks⟩

/-- A single row that no immediate key halts leaves the counters right, although it is not checked
as the parent of immediate keys. -/
theorem insertRow_counted (sound : sc.Sound vals) (valid : db.Valid vals sc)
    (stored_eq : (sc.table t).store vals row = stored)
    (fine : (sc.table t).conflicts vals (db t) stored = false) (counted : Counted vals sc ⟨db, c⟩)
    (satisfied : missing vals sc db false = 0) (kept : ¬Violated vals sc (db.add t stored) false) :
    ∃ c', sqlite3FkCheck vals sc db t ((sc.table t).registers vals row) true false none c =
        .ok c' ∧ Counted vals sc ⟨db.add t stored, c'⟩ := by
  obtain ⟨fits, apart⟩ := apart_of_fine fine
  have sums : ∀ d, missing vals sc (db.add t stored) d +
        total sc.fkeys (scanPart vals sc t none false db stored) d =
      c.get d + total sc.fkeys (childPart vals sc t none (db.add t stored) stored) d := by
    intro d
    have now := counted d
    rw [now]
    unfold missing
    rw [total_add, total_add]
    apply total_congr_flag
    intro fk member flag
    have change := violations_insert sound member apart
    have scan : scanPart vals sc t none false db stored fk =
        parentPart vals sc t none db stored fk := by
      cases deferred : fk.isDeferred with
      | true => simp [scanPart, deferred]
      | false =>
        have before := violations_eq_zero satisfied member deferred
        simp [scanPart, parentPart_eq_zero sound member apart before]
    rw [scan]
    exact change
  have noHalt : ∀ fk ∈ sc.pFKey t, fk.lacks vals sc (db.add t stored) stored = true →
      fk.isDeferred = true := by
    intro fk member lacks
    by_contra immediate
    exact kept ((violated_insert_iff sound apart satisfied).mpr
      ⟨fk, member, Bool.eq_false_iff.mpr immediate, lacks⟩)
  obtain ⟨c', checked, get⟩ := fkCheck_new sound valid stored_eq fits none false (.inr noHalt) c (by
    intro d
    have sum := sums d
    have rest := missing_nonneg vals sc (db.add t stored) d
    omega)
  refine ⟨c', checked, fun d => ?_⟩
  have sum := sums d
  change c'.get d = missing vals sc (db.add t stored) d
  rw [get d]
  omega

end SeSqlite.Fkey
