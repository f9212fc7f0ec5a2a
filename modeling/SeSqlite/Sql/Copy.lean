/- source: src/insert.c
   digest: What becomes of complete rows that are inserted one by one into an empty table. -/
import SeSqlite.Lib.Traverse
import SeSqlite.Sql.Dml

set_option autoImplicit false
set_option relaxedAutoImplicit false

namespace SeSqlite.Sql

open Lib.Traverse List Bool TableDef SqlValue

section

variable {V : Type} [RowidValue V] [DecidableEq V] {pTab : TableDef V}

/-- The value of the INTEGER PRIMARY KEY column decides on the rowid. -/
def NewRowid.ofValue (candidates : List Int) (v : V) : NewRowid :=
  if v = null then .auto 1 candidates
  else (RowidValue.mustBeInt v).elim .mismatch .given

def TableDef.newRow (pTab : TableDef V) (candidates : List Int) (values : List V) : NewRow V :=
  match pTab.iPKey with
  | none => ⟨.auto 1 candidates, values⟩
  | some q => ⟨.ofValue candidates (values.getD q null), values.set q null⟩

/-- A column that is given `v` holds `x`; nothing is said of a rowid that is computed. -/
def TableDef.Takes (pTab : TableDef V) (j : Nat) (column : ColumnDef V) (v x : V) : Prop :=
  if pTab.iPKey = some j then
    v ≠ null → ∃ i, RowidValue.mustBeInt v = some i ∧ x = integer i
  else ∃ v', column.notNullValue none v = .ok v' ∧ x = column.affinity.apply v'

def TableDef.Becomes (pTab : TableDef V) (values row : List V) : Prop :=
  ∀ j column, pTab.aCol[j]? = some column →
    pTab.Takes j column (values.getD j null) (row.getD j null)

/-- The row could be stored again as it is. -/
def TableDef.Admissible (pTab : TableDef V) (row : List V) : Prop :=
  ∀ j column, pTab.aCol[j]? = some column → pTab.iPKey ≠ some j →
    column.notNullValue none (row.getD j null) = .ok (row.getD j null) ∧
      column.affinity.apply (row.getD j null) = row.getD j null

/-- No UNIQUE index has the two rows under one key. -/
def TableDef.Apart (pTab : TableDef V) (r r' : List V) : Prop :=
  ∀ pIdx ∈ pTab.pIndex, pIdx.onError.isSome = true → pIdx.conflict r r' = false

private theorem Index.conflict_comm (pIdx : Index V) (r r' : List V) :
    pIdx.conflict r r' = pIdx.conflict r' r := by
  have one : ∀ a b, pIdx.conflict a b = true → pIdx.conflict b a = true := by
    intro a b conflict
    rw [Index.conflict] at conflict
    split at conflict
    · cases conflict
    · rename_i key entry
      simp only [and_eq_true, decide_eq_true_eq] at conflict
      simp [Index.conflict, conflict.2, entry, conflict.1]
  exact eq_iff_iff.mpr ⟨one r r', one r' r⟩

theorem TableDef.Apart.symm {r r' : List V} (apart : pTab.Apart r r') : pTab.Apart r' r :=
  fun pIdx listed unique => pIdx.conflict_comm r' r ▸ apart pIdx listed unique

theorem ColumnDef.notNullValue_of_ne_null (column : ColumnDef V) (overrideError : Option OnError)
    {v : V} (given : v ≠ null) : column.notNullValue overrideError v = .ok v := by
  rw [ColumnDef.notNullValue]
  split <;> simp [given]

private theorem ColumnDef.admits_again {column : ColumnDef V} {v v' : V}
    (accepted : column.notNullValue none v = .ok v') :
    column.notNullValue none (column.affinity.apply v') = .ok (column.affinity.apply v') := by
  by_cases null : v' = null
  · have same := (column.affinity.apply_eq_null v').mpr null
    rw [same]
    by_cases given : v = SqlValue.null
    · rw [← given, accepted, null, given]
    · rw [column.notNullValue_of_ne_null none given] at accepted
      exact absurd ((Except.ok.inj accepted).trans null) given
  · exact column.notNullValue_of_ne_null none
      fun eq => null ((column.affinity.apply_eq_null v').mp eq)

theorem TableDef.Becomes.admissible {values row : List V} (becomes : pTab.Becomes values row) :
    pTab.Admissible row := by
  intro j column listed plain
  have takes := becomes j column listed
  rw [Takes, if_neg plain] at takes
  obtain ⟨v', accepted, eq⟩ := takes
  rw [eq]
  exact ⟨ColumnDef.admits_again accepted, column.affinity.apply_apply v'⟩

end

section

variable {V : Type} [RowidValue V] {pTab : TableDef V} {values : List V} {column : ColumnDef V}
  {j : Nat} {t u : Tuple V}

private theorem zip_getElem? (width : values.length = pTab.aCol.length)
    (listed : pTab.aCol[j]? = some column) :
    (pTab.aCol.zipIdx.zip values)[j]? = some ((column, j), values.getD j null) := by
  have bound : j < values.length := width ▸ (List.getElem?_eq_some_iff.mp listed).1
  simp [getElem?_zip_eq_some, listed, bound]

theorem TableDef.visible_getD (t : Tuple V) (bound : j < pTab.aCol.length) :
    (pTab.visible t).getD j null = pTab.field t j := by
  simp [visible, bound]

private theorem rowid_of_visible {q : Nat} (key : pTab.iPKey = some q)
    (bound : q < pTab.aCol.length) (eq : pTab.visible t = pTab.visible u) : t.rowid = u.rowid := by
  have fields := congrArg (fun row => row.getD q null) eq
  simp only [visible_getD _ bound, field, key, if_true] at fields
  have integers := congrArg RowidValue.mustBeInt fields
  rwa [RowidValue.mustBeInt_integer, RowidValue.mustBeInt_integer, Option.some.injEq] at integers

variable [DecidableEq V] {overrideError : Option OnError} {ignoreChecks : Bool}
  {candidates : List Int}

private theorem TableDef.prepare_values {t' : Tuple V} (width : t.values.length = pTab.aCol.length)
    (prepared : pTab.prepare ignoreChecks overrideError t = .ok t')
    (listed : pTab.aCol[j]? = some column) : ∃ v', (pTab.iPKey ≠ some j →
        column.notNullValue overrideError (t.values.getD j null) = .ok v') ∧
      t'.values.getD j null = column.affinity.apply v' := by
  obtain ⟨values, nulls, rfl⟩ := prepare_eq prepared
  rw [notNullChecks, mapM_eq_ok_iff] at nulls
  obtain ⟨v', at_j, accepted⟩ := forall₂_getElem? nulls (zip_getElem? width listed)
  refine ⟨v', fun plain => by simpa [plain] using accepted, ?_⟩
  simp [getElem?_zipWith, listed, at_j]

private theorem TableDef.prepare_isOk (width : t.values.length = pTab.aCol.length)
    (each : ∀ j column, pTab.aCol[j]? = some column → pTab.iPKey ≠ some j →
      ∃ v', column.notNullValue overrideError (t.values.getD j null) = .ok v') :
    ∃ t', pTab.prepare true overrideError t = .ok t' := by
  have passes : ∃ values, pTab.notNullChecks overrideError t.values = .ok values := by
    simp only [notNullChecks, mapM_eq_ok_iff]
    refine exists_forall₂ fun x member => ?_
    obtain ⟨j, at_j⟩ := mem_iff_getElem?.mp member
    have bound : j < pTab.aCol.length := by
      have := (List.getElem?_eq_some_iff.mp at_j).1
      simp only [length_zip] at this
      omega
    have listed := getElem?_eq_getElem bound
    rw [zip_getElem? width listed] at at_j
    cases at_j
    by_cases plain : pTab.iPKey = some j
    · exact ⟨_, if_pos plain⟩
    · obtain ⟨v', accepted⟩ := each j _ listed plain
      exact ⟨v', (if_neg plain).trans accepted⟩
  obtain ⟨values, nulls⟩ := passes
  exact ⟨_, by simp [prepare, nulls]; rfl⟩

private theorem TableDef.newRow_width :
    (pTab.newRow candidates values).values.length = values.length := by
  rw [newRow]
  split <;> simp

private theorem TableDef.newRow_getD (plain : pTab.iPKey ≠ some j) :
    (pTab.newRow candidates values).values.getD j null =
      values.getD j null := by
  rw [newRow]
  split
  · rfl
  · rename_i q key
    have differs : q ≠ j := fun eq => plain (eq ▸ key)
    simp [differs]

variable {candidates : List Int} {plan : Plan V} {s : Store V}

private theorem insertPlan_becomes (width : values.length = pTab.aCol.length)
    (planned : insertPlan pTab true none s (pTab.newRow candidates values) = .ok plan) :
    pTab.Becomes values (pTab.visible plan.new) := by
  obtain ⟨rowid, new, computed, prepared, rfl⟩ := insertPlan_ok planned
  intro j column listed
  have bound := (List.getElem?_eq_some_iff.mp listed).1
  rw [visible_getD new bound, field]
  by_cases key : pTab.iPKey = some j
  · rw [Takes, if_pos key, if_pos key, (prepare_ok prepared).2]
    intro given
    have rowids : pTab.pPk.isSome = false := by
      rw [eq_false_iff]
      intro without
      cases key.symm.trans (pTab.withoutRowid without)
    simp only [NewRow.insertRowid, rowids, false_eq_true, if_false, newRow, key,
      NewRowid.ofValue, given] at computed
    cases integer : RowidValue.mustBeInt (values.getD j null) with
    | none => simp only [integer, Option.elim_none, NewRowid.value, reduceCtorEq] at computed
    | some i =>
      simp only [integer, Option.elim_some, NewRowid.value, Option.some.injEq] at computed
      exact ⟨i, rfl, computed ▸ rfl⟩
  · obtain ⟨v', accepted, holds⟩ :=
      prepare_values (newRow_width.trans width) prepared listed
    rw [Takes, if_neg key, if_neg key]
    exact ⟨v', newRow_getD key ▸ accepted key, holds⟩

private theorem insertPlan_apart {row : NewRow V}
    (planned : insertPlan pTab ignoreChecks overrideError s row = .ok plan)
    (passes : (resolve plan.tests s.rows).2 = none) (left : u ∈ (resolve plan.tests s.rows).1) :
    pTab.Apart (pTab.visible plan.new) (pTab.visible u) := by
  intro pIdx listed unique
  obtain ⟨onError, declared⟩ := Option.isSome_iff_exists.mp unique
  obtain ⟨rowid, new, -, -, rfl⟩ := insertPlan_ok planned
  have among : (⟨resolution overrideError onError, pTab.clashes pIdx none new⟩ : Constraint V) ∈
      pTab.indexConstraints overrideError (fun _ => true) none new :=
    mem_filterMap.mpr ⟨pIdx, by simpa using listed, by simp [declared]⟩
  have clear := resolve_clear passes _ (pTab.mem_constraints_iff.mpr (.inl among)) u left
  simpa [clashes] using clear

variable (pTab : TableDef V) (candidates : List Int)

/-- `INSERT INTO` an empty table with the rows of a SELECT, CHECK constraints ignored. -/
def copyLoop (inputs : List (List V)) : Progress V :=
  runLoop pTab (insertPlan pTab true none) ⟨[], 0⟩ (inputs.map (pTab.newRow candidates))

variable {pTab candidates}

variable {inputs : List (List V)} {p : Progress V}

theorem copyLoop_sound : (copyLoop pTab candidates inputs).store.Sound pTab :=
  runLoop_sound (fun _ _ _ planned => (insertPlan_fits planned).1) (Store.sound_empty 0) _

/-- What the copy holds comes from the rows that were read so far. -/
structure Copied (pTab : TableDef V) (inputs : List (List V)) (s : Store V) : Prop where
  few : s.rows.length ≤ inputs.length
  origin : ∀ u ∈ s.rows, ∃ values ∈ inputs, pTab.Becomes values (pTab.visible u)
  apart : s.rows.Pairwise fun t u => pTab.Apart (pTab.visible t) (pTab.visible u)

private theorem Copied.sublist {s' : Store V} (copied : Copied pTab inputs s)
    (sub : s'.rows.Sublist s.rows) (values : List V) : Copied pTab (inputs ++ [values]) s' where
  few := by
    have := sub.length_le.trans copied.few
    rw [length_append]
    omega
  origin u member := by
    obtain ⟨w, listed, becomes⟩ := copied.origin u (sub.subset member)
    exact ⟨w, mem_append_left _ listed, becomes⟩
  apart := copied.apart.sublist sub

private theorem Copied.step (copied : Copied pTab inputs p.store)
    (width : values.length = pTab.aCol.length) :
    Copied pTab (inputs ++ [values])
      (p.step pTab (insertPlan pTab true none) (pTab.newRow candidates values)).store := by
  rw [Progress.step]
  split
  · exact copied.sublist (.refl _) values
  · cases planned : insertPlan pTab true none p.store (pTab.newRow candidates values) with
    | error stop => exact copied.sublist (.refl _) values
    | ok plan =>
      obtain ⟨kept, sub, added⟩ :=
        pTab.writeRow_shape plan.tests plan.old plan.new p.store.rows
      have left := sub.trans (resolve_fst plan.tests p.store.rows ▸ filter_sublist)
      rcases added with only | ⟨passes, one⟩
      · exact copied.sublist (by rw [Store.apply, only]; exact left) values
      · have before : Copied pTab (inputs ++ [values]) ⟨kept, 0⟩ := copied.sublist left values
        rw [Store.apply, one]
        refine ⟨?_, ?_, ?_⟩
        · have := left.length_le.trans copied.few
          simp only [length_append, length_singleton]
          omega
        · intro u member
          rcases mem_append.mp member with old | new
          · exact before.origin u old
          · rw [mem_singleton.mp new]
            exact ⟨values, by simp, insertPlan_becomes width planned⟩
        · rw [pairwise_append]
          refine ⟨before.apart, pairwise_singleton _ _, fun t member u single => ?_⟩
          rw [mem_singleton.mp single]
          exact (insertPlan_apart planned passes (sub.subset member)).symm

theorem copyLoop_copied (width : ∀ values ∈ inputs, values.length = pTab.aCol.length) :
    Copied pTab inputs (copyLoop pTab candidates inputs).store := by
  have kept : ∀ (done : List (List V)) (p : Progress V), Copied pTab done p.store →
      Copied pTab (done ++ inputs) ((inputs.map (pTab.newRow candidates)).foldl
        (Progress.step pTab (insertPlan pTab true none)) p).store := by
    induction inputs with
    | nil =>
      intro done p copied
      simpa using copied
    | cons values rest ih =>
      intro done p copied
      rw [forall_mem_cons] at width
      rw [append_cons, map_cons]
      exact ih width.2 _ _ (copied.step width.1)
  exact kept [] ⟨⟨[], 0⟩, none⟩ ⟨le_rfl, by simp, List.Pairwise.nil⟩

/-- The values given for a row can only be stored as that row. -/
structure Recovers (pTab : TableDef V) (values row : List V) : Prop where
  width : values.length = pTab.aCol.length
  accepted : ∀ j column, pTab.aCol[j]? = some column → pTab.iPKey ≠ some j →
    ∃ v', column.notNullValue none (values.getD j null) = .ok v'
  only : ∀ t : Tuple V, pTab.Becomes values (pTab.visible t) → pTab.visible t = row

private theorem bound_of_given (width : values.length = pTab.aCol.length)
    (given : (pTab.newRow candidates values).rowid.isGiven = true) :
    ∃ q, pTab.iPKey = some q ∧ q < pTab.aCol.length := by
  rw [newRow] at given
  split at given
  · cases given
  · rename_i q key
    refine ⟨q, key, ?_⟩
    by_contra outside
    have null : values.getD q null = null := by
      rw [getD_eq_getElem?_getD, getElem?_eq_none (by omega), Option.getD_none]
    rw [NewRowid.ofValue, if_pos null] at given
    cases given

private theorem Recovers.planned {row : List V} (recovers : Recovers pTab values row)
    (runs : (s.apply pTab (insertPlan pTab true none s (pTab.newRow candidates values))).halted =
      none) :
    ∃ plan, insertPlan pTab true none s (pTab.newRow candidates values) = .ok plan := by
  cases computed : (pTab.newRow candidates values).insertRowid pTab s.rows with
  | none => simp [insertPlan, computed, Store.apply, Stop.halts] at runs
  | some rowid =>
    have width : (⟨s.next, rowid, (pTab.newRow candidates values).values⟩ :
        Tuple V).values.length = pTab.aCol.length := newRow_width.trans recovers.width
    obtain ⟨new, prepared⟩ := prepare_isOk width fun j column listed plain => by
      rw [newRow_getD plain]
      exact recovers.accepted j column listed plain
    exact ⟨_, by rw [insertPlan, computed]; simp only [prepared]; rfl⟩

private theorem Recovers.appended {done : List (Tuple V)}
    (recovers : Recovers pTab values (pTab.visible t))
    (copies : s.rows.map pTab.visible = done.map pTab.visible)
    (others : ∀ u ∈ done, pTab.ident u ≠ pTab.ident t)
    (apart : ∀ u ∈ done, pTab.Apart (pTab.visible u) (pTab.visible t))
    (runs : (s.apply pTab (insertPlan pTab true none s (pTab.newRow candidates values))).halted =
      none) :
    (s.apply pTab (insertPlan pTab true none s (pTab.newRow candidates values))).store.rows.map
      pTab.visible = done.map pTab.visible ++ [pTab.visible t] := by
  have source : ∀ u ∈ s.rows, ∃ o ∈ done, pTab.visible o = pTab.visible u := fun u member =>
    mem_map.mp (copies ▸ mem_map_of_mem member)
  obtain ⟨plan, planned⟩ := recovers.planned runs
  have becomes := recovers.only plan.new (insertPlan_becomes recovers.width planned)
  obtain ⟨rowid, new, computed, prepared, rfl⟩ := insertPlan_ok planned
  have image : pTab.visible new = pTab.visible t := becomes
  -- a copy has the rowid of its original where the rowid is given
  have rowids : pTab.pPk = none → (pTab.newRow candidates values).rowid.isGiven = true →
      ∀ u ∈ s.rows, u.rowid ≠ new.rowid := by
    intro without given u member eq
    obtain ⟨q, key, bound⟩ := bound_of_given recovers.width given
    obtain ⟨o, listed, same⟩ := source u member
    have ofOther := rowid_of_visible key bound same
    have ofNew := rowid_of_visible key bound image
    exact others o listed (by simp [ident, without, ofOther, eq, ofNew])
  have clear : ∀ c ∈ pTab.constraints none (pTab.newRow candidates values).rowid.isGiven
      (fun _ => true) none new, ∀ u ∈ s.rows, c.clash u = false := by
    intro c listed u member
    rcases pTab.mem_constraints_iff.mp listed with unique | ⟨tested, rfl⟩
    · simp only [indexConstraints, mem_filterMap, Option.map_eq_some_iff] at unique
      obtain ⟨pIdx, listedIdx, onError, declared, rfl⟩ := unique
      obtain ⟨o, listedOther, same⟩ := source u member
      have free := (apart o listedOther).symm pIdx (mem_of_mem_filter listedIdx)
        (by simp [declared])
      simp [clashes, image, ← same, free]
    · simp only [and_eq_true, Option.isNone_iff_eq_none] at tested
      have differs := rowids tested.2 tested.1 u member
      simp [rowidConstraint, differs]
  have alone : ∀ u ∈ s.rows, pTab.same new u = false := by
    intro u member
    rw [same, decide_eq_false_iff_not]
    intro eq
    cases without : pTab.pPk with
    | some pk =>
      obtain ⟨o, listed, same⟩ := source u member
      refine others o listed ?_
      simpa [ident, without, same, image] using eq
    | none =>
      have eqRowid : u.rowid = new.rowid := by simpa [ident, without] using eq
      cases given : (pTab.newRow candidates values).rowid.isGiven with
      | true => exact rowids without given u member eqRowid
      | false =>
        have ofNew : new.rowid = rowid := (prepare_ok prepared).2
        simp only [NewRow.insertRowid, without] at computed
        cases kind : (pTab.newRow candidates values).rowid with
        | given r => simp [kind, NewRowid.isGiven] at given
        | mismatch => simp [kind, NewRowid.value] at computed
        | auto floor list =>
          rw [kind] at computed
          exact newRowid_unused computed u member (eqRowid.trans ofNew)
  have kept : (s.rows.filter fun u => !pTab.same new u) = s.rows :=
    filter_eq_self.mpr fun u member => by rw [alone u member]; rfl
  rw [planned]
  simp [Store.apply, writeRow, resolve_of_clear clear, put, kept, copies, image]

private theorem foldl_step_halted {ι : Type} {plan : Store V → ι → Except Stop (Plan V)}
    {stop : Stop} (halted : p.halted = some stop) (items : List ι) :
    (items.foldl (Progress.step pTab plan) p).halted = some stop := by
  induction items with
  | nil => exact halted
  | cons item rest ih => rwa [foldl_cons, Progress.step, if_pos (by rw [halted]; rfl)]

theorem copyLoop_exact {rows : List (Tuple V)} {input : Tuple V → List V}
    (keys : (rows.map pTab.ident).Nodup)
    (apart : rows.Pairwise fun t u => pTab.Apart (pTab.visible t) (pTab.visible u))
    (recovers : ∀ t ∈ rows, Recovers pTab (input t) (pTab.visible t))
    (runs : (copyLoop pTab candidates (rows.map input)).halted = none) :
    (copyLoop pTab candidates (rows.map input)).store.rows.map pTab.visible =
      rows.map pTab.visible := by
  rw [copyLoop, map_map] at runs ⊢
  have copied : ∀ (rest done : List (Tuple V)) (s : Store V), rows = done ++ rest →
      s.rows.map pTab.visible = done.map pTab.visible →
      ((rest.map (pTab.newRow candidates ∘ input)).foldl
        (Progress.step pTab (insertPlan pTab true none)) ⟨s, none⟩).halted = none →
      ((rest.map (pTab.newRow candidates ∘ input)).foldl
        (Progress.step pTab (insertPlan pTab true none)) ⟨s, none⟩).store.rows.map pTab.visible =
          rows.map pTab.visible := by
    intro rest
    induction rest with
    | nil =>
      intro done s split copies _
      rw [split, append_nil]
      exact copies
    | cons t rest ih =>
      intro done s split copies finishes
      rw [map_cons, foldl_cons, Progress.step] at finishes ⊢
      rw [Function.comp_apply] at finishes ⊢
      rcases turn : s.apply pTab (insertPlan pTab true none s (pTab.newRow candidates (input t)))
        with ⟨s', _ | stop⟩
      · have others : ∀ u ∈ done, pTab.ident u ≠ pTab.ident t := by
          intro u member eq
          rw [split, map_append] at keys
          exact (disjoint_of_nodup_append keys) (mem_map_of_mem member)
            (eq ▸ mem_cons_self)
        have free : ∀ u ∈ done, pTab.Apart (pTab.visible u) (pTab.visible t) := by
          rw [split] at apart
          exact fun u member => (pairwise_append.mp apart).2.2 u member t mem_cons_self
        have one := (recovers t (by simp [split])).appended copies others free
          (congrArg Progress.halted turn)
        rw [turn] at one finishes
        refine ih (done ++ [t]) s' (by simp [split]) ?_ finishes
        rw [map_append]
        exact one
      · rw [turn, foldl_step_halted rfl] at finishes
        cases finishes
  exact copied rows [] ⟨[], 0⟩ rfl rfl runs

end

end SeSqlite.Sql
