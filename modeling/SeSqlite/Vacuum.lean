/- source: src/vacuum.c, src/insert.c, src/select.c
   digest: The copy that VACUUM makes of every table, and when it is the table itself. -/
import SeSqlite.Sql.Copy

set_option autoImplicit false
set_option relaxedAutoImplicit false

namespace SeSqlite.Vacuum

open Lib.Traverse Names Sql List Option SqlValue

/-- A row of `sqlite_master` for a table, with the content of the table. -/
structure MasterTable (V : Type) [RowidValue V] where
  pTab : TableDef V
  store : Store V
  sound : store.Sound pTab

section

variable {V : Type} [RowidValue V]

/-- The columns that `*` is expanded to. -/
def shown (pTab : TableDef V) : List Nat :=
  (range pTab.aCol.length).filter fun j =>
    !pTab.aCol[j]?.any fun column => isSecurityColumn column.zName

def starExpansion (pTab : TableDef V) : List (Tuple V → V) :=
  (shown pTab).map fun j t => pTab.field t j

/-- The cases in which `xferOptimization` returns 1 for a copy to an empty table of the same
definition, so that nothing else is compiled. -/
def xferOptimization (pTab : TableDef V) : Bool :=
  (pTab.iPKey.isSome || pTab.pIndex.isEmpty) &&
    pTab.pIndex.all (fun pIdx => pIdx.onError.isNone) &&
      (pTab.iPKey.isNone || decide (resolution none pTab.keyConf = .abort) ||
        decide (resolution none pTab.keyConf = .rollback))

/-- The tables that no statement is rewritten for. The star expansion still leaves out their
security columns. -/
def copyInternal (T : MasterTable V) : Option (MasterTable V) :=
  if xferOptimization T.pTab ||
      decide ((shown T.pTab).length = T.pTab.aCol.length ∧ T.pTab.aCol ≠ []) then some T
  else none

variable [DecidableEq V] (allows : V → Bool) (label : String → Int) (candidates : List Int)

/-- `INSERT INTO vacuum_db.T SELECT * FROM main.T` with the check put into the WHERE clause
and the label appended to the result columns. -/
def copyUser (T : MasterTable V) : Option (MasterTable V) :=
  T.pTab.labelColumn.bind fun i =>
    (insertRows T.pTab.aCol.length (integer (label T.pTab.zName))
        (.select (.simple (starExpansion T.pTab)
          (T.store.rows.filter fun t => allows (T.pTab.field t i))))).bind fun inputs =>
      -- a star without columns is the error "no tables specified"
      if (copyLoop T.pTab candidates inputs).halted.isNone && !(shown T.pTab).isEmpty then
        some ⟨T.pTab, (copyLoop T.pTab candidates inputs).store, copyLoop_sound⟩
      else none

def copyTable (T : MasterTable V) : Option (MasterTable V) :=
  if isUserTable T.pTab.zName then copyUser allows label candidates T else copyInternal T

/-- The copy loop of `sqlite3RunVacuum`: the first error ends the VACUUM, and `main` keeps
its content. -/
def sqlite3RunVacuum (db : List (MasterTable V)) : Option (List (MasterTable V)) :=
  db.mapM (copyTable allows label candidates)

/-- A value put into a column that accepts it. -/
def coerce (pTab : TableDef V) (j : Nat) (v : V) : V :=
  if pTab.iPKey = some j then integer ((RowidValue.mustBeInt v).getD 0)
  else pTab.aCol[j]?.elim v fun column => column.affinity.apply v

/-- The label put into the last column, that value into the column before it, and so on. -/
def carried (pTab : TableDef V) (label : V) : Nat → V
  | 0 => coerce pTab (pTab.aCol.length - 1) label
  | k + 1 => coerce pTab (pTab.aCol.length - 2 - k) (carried pTab label k)

/-- The same rows, labels included, in whatever order. -/
def Preserved (T T' : MasterTable V) : Prop :=
  (T'.store.rows.map T'.pTab.visible).Perm (T.store.rows.map T.pTab.visible)

variable [DecidableEq V]

/-- Every row may be read, carries the label of the table, and meets the constraints of the
table. When `security_context` is the last column, `labelled` is about that column only. -/
structure Copyable (allows : V → Bool) (label : String → Int) (T : MasterTable V) : Prop where
  readable : ∀ i, T.pTab.labelColumn = some i → ∀ t ∈ T.store.rows, allows (T.pTab.field t i) = true
  labelled : ∀ i, T.pTab.labelColumn = some i → ∀ t ∈ T.store.rows, ∀ k,
    i + k < T.pTab.aCol.length → T.pTab.field t (T.pTab.aCol.length - 1 - k) =
      carried T.pTab (integer (label T.pTab.zName)) k
  admitted : ∀ t ∈ T.store.rows, T.pTab.Admissible (T.pTab.visible t)
  unique : T.store.rows.Pairwise fun t u => T.pTab.Apart (T.pTab.visible t) (T.pTab.visible u)

end

variable {i : Nat}

section

variable {V : Type} [RowidValue V] {pTab : TableDef V} {j : Nat}

/-- The values that the copy statement supplies for a tuple. -/
def supplied (pTab : TableDef V) (label : V) (t : Tuple V) : List V :=
  (shown pTab).map (pTab.field t) ++ [label]

theorem shown_eq (column : pTab.labelColumn = some i)
    (count : (shown pTab).length + 1 = pTab.aCol.length) : ∃ m, pTab.aCol.length = i + 1 + m ∧
      shown pTab = range i ++ (range m).map (i + 1 + ·) := by
  rw [TableDef.labelColumn, findIdx?_eq_some_iff_getElem] at column
  obtain ⟨bound, named, -⟩ := column
  have hidden := Names.isSecurityColumn_of_strICmp named
  obtain ⟨m, size⟩ : ∃ m, pTab.aCol.length = i + 1 + m := ⟨_, (Nat.add_sub_of_le bound).symm⟩
  refine ⟨m, size, ?_⟩
  let visible : Nat → Bool := fun j =>
    !pTab.aCol[j]?.any fun column => isSecurityColumn column.zName
  have parts : shown pTab =
      (range i).filter visible ++ ((range m).map (i + 1 + ·)).filter visible := by
    have apart : visible i = false := by simp [visible, bound, hidden]
    rw [shown, size, range_add, range_succ, filter_append, filter_append]
    simp only [filter_cons, filter_nil]
    rw [if_neg (by simpa [visible] using apart), append_nil]
  rw [parts, length_append] at count
  have left := length_filter_le visible (range i)
  have right := length_filter_le visible ((range m).map (i + 1 + ·))
  simp only [length_range, length_map] at left right
  rw [parts, filter_eq_self.mpr, filter_eq_self.mpr]
  · refine length_filter_eq_length_iff.mp ?_
    simp only [length_map, length_range]
    omega
  · refine length_filter_eq_length_iff.mp ?_
    simp only [length_range]
    omega

theorem supplied_getD (column : pTab.labelColumn = some i)
    (count : (shown pTab).length + 1 = pTab.aCol.length) (label : V) (t : Tuple V)
    (bound : j < pTab.aCol.length) : (supplied pTab label t).getD j null =
      if j < i then pTab.field t j
      else if j + 1 < pTab.aCol.length then pTab.field t (j + 1) else label := by
  obtain ⟨m, size, eq⟩ := shown_eq column count
  rw [supplied, eq]
  by_cases before : j < i
  · simp [before, getElem?_append]
  · by_cases inside : j + 1 < pTab.aCol.length
    · have offset : i + 1 + (j - i) = j + 1 := by omega
      have short : j - i < m := by omega
      simp [before, inside, getElem?_append, short, offset]
    · have last : j = i + m := by omega
      rw [if_neg inside, last]
      simp

theorem coerce_ne_null (j : Nat) {v : V} (given : v ≠ null) : coerce pTab j v ≠ null := by
  rw [coerce]
  split
  · exact RowidValue.integer_ne_null _
  · cases pTab.aCol[j]? with
    | none => exact given
    | some column => exact fun null => given ((column.affinity.apply_eq_null v).mp null)

theorem carried_ne_null (label : Int) (k : Nat) : carried pTab (integer label) k ≠ null := by
  induction k with
  | zero => exact coerce_ne_null _ (RowidValue.integer_ne_null label)
  | succ k ih => exact coerce_ne_null _ ih

variable [DecidableEq V]

theorem eq_coerce_of_takes {column : ColumnDef V} (listed : pTab.aCol[j]? = some column) {v x : V}
    (given : v ≠ null) (takes : pTab.Takes j column v x) : x = coerce pTab j v := by
  rw [TableDef.Takes] at takes
  rw [coerce]
  split at takes
  · obtain ⟨i, integer, rfl⟩ := takes given
    simp [*]
  · obtain ⟨v', accepted, rfl⟩ := takes
    rw [column.notNullValue_of_ne_null none given] at accepted
    obtain rfl := Except.ok.inj accepted
    simp [*]

/-- Where every tuple is the copy of a tuple, the values from the label column on are the
label carried back from the last column. -/
theorem field_eq_carried (column : pTab.labelColumn = some i)
    (count : (shown pTab).length + 1 = pTab.aCol.length) (label : Int) {rows : List (Tuple V)}
    (origin : ∀ t ∈ rows, ∃ o ∈ rows,
      pTab.Becomes (supplied pTab (integer label) o) (pTab.visible t)) :
    ∀ k, i + k < pTab.aCol.length → ∀ t ∈ rows,
      pTab.field t (pTab.aCol.length - 1 - k) = carried pTab (integer label) k := by
  intro k
  induction k with
  | zero =>
    intro bound t member
    obtain ⟨o, -, becomes⟩ := origin t member
    have last : pTab.aCol.length - 1 < pTab.aCol.length := by omega
    have takes := becomes _ _ (getElem?_eq_getElem last)
    rw [supplied_getD column count _ _ last, if_neg (by omega), if_neg (by omega),
      TableDef.visible_getD _ last] at takes
    exact eq_coerce_of_takes (getElem?_eq_getElem last) (RowidValue.integer_ne_null _) takes
  | succ k ih =>
    intro bound t member
    obtain ⟨o, other, becomes⟩ := origin t member
    have inside : pTab.aCol.length - 1 - (k + 1) < pTab.aCol.length := by omega
    have next : pTab.aCol.length - 1 - (k + 1) + 1 = pTab.aCol.length - 1 - k := by omega
    have takes := becomes _ _ (getElem?_eq_getElem inside)
    rw [supplied_getD column count _ _ inside, if_neg (by omega), if_pos (by omega), next,
      ih (by omega) o other, TableDef.visible_getD _ inside] at takes
    rw [eq_coerce_of_takes (getElem?_eq_getElem inside) (carried_ne_null label k) takes]
    congr 1
    omega

theorem recovers_of_labelled (column : pTab.labelColumn = some i)
    (count : (shown pTab).length + 1 = pTab.aCol.length) {label : Int} {t : Tuple V}
    (labelled : ∀ k, i + k < pTab.aCol.length → pTab.field t (pTab.aCol.length - 1 - k) =
      carried pTab (integer label) k) (admitted : pTab.Admissible (pTab.visible t)) :
    Recovers pTab (supplied pTab (integer label) t) (pTab.visible t) := by
  -- from the label column on: what is supplied is not NULL, and coerced it is what is stored
  have tail : ∀ j, j < pTab.aCol.length → ¬ j < i →
      (supplied pTab (integer label) t).getD j null ≠ null ∧
      coerce pTab j ((supplied pTab (integer label) t).getD j null) =
        pTab.field t j := by
    intro j bound after
    rw [supplied_getD column count _ _ bound, if_neg after]
    split
    · have value := labelled (pTab.aCol.length - 1 - (j + 1)) (by omega)
      have stored := labelled (pTab.aCol.length - 1 - (j + 1) + 1) (by omega)
      rw [show pTab.aCol.length - 1 - (pTab.aCol.length - 1 - (j + 1)) = j + 1 by omega] at value
      rw [show pTab.aCol.length - 1 - (pTab.aCol.length - 1 - (j + 1) + 1) = j by omega,
        carried, show pTab.aCol.length - 2 - (pTab.aCol.length - 1 - (j + 1)) = j by omega]
        at stored
      exact ⟨value ▸ carried_ne_null label _, by rw [value, stored]⟩
    · have stored := labelled 0 (by omega)
      rw [carried, show pTab.aCol.length - 1 = j by omega] at stored
      exact ⟨RowidValue.integer_ne_null _, stored.symm⟩
  refine ⟨by simp [supplied, count], fun j c listed plain => ?_, fun u becomes => ?_⟩
  · have bound := (List.getElem?_eq_some_iff.mp listed).1
    by_cases before : j < i
    · have again := (admitted j c listed plain).1
      rw [TableDef.visible_getD _ bound] at again
      rw [supplied_getD column count _ _ bound, if_pos before]
      exact ⟨_, again⟩
    · exact ⟨_, c.notNullValue_of_ne_null none (tail j bound before).1⟩
  · refine map_congr_left fun j member => ?_
    have bound := mem_range.mp member
    have listed := getElem?_eq_getElem bound
    have takes := becomes j _ listed
    rw [TableDef.visible_getD _ bound] at takes
    by_cases before : j < i
    · rw [supplied_getD column count _ _ bound, TableDef.Takes] at takes
      split at takes
      · rename_i key
        have rowid : pTab.field t j = integer t.rowid := if_pos key
        rw [rowid] at takes ⊢
        obtain ⟨r, integer, eq⟩ := takes (RowidValue.integer_ne_null _)
        rw [RowidValue.mustBeInt_integer] at integer
        rw [eq, Option.some.inj integer]
      · rename_i plain
        have again := admitted j _ listed plain
        rw [TableDef.visible_getD _ bound] at again
        obtain ⟨v', accepted, eq⟩ := takes
        rw [again.1] at accepted
        rw [eq, ← Except.ok.inj accepted, again.2]
    · rw [eq_coerce_of_takes listed (tail j bound before).1 takes, (tail j bound before).2]

variable {allows : V → Bool} {label : String → Int} {candidates : List Int}

variable {T T' : MasterTable V}

theorem copyUser_eq_some (copied : copyUser allows label candidates T = some T') :
    ∃ i, T.pTab.labelColumn = some i ∧ (shown T.pTab).length + 1 = T.pTab.aCol.length ∧
      let inputs := (T.store.rows.filter fun t => allows (T.pTab.field t i)).map
        (supplied T.pTab (integer (label T.pTab.zName)))
      T'.pTab = T.pTab ∧ T'.store = (copyLoop T.pTab candidates inputs).store ∧
        (copyLoop T.pTab candidates inputs).halted = none := by
  rw [copyUser, bind_eq_some_iff] at copied
  obtain ⟨i, column, copied⟩ := copied
  simp only [insertRows, Source.inject, Query.inject, Source.eval, Query.eval, bind_some,
    length_append, length_singleton] at copied
  split at copied
  · rename_i count
    have same : ∀ t, List.map (fun e => e t) (starExpansion T.pTab ++
        [fun _ : Tuple V => integer (label T.pTab.zName)]) =
          supplied T.pTab (integer (label T.pTab.zName)) t := by
      intro t
      simp [starExpansion, supplied]
    simp only [same, bind_some] at copied
    split at copied
    · rename_i finished
      rw [Bool.and_eq_true, isNone_iff_eq_none] at finished
      cases copied
      exact ⟨i, column, by simpa [starExpansion] using count, rfl, rfl, finished.1⟩
    · cases copied
  · cases copied

/-- The copy of a user table is the table exactly when every row may be read, carries the
label that the copy gives it, and meets the constraints of the table. -/
theorem copyUser_preserved_iff (copied : copyUser allows label candidates T = some T') :
    Preserved T T' ↔ Copyable allows label T := by
  obtain ⟨i, column, count, table, content, finished⟩ := copyUser_eq_some copied
  rw [Preserved, table, content]
  constructor
  · intro perm
    have width : ∀ values ∈ (T.store.rows.filter fun t => allows (T.pTab.field t i)).map
        (supplied T.pTab (integer (label T.pTab.zName))),
          values.length = T.pTab.aCol.length := by
      intro values member
      obtain ⟨t, -, rfl⟩ := mem_map.mp member
      simp [supplied, count]
    have copy : Copied T.pTab _ (copyLoop T.pTab candidates _).store := copyLoop_copied width
    have readable : ∀ t ∈ T.store.rows, allows (T.pTab.field t i) = true := by
      have size := perm.length_eq
      have few := copy.few
      have less := length_filter_le (fun t => allows (T.pTab.field t i)) T.store.rows
      simp only [length_map] at size few
      exact length_filter_eq_length_iff.mp (by omega)
    have origin : ∀ t ∈ T.store.rows, ∃ o ∈ T.store.rows, T.pTab.Becomes
        (supplied T.pTab (integer (label T.pTab.zName)) o) (T.pTab.visible t) := by
      intro t member
      obtain ⟨u, stored, eq⟩ := mem_map.mp (perm.mem_iff.mpr (mem_map_of_mem member))
      obtain ⟨values, listed, becomes⟩ := copy.origin u stored
      obtain ⟨o, selected, rfl⟩ := mem_map.mp listed
      exact ⟨o, mem_of_mem_filter selected, eq ▸ becomes⟩
    refine ⟨fun _ same t member => ?_, fun _ same t member k bound => ?_, fun t member => ?_, ?_⟩
    · cases column.symm.trans same
      exact readable t member
    · cases column.symm.trans same
      exact field_eq_carried column count _ origin k bound t member
    · obtain ⟨o, -, becomes⟩ := origin t member
      exact becomes.admissible
    · have apart := pairwise_map.mpr copy.apart
      exact pairwise_map.mp ((perm.pairwise_iff (R := T.pTab.Apart)
        TableDef.Apart.symm).mp apart)
  · intro copyable
    have all := filter_eq_self.mpr (copyable.readable i column)
    rw [all] at finished ⊢
    rw [copyLoop_exact T.sound.idents copyable.unique (fun t member => recovers_of_labelled column
      count (copyable.labelled i column t member) (copyable.admitted t member)) finished]

/-- After a VACUUM that succeeds the user tables hold the rows they held exactly when all of
them were copyable. -/
theorem sqlite3RunVacuum_preserved_iff {db db' : List (MasterTable V)}
    (success : sqlite3RunVacuum allows label candidates db = some db') :
    List.Forall₂ (fun T T' => isUserTable T.pTab.zName = true → Preserved T T') db db' ↔
      ∀ T ∈ db, isUserTable T.pTab.zName = true → Copyable allows label T := by
  rw [sqlite3RunVacuum, mapM_eq_some_iff] at success
  induction success with
  | nil => simp
  | @cons T T' rest rest' copied _ ih =>
    rw [forall₂_cons, forall_mem_cons, ih]
    refine and_congr_left fun _ => imp_congr_right fun user => ?_
    rw [copyTable, if_pos user] at copied
    exact copyUser_preserved_iff copied

end

def journalDef : TableDef (Option Int) where
  zName := "journal"
  aCol := [⟨"entry", none, none, .none⟩, ⟨"security_context", none, none, .none⟩]
  iPKey := none
  keyConf := none
  pCheck := []
  pPk := none
  pIndex := []
  withoutRowid := by decide

/-- Two entries; new rows of the table get label 3, and label 7 may not be read. -/
def journal (first second : Int) : MasterTable (Option Int) where
  pTab := journalDef
  store := ⟨[⟨0, 1, [some 10, some first]⟩, ⟨1, 2, [some 20, some second]⟩], 2⟩
  sound := ⟨by simp [TableDef.ident, journalDef], by simp, by simp⟩

def notSeven (v : Option Int) : Bool := decide (v ≠ some 7)

/-- A row that may not be read is gone after VACUUM. -/
theorem sqlite3RunVacuum_drops_denied :
    ∃ T', sqlite3RunVacuum notSeven (fun _ => 3) [] [journal 3 7] = some [T'] ∧
      ¬ Preserved (journal 3 7) T' :=
  ⟨_, rfl, fun same => absurd same.length_eq (by decide)⟩

theorem sqlite3RunVacuum_preserved_iff_journal :
    ∃ db', sqlite3RunVacuum notSeven (fun _ => 3) [] [journal 3 3] = some db' ∧
      (List.Forall₂ (fun T T' => isUserTable T.pTab.zName = true → Preserved T T')
          [journal 3 3] db' ↔
        ∀ T ∈ [journal 3 3], isUserTable T.pTab.zName = true → Copyable notSeven (fun _ => 3) T) :=
  ⟨_, rfl, sqlite3RunVacuum_preserved_iff rfl⟩

end SeSqlite.Vacuum
