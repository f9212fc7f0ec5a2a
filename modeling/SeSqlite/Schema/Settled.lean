/- source: ext/security/sesqlite/sesqlite_authorizer.c, src/build.c, src/alter.c
   digest: The invariant of a session whose labels survive, through the schema statements. -/
import SeSqlite.Schema.Survival

set_option autoImplicit false
set_option relaxedAutoImplicit false

namespace SeSqlite.Schema

open Hash Names Contexts LabelIds List

/-- A row of a table of `main` that still exists. -/
def Owned (databases : List Database) (row : ContextRow) : Prop :=
  row.db = "main" → row.name ≠ "" → ∃ t ∈ mainTables databases, t.zName = row.name

/-- The rows of `selinux_context` are about objects with plain names. -/
structure Tidy (databases : List Database) (rows : List ContextRow) : Prop where
  plain : ∀ row ∈ rows, row.object.Plain
  owned : ∀ row ∈ rows, Owned databases row

/-- The invariant of a session whose labels survive. -/
structure Settled (lib : Selinux) (s : Session) : Prop where
  coherent : Coherent s.labels
  main : ∃ d ∈ s.databases, d.zName = "main"
  plain : ∀ o ∈ objects s.databases, o.Plain
  table : ∃ rows, s.selinuxContext = some rows ∧ Tidy s.databases rows
  survives : Survives lib s

section

variable {s : Session} {zName : String} {t : Table} {o : Object}

theorem findTable_some (found : findTable s zName = some t) :
    t ∈ mainTables s.databases ∧ fold t.zName = fold zName := by
  have name := find?_some found
  exact ⟨mem_of_find?_eq_some found, (sqlite3StrICmp_iff _ _).mp name⟩

theorem ne_of_findTable_none (missing : findTable s zName = none) :
    ∀ t ∈ mainTables s.databases, t.zName ≠ zName := by
  rintro t member rfl
  have := find?_eq_none.mp missing t member
  simp [sqlite3StrICmp] at this

theorem fresh_of_findTable_none (missing : findTable s zName = none)
    (member : o ∈ objects s.databases) : ¬(o.dbName = "main" ∧ o.tblName = some zName) := by
  rintro ⟨main, named⟩
  obtain ⟨t, table, rfl, -⟩ := table_of_object member main named
  exact ne_of_findTable_none missing t table rfl

theorem object_of_mainTable (table : t ∈ mainTables s.databases)
    (inside : o ∈ tableObjects "main" t) : o ∈ objects s.databases := by
  obtain ⟨d, present, main, member⟩ := mem_mainTables.mp table
  exact mem_objects.mpr ⟨d, present, .inr ⟨t, member, main ▸ inside⟩⟩

theorem unlessContextTable_of_ne (found : findTable s zName = some t)
    (other : ¬sqlite3StrICmp zName selinuxContextName) (rows : List ContextRow) :
    unlessContextTable t.zName rows = some rows := by
  have name := (findTable_some found).2
  rw [unlessContextTable, if_neg]
  rwa [sqlite3StrICmp, name]

variable {lib : Selinux}

variable {rows : List ContextRow}

theorem reloadedId_of_table (table : s.selinuxContext = some rows) (o : Object) :
    reloadedId s o = lookup (loadContexts rows) o.key := by
  simp [reloadedId, table]

theorem Settled.extend (settled : Settled lib s) {n : Nat} {s' : Session}
    (ext : Extends lib n s s') : Settled lib s' where
  coherent := ext.labels.coherent
  main := ext.databases ▸ settled.main
  plain := ext.databases ▸ settled.plain
  table := by
    rw [ext.table, ext.databases]
    exact settled.table
  survives o member := by
    rw [ext.databases] at member
    obtain ⟨id, current, reloaded⟩ := settled.survives o member
    exact ⟨id, ext.current o (settled.plain o member) id current, by
      rwa [reloadedId, ext.table]⟩

private theorem plain_main : Plain "main" := by decide

section

variable {t : Table} {o : Object} {databases : List Database}

theorem plain_tableObjects (name : Plain t.zName) (columns : ∀ c ∈ t.columns, Plain c)
    (inside : o ∈ tableObjects "main" t) : o.Plain ∧ o.tblName = some t.zName := by
  obtain ⟨db, named, column⟩ := mem_tableObjects.mp inside
  refine ⟨⟨db ▸ plain_main, fun z eq => ?_, fun c eq => ?_, fun none => ?_⟩, named⟩
  · exact Option.some.inj (named.symm.trans eq) ▸ name
  · rcases column c eq with listed | ⟨-, rfl⟩
    · exact columns c listed
    · decide
  · rw [named] at none
    cases none

theorem mem_objects_create (member : o ∈ objects (onMain (fun tables => tables ++ [t]) databases)) :
    o ∈ objects databases ∨ o ∈ tableObjects "main" t := by
  rcases mem_objects_onMain member with ⟨old, -⟩ | ⟨d, present, main, u, table, inside⟩
  · exact .inl old
  · rcases mem_append.mp table with old | new
    · exact .inl (mem_objects.mpr ⟨d, present, .inr ⟨u, old, main ▸ inside⟩⟩)
    · obtain rfl := mem_singleton.mp new
      exact .inr inside

theorem onMain_main (f : List Table → List Table)
    (main : ∃ d ∈ databases, d.zName = "main") : ∃ d ∈ onMain f databases, d.zName = "main" := by
  obtain ⟨d, present, name⟩ := main
  exact ⟨_, mem_map_of_mem present, by simp [name]⟩

theorem mem_mainTables_onMain {f : List Table → List Table} :
    t ∈ mainTables (onMain f databases) ↔ ∃ d ∈ databases, d.zName = "main" ∧ t ∈ f d.tables := by
  rw [mem_mainTables]
  constructor
  · rintro ⟨d', present, main, table⟩
    obtain ⟨d, old, rfl⟩ := mem_map.mp present
    by_cases same : d.zName = "main"
    · exact ⟨d, old, same, by simpa [same] using table⟩
    · simp [same] at main
  · rintro ⟨d, old, main, table⟩
    exact ⟨{ d with tables := f d.tables }, mem_map.mpr ⟨d, old, by simp [main]⟩, main, table⟩

/-- The rows of new objects next to the old ones: each object gets the label that `hash`
has for it, and nothing changes for the objects that were there. -/
theorem Settled.append (settled : Settled lib s) {new : List ContextRow}
    (table : s.selinuxContext = some rows) (fresh : ∀ row ∈ new, row.object ∉ objects s.databases)
    (hits : ∀ row ∈ new, currentId lib s row.object = some row.securityLabel)
    (member : ∀ o ∈ objects databases, o ∈ objects s.databases ∨ ∃ row ∈ new, row.object = o)
    (main : ∃ d ∈ databases, d.zName = "main") (tidy : Tidy databases (rows ++ new)) :
    Settled lib { s with databases := databases, selinuxContext := some (rows ++ new) } where
  coherent := settled.coherent
  main := main
  plain o inside := by
    rcases member o inside with old | ⟨row, added, rfl⟩
    · exact settled.plain o old
    · exact tidy.plain row (mem_append_right _ added)
  table := ⟨_, rfl, tidy⟩
  survives o inside := by
    have plain row (added : row ∈ new) := tidy.plain row (mem_append_right _ added)
    have reload : reloadedId { s with databases := databases, selinuxContext := some (rows ++ new) }
        o = (lookup (loadContexts new) o.key).or (reloadedId s o) := by
      rw [reloadedId_of_table table]
      exact lookup_loadContexts_append rows new o.key
    rcases member o inside with old | ⟨row, added, rfl⟩
    · obtain ⟨id, current, reloaded⟩ := settled.survives o old
      have other := lookup_loadContexts_eq_none fun row added eq =>
          fresh row added ((plain row added).key_injective (settled.plain o old) eq ▸ old)
      exact ⟨id, current, by rw [reload, other, Option.none_or, reloaded]⟩
    · have found : lookup (loadContexts new) row.object.key = some row.securityLabel := by
        refine lookup_loadContexts_eq_some added rfl fun row' added' eq => ?_
        have hit := hits row' added'
        rw [(plain row' added').key_injective (plain row added) eq, hits row added] at hit
        exact (Option.some.inj hit).symm
      exact ⟨row.securityLabel, hits row added, by rw [reload, found, Option.some_or]⟩

theorem mem_tableObjects_extended (inside : o ∈ tableObjects "main" (storedTable t)) :
    o ∈ tableObjects "main" (extendedTable t) := by
  unfold storedTable at inside
  split at inside
  · exact inside
  · obtain ⟨db, named, column⟩ := mem_tableObjects.mp inside
    exact mem_tableObjects.mpr ⟨db, named, fun c eq =>
      (column c eq).imp_left fun old => mem_append_left _ old⟩

end

theorem Settled.createTable (settled : Settled lib s) (t : Table) (ex : Execution)
    (name : Plain t.zName) (columns : ∀ c ∈ t.columns, Plain c)
    (room : Registers ex.labels s (t.columns.length + 3)) :
    Settled lib (createTable lib s t ex) := by
  have plainColumn : Plain securityContextColumnName := by decide
  have objectPlain : ∀ o ∈ tableObjects "main" (extendedTable t),
      o.Plain ∧ o.tblName = some t.zName := by
    intro o inside
    refine plain_tableObjects (t := extendedTable t) name (fun c member => ?_) inside
    rcases mem_append.mp member with old | new
    · exact columns c old
    · exact mem_singleton.mp new ▸ plainColumn
  unfold Schema.createTable
  split
  · exact settled
  rename_i accepted
  have missing : findTable s t.zName = none := by
    simp only [Bool.or_eq_true, not_or, Option.not_isSome_iff_eq_none] at accepted
    exact accepted.1.1.2
  split
  · exact settled
  rename_i s' new labelled
  have length : (tableObjects "main" (extendedTable t)).length ≤ t.columns.length + 3 := by
    by_cases rowid : t.hasRowid <;> simp [tableObjects, extendedTable, rowid]
  obtain ⟨ext, shape, parsed, hits⟩ := labelObjects_spec settled.coherent
    (fun o inside => ⟨(objectPlain o inside).1, by simp [(objectPlain o inside).2]⟩)
    ⟨room.1, by have := room.2; omega⟩ labelled
  have settled' := settled.extend ext
  have listed : ∀ row ∈ new, row.object ∈ tableObjects "main" (extendedTable t) :=
    fun row added => shape ▸ mem_map_of_mem added
  split
  · exact settled'
  rename_i rows inserted
  split
  · obtain ⟨old, table, rfl⟩ := nestedInsert_plain parsed inserted
    obtain ⟨_, table', tidy⟩ := settled'.table
    obtain rfl : old = _ := Option.some.inj (table.symm.trans table')
    refine settled'.append table ?_ ?_ ?_ (onMain_main _ settled'.main) ⟨?_, ?_⟩
    · intro row added inside
      rw [ext.databases] at inside
      exact fresh_of_findTable_none missing inside
        ⟨(mem_tableObjects.mp (listed row added)).1, (objectPlain _ (listed row added)).2⟩
    · intro row added
      rw [currentId, hits row added, Option.some_or]
    · intro o inside
      refine (mem_objects_create inside).imp_right fun inside => ?_
      rw [← mem_map, shape]
      exact mem_tableObjects_extended inside
    · intro row member
      rcases mem_append.mp member with stored | added
      · exact tidy.plain row stored
      · exact (objectPlain _ (listed row added)).1
    · intro row member main nonempty
      rcases mem_append.mp member with stored | added
      · obtain ⟨u, present, eq⟩ := tidy.owned row stored main nonempty
        obtain ⟨d, inside, isMain, table⟩ := mem_mainTables.mp present
        exact ⟨u, mem_mainTables_onMain.mpr ⟨d, inside, isMain, mem_append_left _ table⟩, eq⟩
      · obtain ⟨d, present, isMain⟩ := settled'.main
        have named := (objectPlain _ (listed row added)).2
        refine ⟨storedTable t, mem_mainTables_onMain.mpr ⟨d, present, isMain, by simp⟩, ?_⟩
        have stored : (storedTable t).zName = t.zName := by
          unfold storedTable
          split <;> rfl
        simp only [ContextRow.object, nonempty, if_false, Option.some.injEq] at named
        rw [stored, named]
  · exact settled'

variable {row : ContextRow}

theorem names_of_object (eq : row.object = o) {tbl : String} (named : o.tblName = some tbl) :
    row.db = o.dbName ∧ row.name = tbl := by
  subst eq
  refine ⟨rfl, ?_⟩
  simp only [ContextRow.object] at named
  split at named
  · cases named
  · exact Option.some.inj named

theorem Settled.plain_table (settled : Settled lib s) (table : t ∈ mainTables s.databases) :
    Plain t.zName :=
  (settled.plain ⟨"main", some t.zName, none⟩
    (object_of_mainTable table (mem_tableObjects.mpr ⟨rfl, rfl, nofun⟩))).tbl _ rfl

theorem Settled.dropTable (settled : Settled lib s) (zName : String) (ex : Execution)
    (other : ¬sqlite3StrICmp zName selinuxContextName) : Settled lib (dropTable s zName ex) := by
  unfold Schema.dropTable
  split
  · exact settled
  rename_i t found
  split
  · exact settled
  split
  · exact settled
  rename_i rows deleted
  split
  swap
  · exact settled
  have plainName := settled.plain_table (findTable_some found).1
  obtain ⟨old, table, tidy⟩ := settled.table
  simp only [nestedDelete, table, Option.bind_eq_bind, Option.bind_some,
    quoted_of_plain plainName, Option.some.injEq] at deleted
  subst deleted
  rw [unlessContextTable_of_ne found other]
  -- an object that is left is an old one of another table
  have left : ∀ o ∈ objects (onMain (fun tables => tables.filter fun u => u.zName != t.zName)
      s.databases), o ∈ objects s.databases ∧ ¬(o.dbName = "main" ∧ o.tblName = some t.zName) := by
    intro o member
    rcases mem_objects_onMain member with ⟨inside, outside⟩ | ⟨d, present, main, u, kept, inside⟩
    · exact ⟨inside, fun both => outside ⟨both.1, by simp [both.2]⟩⟩
    · obtain ⟨here, different⟩ := mem_filter.mp kept
      refine ⟨mem_objects.mpr ⟨d, present, .inr ⟨u, here, main ▸ inside⟩⟩, fun both => ?_⟩
      have name := (mem_tableObjects.mp inside).2.1.symm.trans both.2
      simp [Option.some.inj name] at different
  refine ⟨settled.coherent, onMain_main _ settled.main,
    fun o member => settled.plain o (left o member).1,
    ⟨_, rfl, fun row member => tidy.plain row (mem_of_mem_filter member), ?_⟩, ?_⟩
  · intro row member main nonempty
    obtain ⟨stored, different⟩ := mem_filter.mp member
    obtain ⟨u, present, eq⟩ := tidy.owned row stored main nonempty
    obtain ⟨d, inside, isMain, here⟩ := mem_mainTables.mp present
    refine ⟨u, mem_mainTables_onMain.mpr ⟨d, inside, isMain, mem_filter.mpr ⟨here, ?_⟩⟩, eq⟩
    simpa [eq, main] using different
  · intro o member
    obtain ⟨inside, outside⟩ := left o member
    obtain ⟨id, current, reloaded⟩ := settled.survives o inside
    refine ⟨id, current, ?_⟩
    rw [reloadedId_of_table table] at reloaded
    rw [← reloaded]
    refine lookup_loadContexts_filter fun row stored eq => ?_
    have same_object := (tidy.plain row stored).key_injective (settled.plain o inside) eq
    by_contra gone
    simp only [Bool.not_eq_true, Bool.not_eq_false', Bool.and_eq_true, beq_iff_eq] at gone
    refine outside ⟨by rw [← same_object]; exact gone.1, ?_⟩
    rw [← same_object]
    simp [ContextRow.object, gone.2, plainName.1]

section

variable {zOld zNew : String}

variable {o : Object}

theorem mem_objects_rename {databases : List Database}
    (member : o ∈ objects (onMain (fun tables => tables.map fun u =>
      if u.zName = zOld then { u with zName := zNew } else u) databases)) :
    (o ∈ objects databases ∧ ¬(o.dbName = "main" ∧ o.tblName = some zOld)) ∨
      ∃ old ∈ objects databases, old.dbName = "main" ∧ old.tblName = some zOld ∧
        o = { old with tblName := some zNew } := by
  rcases mem_objects_onMain member with ⟨inside, outside⟩ | ⟨d, present, main, u', moved, inside⟩
  · exact .inl ⟨inside, fun both => outside ⟨both.1, by simp [both.2]⟩⟩
  · obtain ⟨u, here, rfl⟩ := mem_map.mp moved
    by_cases name : u.zName = zOld
    · simp only [name, if_true] at inside
      obtain ⟨db, named, column⟩ := mem_tableObjects.mp inside
      have old : { o with tblName := some zOld } ∈ tableObjects d.zName u :=
        mem_tableObjects.mpr ⟨main ▸ db, by rw [name], column⟩
      refine .inr ⟨{ o with tblName := some zOld },
        mem_objects.mpr ⟨d, present, .inr ⟨u, here, old⟩⟩, db, rfl, ?_⟩
      rw [← named]
    · simp only [name] at inside
      refine .inl ⟨mem_objects.mpr ⟨d, present, .inr ⟨u, here, main ▸ inside⟩⟩, fun both => name ?_⟩
      exact Option.some.inj ((mem_tableObjects.mp inside).2.1.symm.trans both.2)

theorem object_renameRow (old : Plain zOld) (new : Plain zNew) : (renameRow zOld zNew row).object =
      if row.object.dbName = "main" ∧ row.object.tblName = some zOld then
        { row.object with tblName := some zNew }
      else row.object := by
  have named : row.object.tblName = some zOld ↔ row.name = zOld := by
    simp only [ContextRow.object]
    split <;> rename_i empty
    · simp [empty, old.1.symm]
    · simp
  unfold renameRow
  split <;> rename_i hit
  · rw [if_pos ⟨hit.1, named.mpr hit.2⟩]
    simp [ContextRow.object, new.1]
  · rw [if_neg fun both => hit ⟨both.1, named.mp both.2⟩]

theorem Object.Plain.rename (plain : o.Plain) (new : Schema.Plain zNew) :
    Object.Plain { o with tblName := some zNew } :=
  ⟨plain.db, fun _ eq => Option.some.inj eq ▸ new, plain.col, nofun⟩

theorem key_renameRow_iff {o' : Object} (old : Plain zOld) (new : Plain zNew)
    (rowPlain : row.object.Plain) (plain : o.Plain) (plain' : o'.Plain)
    (moves : (if o.dbName = "main" ∧ o.tblName = some zOld then { o with tblName := some zNew }
      else o) = o') (free : ¬(row.object.dbName = "main" ∧ row.object.tblName = some zNew))
    (stays : ¬(o.dbName = "main" ∧ o.tblName = some zNew)) :
    (renameRow zOld zNew row).object.key = o'.key ↔ row.object.key = o.key := by
  have renamedPlain : (renameRow zOld zNew row).object.Plain := by
    rw [object_renameRow old new]
    split
    · exact rowPlain.rename new
    · exact rowPlain
  constructor
  · intro eq
    have objects := renamedPlain.key_injective plain' eq
    rw [object_renameRow old new, ← moves] at objects
    split at objects <;> split at objects <;> rename_i hit hit'
    · rw [show row.object = o by
        obtain ⟨db, tbl, col⟩ := o
        obtain ⟨first, second⟩ := hit
        obtain ⟨rfl, rfl⟩ := hit'
        have cols : row.object.colName = col := congrArg Object.colName objects
        rw [← first, ← second, ← cols]]
    · exact absurd ⟨by rw [← objects]; exact hit.1, by rw [← objects]⟩ stays
    · exact absurd ⟨by rw [objects]; exact hit'.1, by rw [objects]⟩ free
    · rw [objects]
  · intro eq
    have objects := rowPlain.key_injective plain eq
    rw [object_renameRow old new, objects, moves]

end

theorem Settled.renameTable (settled : Settled lib s) (zName zNew : String) (ex : Execution)
    (other : ¬sqlite3StrICmp zName selinuxContextName) (new : Plain zNew)
    (same_id : ∀ t, findTable s zName = some t → ∀ o ∈ objects s.databases,
      o.dbName = "main" → o.tblName = some t.zName →
        currentId lib s { o with tblName := some zNew } = currentId lib s o) :
    Settled lib (renameTable s zName zNew ex) := by
  unfold Schema.renameTable
  split
  · exact settled
  rename_i t found
  split
  · exact settled
  rename_i accepted
  have missing : findTable s zNew = none := by
    simp only [Bool.or_eq_true, not_or, Option.not_isSome_iff_eq_none] at accepted
    exact accepted.2
  split
  · exact settled
  rename_i rows updated
  split
  swap
  · exact settled
  have plainName := settled.plain_table (findTable_some found).1
  obtain ⟨stored, table, tidy⟩ := settled.table
  obtain rfl : rows = stored.map (renameRow t.zName zNew) := by
    simp only [nestedUpdate, table, Option.bind_eq_bind, Option.bind_some,
      quoted_of_plain plainName, quoted_of_plain new] at updated
    split at updated
    · cases updated
    · exact (Option.some.inj updated).symm
  rw [unlessContextTable_of_ne found other]
  have free : ∀ row ∈ stored, ¬(row.object.dbName = "main" ∧ row.object.tblName = some zNew) := by
    rintro row member ⟨main, named⟩
    obtain ⟨-, name⟩ := names_of_object rfl named
    obtain ⟨u, present, eq⟩ := tidy.owned row member main (name ▸ new.1)
    exact ne_of_findTable_none missing u present (eq.trans name)
  refine ⟨settled.coherent, onMain_main _ settled.main, fun o member => ?_, ⟨_, rfl, ?_, ?_⟩, ?_⟩
  · rcases mem_objects_rename member with ⟨inside, -⟩ | ⟨old, inside, -, -, rfl⟩
    · exact settled.plain o inside
    · exact (settled.plain old inside).rename new
  · intro row' member
    obtain ⟨row, inside, rfl⟩ := mem_map.mp member
    rw [object_renameRow plainName new]
    split
    · exact (tidy.plain row inside).rename new
    · exact tidy.plain row inside
  · intro row' member main nonempty
    obtain ⟨row, inside, rfl⟩ := mem_map.mp member
    unfold renameRow at main nonempty ⊢
    split at main <;> rename_i hit
    · simp only [hit]
      obtain ⟨d, present, isMain, here⟩ := mem_mainTables.mp (findTable_some found).1
      exact ⟨{ t with zName := zNew }, mem_mainTables_onMain.mpr ⟨d, present, isMain,
        mem_map.mpr ⟨t, here, by simp⟩⟩, rfl⟩
    · simp only [hit] at nonempty ⊢
      obtain ⟨u, present, eq⟩ := tidy.owned row inside main nonempty
      obtain ⟨d, present, isMain, here⟩ := mem_mainTables.mp present
      refine ⟨u, mem_mainTables_onMain.mpr ⟨d, present, isMain, mem_map.mpr ⟨u, here, ?_⟩⟩, eq⟩
      rw [if_neg (fun same => hit ⟨main, eq ▸ same⟩)]
  · have moved {o o' : Object} (inside : o ∈ objects s.databases) (plain : o'.Plain)
        (moves : (if o.dbName = "main" ∧ o.tblName = some t.zName then
          { o with tblName := some zNew } else o) = o')
    (same : currentId lib s o' = currentId lib s o) :
        ∃ id, currentId lib s o' = some id ∧
          lookup (loadContexts (stored.map (renameRow t.zName zNew))) o'.key = some id := by
      obtain ⟨id, current, reloaded⟩ := settled.survives o inside
      refine ⟨id, same.trans current, ?_⟩
      rw [← reloaded, reloadedId_of_table table]
      exact lookup_loadContexts_map (fun row => by unfold renameRow; split <;> rfl)
        fun row stored =>
        key_renameRow_iff plainName new (tidy.plain row stored) (settled.plain o inside) plain moves
          (free row stored) (fresh_of_findTable_none missing inside)
    intro o member
    rcases mem_objects_rename member with ⟨inside, outside⟩ | ⟨old, inside, main, named, rfl⟩
    · exact moved inside (settled.plain o inside) (if_neg outside) rfl
    · exact moved inside ((settled.plain old inside).rename new) (if_pos ⟨main, named⟩)
        (same_id t found old inside main named)

theorem mem_objects_addColumn {databases : List Database} {zTab zCol : String}
    (member : o ∈ objects (onMain (fun tables => tables.map fun u => if u.zName = zTab then
      { u with columns := u.columns ++ [zCol] } else u) databases)) :
    o ∈ objects databases ∨ ⟨"main", some zTab, some zCol⟩ = o := by
  rcases mem_objects_onMain member with ⟨inside, -⟩ | ⟨d, present, main, u', moved, inside⟩
  · exact .inl inside
  · obtain ⟨u, here, rfl⟩ := mem_map.mp moved
    by_cases name : u.zName = zTab
    · simp only [name, if_true] at inside
      obtain ⟨db, named, column⟩ := mem_tableObjects.mp inside
      by_cases new : o.colName = some zCol
      · right
        rw [← db, ← named, ← new]
      · refine .inl (mem_objects.mpr ⟨d, present, .inr ⟨u, here, mem_tableObjects.mpr
          ⟨main ▸ db, name ▸ named, fun c eq => ?_⟩⟩⟩)
        refine (column c eq).imp_left fun listed => ?_
        rcases mem_append.mp listed with old | last
        · exact old
        · exact absurd (mem_singleton.mp last ▸ eq) new
    · simp only [name] at inside
      exact .inl (mem_objects.mpr ⟨d, present, .inr ⟨u, here, main ▸ inside⟩⟩)

theorem Settled.fresh_of_nestedInsert (settled : Settled lib s) {con id : Int} {zTab zCol : String}
    {ex : Execution} (plain : Object.Plain ⟨"main", some zTab, some zCol⟩)
    (inserted : nestedInsert s.selinuxContext [⟨con, id, "main", zTab, some zCol⟩] ex = some rows) :
    ⟨"main", some zTab, some zCol⟩ ∉ objects s.databases := by
  intro inside
  obtain ⟨stored, table, tidy⟩ := settled.table
  obtain ⟨found, -, reloaded⟩ := settled.survives _ inside
  rw [reloadedId_of_table table, lookup_loadContexts] at reloaded
  obtain ⟨row, matching, -⟩ := mem_map.mp (mem_of_getLast? reloaded)
  obtain ⟨member, eq⟩ := mem_filter.mp matching
  have same_object := (tidy.plain row member).key_injective plain (of_decide_eq_true eq)
  obtain ⟨db, name⟩ := names_of_object same_object rfl
  have column : row.column = some zCol := by
    have col : row.object.colName = some zCol := by rw [same_object]
    simp only [ContextRow.object, Option.bind_eq_some_iff] at col
    obtain ⟨c, here, nonempty⟩ := col
    split at nonempty
    · cases nonempty
    · rw [here, nonempty]
  have conflict : conflicts ⟨con, id, "main", zTab, some zCol⟩ row := by
    simp [conflicts, db, name, column]
  have parsed : parsedRow ⟨con, id, "main", zTab, some zCol⟩ =
      some ⟨con, id, "main", zTab, some zCol⟩ := parsedRow_created plain rfl con id
  simp only [nestedInsert, table, parsed, insertRow, Option.bind_eq_bind, Option.bind_some,
    mapM_cons, mapM_nil, Option.pure_def, foldlM_cons, any_eq_true] at inserted
  rw [if_pos ⟨row, member, conflict⟩] at inserted
  cases inserted

theorem Settled.addColumn (settled : Settled lib s) (zName zCol : String) (ex : Execution)
    (plainCol : Plain zCol) (room : Registers ex.labels s 1)
    (known : ∀ t id, findTable s zName = some t →
      lookup s.hash (Object.key ⟨"main", some t.zName, some zCol⟩) = some id →
        (s.contexts.bind fun ctx => defaultOf lib ctx ⟨"main", some t.zName, some zCol⟩).bind
          (idOf s.labels.hashId) = some id) : Settled lib (addColumn lib s zName zCol zCol ex) := by
  unfold Schema.addColumn
  split
  · exact settled
  rename_i t found
  split
  · exact settled
  split
  · exact settled
  rename_i labels id labelled
  split
  · exact settled
  rename_i con _
  have plainName := settled.plain_table (findTable_some found).1
  have plain : Object.Plain ⟨"main", some t.zName, some zCol⟩ :=
    ⟨plain_main, fun _ eq => Option.some.inj eq ▸ plainName,
      fun _ eq => Option.some.inj eq ▸ plainCol, nofun⟩
  obtain ⟨ctx, label, tid, contexts, default, registers⟩ :=
    lookupSecurityLabel_returns (o := ⟨"main", some t.zName, some zCol⟩) rfl labelled
  obtain ⟨grown, registered⟩ :=
    settled.coherent.register room.1 (by have := room.2; omega) registers
  have settled' := settled.extend (extends_labels grown)
  split
  · exact settled'
  rename_i rows inserted
  split
  swap
  · exact settled'
  have object : ContextRow.object ⟨con, id, "main", t.zName, some zCol⟩ =
      ⟨"main", some t.zName, some zCol⟩ := object_created plain con id
  have parsed := parsedRow_created plain rfl con id
  obtain ⟨stored, table, rfl⟩ := nestedInsert_plain (by simpa using parsed) inserted
  obtain ⟨_, table', tidy⟩ := settled.table
  obtain rfl : stored = _ := Option.some.inj (table.symm.trans table')
  refine settled'.append table ?_ ?_ ?_ (onMain_main _ settled.main) ⟨?_, ?_⟩
  · simpa [object] using settled.fresh_of_nestedInsert plain inserted
  · simp only [mem_singleton, forall_eq, object, currentId]
    cases hit : lookup s.hash (Object.key ⟨"main", some t.zName, some zCol⟩) with
    | none => simp [contexts, default, registered]
    | some found =>
      have defaultId := known t found (by assumption) hit
      simp only [contexts, default, Option.bind_some] at defaultId
      have kept := grown.kept label found defaultId
      rw [Option.some_or, ← kept, registered]
  · intro o member
    simpa [object] using mem_objects_addColumn member
  · intro row member
    rcases mem_append.mp member with old | last
    · exact tidy.plain row old
    · rw [mem_singleton.mp last, object]
      exact plain
  · intro row member main nonempty
    have owner : ∃ u ∈ mainTables s.databases, u.zName = row.name := by
      rcases mem_append.mp member with old | last
      · exact tidy.owned row old main nonempty
      · exact ⟨t, (findTable_some found).1, by rw [mem_singleton.mp last]⟩
    obtain ⟨u, present, eq⟩ := owner
    obtain ⟨d, present, isMain, here⟩ := mem_mainTables.mp present
    exact ⟨_, mem_mainTables_onMain.mpr ⟨d, present, isMain, mem_map_of_mem here⟩,
      by split <;> exact eq⟩

end

end SeSqlite.Schema
