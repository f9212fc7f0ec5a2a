/- source: ext/security/sesqlite/sesqlite_authorizer.c, ext/security/sesqlite/sesqlite_init.c,
   ext/security/sesqlite/sesqlite_contexts.c
   digest: Labels of schema objects in memory against the labels the next session reads. -/
import SeSqlite.Schema.Keys

set_option autoImplicit false
set_option relaxedAutoImplicit false

namespace SeSqlite.Schema

open Hash Names Contexts LabelIds ObjectLabels List

section

variable (lib : Selinux)

def defaultOf (ctx : SesqliteContext) (o : Object) : Option String :=
  defaultLabel lib ctx o.dbName o.tblName o.colName o.tclass

/-- The id that `getContext` returns for an object without registering a label. -/
def currentId (s : Session) (o : Object) : Option Int :=
  (lookup s.hash o.key).or ((s.contexts.bind fun ctx => defaultOf lib ctx o).bind
    (idOf s.labels.hashId))

/-- The id that the next session reads for an object. -/
def reloadedId (s : Session) (o : Object) : Option Int :=
  lookup (loadContexts (s.selinuxContext.getD [])) o.key

def Agrees (s : Session) (o : Object) : Prop :=
  ∃ id, currentId lib s o = some id ∧ reloadedId s o = some id

/-- Every object of the schema has the same label for this session and for the next. -/
def Survives (s : Session) : Prop := ∀ o ∈ objects s.databases, Agrees lib s o

/-- There is room for so many more labels, and the INSERT that stores them runs. -/
def Registers (env : Surroundings) (s : Session) (n : Nat) : Prop :=
  env.insertRuns ∧ newRowid s.labels.current.selinuxId + n ≤ 2 ^ 31

def Keeps (s : Session) : Op → Prop
  | .createTable t ex =>
    Plain t.zName ∧ (∀ c ∈ t.columns, Plain c) ∧ Registers ex.labels s (t.columns.length + 3)
  | .dropTable zName _ => ¬sqlite3StrICmp zName selinuxContextName
  | .renameTable zName zNew _ =>
    ¬sqlite3StrICmp zName selinuxContextName ∧ Plain zNew ∧
      ∀ t, findTable s zName = some t → ∀ o ∈ objects s.databases,
        o.dbName = "main" → o.tblName = some t.zName →
          currentId lib s { o with tblName := some zNew } = currentId lib s o
  | .addColumn zName zCol zDef ex =>
    Plain zCol ∧ zDef = zCol ∧ Registers ex.labels s 1 ∧
      ∀ t id, findTable s zName = some t →
        lookup s.hash (Object.key ⟨"main", some t.zName, some zCol⟩) = some id →
          (s.contexts.bind fun ctx => defaultOf lib ctx ⟨"main", some t.zName, some zCol⟩).bind
            (idOf s.labels.hashId) = some id
  | .getContext o env => o.Plain ∧ Registers env s 1
  | .insertId _ _ env => Registers env s 1
  | .chcon label o env =>
    Registers env s 1 ∧ ∀ other ∈ objects s.databases, other.key = o.key →
      currentId lib s other = idOf s.labels.hashId label
  | .restorecon dbName tblName colName file env runs =>
    let reloaded := reloadedObjects s.databases (some dbName) tblName colName
    runs ∧ Registers env s (2 * reloaded.length) ∧
      ∀ ctx, file = some ctx → ∀ o ∈ objects s.databases, o ∉ reloaded →
        lookup s.hash o.key = none →
          (s.contexts.bind fun ctx => defaultOf lib ctx o) = defaultOf lib ctx o

variable {t : Table} {o : Object} {databases : List Database} {tbl : String}

theorem mem_tableObjects {dbName : String} :
    o ∈ tableObjects dbName t ↔ o.dbName = dbName ∧ o.tblName = some t.zName ∧
      ∀ c, o.colName = some c → c ∈ t.columns ∨ t.hasRowid ∧ c = "ROWID" := by
  obtain ⟨db, tbl, col⟩ := o
  cases col with
  | none => simp [tableObjects]
  | some c =>
    simp only [tableObjects, mem_cons, mem_map, mem_append, Object.mk.injEq, Option.some.injEq]
    constructor
    · rintro (⟨-, -, ⟨⟩⟩ | ⟨c', member, rfl, rfl, rfl⟩)
      refine ⟨rfl, rfl, ?_⟩
      rintro _ rfl
      rcases member with column | rowid
      · exact .inl column
      · split at rowid
        · exact .inr ⟨by assumption, by simpa using rowid⟩
        · cases rowid
    · rintro ⟨rfl, rfl, column⟩
      refine .inr ⟨c, ?_, rfl, rfl, rfl⟩
      rcases column c rfl with column | ⟨rowid, rfl⟩
      · exact .inl column
      · exact .inr (by simp [rowid])

theorem mem_objects : o ∈ objects databases ↔ ∃ d ∈ databases,
      o = ⟨d.zName, none, none⟩ ∨ ∃ t ∈ d.tables, o ∈ tableObjects d.zName t := by
  simp [objects]

theorem mem_mainTables :
    t ∈ mainTables databases ↔ ∃ d ∈ databases, d.zName = "main" ∧ t ∈ d.tables := by
  simp [mainTables, and_assoc]

theorem table_of_object (member : o ∈ objects databases) (main : o.dbName = "main")
    (named : o.tblName = some tbl) :
    ∃ t ∈ mainTables databases, t.zName = tbl ∧ o ∈ tableObjects "main" t := by
  obtain ⟨d, present, rfl | ⟨t, table, inside⟩⟩ := mem_objects.mp member
  · cases named
  · obtain ⟨db, name, -⟩ := mem_tableObjects.mp inside
    rw [← db, main] at inside
    exact ⟨t, mem_mainTables.mpr ⟨d, present, db.symm.trans main, table⟩,
      Option.some.inj (name.symm.trans named), inside⟩

/-- After a change to the tables of `main`, an object is an old one outside the tables of
`main`, or belongs to one of the new tables. -/
theorem mem_objects_onMain {f : List Table → List Table}
    (member : o ∈ objects (onMain f databases)) :
    (o ∈ objects databases ∧ ¬(o.dbName = "main" ∧ o.tblName.isSome)) ∨
      ∃ d ∈ databases, d.zName = "main" ∧ ∃ t ∈ f d.tables, o ∈ tableObjects "main" t := by
  obtain ⟨d', present', inside⟩ := mem_objects.mp member
  obtain ⟨d, present, rfl⟩ := mem_map.mp present'
  by_cases main : d.zName = "main"
  · simp only [main] at inside
    rcases inside with rfl | ⟨t, table, inside⟩
    · exact .inl ⟨mem_objects.mpr ⟨d, present, .inl (by simp [main])⟩, by simp⟩
    · exact .inr ⟨d, present, main, t, table, inside⟩
  · simp only [main] at inside
    refine .inl ⟨mem_objects.mpr ⟨d, present, inside⟩, fun both => main ?_⟩
    rcases inside with rfl | ⟨t, -, inside⟩
    · exact both.1
    · exact (mem_tableObjects.mp inside).1 ▸ both.1

variable {lib : Selinux} {s s' : Session} {env : Surroundings}

theorem currentId_kept {n : Nat} {o : Object} {id : Int} (grown : Grown n s.labels s'.labels)
    (hash : lookup s'.hash o.key = lookup s.hash o.key) (contexts : s'.contexts = s.contexts)
    (current : currentId lib s o = some id) : currentId lib s' o = some id := by
  unfold currentId at current ⊢
  rw [hash, contexts]
  cases hit : lookup s.hash o.key with
  | some found => simpa [hit] using current
  | none =>
    simp only [hit, Option.none_or, Option.bind_eq_some_iff] at current ⊢
    obtain ⟨label, default, known⟩ := current
    exact ⟨label, default, grown.kept label id known⟩

/-- What labelling does short of changing a label: the schema and the stored rows stay,
and no object gets another id. -/
structure Extends (lib : Selinux) (n : Nat) (s s' : Session) : Prop where
  labels : Grown n s.labels s'.labels
  hash : ∀ key id, lookup s.hash key = some id → lookup s'.hash key = some id
  current : ∀ o : Object, o.Plain → ∀ id, currentId lib s o = some id → currentId lib s' o = some id
  contexts : s'.contexts = s.contexts
  databases : s'.databases = s.databases
  table : s'.selinuxContext = s.selinuxContext

section

variable {labels : LabelIds.Session} {o : Object} {id : Int} {tbl : String}
  {r : LabelIds.Session × Int}

private theorem Extends.refl (coherent : Coherent s.labels) : Extends lib 0 s s :=
  ⟨coherent.grown_refl, fun _ _ hit => hit, fun _ _ _ current => current, rfl, rfl, rfl⟩

private theorem Extends.trans {n m : Nat} {s'' : Session} (first : Extends lib n s s')
    (second : Extends lib m s' s'') : Extends lib (n + m) s s'' where
  labels := first.labels.trans second.labels
  hash key id hit := second.hash key id (first.hash key id hit)
  current o plain id current := second.current o plain id (first.current o plain id current)
  contexts := second.contexts.trans first.contexts
  databases := second.databases.trans first.databases
  table := second.table.trans first.table

theorem extends_labels (grown : Grown 1 s.labels labels) :
    Extends lib 1 s { s with labels := labels } where
  labels := grown
  hash _ _ hit := hit
  current _ _ _ current := currentId_kept grown rfl rfl current
  contexts := rfl
  databases := rfl
  table := rfl

theorem extends_default {ctx : SesqliteContext} {label : String} (plain : o.Plain)
    (unknown : lookup s.hash o.key = none) (contexts : s.contexts = some ctx)
    (default : defaultOf lib ctx o = some label) (grown : Grown 1 s.labels labels)
    (registered : idOf labels.hashId label = some id) : Extends lib 1 s
      { s with labels := labels, hash := insertKey s.hash o.dbName o.tblName o.colName id } where
  labels := grown
  hash key found hit := by
    have different : o.key ≠ key := by
      rintro rfl
      simp [unknown] at hit
    simpa [insertKey, lookup_insert, same, show ¬Contexts.makeKey _ _ _ = key from different]
      using hit
  current other plain' found current := by
    by_cases eq : o.key = other.key
    · obtain rfl := plain.key_injective plain' eq
      have known : idOf s.labels.hashId label = some found := by
        simpa [currentId, unknown, contexts, default] using current
      have agree : id = found := Option.some.inj (registered.symm.trans (grown.kept _ _ known))
      simp [currentId, insertKey, lookup_insert, same, Object.key, agree]
    · have other_key : ¬Contexts.makeKey o.dbName o.tblName o.colName = other.key := eq
      exact currentId_kept grown (by simp [insertKey, lookup_insert, same, other_key]) rfl current
  contexts := rfl
  databases := rfl
  table := rfl

theorem lookupSecurityLabel_returns {contexts : Option SesqliteContext}
    (named : o.tblName = some tbl)
    (returns : lookupSecurityLabel lib contexts labels o.colName.isSome o.dbName o.tblName o.colName
      env = .ok r) : ∃ ctx label tid, contexts = some ctx ∧ defaultOf lib ctx o = some label ∧
      registerLabel labels label tid env = .ok r := by
  obtain ⟨db, _, col⟩ := o
  obtain rfl : _ = some tbl := named
  cases contexts with
  | none => cases returns
  | some ctx =>
    simp only [lookupSecurityLabel, Contexts.rules, bind, Except.bind] at returns
    split at returns
    · cases returns
    · rename_i label computed
      refine ⟨ctx, label, _, rfl, ?_, returns⟩
      cases col <;> simpa [defaultOf, defaultLabel, Object.tclass] using computed

theorem insertContext_registers {isColumn : Bool} {dbName : String}
    {tblName colName : Option String} {con tup : List Contexts.SesqliteContextElement}
    (returns : insertContext lib labels isColumn dbName tblName colName con tup env = .ok r) :
    ∃ label tid, registerLabel labels label tid env = .ok r := by
  unfold insertContext at returns
  split at returns
  · cases returns
  · exact ⟨_, _, returns⟩

private theorem labelObject_spec (coherent : Coherent s.labels) (plain : o.Plain)
    (named : o.tblName = some tbl) (room : Registers env s 1)
    (returns : labelObject lib s o env = .ok (s', id)) :
    Extends lib 1 s s' ∧ lookup s'.hash o.key = some id := by
  unfold labelObject at returns
  cases known : lookup s.hash o.key with
  | some found =>
    rw [known] at returns
    cases returns
    have refl : Extends lib 0 s s := .refl coherent
    exact ⟨{ refl with labels := refl.labels.mono (by omega) }, known⟩
  | none =>
    rw [known] at returns
    cases call : lookupSecurityLabel lib s.contexts s.labels o.colName.isSome o.dbName o.tblName
        o.colName env with
    | error fault =>
      simp only [call] at returns
      cases returns
    | ok r =>
      simp only [call] at returns
      obtain ⟨rfl, rfl⟩ := Prod.mk.inj (Except.ok.inj returns)
      obtain ⟨ctx, label, tid, contexts, default, registers⟩ :=
        lookupSecurityLabel_returns named call
      obtain ⟨grown, registered⟩ := coherent.register room.1 (by have := room.2; omega) registers
      exact ⟨extends_default plain known contexts default grown registered,
        by simp [insertKey, lookup_insert, same, Object.key]⟩

end

theorem object_created (plain : o.Plain) (con id : Int) :
    ContextRow.object ⟨con, id, o.dbName, o.tblName.getD "", o.colName⟩ = o := by
  obtain ⟨db, tbl, col⟩ := o
  rcases tbl with _ | tbl <;> rcases col with _ | col
  · simp [ContextRow.object]
  · cases plain.nested rfl
  · simp [ContextRow.object, (plain.tbl tbl rfl).1]
  · simp [ContextRow.object, (plain.tbl tbl rfl).1, (plain.col col rfl).1]

theorem object_reloaded (plain : o.Plain) (con id : Int) :
    ContextRow.object ⟨con, id, o.dbName, o.tblName.getD "", some (o.colName.getD "")⟩ = o := by
  refine Eq.trans ?_ (object_created plain con id)
  cases o.colName <;> rfl

theorem parsedRow_created (plain : o.Plain) (named : o.tblName = some tbl) (con id : Int) :
    parsedRow ⟨con, id, o.dbName, o.tblName.getD "", o.colName⟩ =
      some ⟨con, id, o.dbName, o.tblName.getD "", o.colName⟩ := by
  have name := quoted_of_plain (plain.tbl tbl named)
  cases column : o.colName with
  | none => simp [parsedRow, named, name]
  | some c => simp [parsedRow, named, name, quoted_of_plain (plain.col c column)]

theorem object_eq_of_conflicts {row other : ContextRow} (conflict : conflicts row other) :
    other.object = row.object := by
  simp only [conflicts, Bool.and_eq_true, beq_iff_eq] at conflict
  obtain ⟨⟨⟨-, db⟩, name⟩, column⟩ := conflict
  simp [ContextRow.object, db, name, column]

private theorem foldlM_insertRow : ∀ {new rows rows' : List ContextRow},
    new.foldlM insertRow rows = some rows' → rows' = rows ++ new
  | [], rows, rows', done => by simpa using done.symm
  | row :: new, rows, rows', done => by
    rw [foldlM_cons, Option.bind_eq_bind, Option.bind_eq_some_iff] at done
    obtain ⟨middle, first, rest⟩ := done
    obtain rfl : rows ++ [row] = middle := by
      unfold insertRow at first
      split at first
      · cases first
      · exact Option.some.inj first
    simpa using foldlM_insertRow rest

theorem nestedInsert_plain {table : Option (List ContextRow)} {new rows : List ContextRow}
    {ex : Execution} (parsed : ∀ row ∈ new, parsedRow row = some row)
    (done : nestedInsert table new ex = some rows) : ∃ old, table = some old ∧
      rows = old ++ new := by
  have unchanged : new.mapM parsedRow = some new := by
    clear done
    induction new with
    | nil => rfl
    | cons row rest ih =>
      obtain ⟨head, tail⟩ := forall_mem_cons.mp parsed
      simp [head, ih tail]
  cases table with
  | none => cases done
  | some old =>
    simp only [nestedInsert, unchanged] at done
    exact ⟨old, rfl, foldlM_insertRow done⟩

theorem labelObjects_spec {lib : Selinux} {env : Surroundings} : ∀ {os : List Object}
    {s s' : Session}
    {new : List ContextRow}, Coherent s.labels → (∀ o ∈ os, o.Plain ∧ o.tblName.isSome) →
    Registers env s os.length → labelObjects lib env os s = .ok (s', new) →
    Extends lib os.length s s' ∧ new.map ContextRow.object = os ∧
      (∀ row ∈ new, parsedRow row = some row) ∧
      ∀ row ∈ new, lookup s'.hash row.object.key = some row.securityLabel
  | [], s, s', new, coherent, _, _, returns => by
    obtain ⟨rfl, rfl⟩ := Prod.mk.inj (Except.ok.inj returns)
    exact ⟨.refl coherent, rfl, by simp, by simp⟩
  | o :: os, s, s', new, coherent, plain, room, returns => by
    obtain ⟨plainHead, named⟩ := plain o (by simp)
    obtain ⟨tbl, named⟩ := Option.isSome_iff_exists.mp named
    have headRoom : Registers env s 1 := ⟨room.1, by have := room.2; simp at this; omega⟩
    simp only [labelObjects, bind, Except.bind] at returns
    split at returns
    · cases returns
    rename_i r labelled
    obtain ⟨first, hit⟩ := labelObject_spec coherent plainHead named headRoom labelled
    split at returns
    · cases returns
    rename_i con _
    split at returns
    · cases returns
    rename_i rs rest
    obtain ⟨rfl, rfl⟩ := Prod.mk.inj (Except.ok.inj returns)
    have restRoom : Registers env r.1 os.length :=
      ⟨room.1, by have := room.2; have := first.labels.rowids; simp at *; omega⟩
    obtain ⟨second, shape, parsed, hits⟩ := labelObjects_spec first.labels.coherent
      (fun o member => plain o (mem_cons_of_mem _ member)) restRoom rest
    refine ⟨by simpa [Nat.add_comm] using first.trans second, ?_, ?_, ?_⟩
    · simp [shape, object_created plainHead]
    · simpa using ⟨parsedRow_created plainHead named con r.2, parsed⟩
    · simp only [forall_mem_cons, object_created plainHead]
      exact ⟨second.hash _ _ hit, hits⟩

end

end SeSqlite.Schema
