/- source: ext/security/sesqlite/sesqlite_init.c, ext/security/sesqlite/sesqlite_contexts.c,
   ext/security/sesqlite/sesqlite_authorizer.c
   digest: Which runs of schema operations leave the labels the next session reads. -/
import SeSqlite.Schema.Settled

set_option autoImplicit false
set_option relaxedAutoImplicit false

namespace SeSqlite.Schema

open Hash Names Contexts LabelIds ObjectLabels Lib.Runs List

/-- What relabelling a list of objects does: those agree afterwards, and so do all others
that agreed before. -/
structure Reloads (lib : Selinux) (os : List Object) (s s' : Session) : Prop where
  labels : Grown (2 * os.length) s.labels s'.labels
  contexts : s'.contexts = s.contexts
  databases : s'.databases = s.databases
  table : ∃ rows, s'.selinuxContext = some rows ∧ Tidy s.databases rows
  agrees : ∀ o : Object, o.Plain → o ∈ os ∨ Agrees lib s o → Agrees lib s' o

section

variable {lib : Selinux} {ctx : SesqliteContext} {env : Surroundings} {s s' : Session}

variable {o : Object} {databases : List Database} {row : ContextRow}

theorem lookup_replaceRow (rows : List ContextRow) (plain : o.Plain) (rowPlain : row.object.Plain) :
    lookup (loadContexts (replaceRow row rows)) o.key =
      if row.object = o then some row.securityLabel else lookup (loadContexts rows) o.key := by
  rw [replaceRow, lookup_loadContexts_append]
  split <;> rename_i eq
  · have last := lookup_loadContexts_eq_some (mem_singleton.mpr rfl) (congrArg Object.key eq)
        fun other member _ => by rw [mem_singleton.mp member]
    rw [last, Option.some_or]
  · have different : row.object.key ≠ o.key := fun same => eq (rowPlain.key_injective plain same)
    rw [lookup_loadContexts_eq_none (by simpa using different)]
    refine lookup_loadContexts_filter fun other _ here => ?_
    by_contra conflict
    rw [Bool.not_eq_true, Bool.not_eq_false'] at conflict
    exact different ((congrArg Object.key (object_eq_of_conflicts conflict)).symm.trans here)

theorem tidy_replaceRow {rows : List ContextRow} (tidy : Tidy databases rows)
    (plain : row.object.Plain) (owned : Owned databases row) :
    Tidy databases (replaceRow row rows) := by
  have cases : ∀ other ∈ replaceRow row rows, other ∈ rows ∨ other = row := by
    intro other member
    rcases mem_append.mp member with old | last
    · exact .inl (mem_of_mem_filter old)
    · exact .inr (mem_singleton.mp last)
  refine ⟨fun other member => ?_, fun other member => ?_⟩
  · rcases cases other member with old | rfl
    · exact tidy.plain other old
    · exact plain
  · rcases cases other member with old | rfl
    · exact tidy.owned other old
    · exact owned

variable {runs : Bool}

theorem relabelObject_ok (returns : relabelObject lib ctx env runs s o = .ok s') :
    ∃ label con, insertContext lib s.labels o.colName.isSome o.dbName o.tblName o.colName
        (o.rules ctx) ctx.tupleContext env = .ok label ∧
      insertContext lib label.1 false o.dbName (some selinuxContextName) none ctx.tupleContext
        ctx.tupleContext env = .ok con ∧
      s' = { s with
        labels := con.1
        hash := insertKey s.hash o.dbName o.tblName o.colName label.2
        selinuxContext :=
          if runs then s.selinuxContext.map (replaceRow
            ⟨con.2, label.2, o.dbName, o.tblName.getD "", some (o.colName.getD "")⟩)
          else s.selinuxContext } := by
  simp only [relabelObject, bind, Except.bind] at returns
  split at returns
  · cases returns
  rename_i label first
  split at returns
  · cases returns
  rename_i con second
  exact ⟨label, con, first, second, (Except.ok.inj returns).symm⟩

theorem relabelObject_returns (coherent : Coherent s.labels) (room : Registers env s 2)
    (returns : relabelObject lib ctx env runs s o = .ok s') :
    ∃ labels con id, Grown 2 s.labels labels ∧ s' = { s with
      labels := labels
      hash := insertKey s.hash o.dbName o.tblName o.colName id
      selinuxContext :=
        if runs then s.selinuxContext.map (replaceRow
          ⟨con, id, o.dbName, o.tblName.getD "", some (o.colName.getD "")⟩)
        else s.selinuxContext } := by
  obtain ⟨label, con, first, second, eq⟩ := relabelObject_ok returns
  obtain ⟨_, _, registers⟩ := insertContext_registers first
  obtain ⟨_, _, registers'⟩ := insertContext_registers second
  obtain ⟨grown, -⟩ := coherent.register room.1 (by have := room.2; omega) registers
  obtain ⟨grown', -⟩ := grown.coherent.register room.1
    (by have := room.2; have := grown.rowids; omega) registers'
  exact ⟨con.1, con.2, label.2, grown.trans grown', eq⟩

theorem relabelObjects_grown : ∀ {os : List Object} {s s' : Session},
    Coherent s.labels → Registers env s (2 * os.length) →
    os.foldlM (relabelObject lib ctx env runs) s = .ok s' →
    Grown (2 * os.length) s.labels s'.labels ∧ s'.contexts = s.contexts
  | [], s, s', coherent, _, returns => by
    obtain rfl : s = s' := Except.ok.inj returns
    exact ⟨coherent.grown_refl, rfl⟩
  | o :: os, s, s', coherent, room, returns => by
    obtain ⟨stored, room⟩ := room
    rw [length_cons] at room
    rw [foldlM_cons] at returns
    cases call : relabelObject lib ctx env runs s o with
    | error fault =>
      rw [call] at returns
      cases returns
    | ok middle =>
      rw [call] at returns
      obtain ⟨labels, con, id, grown, rfl⟩ :=
        relabelObject_returns coherent ⟨stored, by omega⟩ call
      have rowids := grown.rowids
      obtain ⟨later, contexts⟩ := relabelObjects_grown grown.coherent
        ⟨stored, by simp only; omega⟩ returns
      have both := grown.trans later
      rw [show 2 + 2 * os.length = 2 * (os.length + 1) by omega, ← length_cons] at both
      exact ⟨both, contexts⟩

theorem relabelObject_spec (inside : o ∈ objects s.databases) (plain : o.Plain)
    (coherent : Coherent s.labels)
    (table : ∃ rows, s.selinuxContext = some rows ∧ Tidy s.databases rows)
    (room : Registers env s 2) (returns : relabelObject lib ctx env true s o = .ok s') :
    Reloads lib [o] s s' := by
  obtain ⟨rows, stored, tidy⟩ := table
  obtain ⟨labels, con, id, grown, rfl⟩ := relabelObject_returns coherent room returns
  rw [stored]
  have object := object_reloaded plain con id
  have rowPlain := object.symm ▸ plain
  have owned : Owned s.databases
      ⟨con, id, o.dbName, o.tblName.getD "", some (o.colName.getD "")⟩ := by
    intro main nonempty
    cases named : o.tblName with
    | none => simp [named] at nonempty
    | some tbl =>
      obtain ⟨t, present, eq, -⟩ := table_of_object inside main named
      exact ⟨t, present, eq⟩
  refine ⟨grown, rfl, rfl, ⟨_, rfl, tidy_replaceRow tidy rowPlain owned⟩,
    fun other plain' before => ?_⟩
  have reload := lookup_replaceRow rows plain' rowPlain
  rw [object] at reload
  by_cases eq : o = other
  · subst eq
    exact ⟨id, by simp [currentId, lookup_insertKey], reload.trans (if_pos rfl)⟩
  · obtain ⟨found, current, reloaded⟩ :=
      before.resolve_left fun member => eq (mem_singleton.mp member).symm
    have other_key : o.key ≠ other.key := fun same => eq (plain.key_injective plain' same)
    rw [reloadedId_of_table stored] at reloaded
    exact ⟨found, currentId_kept grown
      (by simp [lookup_insertKey, other_key]) rfl current,
      (reload.trans (if_neg eq)).trans reloaded⟩

theorem relabelObjects_spec : ∀ {os : List Object} {s s' : Session},
    (∀ o ∈ os, o ∈ objects s.databases) → (∀ o ∈ objects s.databases, o.Plain) →
    Coherent s.labels → (∃ rows, s.selinuxContext = some rows ∧ Tidy s.databases rows) →
    Registers env s (2 * os.length) →
    os.foldlM (relabelObject lib ctx env true) s = .ok s' → Reloads lib os s s'
  | [], s, s', _, _, coherent, table, _, returns => by
    obtain rfl : s = s' := Except.ok.inj returns
    exact ⟨coherent.grown_refl, rfl, rfl, table, fun o _ before => before.resolve_left (by simp)⟩
  | o :: os, s, s', inside, plain, coherent, table, room, returns => by
    obtain ⟨runs, room⟩ := room
    rw [length_cons] at room
    rw [foldlM_cons] at returns
    cases call : relabelObject lib ctx env true s o with
    | error fault =>
      rw [call] at returns
      cases returns
    | ok middle =>
      rw [call] at returns
      have here := inside o (by simp)
      have first := relabelObject_spec here (plain o here) coherent table ⟨runs, by omega⟩ call
      have grown := first.labels.rowids
      have second := relabelObjects_spec (s := middle)
        (by rw [first.databases]; exact fun o later => inside o (mem_cons_of_mem _ later))
        (by rw [first.databases]; exact plain) first.labels.coherent
        (by rw [first.databases]; exact first.table)
        ⟨runs, by simp only [length_singleton] at grown; omega⟩ returns
      refine ⟨?_, second.contexts.trans first.contexts, second.databases.trans first.databases,
        first.databases ▸ second.table, fun other plain' before => ?_⟩
      · have both := first.labels.trans second.labels
        rwa [length_singleton, show 2 * 1 + 2 * os.length = 2 * (os.length + 1) by omega,
          ← length_cons] at both
      · refine second.agrees other plain' ?_
        rcases before with listed | agreed
        · rcases mem_cons.mp listed with rfl | later
          · exact .inr (first.agrees _ plain' (.inl (by simp)))
          · exact .inl later
        · exact .inr (first.agrees _ plain' (.inr agreed))

/-- The scan accepts an object when the filter of each of its levels does. -/
def Accepted (dbFilter tblFilter colFilter : Option String) (o : Object) : Prop :=
  filterAccepts dbFilter o.dbName ∧ o.tblName.all (filterAccepts tblFilter) ∧
    o.colName.all (filterAccepts colFilter)

theorem mem_reloadedObjects {dbFilter tblFilter colFilter : Option String} :
    o ∈ reloadedObjects databases dbFilter tblFilter colFilter ↔
      o ∈ objects databases ∧ Accepted dbFilter tblFilter colFilter o := by
  simp only [reloadedObjects, mem_flatMap, mem_filter, mem_reverse, mem_cons, mem_objects]
  constructor
  · rintro ⟨d, ⟨present, accepted⟩, rfl | ⟨t, ⟨table, accepted'⟩, inside, accepted''⟩⟩
    · exact ⟨⟨d, present, .inl rfl⟩, accepted, rfl, rfl⟩
    · obtain ⟨same, named, -⟩ := mem_tableObjects.mp inside
      exact ⟨⟨d, present, .inr ⟨t, table, inside⟩⟩, same.symm ▸ accepted,
        by simpa [named] using accepted', accepted''⟩
  · rintro ⟨⟨d, present, rfl | ⟨t, table, inside⟩⟩, accepted, accepted', accepted''⟩
    · exact ⟨d, ⟨present, accepted⟩, .inl rfl⟩
    · obtain ⟨same, named, -⟩ := mem_tableObjects.mp inside
      rw [same] at accepted
      exact ⟨d, ⟨present, accepted⟩, .inr ⟨t, ⟨table, by simpa [named] using accepted'⟩, inside,
        accepted''⟩⟩

theorem accepted_star (o : Object) : Accepted (some "*") (some "*") (some "*") o := by
  have star (name : String) : filterAccepts (some "*") name := by
    simp [filterAccepts, sqlite3StrNICmp]
  simp [Accepted, funext star]

variable {s : Session}

theorem Settled.getContext (settled : Settled lib s) (o : Object) (env : Surroundings)
    (plain : o.Plain) (room : Registers env s 1) :
    Settled lib (step lib s (.getContext o env)) := by
  simp only [step]
  split
  · exact settled
  · rename_i store id call
    rcases getContext_cases call with
      ⟨-, same⟩ | ⟨unknown, ctx, label, labels, contexts, default, registers, eq⟩
    · rw [same]
      exact settled
    · obtain ⟨grown, registered⟩ :=
        settled.coherent.register room.1 (by have := room.2; omega) registers
      rw [eq]
      exact settled.extend (extends_default plain unknown contexts default grown registered)

theorem Settled.insertId (settled : Settled lib s) (dbName label : String) (env : Surroundings)
    (room : Registers env s 1) : Settled lib (step lib s (.insertId dbName label env)) := by
  simp only [step]
  split
  · exact settled
  · rename_i labels id registers
    obtain ⟨grown, -⟩ := settled.coherent.register room.1 (by have := room.2; omega) registers
    exact settled.extend (extends_labels grown)

theorem Settled.chcon (settled : Settled lib s) (label : String) (o : Object) (env : Surroundings)
    (room : Registers env s 1) (same_id : ∀ other ∈ objects s.databases, other.key = o.key →
      currentId lib s other = idOf s.labels.hashId label) :
    Settled lib (chcon lib s label o env) := by
  unfold Schema.chcon
  split
  · exact settled
  split
  · exact settled
  rename_i labels id registers
  obtain ⟨grown, registered⟩ :=
    settled.coherent.register room.1 (by have := room.2; omega) registers
  refine ⟨grown.coherent, settled.main, settled.plain, settled.table, fun other inside => ?_⟩
  obtain ⟨found, current, reloaded⟩ := settled.survives other inside
  refine ⟨found, ?_, reloaded⟩
  by_cases eq : Contexts.makeKey o.dbName o.tblName o.colName = other.key
  · have known := (same_id other inside eq.symm).symm.trans current
    have agree : id = found := Option.some.inj (registered.symm.trans (grown.kept _ _ known))
    simp [currentId, insertKey, lookup_insert, same, eq, agree]
  · exact currentId_kept grown (by simp [insertKey, lookup_insert, same, eq]) rfl current

theorem settled_of_reloads {os : List Object} {s' : Session}
    (main : ∃ d ∈ s.databases, d.zName = "main") (plain : ∀ o ∈ objects s.databases, o.Plain)
    (reloads : Reloads lib os s s') (covered : ∀ o ∈ objects s.databases, o ∈ os ∨ Agrees lib s o) :
    Settled lib s' where
  coherent := reloads.labels.coherent
  main := reloads.databases ▸ main
  plain := reloads.databases ▸ plain
  table := by
    rw [reloads.databases]
    exact reloads.table
  survives o inside := by
    rw [reloads.databases] at inside
    exact reloads.agrees o (plain o inside) (covered o inside)

theorem Settled.restorecon (settled : Settled lib s) (dbName : String)
    (tblName colName : Option String) (file : Option SesqliteContext) (env : Surroundings)
    (room : Registers env s
      (2 * (reloadedObjects s.databases (some dbName) tblName colName).length))
    (same_default : ∀ ctx, file = some ctx → ∀ o ∈ objects s.databases,
      o ∉ reloadedObjects s.databases (some dbName) tblName colName → lookup s.hash o.key = none →
        (s.contexts.bind fun ctx => defaultOf lib ctx o) = defaultOf lib ctx o) :
    Settled lib (restorecon lib s dbName tblName colName file env true) := by
  unfold Schema.restorecon
  split
  · rename_i old ctx loaded
    split
    · exact settled
    rename_i s' returns
    have reloads : Reloads lib _ { s with contexts := some ctx } s' :=
      relabelObjects_spec (fun o member => (mem_reloadedObjects.mp member).1) settled.plain
        settled.coherent settled.table room returns
    refine settled_of_reloads (s := { s with contexts := some ctx }) settled.main settled.plain
      reloads fun o inside => or_iff_not_imp_left.mpr fun missed => ?_
    obtain ⟨id, current, reloaded⟩ := settled.survives o inside
    refine ⟨id, ?_, reloaded⟩
    unfold currentId at current ⊢
    cases hit : lookup s.hash o.key with
    | some found => simpa [hit] using current
    | none =>
      rw [same_default ctx rfl o inside missed hit] at current
      simpa [hit] using current
  · exact settled

theorem Settled.step (settled : Settled lib s) (op : Op) (keeps : Keeps lib s op) :
    Settled lib (step lib s op) := by
  cases op with
  | createTable t ex => exact settled.createTable t ex keeps.1 keeps.2.1 keeps.2.2
  | dropTable zName ex => exact settled.dropTable zName ex keeps
  | renameTable zName zNew ex => exact settled.renameTable zName zNew ex keeps.1 keeps.2.1 keeps.2.2
  | addColumn zName zCol zDef ex =>
    obtain ⟨plain, rfl, room, known⟩ := keeps
    exact settled.addColumn zName zDef ex plain room known
  | getContext o env => exact settled.getContext o env keeps.1 keeps.2
  | insertId dbName label env => exact settled.insertId dbName label env keeps
  | chcon label o env => exact settled.chcon label o env keeps.1 keeps.2
  | restorecon dbName tblName colName file env runs =>
    obtain ⟨rfl, room, same_default⟩ := keeps
    exact settled.restorecon dbName tblName colName file env room same_default

theorem settled_loadSesqliteContexts {ctx : SesqliteContext} {env : Surroundings} {start : Session}
    (coherent : Coherent s.labels) (main : ∃ d ∈ s.databases, d.zName = "main")
    (plain : ∀ o ∈ objects s.databases, o.Plain) (table : s.selinuxContext = some [])
    (room : Registers env s
      (2 * (reloadedObjects s.databases (some "*") (some "*") (some "*")).length))
    (loads : loadSesqliteContexts lib ctx env true s = .ok start) : Settled lib start := by
  have reloads : Reloads lib _ { s with contexts := some ctx } start :=
    relabelObjects_spec (fun o member => (mem_reloadedObjects.mp member).1) plain coherent
      ⟨[], table, by simp, by simp⟩ room loads
  exact settled_of_reloads (s := { s with contexts := some ctx }) main plain reloads
    fun o inside => .inl (mem_reloadedObjects.mpr ⟨inside, accepted_star o⟩)

/-- Schema labels survive reopening in every run whose operations meet their conditions. -/
theorem visits_survives {ctx : SesqliteContext} {env : Surroundings} {start : Session}
    (coherent : Coherent s.labels) (main : ∃ d ∈ s.databases, d.zName = "main")
    (plain : ∀ o ∈ objects s.databases, o.Plain) (table : s.selinuxContext = some [])
    (room : Registers env s
      (2 * (reloadedObjects s.databases (some "*") (some "*") (some "*")).length))
    (loads : loadSesqliteContexts lib ctx env true s = .ok start) {run : List Op}
    (keeps : Along (Schema.step lib) (Keeps lib) start run) :
    Visits (Schema.step lib) (Survives lib) start run :=
  Lib.Runs.visits_of_invariant (fun _ settled => settled.survives)
    (fun _ op settled keeps => settled.step op keeps)
    (settled_loadSesqliteContexts coherent main plain table room loads) keeps

end

/-- A rule file with one rule of each kind, and a policy that computes no label. -/
def oneRuleEach : SesqliteContext where
  dbContext := [⟨"*", "*", "*", "db_t"⟩]
  tableContext := [⟨"*", "*", "*", "table_t"⟩]
  columnContext := [⟨"*", "*", "*", "column_t"⟩]
  tupleContext := [⟨"*", "*", "*", "tuple_t"⟩]

def silent : Selinux := ⟨none, fun _ => true, fun _ _ _ _ => true⟩

def stores : Surroundings := ⟨true, fun _ => ""⟩

def mapped : Session where
  labels := LabelIds.step silent (some oneRuleEach) LabelIds.empty
    (.register (.mapTuple "tuple_t" stores))
  hash := sqliteHashInit
  contexts := none
  databases := [⟨"main", []⟩]
  selinuxContext := some []

theorem coherent_mapped : Coherent mapped.labels :=
  LabelIds.Coherent.keep LabelIds.empty (.register (.mapTuple "tuple_t" stores))
    LabelIds.coherent_empty (fun _ => ⟨rfl, by decide⟩)

theorem plain_mapped : ∀ o ∈ objects mapped.databases, o.Plain := by
  intro o inside
  obtain rfl : o = ⟨"main", none, none⟩ := by simpa [objects, mapped] using inside
  exact ⟨by decide, by simp, by simp, fun _ => rfl⟩

def loaded : Session :=
  (loadSesqliteContexts silent oneRuleEach stores true mapped).toOption.getD mapped

theorem loads_mapped : loadSesqliteContexts silent oneRuleEach stores true mapped = .ok loaded :=
  rfl

def succeeds : Execution := ⟨stores, some, true⟩

def createThenDrop : List Op :=
  [.createTable ⟨"t", ["a"], true⟩ succeeds, .chcon "table_t" ⟨"main", some "t", none⟩ stores,
    .dropTable "T" succeeds]

theorem visits_survives_createThenDrop :
    Visits (step silent) (Survives silent) loaded createThenDrop := by
  refine visits_survives coherent_mapped ⟨_, mem_singleton.mpr rfl, rfl⟩ plain_mapped rfl
    ⟨rfl, by decide⟩ loads_mapped ⟨?_, ?_, ?_, trivial⟩
  · exact ⟨by decide, by decide, rfl, by decide⟩
  · exact ⟨⟨rfl, by decide⟩, by decide⟩
  · show ¬_
    decide

/-- A label changed by `chcon` is known to this session only. -/
theorem chcon_notPersisted :
    let s := step silent loaded (.chcon "secret_t" ⟨"main", none, none⟩ stores)
    ⟨"main", none, none⟩ ∈ objects s.databases ∧ currentId silent s ⟨"main", none, none⟩ = some 3 ∧
      reloadedId s ⟨"main", none, none⟩ = some 2 := by
  decide

end SeSqlite.Schema
