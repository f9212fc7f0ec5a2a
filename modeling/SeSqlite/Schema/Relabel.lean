/- source: ext/security/sesqlite/sesqlite_contexts.c, ext/security/sesqlite/sesqlite_utils.c,
   ext/security/sesqlite/sesqlite_init.c
   digest: Which labels a relabelling changes: keys that collide, and what restorecon visits. -/
import SeSqlite.Schema.Runs

set_option autoImplicit false
set_option relaxedAutoImplicit false

namespace SeSqlite.Schema

open BiHash Hash Names Contexts LabelIds ObjectLabels List Option

/-- Where `selinux_context` keeps the label of an object. -/
def Object.place (o : Object) : String × String × String :=
  (o.dbName, o.tblName.getD "", o.colName.getD "")

def ContextRow.place (row : ContextRow) : String × String × String :=
  (row.db, row.name, row.column.getD "")

/-- The label that the rows store for an object, the last of them deciding. -/
def storedLabel (rows : List ContextRow) (o : Object) : Option Int :=
  (rows.reverse.find? fun row => row.place = o.place).map ContextRow.securityLabel

private theorem storedLabel_replaceRow (rows : List ContextRow) (row : ContextRow) (o : Object) :
    storedLabel (replaceRow row rows) o =
      if row.place = o.place then some row.securityLabel else storedLabel rows o := by
  rw [storedLabel, replaceRow, reverse_append, reverse_singleton, singleton_append,
    ← filter_reverse]
  split <;> rename_i here
  · rw [find?_cons_of_pos (by simpa using here), map_some]
  · rw [find?_cons_of_neg (by simpa using here), find?_filter]
    congr 2
    funext other
    by_cases there : other.place = o.place
    · have kept : conflicts row other = false := by
        by_contra conflict
        simp only [conflicts, Bool.not_eq_false, Bool.and_eq_true, beq_iff_eq] at conflict
        exact here (by rw [← there, ContextRow.place, ContextRow.place, conflict.1.1.2,
          conflict.1.2, conflict.2])
      simp [kept]
    · simp [there]

variable {s : Session} {o : Object}

section

variable {lib : Selinux} {ctx : SesqliteContext} {env : Surroundings} {runs : Bool}

private theorem foldlM_snoc {os : List Object} {v : Object} {s' : Session}
    (returns : (os ++ [v]).foldlM (relabelObject lib ctx env runs) s = .ok s') :
    ∃ t, os.foldlM (relabelObject lib ctx env runs) s = .ok t ∧
      relabelObject lib ctx env runs t v = .ok s' := by
  rw [foldlM_append] at returns
  cases first : os.foldlM (relabelObject lib ctx env runs) s with
  | error fault =>
    rw [first] at returns
    cases returns
  | ok t =>
    rw [first] at returns
    exact ⟨t, rfl, (bind_pure _).symm.trans returns⟩

private theorem lookup_of_unvisited {key : String} : ∀ {os : List Object} {s s' : Session},
    os.foldlM (relabelObject lib ctx env runs) s = .ok s' → (∀ o ∈ os, o.key ≠ key) →
    lookup s'.hash key = lookup s.hash key := by
  intro os
  induction os using List.reverseRecOn with
  | nil =>
    intro s s' returns _
    rw [← Except.ok.inj returns]
  | append_singleton os v ih =>
    intro s s' returns away
    obtain ⟨t, first, last⟩ := foldlM_snoc returns
    obtain ⟨label, con, -, -, rfl⟩ := relabelObject_ok last
    rw [lookup_insertKey, if_neg (away v (by simp))]
    exact ih first fun o member => away o (by simp [member])

/-- The id that `insert_context` answers for the default of an object, when the scan of `os`
from `s` comes to it. -/
def ResetTo (lib : Selinux) (ctx : SesqliteContext) (env : Surroundings) (os : List Object)
    (s : Session) (o : Object) (id : Int) : Prop :=
  ∃ before after t labels, os = before ++ o :: after ∧
    before.foldlM (relabelObject lib ctx env true) s = .ok t ∧
    insertContext lib t.labels o.colName.isSome o.dbName o.tblName o.colName (o.rules ctx)
      ctx.tupleContext env = .ok (labels, id)

/-- What a scan does to an object that shares its key and its row with no other one: a
visited object is reset, all others stay. -/
structure Effect (lib : Selinux) (ctx : SesqliteContext) (env : Surroundings) (os : List Object)
    (s s' : Session) (rows rows' : List ContextRow) (o : Object) : Prop where
  visited : o ∈ os → ∃ id, ResetTo lib ctx env os s o id ∧ lookup s'.hash o.key = some id ∧
    storedLabel rows' o = some id
  others : o ∉ os → lookup s'.hash o.key = lookup s.hash o.key ∧
    storedLabel rows' o = storedLabel rows o

private theorem effect_of_scan {rows : List ContextRow} (table : s.selinuxContext = some rows) :
    ∀ {os : List Object} {s' : Session},
    os.foldlM (relabelObject lib ctx env true) s = .ok s' →
    (∀ v ∈ os, v.key = o.key ∨ v.place = o.place → v = o) →
    ∃ rows', s'.selinuxContext = some rows' ∧ Effect lib ctx env os s s' rows rows' o := by
  intro os
  induction os using List.reverseRecOn with
  | nil =>
    intro s' returns _
    rw [← Except.ok.inj returns]
    exact ⟨rows, table, fun member => absurd member (by simp), fun _ => ⟨rfl, rfl⟩⟩
  | append_singleton os v ih =>
    intro s' returns told
    obtain ⟨t, first, last⟩ := foldlM_snoc returns
    obtain ⟨label, con, answer, -, rfl⟩ := relabelObject_ok last
    obtain ⟨rows', stored, effect⟩ := ih first fun v member => told v (by simp [member])
    refine ⟨_, by rw [if_pos rfl, stored, map_some], ?_⟩
    by_cases eq : v = o
    · subst eq
      refine ⟨fun _ => ⟨label.2, ⟨os, [], t, label.1, rfl, first, answer⟩, ?_, ?_⟩,
        fun missed => absurd missed (by simp)⟩
      · rw [lookup_insertKey, if_pos rfl]
      · exact (storedLabel_replaceRow ..).trans (if_pos rfl)
    · have apart := fun shared => eq (told v (by simp) shared)
      have key : v.key ≠ o.key := fun same => apart (.inl same)
      have place : v.place ≠ o.place := fun same => apart (.inr same)
      have hash := (lookup_insertKey t.hash v label.2 o.key).trans (if_neg key)
      have row := (storedLabel_replaceRow rows' ⟨con.2, label.2, v.dbName, v.tblName.getD "",
        some (v.colName.getD "")⟩ o).trans (if_neg place)
      refine ⟨fun member => ?_, fun missed => ?_⟩
      · obtain ⟨id, ⟨before, after, t', labels, rfl, reaches⟩, found, stays⟩ :=
          effect.visited (by simpa [Ne.symm eq] using member)
        exact ⟨id, ⟨before, after ++ [v], t', labels, by simp, reaches⟩, hash.trans found,
          row.trans stays⟩
      · obtain ⟨found, stays⟩ := effect.others fun member => missed (by simp [member])
        exact ⟨hash.trans found, row.trans stays⟩

end

def oneLabel : SesqliteContext :=
  let rules := [⟨"*", "*", "*", "l"⟩]
  ⟨rules, rules, rules, rules⟩

def registered : LabelIds.Session :=
  { LabelIds.empty with
    hashId := sesqliteBihashInsert sesqliteBihashInit ⟨1, some "l", fun _ => ""⟩ }

section

/-- A rule file whose labels have ids already: the default of each object is known as `f`. -/
structure Known (labels : LabelIds.Session) (ctx : SesqliteContext) (f : Object → Int) : Prop where
  default : ∀ o : Object, ∃ z,
    computeSqlContext silent o.colName.isSome o.dbName o.tblName o.colName (o.rules ctx) = some z ∧
      idOf labels.hashId z = some (f o)
  row : ∀ dbName, ∃ z id, computeSqlContext silent false dbName (some selinuxContextName) none
    ctx.tupleContext = some z ∧ idOf labels.hashId z = some id

private theorem insertContext_known {labels : LabelIds.Session} {isColumn : Bool}
    {dbName z : String} {tblName colName : Option String}
    {con tupleContext : List SesqliteContextElement} {id : Int}
    (computed : computeSqlContext silent isColumn dbName tblName colName con = some z)
    (found : idOf labels.hashId z = some id) :
    insertContext silent labels isColumn dbName tblName colName con tupleContext stores =
      .ok (labels, id) := by
  simp [insertContext, computed, registerLabel, found]

variable {ctx : SesqliteContext} {labels : LabelIds.Session} {f : Object → Int}
  {rows : List ContextRow}

private theorem Known.scan (known : Known labels ctx f) (eq : s.labels = labels)
    (table : s.selinuxContext = some rows) (os : List Object) :
    ∃ s' rows', os.foldlM (relabelObject silent ctx stores true) s = .ok s' ∧ s'.labels = labels ∧
      s'.selinuxContext = some rows' ∧
      (∀ key, lookup s'.hash key =
        ((os.filter fun o => o.key = key).getLast?.map f).or (lookup s.hash key)) ∧
      ∀ o : Object, storedLabel rows' o =
        ((os.filter fun v => v.place = o.place).getLast?.map f).or (storedLabel rows o) := by
  induction os using List.reverseRecOn with
  | nil => exact ⟨s, rows, rfl, eq, table, by simp, by simp⟩
  | append_singleton os v ih =>
    obtain ⟨t, rows', first, same, stored, hash, context⟩ := ih
    obtain ⟨z, computed, found⟩ := known.default v
    obtain ⟨z', id, computed', found'⟩ := known.row v.dbName
    have last : relabelObject silent ctx stores true t v = .ok { t with
        hash := insertKey t.hash v.dbName v.tblName v.colName (f v)
        selinuxContext := some (replaceRow
          ⟨id, f v, v.dbName, v.tblName.getD "", some (v.colName.getD "")⟩ rows') } := by
      simp only [relabelObject, same, insertContext_known computed found,
        insertContext_known computed' found', bind, Except.bind, stored, if_true, map_some]
    have both : (os ++ [v]).foldlM (relabelObject silent ctx stores true) s =
        relabelObject silent ctx stores true t v := by
      rw [foldlM_append, first]
      exact bind_pure (relabelObject silent ctx stores true t v)
    refine ⟨_, _, both.trans last, same, rfl, fun key => ?_, fun o => ?_⟩
    · rw [lookup_insertKey, hash]
      by_cases here : v.key = key <;> simp [here]
    · rw [storedLabel_replaceRow, context]
      by_cases here : v.place = o.place
      · simp [here, show ContextRow.place ⟨id, f v, v.dbName, v.tblName.getD "",
          some (v.colName.getD "")⟩ = o.place from here]
      · simp [here, show ContextRow.place ⟨id, f v, v.dbName, v.tblName.getD "",
          some (v.colName.getD "")⟩ ≠ o.place from here]

private theorem Known.resetTo (known : Known labels ctx f) (eq : s.labels = labels)
    (table : s.selinuxContext = some rows) {os : List Object} {id : Int}
    (reset : ResetTo silent ctx stores os s o id) : o ∈ os ∧ id = f o := by
  obtain ⟨before, after, t, labels', rfl, reaches, answer⟩ := reset
  obtain ⟨t', -, reaches', same, -⟩ := known.scan eq table before
  obtain rfl := Except.ok.inj (reaches.symm.trans reaches')
  obtain ⟨z, computed, found⟩ := known.default o
  rw [same, insertContext_known computed found] at answer
  exact ⟨by simp, (congrArg Prod.snd (Except.ok.inj answer)).symm⟩

end

private theorem exists_last {os : List Object} {p : Object → Prop} [DecidablePred p] {v : Object}
    (visited : v ∈ os) (here : p v) : ∃ w, (os.filter fun o => p o).getLast? = some w :=
  ⟨_, getLast?_eq_some_getLast (ne_nil_of_mem (mem_filter.mpr ⟨visited, by simpa using here⟩))⟩

private theorem known_oneLabel : Known registered oneLabel fun _ => 1 := by
  have first (isColumn : Bool) (db : String) (tbl col : Option String)
      (nested : isColumn → col.isSome) :
      computeSqlContext silent isColumn db tbl col [⟨"*", "*", "*", "l"⟩] = some "l" := by
    have catches : elementMatches isColumn db tbl col ⟨"*", "*", "*", "l"⟩ := by
      cases tbl <;> cases col <;> simp_all [elementMatches, paramMatches]
    simp [computeSqlContext, catches]
  refine ⟨fun o => ⟨"l", ?_, by decide⟩, fun db => ⟨"l", 1, ?_, by decide⟩⟩
  · have rules : o.rules oneLabel = [⟨"*", "*", "*", "l"⟩] := by
      unfold Object.rules
      split
      · rfl
      · split <;> rfl
    rw [rules]
    exact first _ _ _ _ id
  · exact first _ _ _ _ (by simp)

section

/-- `getContext` still finds the label that it found for the object, and none if it found none. -/
def KeepsLabel (s s' : Session) (o : Object) : Prop :=
  match lookup s.hash o.key with
  | some id => ∀ lib env, getContext lib s'.contexts s'.toStore o.dbName o.tblName o.colName
      o.tclass env = .ok (s'.toStore, id)
  | none => lookup s'.hash o.key = none

private theorem KeepsLabel.of_lookup {s' : Session}
    (eq : lookup s'.hash o.key = lookup s.hash o.key) :
    KeepsLabel s s' o := by
  unfold KeepsLabel
  split <;> rename_i found
  · intro lib env
    simp [getContext, show lookup s'.hash (Contexts.makeKey ..) = some _ from eq.trans found]
  · exact eq.trans found

/-- What relabelling one object must not do to another. -/
structure Unaffected (x y : Object) : Prop where
  key : x.key ≠ y.key
  chcon : ∀ lib s label env, KeepsLabel s (chcon lib s label x env) y
  restorecon : ∀ lib s file env runs,
    KeepsLabel s (restorecon lib s x.dbName x.tblName x.colName file env runs) y

/-- Some object that the names of `x` accept as filters has the pieces of `y`. -/
def Reaches (x y : Object) : Prop :=
  ∃ z : Object, Accepted (some x.dbName) x.tblName x.colName z ∧ z.pieces = y.pieces

private theorem filterAccepts_self (name : String) : filterAccepts (some name) name := by
  simp [filterAccepts, sqlite3StrICmp, sqlite3StrNICmp]

variable {x y : Object}

private theorem Reaches.of_key (eq : x.key = y.key) : Reaches x y := by
  refine ⟨x, ⟨filterAccepts_self _, ?_, ?_⟩, Object.key_eq_iff.mp eq⟩
  · cases x.tblName <;> simp [filterAccepts_self]
  · cases x.colName <;> simp [filterAccepts_self]

private theorem keepsLabel_chcon (apart : x.key ≠ y.key) (lib : Selinux) (s : Session)
    (label : String) (env : Surroundings) : KeepsLabel s (chcon lib s label x env) y := by
  refine .of_lookup ?_
  unfold chcon
  split
  · rfl
  · split
    · rfl
    · rw [lookup_insertKey, if_neg apart]

private theorem keepsLabel_restorecon (apart : ¬Reaches x y) (lib : Selinux) (s : Session)
    (file : Option SesqliteContext) (env : Surroundings) (runs : Bool) :
    KeepsLabel s (restorecon lib s x.dbName x.tblName x.colName file env runs) y := by
  refine .of_lookup ?_
  unfold restorecon
  split
  · rename_i old ctx loaded
    split
    · rfl
    · rename_i returns
      exact lookup_of_unvisited (s := { s with contexts := some ctx }) returns fun z member same =>
        apart ⟨z, (mem_reloadedObjects.mp member).2, Object.key_eq_iff.mp same⟩
  · rfl

def schemaOf (z : Object) : List Database :=
  [⟨z.dbName, z.tblName.toList.map fun t => ⟨t, z.colName.toList, false⟩⟩]

private theorem not_keepsLabel (reaches : Reaches x y) : ¬Unaffected x y := by
  intro unaffected
  obtain ⟨z, ⟨db, tbl, col⟩, pieces⟩ := reaches
  -- the object of the schema whose key is that of `y`
  have visited : ∃ v ∈ reloadedObjects (schemaOf z) (some x.dbName) x.tblName x.colName,
      v.key = y.key := by
    rw [← Object.key_eq_iff] at pieces
    cases table : z.tblName with
    | none =>
      refine ⟨⟨z.dbName, none, none⟩, mem_reloadedObjects.mpr
        ⟨by simp [schemaOf, objects], db, rfl, rfl⟩, ?_⟩
      rw [← pieces, Object.key, Object.key, table]
      rfl
    | some t =>
      refine ⟨z, mem_reloadedObjects.mpr ⟨mem_objects.mpr ⟨_, mem_singleton.mpr rfl, .inr
        ⟨⟨t, z.colName.toList, false⟩, by simp [table], ?_⟩⟩, db, tbl, col⟩, pieces⟩
      exact mem_tableObjects.mpr ⟨rfl, table, fun c column => .inl (by simp [column])⟩
  let s : Session := ⟨⟨registered, insertKey sqliteHashInit y.dbName y.tblName y.colName 2⟩,
    some oneLabel, schemaOf z, some []⟩
  obtain ⟨s', -, returns, -, -, found, -⟩ := known_oneLabel.scan (s := s) rfl rfl
    (reloadedObjects (schemaOf z) (some x.dbName) x.tblName x.colName)
  have kept := unaffected.restorecon silent s (some oneLabel) stores true
  have after :
      restorecon silent s x.dbName x.tblName x.colName (some oneLabel) stores true = s' := by
    simp [restorecon, reloadSesqliteContexts, s, returns]
  have before : lookup s.hash y.key = some 2 := by rw [lookup_insertKey, if_pos rfl]
  have relabelled : lookup s'.hash y.key = some 1 := by
    obtain ⟨v, inside, same⟩ := visited
    obtain ⟨w, last⟩ := exists_last (p := fun v => v.key = y.key) inside same
    rw [found, last]
    rfl
  simp only [KeepsLabel, before, after] at kept
  have answer := kept silent stores
  simp [getContext, show lookup s'.hash (Contexts.makeKey ..) = some 1 from relabelled] at answer

/-- Relabelling `x` leaves `y` alone exactly if no object that it relabels has the pieces of
the names of `y`. -/
theorem unaffected_iff (x y : Object) : Unaffected x y ↔ ¬Reaches x y :=
  ⟨fun unaffected reaches => not_keepsLabel reaches unaffected, fun apart =>
    ⟨fun same => apart (.of_key same), keepsLabel_chcon fun same => apart (.of_key same),
      keepsLabel_restorecon apart⟩⟩

/-- `chcon` on a table with a colon in its name changes the label of a column. -/
theorem key_collision : let x : Object := ⟨"main", some "a:b", none⟩
    let y : Object := ⟨"main", some "a", some "b"⟩
    let s : Session := ⟨⟨registered, insertKey sqliteHashInit "main" (some "a") (some "b") 2⟩,
      some oneLabel, [⟨"main", [⟨"a:b", [], true⟩, ⟨"a", ["b"], true⟩]⟩], some []⟩
    x ≠ y ∧ x ∈ objects s.databases ∧ y ∈ objects s.databases ∧ x.key = y.key ∧
      lookup s.hash y.key = some 2 ∧ lookup (chcon silent s "l" x stores).hash y.key = some 1 := by
  decide

private theorem nested_of_mem {databases : List Database} (member : o ∈ objects databases)
    (top : o.tblName = none) : o.colName = none := by
  obtain ⟨d, -, rfl | ⟨t, -, inside⟩⟩ := mem_objects.mp member
  · rfl
  · cases top.symm.trans (mem_tableObjects.mp inside).2.1

/-- A filter as it is documented, an absent one being a wildcard. -/
def documentedFilter (filter : Option String) (name : String) : Bool :=
  filter.all fun filter => filterAccepts (some filter) name

/-- The objects that the filters name: those of the lowest level with a filter, and all below. -/
def Named (dbFilter tblFilter colFilter : Option String) (o : Object) : Prop :=
  documentedFilter dbFilter o.dbName ∧
    match o.tblName, o.colName with
    | none, _ => tblFilter = none
    | some t, none => documentedFilter tblFilter t ∧ colFilter = none
    | some t, some c => documentedFilter tblFilter t ∧ documentedFilter colFilter c

/-- In every session on the schema a scan resets the named objects, in the hash and in
`selinux_context`, and leaves all others as they are. -/
def RestoresNamed (databases : List Database) (dbFilter tblFilter colFilter : Option String) :
    Prop :=
  ∀ lib ctx env s s' rows, s.databases = databases → s.selinuxContext = some rows →
    reloadSesqliteContexts lib ctx env true s dbFilter tblFilter colFilter = .ok s' →
    ∀ o ∈ objects databases, ∃ rows', s'.selinuxContext = some rows' ∧
      (Named dbFilter tblFilter colFilter o → ∃ id,
        ResetTo lib ctx env (reloadedObjects databases dbFilter tblFilter colFilter) s o id ∧
          lookup s'.hash o.key = some id ∧ storedLabel rows' o = some id) ∧
      (¬Named dbFilter tblFilter colFilter o →
        lookup s'.hash o.key = lookup s.hash o.key ∧ storedLabel rows' o = storedLabel rows o)

/-- No database matches, when both a database and a table filter are given; otherwise nothing is
named but databases, and these by a filter of their own. -/
def NamesAtMostDatabases (databases : List Database)
    (dbFilter tblFilter colFilter : Option String) : Prop :=
  if dbFilter.isSome ∧ tblFilter.isSome then ∀ d ∈ databases, ¬filterAccepts dbFilter d.zName
  else ∀ o ∈ objects databases, Named dbFilter tblFilter colFilter o →
    dbFilter.isSome ∧ o.tblName = none

variable {databases : List Database} {dbFilter tblFilter colFilter : Option String}

private theorem accepted_iff_named : (∀ o ∈ objects databases, Accepted dbFilter tblFilter colFilter
    o ↔
      Named dbFilter tblFilter colFilter o) ↔
    NamesAtMostDatabases databases dbFilter tblFilter colFilter := by
  unfold NamesAtMostDatabases
  split <;> rename_i given
  · obtain ⟨f, rfl⟩ := isSome_iff_exists.mp given.1
    obtain ⟨g, rfl⟩ := isSome_iff_exists.mp given.2
    constructor
    · intro agree d present accepted
      have named := (agree ⟨d.zName, none, none⟩ (mem_objects.mpr ⟨d, present, .inl rfl⟩)).mp
        ⟨accepted, rfl, rfl⟩
      simp [Named] at named
    · intro refused o member
      obtain ⟨d, present, inside⟩ := mem_objects.mp member
      have db : o.dbName = d.zName := by
        rcases inside with rfl | ⟨t, -, inside⟩
        · rfl
        · exact (mem_tableObjects.mp inside).1
      have refused := refused d present
      rw [← db] at refused
      exact ⟨fun accepted => absurd accepted.1 refused, fun named => absurd named.1 refused⟩
  · constructor
    · intro agree o member named
      obtain ⟨db, tbl, -⟩ := (agree o member).mpr named
      cases dbFilter with
      | none => cases db
      | some f =>
        obtain rfl : tblFilter = none := by simpa using given
        refine ⟨rfl, eq_none_iff_forall_ne_some.mpr fun t table => ?_⟩
        simp [table, filterAccepts] at tbl
    · intro databases_only o member
      constructor
      · rintro ⟨db, tbl, col⟩
        cases dbFilter with
        | none => cases db
        | some f =>
          obtain rfl : tblFilter = none := by simpa using given
          have top : o.tblName = none := by
            cases table : o.tblName with
            | none => rfl
            | some t => simp [table, filterAccepts] at tbl
          simpa [Named, top, documentedFilter] using db
      · intro named
        obtain ⟨given', top⟩ := databases_only o member named
        obtain ⟨f, rfl⟩ := isSome_iff_exists.mp given'
        exact ⟨named.1, by simp [top], by simp [nested_of_mem member top]⟩

/-- An object that the scan visits shares its key of the hash and its row of `selinux_context` with
no other object. -/
def VisitedAlone (databases : List Database) (dbFilter tblFilter colFilter : Option String) :
    Prop :=
  ∀ v ∈ reloadedObjects databases dbFilter tblFilter colFilter, ∀ o ∈ objects databases,
    v.key = o.key ∨ v.place = o.place → v = o

instance : Decidable (VisitedAlone databases dbFilter tblFilter colFilter) := by
  unfold VisitedAlone
  infer_instance

section

variable {labels : LabelIds.Session} {ctx : SesqliteContext} {f : Object → Int} {v w : Object}
  (restores : RestoresNamed databases dbFilter tblFilter colFilter)

include restores

/-- Whoever is written last under the key or in the row of an object decides, so that it is named
and has this default. -/
theorem RestoresNamed.last (known : Known labels ctx f) (member : o ∈ objects databases)
    (last : ((reloadedObjects databases dbFilter tblFilter colFilter).filter
        fun v => v.key = o.key).getLast? = some w ∨
      ((reloadedObjects databases dbFilter tblFilter colFilter).filter
        fun v => v.place = o.place).getLast? = some w) :
    Named dbFilter tblFilter colFilter o ∧ f o = f w := by
  let s : Session := ⟨⟨labels, sqliteHashInit⟩, some ctx, databases, some []⟩
  obtain ⟨s', rows', returns, -, table, hash, context⟩ := known.scan (s := s) rfl rfl
    (reloadedObjects databases dbFilter tblFilter colFilter)
  obtain ⟨rows'', table', named, others⟩ :=
    restores silent ctx stores s s' [] rfl rfl returns o member
  obtain rfl := some_inj.mp (table.symm.trans table')
  have written : lookup s'.hash o.key = some (f w) ∨ storedLabel rows' o = some (f w) := by
    rcases last with last | last
    · exact .inl (by rw [hash, last, map_some, some_or])
    · exact .inr (by rw [context, last, map_some, some_or])
  by_cases isNamed : Named dbFilter tblFilter colFilter o
  · obtain ⟨id, reset, label, stored⟩ := named isNamed
    obtain ⟨-, rfl⟩ := known.resetTo rfl rfl reset
    refine ⟨isNamed, ?_⟩
    rcases written with written | written
    · exact some_inj.mp (label.symm.trans written)
    · exact some_inj.mp (stored.symm.trans written)
  · -- the label of an object that is not named would have been absent still
    obtain ⟨label, stored⟩ := others isNamed
    rcases written with written | written
    · cases written.symm.trans label
    · cases written.symm.trans stored

private theorem RestoresNamed.accepted_iff (member : o ∈ objects databases) :
    Accepted dbFilter tblFilter colFilter o ↔ Named dbFilter tblFilter colFilter o := by
  constructor
  · intro accepted
    obtain ⟨w, last⟩ := exists_last (p := fun v => v.key = o.key)
      (mem_reloadedObjects.mpr ⟨member, accepted⟩) rfl
    exact (restores.last known_oneLabel member (.inl last)).1
  · intro isNamed
    let s : Session := ⟨⟨registered, sqliteHashInit⟩, some oneLabel, databases, some []⟩
    obtain ⟨s', -, returns, -⟩ := known_oneLabel.scan (s := s) rfl rfl
      (reloadedObjects databases dbFilter tblFilter colFilter)
    obtain ⟨_, -, named, -⟩ := restores silent oneLabel stores s s' [] rfl rfl returns o member
    obtain ⟨id, reset, -⟩ := named isNamed
    exact (mem_reloadedObjects.mp (known_oneLabel.resetTo rfl rfl reset).1).2

private theorem RestoresNamed.same_default (known : Known labels ctx f)
    (visited : v ∈ reloadedObjects databases dbFilter tblFilter colFilter)
    (member : o ∈ objects databases) (shared : v.key = o.key ∨ v.place = o.place) : f v = f o := by
  have inside := (mem_reloadedObjects.mp visited).1
  rcases shared with same | same
  · obtain ⟨w, last⟩ := exists_last (p := fun z => z.key = o.key) visited same
    exact (restores.last known inside (.inl (by rwa [same]))).2.trans
      (restores.last known member (.inl last)).2.symm
  · obtain ⟨w, last⟩ := exists_last (p := fun z => z.place = o.place) visited same
    exact (restores.last known inside (.inr (by rwa [same]))).2.trans
      (restores.last known member (.inr last)).2.symm

end

def twoLabels : LabelIds.Session :=
  { LabelIds.empty with
    hashId := sesqliteBihashInsert
      (sesqliteBihashInsert sesqliteBihashInit ⟨1, some "l", fun _ => ""⟩)
      ⟨2, some "k", fun _ => ""⟩ }

/-- One rule for the objects of a class, before the rule for all. -/
def tellingFile (tclass : Nat) (db tbl : String) : SesqliteContext :=
  let all := ⟨"*", "*", "*", "l"⟩
  let con := fun n => if n = tclass then [⟨db, tbl, "*", "k"⟩, all] else [all]
  ⟨con 0, con 1, con 2, [all]⟩

def toldId (tclass : Nat) (db tbl : String) (o : Object) : Int :=
  if o.tclass = tclass ∧ paramMatches o.dbName db ∧ o.tblName.all (paramMatches · tbl) then 2 else 1

private theorem known_tellingFile (tclass : Nat) (db tbl : String) :
    Known twoLabels (tellingFile tclass db tbl) (toldId tclass db tbl) := by
  refine ⟨fun o => ?_, fun _ => ⟨"l", 1, ?_, by decide⟩⟩
  · have rules : o.rules (tellingFile tclass db tbl) = if o.tclass = tclass then
        [⟨db, tbl, "*", "k"⟩, ⟨"*", "*", "*", "l"⟩] else [⟨"*", "*", "*", "l"⟩] := by
      unfold Object.rules Object.tclass
      split
      · rfl
      · split <;> rfl
    have all : elementMatches o.colName.isSome o.dbName o.tblName o.colName
        ⟨"*", "*", "*", "l"⟩ := by
      cases o.tblName <;> cases o.colName <;> simp [elementMatches, paramMatches]
    have one : elementMatches o.colName.isSome o.dbName o.tblName o.colName ⟨db, tbl, "*", "k"⟩ =
        (paramMatches o.dbName db && o.tblName.all (paramMatches · tbl)) := by
      cases o.tblName <;> cases o.colName <;> simp [elementMatches, paramMatches]
    rw [rules, toldId]
    by_cases told : o.tclass = tclass ∧ paramMatches o.dbName db ∧
        o.tblName.all (paramMatches · tbl)
    · refine ⟨"k", ?_, by rw [if_pos told]; decide⟩
      simp [computeSqlContext, told, one]
    · refine ⟨"l", ?_, by rw [if_neg told]; decide⟩
      by_cases here : o.tclass = tclass
      · have missed : elementMatches o.colName.isSome o.dbName o.tblName o.colName
            ⟨db, tbl, "*", "k"⟩ = false := by
          rw [one]
          simpa [here] using told
        simp [computeSqlContext, here, missed, all]
      · simp [computeSqlContext, here, all]
  · simp [computeSqlContext, tellingFile, elementMatches, paramMatches]

/-- One of two names that differ is a parameter that matches only itself of the two. -/
theorem exists_param {a b : String} (differ : fold a ≠ fold b) :
    ∃ p, paramMatches a p ≠ paramMatches b p := by
  by_cases star : a = "*"
  · have other : b ≠ "*" := fun same => differ (by rw [star, same])
    refine ⟨b, ?_⟩
    simp [paramMatches, sqlite3StrICmp, other, differ]
  · refine ⟨a, ?_⟩
    simp [paramMatches, sqlite3StrICmp, star, Ne.symm differ]

private theorem eq_of_fold {a b c d : String} (folded : fold a = fold b)
    (same : a.toList ++ ':' :: c.toList = b.toList ++ ':' :: d.toList) : a = b ∧ c = d := by
  have lengths : a.toList.length = b.toList.length := by
    simpa [fold] using congrArg List.length folded
  obtain ⟨first, second⟩ := append_inj same lengths
  exact ⟨String.toList_inj.mp first, String.toList_inj.mp (cons_inj_right _ |>.mp second)⟩

section

variable {v : Object} (nested : v.tblName = none → v.colName = none)
  (nested' : o.tblName = none → o.colName = none) (shared : v.key = o.key ∨ v.place = o.place)

include nested nested' shared

private theorem eq_of_alike (classes : v.tclass = o.tclass) (folded : fold v.dbName = fold o.dbName)
    (folded' : ∀ t t', v.tblName = some t → o.tblName = some t' → fold t = fold t') : v = o := by
  obtain ⟨db, tbl, col⟩ := v
  obtain ⟨db', tbl', col'⟩ := o
  rcases tbl with _ | t <;> rcases tbl' with _ | t'
  · obtain rfl : col = none := nested rfl
    obtain rfl : col' = none := nested' rfl
    simpa [Object.key, Contexts.makeKey, Object.place] using shared
  · rcases col' with _ | c' <;> simp [Object.tclass] at classes
  · rcases col with _ | c <;> simp [Object.tclass] at classes
  · have tables := folded' t t' rfl rfl
    rcases col with _ | c <;> rcases col' with _ | c'
    · rcases shared with key | place
      · obtain ⟨rfl, rfl⟩ := eq_of_fold (c := t) (d := t') folded
          (by simpa [Object.key, Contexts.makeKey] using congrArg String.toList key)
        rfl
      · simpa [Object.place] using place
    · simp [Object.tclass] at classes
    · simp [Object.tclass] at classes
    · rcases shared with key | place
      · obtain ⟨rfl, rest⟩ := eq_of_fold (c := t ++ ":" ++ c) (d := t' ++ ":" ++ c') folded
          (by simpa [Object.key, Contexts.makeKey] using congrArg String.toList key)
        obtain ⟨rfl, rfl⟩ := eq_of_fold tables (by simpa using congrArg String.toList rest)
        rfl
      · simpa [Object.place] using place

/-- Different objects with one key or row have different defaults in some rule file. -/
theorem exists_toldId (differ : v ≠ o) :
    ∃ tclass db tbl, toldId tclass db tbl v ≠ toldId tclass db tbl o := by
  have star (name : String) : paramMatches name "*" := by simp [paramMatches]
  by_cases classes : v.tclass = o.tclass
  · -- a name that differs even without regard to case tells them apart
    suffices other : fold v.dbName ≠ fold o.dbName ∨
        ∃ t t', v.tblName = some t ∧ o.tblName = some t' ∧ fold t ≠ fold t' by
      rcases other with other | ⟨t, t', named, named', other⟩
      · obtain ⟨p, told⟩ := exists_param other
        refine ⟨v.tclass, p, "*", ?_⟩
        simp only [toldId, classes, star, all_true, true_and, and_true]
        cases here : paramMatches v.dbName p <;> simp_all
      · obtain ⟨p, told⟩ := exists_param other
        refine ⟨v.tclass, "*", p, ?_⟩
        simp only [toldId, classes, star, named, named', all_some, true_and]
        cases here : paramMatches t p <;> simp_all
    by_contra alike
    push Not at alike
    exact differ (eq_of_alike nested nested' shared classes alike.1 alike.2)
  · exact ⟨v.tclass, "*", "*", by simp [toldId, star, Ne.symm classes]⟩

end

private theorem restoresNamed_of_alone
    (agree : ∀ o ∈ objects databases, Accepted dbFilter tblFilter colFilter o ↔
      Named dbFilter tblFilter colFilter o)
    (alone : VisitedAlone databases dbFilter tblFilter colFilter) :
    RestoresNamed databases dbFilter tblFilter colFilter := by
  rintro lib ctx env s s' rows rfl table returns o member
  have scanned : o ∈ reloadedObjects s.databases dbFilter tblFilter colFilter ↔
      Named dbFilter tblFilter colFilter o := by
    rw [mem_reloadedObjects, ← agree o member, and_iff_right member]
  obtain ⟨rows', stored, effect⟩ := effect_of_scan table returns fun v visited =>
    alone v visited o member
  exact ⟨rows', stored, fun named => effect.visited (scanned.mpr named),
    fun unnamed => effect.others fun visited => unnamed (scanned.mp visited)⟩

end

end SeSqlite.Schema
