/- source: src/build.c, src/alter.c, src/insert.c, ext/security/sesqlite/sesqlite_authorizer.c
   digest: Where the label column stands in the stored text of a table, and where labels land. -/
import SeSqlite.Lib.Runs
import SeSqlite.Names
import SeSqlite.Sql.Insert

set_option autoImplicit false
set_option relaxedAutoImplicit false

namespace SeSqlite.LabelColumn

open Names Sql Lib.Runs List

/-- A column; `ipk` marks an INTEGER PRIMARY KEY, which is read back as the rowid. -/
structure Column where
  zName : String
  ipk : Bool
  deriving DecidableEq, Repr

/-- The text of a CREATE TABLE statement after the opening parenthesis. The constraints of
the table and its options are one token each. -/
inductive Token where
  | column (c : Column)
  | constraints
  | rparen
  | options
  deriving DecidableEq, Repr

/-- A row of `sqlite_master`. -/
structure StoredTable where
  zName : String
  text : List Token
  deriving DecidableEq, Repr

/-- `SECURITY_CONTEXT_COLUMN_DEFINITION`. -/
def securityColumn : Column := ⟨securityContextColumnName, false⟩

def isLabel (c : Column) : Bool := sqlite3StrICmp c.zName securityContextColumnName

def distinctNames (columns : List Column) : Bool :=
  decide (columns.map fun c => fold c.zName).Nodup

def createText (columns : List Column) (constraints options : Bool) : List Token :=
  columns.map .column ++ ((if constraints then [.constraints] else []) ++
    .rparen :: if options then [.options] else [])

/-- The column definitions at the front, and what follows them. -/
def leadingColumns : List Token → List Column × List Token
  | .column c :: rest => (c :: (leadingColumns rest).1, (leadingColumns rest).2)
  | rest => ([], rest)

/-- Reading a stored text back: its columns, and `addColOffset`, the place after the last
column definition. -/
def parseText (text : List Token) : Option (List Column × Nat) :=
  let columns := (leadingColumns text).1
  if (leadingColumns text).2 ∈ [[.rparen], [.rparen, .options], [.constraints, .rparen],
      [.constraints, .rparen, .options]] ∧ columns ≠ [] ∧ distinctNames columns then
    some (columns, columns.length)
  else none

/-- What stands between CREATE TABLE and its end. -/
inductive Body where
  | list (columns : List Column) (constraints options : Bool)
  | select (columns : List Column)

def Body.columns : Body → List Column
  | .list columns _ _ => columns
  | .select columns => columns

/-- Where `sqlite3EndTable` splices the label column in: at the comma before the constraints,
else at the last token of the statement, which is the closing parenthesis only in the
absence of options. -/
def splicePosition (columns : List Column) (constraints options : Bool) : Nat :=
  if constraints then columns.length
  else if options then columns.length + 2 else columns.length

/-- The text that `sqlite3EndTable` stores. CREATE TABLE AS SELECT writes it from the table in
memory, which the hook has extended whatever its name is. -/
def storedText (zName : String) : Body → List Token
  | .list columns constraints options =>
    if isUserTable zName then
      (createText columns constraints options).insertIdx
        (splicePosition columns constraints options)
        (.column securityColumn)
    else createText columns constraints options
  | .select columns => createText (columns ++ [securityColumn]) false false

abbrev Catalog := List StoredTable

def findTable (s : Catalog) (zName : String) : Option StoredTable :=
  s.find? fun t => sqlite3StrICmp t.zName zName

def columnsOf (t : StoredTable) : List Column := ((parseText t.text).map Prod.fst).getD []

/-- A statement; `accepted` says that nothing outside the model refuses it. -/
inductive Statement where
  | createTable (zName : String) (body : Body) (accepted : Bool)
  | addColumn (zName zCol : String) (accepted : Bool)

/-- The checks before the text is stored: reserved table names, existing tables, duplicate
columns, and the scan of the hook, which starts at the second column. -/
def creatable (s : Catalog) (zName : String) (body : Body) : Bool :=
  !sqlite3StrNICmp zName "sqlite_" 7 && (findTable s zName).isNone && distinctNames body.columns &&
    !(body.columns.drop 1).any isLabel

def addable (t : StoredTable) (zCol : String) : Bool :=
  !sqlite3StrNICmp t.zName "sqlite_" 7 && !(columnsOf t).any fun c => sqlite3StrICmp c.zName zCol

/-- `sqlite3AlterFinishAddColumn`: the definition goes to `addColOffset`. -/
def extendText (text : List Token) (zCol : String) : List Token :=
  match parseText text with
  | none => text
  | some (_, addColOffset) => text.insertIdx addColOffset (.column ⟨zCol, false⟩)

def execute (s : Catalog) : Statement → Catalog
  | .createTable zName body accepted =>
    if accepted && creatable s zName body && (parseText (storedText zName body)).isSome then
      s ++ [⟨zName, storedText zName body⟩]
    else s
  | .addColumn zName zCol accepted =>
    match findTable s zName with
    | none => s
    | some t =>
      if accepted && addable t zCol && (parseText (extendText t.text zCol)).isSome then
        s.map fun u => if u.zName = t.zName then { u with text := extendText t.text zCol } else u
      else s

def opened : Catalog :=
  [⟨"selinux_context", createText [⟨"security_context", false⟩, ⟨"security_label", false⟩,
      ⟨"db", false⟩, ⟨"name", false⟩, ⟨"column", false⟩] true false⟩,
    ⟨"selinux_id", createText [⟨"security_context", false⟩, ⟨"security_label", false⟩] false false⟩]

section

variable {V : Type} [DecidableEq V] [SqlValue V]

/-- The value that a column ends up with; a null key is replaced by the new rowid. -/
def storeIn (rowid : Int) (c : Column) (v : V) : V :=
  if c.ipk ∧ v = SqlValue.null then SqlValue.integer rowid else v

def storeRow (columns : List Column) (rowid : Int) (row : List V) : List V :=
  List.zipWith (storeIn rowid) columns row

/-- The stored row has the label in its one label column, and the supplied values, in order,
in the others. -/
def Lands (columns : List Column) (label rowid : Int) (supplied stored : List V) : Prop :=
  ((columns.zip stored).filter fun p => isLabel p.1).map Prod.snd = [SqlValue.integer label] ∧
    ((columns.zip stored).filter fun p => !isLabel p.1).map Prod.snd =
      List.zipWith (storeIn rowid) (columns.filter fun c => !isLabel c) supplied ∧
    supplied.length = (columns.filter fun c => !isLabel c).length

end

/-- The label column is there once, at the end. -/
def LabelLast (columns : List Column) : Prop :=
  ∃ others c, columns = others ++ [c] ∧ isLabel c ∧ ∀ other ∈ others, ¬isLabel other

/-- Every INSERT without a column list that is not refused stores the label and the values
of its source where they belong, and one with a value for each other column is not refused. -/
def InsertsLand (columns : List Column) : Prop :=
  ∀ (ρ V : Type) [DecidableEq V] [SqlValue V] (label : Int) (source : Source ρ V),
    (∀ rows, insertRows columns.length (SqlValue.integer label) source = some rows →
      ∃ width supplied, source.eval = some (width, supplied) ∧
        List.Forall₂
          (fun vs row => ∀ rowid, Lands columns label rowid vs (storeRow columns rowid row))
          supplied rows) ∧
    ∀ width supplied, source.eval = some (width, supplied) → width + 1 = columns.length →
      (insertRows columns.length (SqlValue.integer label) source).isSome

def Labelled (s : Catalog) : Prop :=
  ∀ t ∈ s, isUserTable t.zName → LabelLast (columnsOf t) ∧ InsertsLand (columnsOf t)

/-- No ADD COLUMN that nothing refuses names a user table. -/
def Keeps (s : Catalog) : Statement → Prop
  | .createTable _ _ _ => True
  | .addColumn zName zCol accepted =>
    ∀ t, findTable s zName = some t → isUserTable t.zName → ¬(accepted ∧ addable t zCol)

section

variable (columns : List Column)

include columns

private theorem leadingColumns_append {tail : List Token}
    (rest : leadingColumns tail = ([], tail)) :
    leadingColumns (columns.map .column ++ tail) = (columns, tail) := by
  induction columns with
  | nil => exact rest
  | cons c columns ih => simp [leadingColumns, ih]

private theorem insertIdx_columns (tail : List Token) (n : Nat) (token : Token) :
    (columns.map Token.column ++ tail).insertIdx (columns.length + n) token =
      columns.map Token.column ++ tail.insertIdx n token := by
  induction columns with
  | nil => simp
  | cons c columns ih =>
    rw [length_cons, Nat.add_right_comm, map_cons, cons_append,
      insertIdx_succ_cons, ih, cons_append]

private theorem parseText_createText (constraints options : Bool) :
    parseText (createText columns constraints options) =
      if columns ≠ [] ∧ distinctNames columns then some (columns, columns.length) else none := by
  unfold parseText createText
  rw [leadingColumns_append columns (by cases constraints <;> rfl)]
  cases constraints <;> cases options <;> simp

private theorem insertIdx_createText (constraints options : Bool) (c : Column) :
    (createText columns constraints options).insertIdx columns.length (.column c) =
      createText (columns ++ [c]) constraints options := by
  have inserted := insertIdx_columns columns ((if constraints then [.constraints] else []) ++
    .rparen :: if options then [.options] else []) 0 (.column c)
  rw [Nat.add_zero] at inserted
  simp [createText, inserted]

private theorem parseText_behind_options :
    parseText ((createText columns false true).insertIdx (columns.length + 2)
      (.column securityColumn)) = none := by
  have inserted := insertIdx_columns columns [.rparen, .options] 2 (.column securityColumn)
  have text : createText columns false true = columns.map .column ++ [.rparen, .options] := rfl
  rw [text, inserted, parseText, leadingColumns_append columns rfl]
  have malformed : [Token.rparen, .options].insertIdx 2 (.column securityColumn) ∉
      [[.rparen], [.rparen, .options], [.constraints, .rparen],
        [.constraints, .rparen, .options]] := by decide
  exact if_neg fun both => malformed both.1

end

private theorem storedText_user {zName : String} {body : Body} (user : isUserTable zName)
    (parses : (parseText (storedText zName body)).isSome) :
    ∃ constraints options,
      storedText zName body =
        createText (body.columns ++ [securityColumn]) constraints options := by
  cases body with
  | select columns => exact ⟨false, false, rfl⟩
  | list columns constraints options =>
    simp only [storedText, user, if_true] at parses ⊢
    cases constraints with
    | true => exact ⟨true, options, insertIdx_createText columns true options securityColumn⟩
    | false =>
      cases options with
      | true =>
        rw [show splicePosition columns false true = columns.length + 2 from rfl,
          parseText_behind_options] at parses
        cases parses
      | false => exact ⟨false, false, insertIdx_createText columns false false securityColumn⟩

variable {others : List Column}

section

variable {V : Type} [DecidableEq V] [SqlValue V]

private theorem lands_of_last (plain : ∀ c ∈ others, ¬isLabel c) (label rowid : Int) {vs : List V}
    (length : vs.length = others.length) : Lands (others ++ [securityColumn]) label rowid vs
      (storeRow (others ++ [securityColumn]) rowid (vs ++ [SqlValue.integer label])) := by
  have isLast : isLabel securityColumn = true := by decide
  have stored : storeRow (others ++ [securityColumn]) rowid (vs ++ [SqlValue.integer label]) =
      List.zipWith (storeIn rowid) others vs ++ [SqlValue.integer label] := by
    rw [storeRow, zipWith_append length.symm]
    simp [storeIn, securityColumn]
  have zipped : (others ++ [securityColumn]).zip
      (List.zipWith (storeIn rowid) others vs ++ [SqlValue.integer label]) =
      others.zip (List.zipWith (storeIn rowid) others vs) ++
        [(securityColumn, SqlValue.integer label)] := by
    rw [zip_append (by simp [length])]
    rfl
  have noLabel : ∀ p ∈ others.zip (List.zipWith (storeIn rowid) others vs), isLabel p.1 = false :=
    fun p member => by simpa using plain p.1 (of_mem_zip member).1
  have othersKept : others.filter (fun c => !isLabel c) = others :=
    filter_eq_self.mpr fun c member => by simpa using plain c member
  rw [stored]
  refine ⟨?_, ?_, ?_⟩
  · rw [zipped, filter_append, filter_eq_nil_iff.mpr fun p member => by
      simp [noLabel p member]]
    simp [isLast]
  · rw [zipped, filter_append, filter_append, othersKept,
      filter_eq_self.mpr fun p member => by simp [noLabel p member]]
    simp [isLast, map_snd_zip]
  · simp [othersKept, isLast, length]

private theorem insertsLand_of_last (plain : ∀ c ∈ others, ¬isLabel c) :
    InsertsLand (others ++ [securityColumn]) := by
  intro ρ V _ _ label source
  refine ⟨fun rows inserted => ?_, fun width supplied evaluated fits => ?_⟩
  · rw [insertRows, Source.eval_inject] at inserted
    cases evaluated : source.eval with
    | none => simp [evaluated] at inserted
    | some result =>
      obtain ⟨width, supplied⟩ := result
      simp only [evaluated, Option.map_some, Option.bind_some, length_append,
        length_singleton, Nat.add_right_cancel_iff] at inserted
      split at inserted
      · rename_i eq
        cases inserted
        refine ⟨width, supplied, rfl, ?_⟩
        rw [forall₂_map_right_iff, forall₂_same]
        intro vs member rowid
        exact lands_of_last plain label rowid
          ((Source.length_of_eval evaluated vs member).trans eq)
      · cases inserted
  · rw [insertRows, Source.eval_inject, evaluated, Option.map_some, Option.bind_some]
    exact congrArg Option.isSome (if_pos fits)

/-- The stored text of a user table that no column was added to. -/
def Shaped (t : StoredTable) : Prop :=
  ∃ others constraints options,
    t.text = createText (others ++ [securityColumn]) constraints options ∧
    distinctNames (others ++ [securityColumn])

variable {t : StoredTable}

private theorem Shaped.parse {constraints options : Bool}
    (text : t.text = createText (others ++ [securityColumn]) constraints options)
    (distinct : distinctNames (others ++ [securityColumn])) :
    parseText t.text = some (others ++ [securityColumn], (others ++ [securityColumn]).length) := by
  rw [text, parseText_createText, if_pos ⟨by simp, distinct⟩]

private theorem not_isLabel_of_distinct (distinct : distinctNames (others ++ [securityColumn])) :
    ∀ c ∈ others, ¬isLabel c := by
  intro c member label
  have nodup : ((others ++ [securityColumn]).map fun c => fold c.zName).Nodup := by
    simpa [distinctNames] using distinct
  rw [map_append] at nodup
  exact (nodup_append.mp nodup).2.2 (fold c.zName) (mem_map_of_mem member)
    (fold securityColumn.zName) (by simp) ((sqlite3StrICmp_iff _ _).mp label)

private theorem Shaped.labelled (shaped : Shaped t) :
    LabelLast (columnsOf t) ∧ InsertsLand (columnsOf t) := by
  obtain ⟨others, constraints, options, text, distinct⟩ := shaped
  have columns : columnsOf t = others ++ [securityColumn] := by
    simp [columnsOf, Shaped.parse text distinct]
  have plain := not_isLabel_of_distinct distinct
  rw [columns]
  exact ⟨⟨others, securityColumn, rfl, by decide, plain⟩, insertsLand_of_last plain⟩

def AllShaped (s : Catalog) : Prop := ∀ t ∈ s, isUserTable t.zName → Shaped t

private theorem shaped_storedText {zName : String} {body : Body} (user : isUserTable zName)
    (parses : (parseText (storedText zName body)).isSome) :
    Shaped ⟨zName, storedText zName body⟩ := by
  obtain ⟨constraints, options, text⟩ := storedText_user user parses
  refine ⟨body.columns, constraints, options, text, ?_⟩
  rw [text, parseText_createText] at parses
  split at parses
  · rename_i accepted
    exact accepted.2
  · cases parses

private theorem allShaped_execute (s : Catalog) (statement : Statement) (shaped : AllShaped s)
    (keeps : Keeps s statement) : AllShaped (execute s statement) := by
  cases statement with
  | createTable zName body accepted =>
    simp only [LabelColumn.execute]
    split
    · rename_i done
      simp only [Bool.and_eq_true] at done
      intro t member user
      rcases mem_append.mp member with old | new
      · exact shaped t old user
      · obtain rfl := mem_singleton.mp new
        exact shaped_storedText user done.2
    · exact shaped
  | addColumn zName zCol accepted =>
    simp only [LabelColumn.execute]
    split
    · exact shaped
    rename_i t found
    split
    · rename_i done
      simp only [Bool.and_eq_true] at done
      intro u' member user
      obtain ⟨u, old, rfl⟩ := mem_map.mp member
      split at user <;> rename_i name
      · exact absurd done.1 (keeps t found (name ▸ user))
      · rw [if_neg name]
        exact shaped u old user
    · exact shaped

private theorem Shaped.not_labelLast_extend (shaped : Shaped t) {zCol : String}
    (new : addable t zCol) :
    (parseText (extendText t.text zCol)).isSome ∧
      ¬LabelLast (columnsOf { t with text := extendText t.text zCol }) := by
  obtain ⟨others, constraints, options, text, distinct⟩ := shaped
  have parse := Shaped.parse text distinct
  have columns : columnsOf t = others ++ [securityColumn] := by simp [columnsOf, parse]
  have extended : extendText t.text zCol =
      createText (others ++ [securityColumn] ++ [⟨zCol, false⟩]) constraints options := by
    rw [extendText, parse]
    simp only
    rw [text, insertIdx_createText]
  have fresh : ∀ c ∈ others ++ [securityColumn], fold c.zName ≠ fold zCol := by
    intro c member eq
    simp only [addable, columns, Bool.and_eq_true, Bool.not_eq_true', any_eq_false] at new
    exact new.2 c member ((sqlite3StrICmp_iff _ _).mpr eq)
  have distinct' : distinctNames (others ++ [securityColumn] ++ [⟨zCol, false⟩]) := by
    simp only [distinctNames, decide_eq_true_eq] at distinct ⊢
    rw [map_append, nodup_append]
    refine ⟨distinct, by simp, ?_⟩
    intro a old b last eq
    obtain ⟨c, member, rfl⟩ := mem_map.mp old
    obtain rfl : b = fold zCol := by simpa using last
    exact fresh c member eq
  have parse' : parseText (extendText t.text zCol) =
      some (others ++ [securityColumn] ++ [⟨zCol, false⟩],
        (others ++ [securityColumn] ++ [(⟨zCol, false⟩ : Column)]).length) := by
    rw [extended, parseText_createText, if_pos ⟨by simp, distinct'⟩]
  refine ⟨by rw [parse']; rfl, ?_⟩
  rintro ⟨front, c, eq, label, -⟩
  simp only [columnsOf, parse'] at eq
  obtain ⟨-, last⟩ := append_inj' eq rfl
  obtain rfl : (⟨zCol, false⟩ : Column) = c := by simpa using last
  exact fresh securityColumn (by simp) ((sqlite3StrICmp_iff _ _).mp label).symm

private theorem keeps_of_labelled (s : Catalog) (statement : Statement) (shaped : AllShaped s)
    (labelled : Labelled (execute s statement)) : Keeps s statement := by
  cases statement with
  | createTable zName body accepted => trivial
  | addColumn zName zCol accepted =>
    rintro t found user ⟨accepts, new⟩
    have member : t ∈ s := mem_of_find?_eq_some found
    obtain ⟨parses, notLast⟩ := (shaped t member user).not_labelLast_extend new
    refine notLast (labelled { t with text := extendText t.text zCol } ?_ user).1
    simp only [execute, found, accepts, new, parses]
    exact mem_map.mpr ⟨t, member, by simp⟩

private theorem allShaped_opened : AllShaped opened := by
  intro t member user
  rcases mem_cons.mp member with rfl | member
  · cases user
  · obtain rfl := mem_singleton.mp member
    cases user

/-- The label column is the last one of every user table, and labels land in it, exactly as
long as no column is added to a user table. -/
theorem visits_labelled_iff (run : List Statement) :
    Visits execute Labelled opened run ↔ Along execute Keeps opened run :=
  visits_iff_along_of_invariant (fun _ shaped t member user => (shaped t member user).labelled)
    keeps_of_labelled allShaped_execute allShaped_opened run

end

/-- After ADD COLUMN the label of a new row is stored in the added column. -/
theorem addColumn_takesLabel :
    let s := [Statement.createTable "t" (.list [⟨"a", false⟩] false false) true,
      .addColumn "t" "b" true].foldl execute opened
    (findTable s "t").map columnsOf =
        some [⟨"a", false⟩, ⟨"security_context", false⟩, ⟨"b", false⟩] ∧
      insertRows 3 (some 5) (Source.values [some 1, some 2] : Source Unit (Option Int)) =
        some [[some 1, some 2, some 5]] := by
  decide

end SeSqlite.LabelColumn
