/- source: src/select.c, src/build.c, src/resolve.c, ext/security/sesqlite/sesqlite_authorizer.c
   digest: The checks that are put into a SELECT and its subqueries, and when they amount to the
   removal of the tuples that may not be read. -/
import SeSqlite.Lib.NestedLoop
import SeSqlite.Lib.Traverse
import SeSqlite.Names
import SeSqlite.Sql.Constraints
import SeSqlite.TupleCheck

set_option autoImplicit false
set_option relaxedAutoImplicit false

namespace SeSqlite.Select

open Lib.NestedLoop Lib.Traverse Names Sql TupleCheck List

abbrev Content (τ V : Type) := τ → List (List V)

/-- One row for each item of the FROM clauses around an expression; an item of a LEFT JOIN
may be absent. -/
abbrev Env (V : Type) := List (Option (List V))

/-- What the subqueries of a statement give at a row of it. -/
abbrev Results (V : Type) (n : Nat) := Fin n → List (List V)

/-- A condition, with the subqueries that may stand in it. -/
abbrev Condition (V : Type) (n : Nat) := Env V → Results V n → Bool

/-- An item of the FROM clause; `left` for a LEFT JOIN, else a comma or an inner join. NATURAL
and USING are not among the kinds of join. -/
structure SrcItem (τ V : Type) (n : Nat) where
  zName : String
  zAlias : Option String
  pTab : τ
  left : Bool
  pOn : Option (Condition V n)
  user : isUserTable zName = true

/-- The slots that are in use and the number of those that are allocated. -/
structure SrcList (τ V : Type) (n : Nat) where
  a : List (SrcItem τ V n)
  nAlloc : Nat
  room : a.length ≤ nAlloc

/-- One SELECT without its subqueries. `finish` is what is done with the rows, for the result
columns, DISTINCT, aggregates, ORDER BY and LIMIT. -/
structure Query (τ V : Type) (n : Nat) where
  pSrc : SrcList τ V n
  pWhere : Option (Condition V n)
  finish : List (Env V × Results V n) → List (List V)

/-- A SELECT and its subqueries. -/
inductive Statement (τ V : Type) where
  | mk {n : Nat} (s : Query τ V n) (sub : Fin n → Statement τ V)

section

variable {τ V : Type} {n : Nat}

def SrcItem.effective (item : SrcItem τ V n) : String := item.zAlias.getD item.zName

section

variable (results : Env V → Results V n)

/-- ON of a LEFT JOIN is tested in the loop over its table. -/
def SrcItem.joinOn (item : SrcItem τ V n) (e : Env V) : Bool :=
  !item.left || item.pOn.all fun c => c e (results e)

/-- ON of an inner join has been moved to the WHERE clause. -/
def Query.filterOn (s : Query τ V n) (e : Env V) : Bool :=
  (s.pWhere.all fun c => c e (results e)) &&
    s.pSrc.a.all fun item => item.left || item.pOn.all fun c => c e (results e)

def Query.joined (s : Query τ V n) (D : Content τ V) (outer : Env V) : List (Env V) :=
  join (fun item => D item.pTab) (SrcItem.joinOn results) SrcItem.left s.pSrc.a outer

def Query.rows (s : Query τ V n) (D : Content τ V) (outer : Env V) : List (Env V) :=
  (s.joined results D outer).filter (s.filterOn results)

/-- The rows, whole or in part, at which conditions are tested. -/
def Query.tested (s : Query τ V n) (D : Content τ V) (outer : Env V) : List (Env V) :=
  probes (fun item => D item.pTab) (SrcItem.joinOn results) SrcItem.left s.pSrc.a outer ++
    s.joined results D outer

end

/-- The row that a subquery sees: the items to come are absent. -/
def Query.around (s : Query τ V n) (outer e : Env V) : Env V :=
  e ++ replicate (outer.length + s.pSrc.a.length - e.length) none

/-- The statement as it is written. -/
def Statement.original : Statement τ V → Content τ V → Env V → List (List V)
  | .mk s sub, D, outer =>
    let results := fun e i => (sub i).original D (s.around outer e)
    s.finish ((s.rows results D outer).map fun e => (e, results e))

/-- The slots that `sqlite3SelectNew` reads, none if it reads one that was never filled. -/
def SrcList.slots (pSrc : SrcList τ V n) : Option (List (SrcItem τ V n)) :=
  (range pSrc.nAlloc).mapM fun i => pSrc.a[i]?

/-- The table names in the checks that `sqlite3SelectNew` puts into the WHERE clause. -/
def injected (slots : List (SrcItem τ V n)) : List String :=
  if slots.any fun item => isUserTable item.zName then slots.map SrcItem.effective else []

/-- The names that a FROM clause defines, with the column of the label. -/
abbrev Scope := List (String × Option Nat)

/-- The items of one FROM clause that `zTab.security_context` can mean. -/
def candidates (names : Scope) (zTab : String) : List ((String × Option Nat) × Nat) :=
  names.zipIdx.filter fun p => sqlite3StrICmp p.1.1 zTab && p.1.2.isSome

/-- The loop of `lookupName` over the enclosing contexts: the first that has the name decides.
The result is a place in the row of the enclosing statements and a column. -/
def lookupOuter : List Scope → String → Option (Nat × Nat)
  | [], _ => none
  | names :: pNext, zTab =>
    match candidates names zTab with
    | [] => lookupOuter pNext zTab
    | [p] => p.1.2.map fun i => ((pNext.map List.length).sum + p.2, i)
    | _ => none

/-- `lookupName` for `zTab.security_context`: an item of the FROM clause itself, or a place
outside. A name that matches twice is ambiguous. -/
def lookupName (names : Scope) (pNext : List Scope) (zTab : String) : Option (Nat ⊕ Nat × Nat) :=
  match candidates names zTab with
  | [] => (lookupOuter pNext zTab).map .inr
  | [p] => some (.inl p.2)
  | _ => none

variable (aCol : τ → List String)

def labelColumn (pTab : τ) : Option Nat :=
  (aCol pTab).findIdx? fun zName => sqlite3StrICmp zName securityContextColumnName

def Query.names (s : Query τ V n) : Scope :=
  s.pSrc.a.map fun item => (item.effective, labelColumn aCol item.pTab)

/-- What the checks of a SELECT refer to; none if it does not compile. -/
def Query.targets (s : Query τ V n) (pNext : List Scope) : Option (List (Nat ⊕ Nat × Nat)) :=
  s.pSrc.slots.bind fun slots => (injected slots).mapM (lookupName (s.names aCol) pNext)

def Statement.Compiles : Statement τ V → List Scope → Prop
  | .mk s sub, pNext =>
    (s.targets aCol pNext).isSome = true ∧ ∀ i, (sub i).Compiles (s.names aCol :: pNext)

variable [SqlValue V] (policy : Policy V)

/-- The check of the label that a row has at some place; NULL where the item is absent. -/
def checkLabel (e : Env V) (place i : Nat) : Bool :=
  policy.check .select
    ((e.getD place none).elim SqlValue.null fun row => row.getD i SqlValue.null)

def Query.checkAt (s : Query τ V n) (outer e : Env V) : Nat ⊕ Nat × Nat → Bool
  | .inl k => s.pSrc.a[k]?.any fun item => (labelColumn aCol item.pTab).any fun i =>
      checkLabel policy e (outer.length + k) i
  | .inr place => checkLabel policy outer place.1 place.2

def Query.checks (s : Query τ V n) (pNext : List Scope) (outer e : Env V) : Bool :=
  ((s.targets aCol pNext).getD []).all (s.checkAt aCol policy outer e)

/-- The statement as it is compiled and run, its subqueries having been rewritten when they were
parsed. -/
def Statement.rewritten : Statement τ V → List Scope → Content τ V → Env V → List (List V)
  | .mk s sub, pNext, D, outer =>
    let results := fun e i => (sub i).rewritten (s.names aCol :: pNext) D (s.around outer e)
    s.finish (((s.rows results D outer).filter (s.checks aCol policy pNext outer)).map
      fun e => (e, results e))

/-- A tuple may be read if the policy allows it for its label. -/
def guard (pTab : τ) : Option (List V → Bool) :=
  (labelColumn aCol pTab).map fun i row => policy.allows .select (row.getD i SqlValue.null)

def readable (D : Content τ V) : Content τ V := admittedRows (guard aCol policy) D

/-- What the subqueries give at the rows of the SELECT that runs. -/
def Query.compiled (s : Query τ V n) (sub : Fin n → Statement τ V) (pNext : List Scope)
    (D : Content τ V) (outer e : Env V) : Results V n :=
  fun i => (sub i).rewritten aCol policy (s.names aCol :: pNext) D (s.around outer e)

/-- What the subqueries as written give, on the readable database. -/
def Query.written (s : Query τ V n) (sub : Fin n → Statement τ V) (D : Content τ V)
    (outer e : Env V) : Results V n :=
  fun i => (sub i).original (readable aCol policy D) (s.around outer e)

/-- The rows of the statement that runs are those of the written one on the readable database,
and so are the rows of its subqueries, at each row where these are evaluated. -/
def Statement.Exact : Statement τ V → List Scope → Content τ V → Env V → Prop
  | .mk s sub, pNext, D, outer =>
    (s.rows (s.compiled aCol policy sub pNext D outer) D outer).filter
        (s.checks aCol policy pNext outer) =
      s.rows (s.written aCol policy sub D outer) (readable aCol policy D) outer ∧
    ∀ e ∈ s.tested (s.written aCol policy sub D outer) (readable aCol policy D) outer, ∀ i,
      (sub i).Exact (s.names aCol :: pNext) D (s.around outer e)

/-- Every labelled item of the row is a tuple that may be read. -/
def Query.Readable (s : Query τ V n) (outer e : Env V) : Prop :=
  ∀ (k : Nat) (item : _), s.pSrc.a[k]? = some item → ∀ i, labelColumn aCol item.pTab = some i →
    ∃ row, e.getD (outer.length + k) none = some row ∧
      policy.allows .select (row.getD i SqlValue.null) = true

omit [SqlValue V] in
/-- No table with labels is absent from the row. -/
def Query.Complete (s : Query τ V n) (outer e : Env V) : Prop :=
  ∀ (k : Nat) (item : _), s.pSrc.a[k]? = some item → (labelColumn aCol item.pTab).isSome = true →
    (e.getD (outer.length + k) none).isSome = true

/-- The checks of each row say what the policy says of its labels, and no row of the readable
database was completed with NULLs; and the same for the subqueries, at each row where they are
evaluated. -/
def Statement.Clean : Statement τ V → List Scope → Content τ V → Env V → Prop
  | .mk s sub, pNext, D, outer =>
    (∀ e ∈ s.rows (s.compiled aCol policy sub pNext D outer) D outer,
      s.checks aCol policy pNext outer e = true ↔ s.Readable aCol policy outer e) ∧
    (∀ e ∈ s.rows (s.written aCol policy sub D outer) (readable aCol policy D) outer,
      s.Complete aCol outer e) ∧
    ∀ e ∈ s.tested (s.written aCol policy sub D outer) (readable aCol policy D) outer, ∀ i,
      (sub i).Clean (s.names aCol :: pNext) D (s.around outer e)

variable {aCol policy} {item : SrcItem τ V n} {items : List (SrcItem τ V n)} {names : Scope}
  {pNext : List Scope} {zTab : String} {s : Query τ V n} {k : Nat}

section

omit [SqlValue V]

private theorem mem_candidates {name : String × Option Nat} : (name, k) ∈ candidates names zTab ↔
    names[k]? = some name ∧ sqlite3StrICmp name.1 zTab = true ∧ name.2.isSome = true := by
  rw [candidates, mem_filter, mem_zipIdx_iff_getElem?, Bool.and_eq_true]

private theorem lookupName_own {name : String × Option Nat} (at_k : names[k]? = some name)
    (labelled : name.2.isSome = true) {target : Nat ⊕ Nat × Nat}
    (found : lookupName names pNext name.1 = some target) : target = .inl k := by
  have own := mem_candidates.mpr ⟨at_k, (Names.sqlite3StrICmp_iff _ _).mpr rfl, labelled⟩
  rw [lookupName] at found
  split at found
  · rename_i shape
    simp [shape] at own
  · rename_i p shape
    rw [shape, mem_singleton] at own
    rw [← Option.some.inj found, ← own]
  · cases found

private theorem SrcList.slots_eq_some_iff {pSrc : SrcList τ V n} {slots : List (SrcItem τ V n)} :
    pSrc.slots = some slots ↔ pSrc.nAlloc = pSrc.a.length ∧ slots = pSrc.a := by
  have whole : pSrc.nAlloc = pSrc.a.length → pSrc.slots = some pSrc.a := by
    intro tight
    rw [SrcList.slots, mapM_eq_some_iff, tight]
    refine forall₂_of_length_eq_of_get (by simp) fun i _ bound => ?_
    simp at bound ⊢
  constructor
  · intro read
    have tight : pSrc.nAlloc = pSrc.a.length := by
      by_contra spare
      rw [SrcList.slots, mapM_eq_some_iff] at read
      have slot : (range pSrc.nAlloc)[pSrc.a.length]? = some pSrc.a.length := by
        have := pSrc.room
        rw [getElem?_range (by omega)]
      obtain ⟨item, -, filled⟩ := forall₂_getElem? read slot
      simp at filled
    exact ⟨tight, Option.some.inj (read.symm.trans (whole tight))⟩
  · rintro ⟨tight, rfl⟩
    exact whole tight

private theorem injected_eq (items : List (SrcItem τ V n)) :
    injected items = items.map SrcItem.effective := by
  cases items with
  | nil => rfl
  | cons item rest => exact if_pos (any_eq_true.mpr ⟨item, mem_cons_self, item.user⟩)

/-- Each check means one label. -/
def Query.Resolves (aCol : τ → List String) (s : Query τ V n) (pNext : List Scope) : Prop :=
  ∀ name ∈ s.names aCol, (lookupName (s.names aCol) pNext name.1).isSome = true

private theorem Query.targets_eq_some_iff {targets : List (Nat ⊕ Nat × Nat)} :
    s.targets aCol pNext = some targets ↔ s.pSrc.nAlloc = s.pSrc.a.length ∧
      ((s.names aCol).map Prod.fst).mapM (lookupName (s.names aCol) pNext) = some targets := by
  have effective : (s.names aCol).map Prod.fst = s.pSrc.a.map SrcItem.effective := by
    simp [Query.names, Function.comp_def]
  rw [Query.targets, Option.bind_eq_some_iff, effective]
  constructor
  · rintro ⟨slots, read, resolved⟩
    obtain ⟨tight, rfl⟩ := SrcList.slots_eq_some_iff.mp read
    rw [injected_eq] at resolved
    exact ⟨tight, resolved⟩
  · rintro ⟨tight, resolved⟩
    refine ⟨s.pSrc.a, SrcList.slots_eq_some_iff.mpr ⟨tight, rfl⟩, ?_⟩
    rwa [injected_eq]

private theorem Query.targets_isSome_iff : (s.targets aCol pNext).isSome = true ↔
    s.pSrc.nAlloc = s.pSrc.a.length ∧ s.Resolves aCol pNext := by
  simp only [Option.isSome_iff_exists, Query.targets_eq_some_iff, exists_and_left]
  refine and_congr_right fun _ => ?_
  simp only [mapM_eq_some_iff, forall₂_map_left_iff]
  constructor
  · rintro ⟨targets, resolved⟩ name listed
    obtain ⟨k, at_k⟩ := mem_iff_getElem?.mp listed
    obtain ⟨target, -, found⟩ := forall₂_getElem? resolved at_k
    exact Option.isSome_iff_exists.mpr ⟨target, found⟩
  · intro resolves
    exact exists_forall₂ fun name listed => Option.isSome_iff_exists.mp (resolves name listed)

end

variable {outer e : Env V} {D : Content τ V}

/-- A row that passes the checks passes the check of each of its labelled items. -/
theorem Query.checkLabel_of_checks (compiles : (s.targets aCol pNext).isSome = true)
    (passed : s.checks aCol policy pNext outer e = true) (at_k : s.pSrc.a[k]? = some item) {i : Nat}
    (labelled : labelColumn aCol item.pTab = some i) :
    checkLabel policy e (outer.length + k) i = true := by
  obtain ⟨targets, found⟩ := Option.isSome_iff_exists.mp compiles
  have resolved := (Query.targets_eq_some_iff.mp found).2
  rw [mapM_eq_some_iff, forall₂_map_left_iff] at resolved
  have named : (s.names aCol)[k]? = some (item.effective, some i) := by
    simp [Query.names, at_k, labelled]
  obtain ⟨target, listed, own⟩ := forall₂_getElem? resolved named
  obtain rfl := lookupName_own named rfl own
  rw [Query.checks, found, Option.getD_some, all_eq_true] at passed
  simpa [Query.checkAt, at_k, labelled] using passed _ (mem_of_getElem? listed)

private theorem Query.readable_iff : s.Readable aCol policy outer e ↔
    allFrom (passes fun item : SrcItem τ V n => guard aCol policy item.pTab) s.pSrc.a
        outer.length e =
      true := by
  rw [allFrom_iff]
  refine forall₃_congr fun k item _ => ?_
  cases labelled : labelColumn aCol item.pTab <;>
    cases e.getD (outer.length + k) none <;> simp [passes, guard, labelled]

private theorem Query.complete_iff (policy : Policy V) : s.Complete aCol outer e ↔
    allFrom (present fun item : SrcItem τ V n => guard aCol policy item.pTab) s.pSrc.a
      outer.length e = true := by
  rw [allFrom_iff]
  refine forall₃_congr fun k item _ => ?_
  cases labelled : labelColumn aCol item.pTab <;> simp [present, guard, labelled]

/-- The rows whose tuples may all be read are those of the written statement on the readable
database, without the rows that a LEFT JOIN completed with NULLs. -/
theorem Query.readable_rows {compiled written : Env V → Results V n}
    (agree : ∀ e ∈ s.tested written (readable aCol policy D) outer, compiled e = written e) :
    (s.rows compiled D outer).filter (allFrom
        (passes fun item : SrcItem τ V n => guard aCol policy item.pTab) s.pSrc.a outer.length) =
      (s.rows written (readable aCol policy D) outer).filter (allFrom
        (present fun item : SrcItem τ V n => guard aCol policy item.pTab) s.pSrc.a
        outer.length) := by
  have swap : ∀ (p q : Env V → Bool) (l : List (Env V)),
      (l.filter p).filter q = (l.filter q).filter p := by
    intro p q l
    simp [Bool.and_comm]
  have joins : ∀ e ∈ probes (admittedRows (fun item : SrcItem τ V n => guard aCol policy item.pTab)
        fun item => D item.pTab) (SrcItem.joinOn written) SrcItem.left s.pSrc.a outer,
      ∀ item : SrcItem τ V n, SrcItem.joinOn compiled item e = SrcItem.joinOn written item e := by
    intro e probed item
    rw [SrcItem.joinOn, SrcItem.joinOn, agree e (mem_append_left _ probed)]
  rw [Query.rows, Query.rows, swap, Query.joined, filter_join joins, swap (s.filterOn written)]
  refine filter_congr fun e member => ?_
  have here := agree e (mem_append_right _ (mem_of_mem_filter member))
  rw [Query.filterOn, Query.filterOn, here]

private theorem Statement.exact_of_clean (st : Statement τ V) (D : Content τ V) : ∀ {pNext outer},
    st.Clean aCol policy pNext D outer → st.Exact aCol policy pNext D outer ∧
      st.rewritten aCol policy pNext D outer = st.original (readable aCol policy D) outer := by
  induction st with
  | mk s sub ih =>
    rintro pNext outer ⟨right, complete, subs⟩
    have agree : ∀ e ∈ s.tested (s.written aCol policy sub D outer) (readable aCol policy D) outer,
        s.compiled aCol policy sub pNext D outer e = s.written aCol policy sub D outer e :=
      fun e tested => funext fun i => (ih i (subs e tested i)).2
    have rows : (s.rows (s.compiled aCol policy sub pNext D outer) D outer).filter
          (s.checks aCol policy pNext outer) =
        s.rows (s.written aCol policy sub D outer) (readable aCol policy D) outer := by
      rw [filter_congr fun e member => Bool.eq_iff_iff.mpr
        ((right e member).trans Query.readable_iff), Query.readable_rows agree, filter_eq_self]
      exact fun e member => (Query.complete_iff policy).mp (complete e member)
    refine ⟨⟨rows, fun e tested i => (ih i (subs e tested i)).1⟩, ?_⟩
    change s.finish (((s.rows (s.compiled aCol policy sub pNext D outer) D outer).filter
      (s.checks aCol policy pNext outer)).map
        fun e => (e, s.compiled aCol policy sub pNext D outer e)) = _
    rw [rows]
    refine congrArg s.finish (map_congr_left fun e member => ?_)
    exact congrArg (Prod.mk e) (agree e (mem_append_right _ (mem_of_mem_filter member)))

private theorem Statement.clean_of_exact (refused : policy.check .select SqlValue.null = false)
    (st : Statement τ V) (D : Content τ V) : ∀ {pNext outer}, st.Compiles aCol pNext →
    st.Exact aCol policy pNext D outer → st.Clean aCol policy pNext D outer := by
  induction st with
  | mk s sub ih =>
    rintro pNext outer ⟨compiles, subCompiles⟩ ⟨rows, subs⟩
    have clean := fun e tested i => ih i (subCompiles i) (subs e tested i)
    have agree : ∀ e ∈ s.tested (s.written aCol policy sub D outer) (readable aCol policy D) outer,
        s.compiled aCol policy sub pNext D outer e = s.written aCol policy sub D outer e :=
      fun e tested => funext fun i => ((sub i).exact_of_clean D (clean e tested i)).2
    have complete : ∀ e ∈ s.rows (s.written aCol policy sub D outer) (readable aCol policy D) outer,
        s.Complete aCol outer e := by
      intro e member k item at_k labels
      obtain ⟨i, labelled⟩ := Option.isSome_iff_exists.mp labels
      rw [← rows] at member
      have passed := s.checkLabel_of_checks compiles (mem_filter.mp member).2 at_k labelled
      -- the check of an absent row would have been refused
      cases chosen : e.getD (outer.length + k) none with
      | some row => rfl
      | none =>
        rw [checkLabel, chosen, Option.elim_none, refused] at passed
        cases passed
    refine ⟨fun e member => ?_, complete, clean⟩
    have same := Query.readable_rows agree
    rw [filter_eq_self.mpr fun e member => (Query.complete_iff policy).mp (complete e member),
      ← rows] at same
    have listed := congrArg (e ∈ ·) same
    simp only [mem_filter, member, true_and, eq_iff_iff] at listed
    exact listed.symm.trans Query.readable_iff.symm

/-- Every check of the statement and its subqueries means one label, and no slot is unfilled. -/
def Statement.WellFormed (aCol : τ → List String) : Statement τ V → List Scope → Prop
  | .mk s sub, pNext => (s.pSrc.nAlloc = s.pSrc.a.length ∧ s.Resolves aCol pNext) ∧
      ∀ i, (sub i).WellFormed aCol (s.names aCol :: pNext)

omit [SqlValue V] in
private theorem Statement.compiles_iff (st : Statement τ V) : ∀ {pNext : List Scope},
    st.Compiles aCol pNext ↔ st.WellFormed aCol pNext := by
  induction st with
  | mk s sub ih => exact and_congr Query.targets_isSome_iff (forall_congr' fun i => ih i)

end

/-- The policy denies the label of id 7 and allows those of 3 and 65543. -/
def notSeven (asked : List (Permission × Option Int)) : Policy (Option Int) where
  valueInt label := label.getD 0
  valueInt_null := getD_null
  lib := ⟨none, fun _ => true, fun _ tcon _ _ => tcon != "secret_t"⟩
  scon := "init_t"
  sconId := 1
  start := ⟨⟨{ LabelIds.empty with
    hashId := BiHash.sesqliteBihashInsert (BiHash.sesqliteBihashInsert
      (BiHash.sesqliteBihashInsert BiHash.sesqliteBihashInit ⟨3, some "public_t", fun _ => ""⟩)
      ⟨7, some "secret_t", fun _ => ""⟩) ⟨65543, some "open_t", fun _ => ""⟩ },
    Hash.sqliteHashInit⟩, Hash.sqliteHashInit⟩
  asked := asked

def ordersNotes : Bool → List String
  | true => ["item", "security_context"]
  | false => ["text", "security_context"]

def content (orders notes : List (List (Option Int))) : Content Bool (Option Int)
  | true => orders
  | false => notes

section

variable {n : Nat} (pWhere : Option (Condition (Option Int) n))

/-- `SELECT * FROM orders` -/
def fromOrders : Query Bool (Option Int) n :=
  ⟨⟨[⟨"orders", none, true, false, none, by decide⟩], 1, Nat.le_refl _⟩, pWhere,
    map fun row => row.1.flatMap fun tuple => tuple.getD [none, none]⟩

/-- `SELECT * FROM orders LEFT JOIN notes` -/
def fromBoth : Query Bool (Option Int) n :=
  ⟨⟨[⟨"orders", none, true, false, none, by decide⟩, ⟨"notes", none, false, true, none, by decide⟩],
    2, Nat.le_refl _⟩, pWhere, map fun row => row.1.flatMap fun tuple => tuple.getD [none, none]⟩

end

def ordersLeftNotes : Statement Bool (Option Int) := .mk (fromBoth none) Fin.elim0

/-- The orders, unless the join of `ordersLeftNotes` has a row. -/
def ordersUnlessJoined : Statement Bool (Option Int) :=
  .mk (fromOrders (some fun _ results => (results 0).isEmpty)) fun _ : Fin 1 => ordersLeftNotes

section

/-- The sizes in bytes that `sqlite3SrcListEnlarge` computes with. -/
structure Allocator where
  szList : Nat
  szItem : Nat
  dbMallocSize : Nat → Nat
  szItem_pos : 0 < szItem
  enough : ∀ n, n ≤ dbMallocSize n

def Allocator.request (alloc : Allocator) (nSlots : Nat) : Nat :=
  alloc.szList + (nSlots - 1) * alloc.szItem

def Allocator.nGot (alloc : Allocator) (nSlots : Nat) : Nat :=
  (alloc.dbMallocSize (alloc.request nSlots) - alloc.szList) / alloc.szItem + 1

private theorem Allocator.le_nGot (alloc : Allocator) (nSlots : Nat) : nSlots ≤ alloc.nGot
    nSlots := by
  have enough := alloc.enough (alloc.request nSlots)
  have slots : nSlots - 1 ≤
      (alloc.dbMallocSize (alloc.request nSlots) - alloc.szList) / alloc.szItem := by
    rw [Nat.le_div_iff_mul_le alloc.szItem_pos]
    rw [Allocator.request] at enough ⊢
    omega
  rw [Allocator.nGot]
  omega

variable {τ V : Type} {n : Nat}

/-- `sqlite3SrcListAppend` to a list that exists. -/
def SrcList.append (alloc : Allocator) (pList : SrcList τ V n)
    (item : SrcItem τ V n) : SrcList τ V n :=
  if full : pList.nAlloc < pList.a.length + 1 then
    ⟨pList.a ++ [item], alloc.nGot (pList.a.length + 1), by
      rw [length_append]
      exact alloc.le_nGot _⟩
  else ⟨pList.a ++ [item], pList.nAlloc, by
      rw [length_append, length_singleton]
      omega⟩

/-- The FROM clause as the parser builds it; a new list has one slot. -/
def SrcList.parse (alloc : Allocator) (first : SrcItem τ V n)
    (rest : List (SrcItem τ V n)) : SrcList τ V n :=
  rest.foldl (SrcList.append alloc) ⟨[first], 1, Nat.le_refl _⟩

/-- No slot is left over if the allocator rounds up by less than one item. -/
theorem SrcList.parse_tight {alloc : Allocator}
    (rounds : ∀ n, alloc.dbMallocSize n < n + alloc.szItem) (first : SrcItem τ V n)
    (rest : List (SrcItem τ V n)) :
    (SrcList.parse alloc first rest).nAlloc = (SrcList.parse alloc first rest).a.length := by
  have got : ∀ n, 0 < n → alloc.nGot n = n := by
    intro n pos
    have low := alloc.enough (alloc.request n)
    have high := rounds (alloc.request n)
    have slots : (alloc.dbMallocSize (alloc.request n) - alloc.szList) / alloc.szItem = n - 1 := by
      rw [Allocator.request] at low high ⊢
      refine Nat.div_eq_of_lt_le (by omega) ?_
      rw [Nat.succ_mul]
      omega
    rw [Allocator.nGot, slots, Nat.sub_add_cancel pos]
  have kept : ∀ pList : SrcList τ V n, pList.nAlloc = pList.a.length →
      (rest.foldl (SrcList.append alloc) pList).nAlloc =
        (rest.foldl (SrcList.append alloc) pList).a.length := by
    induction rest with
    | nil => exact fun _ tight => tight
    | cons item rest ih =>
      intro pList tight
      refine ih _ ?_
      rw [SrcList.append, dif_pos (by omega), length_append]
      exact got _ (Nat.succ_pos _)
  exact kept _ rfl

end

end SeSqlite.Select
