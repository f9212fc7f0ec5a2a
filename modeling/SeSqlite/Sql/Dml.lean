/- source: src/insert.c, src/update.c, src/delete.c, src/vdbe.c
   digest: The row loops of INSERT, UPDATE and DELETE, and which stored tuples they lose. -/
import Mathlib.Algebra.Ring.Int.Defs
import Mathlib.Data.List.Nodup
import SeSqlite.Lib.Runs
import SeSqlite.Sql.Constraints

set_option autoImplicit false
set_option relaxedAutoImplicit false

namespace SeSqlite.Sql

open Lib.Runs List TableDef

/-- The tuples of a table and the tag that the next new tuple gets. -/
structure Store (V : Type) where
  rows : List (Tuple V)
  next : Nat
  deriving DecidableEq

/-- A b-tree has one record for a key, and a tag is given once. -/
structure Store.Sound {V : Type} [RowidValue V] (pTab : TableDef V) (s : Store V) : Prop where
  idents : (s.rows.map pTab.ident).Nodup
  tags : (s.rows.map Tuple.tag).Nodup
  bound : ∀ t ∈ s.rows, t.tag < s.next

/-- The rowid of a new row: computed, with the lower bound that AUTOINCREMENT sets and the
candidates of `sqlite3_randomness`; given; or not an integer. -/
inductive NewRowid where
  | auto (floor : Int) (candidates : List Int)
  | given (rowid : Int)
  | mismatch

/-- A row as the registers of the insertion loop hold it: the source evaluated, the label
injected, the defaults of unnamed columns filled in. -/
structure NewRow (V : Type) where
  rowid : NewRowid
  values : List V

/-- The SET clause. Expressions may read the table, so they see its rows. -/
structure Changes (V : Type) where
  aXRef : Nat → Option (List (Tuple V) → Tuple V → V)
  pRowidExpr : Option (List (Tuple V) → Tuple V → Option Int)

/-- What is known of a row when its uniqueness is tested. -/
structure Plan (V : Type) where
  tests : List (Constraint V)
  old : Option (Tuple V)
  new : Tuple V

/-- A row loop between two rows; `halted` is never IGNORE. -/
structure Progress (V : Type) where
  store : Store V
  halted : Option Stop

def maxRowid : Int := 2 ^ 63 - 1

/-- `OP_NewRowid`; without a result the error is `SQLITE_FULL`. -/
def newRowid {V : Type} (rows : List (Tuple V)) (floor : Int) (candidates : List Int) :
    Option Int :=
  match (rows.map Tuple.rowid).max? with
  | none => if floor ≤ maxRowid then some (max 1 floor) else none
  | some last =>
    if last < maxRowid then
      if floor ≤ maxRowid then some (max (last + 1) floor) else none
    else candidates.find? fun v => rows.all fun u => decide (u.rowid ≠ v)

def NewRowid.value {V : Type} (rows : List (Tuple V)) : NewRowid → Option Int
  | .auto floor candidates => newRowid rows floor candidates
  | .given rowid => some rowid
  | .mismatch => none

def NewRowid.isGiven : NewRowid → Bool
  | .given _ => true
  | _ => false

/-- A row that is skipped does not end the loop. -/
def Stop.halts : Stop → Option Stop
  | .ignore => none
  | stop => some stop

section

variable {V : Type} [RowidValue V] [DecidableEq V] (pTab : TableDef V)

/-- A WITHOUT ROWID table has no use for the rowid register. -/
def NewRow.insertRowid (row : NewRow V) (rows : List (Tuple V)) : Option Int :=
  if pTab.pPk.isSome then some 0 else row.rowid.value rows

def insertPlan (ignoreChecks : Bool) (overrideError : Option OnError) (s : Store V)
    (row : NewRow V) : Except Stop (Plan V) :=
  match row.insertRowid pTab s.rows with
  | none => .error .abort
  | some rowid =>
    (pTab.prepare ignoreChecks overrideError ⟨s.next, rowid, row.values⟩).map fun new =>
      ⟨pTab.constraints overrideError row.rowid.isGiven (fun _ => true) none new, none, new⟩

def Changes.chngKey (changes : Changes V) : Bool :=
  match pTab.pPk with
  | none => changes.pRowidExpr.isSome
  | some pk => pk.aiColumn.any fun column => (changes.aXRef column.iField).isSome

/-- `aRegIdx[j]!=0`. -/
def Changes.touches (changes : Changes V) (pIdx : Index V) : Bool :=
  changes.chngKey pTab || pIdx.pPartIdxWhere.isSome ||
    pIdx.aiColumn.any fun column => (changes.aXRef column.iField).isSome

def Changes.values (changes : Changes V) (rows : List (Tuple V)) (old : Tuple V) : List V :=
  (range pTab.aCol.length).map fun i =>
    if pTab.iPKey = some i then SqlValue.null
    else (changes.aXRef i).elim (old.values.getD i SqlValue.null) fun pExpr => pExpr rows old

def Changes.newRowid (changes : Changes V) (rows : List (Tuple V)) (old : Tuple V) : Option Int :=
  changes.pRowidExpr.elim (some old.rowid) fun pExpr => pExpr rows old

/-- The update loop up to the uniqueness tests. A row that is gone is skipped. -/
def updatePlan (ignoreChecks : Bool) (overrideError : Option OnError) (changes : Changes V)
    (s : Store V) (target : Int ⊕ List V) : Except Stop (Plan V) :=
  match s.rows.find? fun u => decide (pTab.ident u = target) with
  | none => .error .ignore
  | some old =>
    match changes.newRowid s.rows old with
    | none => .error .abort
    | some rowid =>
      (pTab.prepare ignoreChecks overrideError
          ⟨old.tag, rowid, changes.values pTab s.rows old⟩).map fun new =>
        ⟨pTab.constraints overrideError (changes.chngKey pTab) (changes.touches pTab)
          (some old) new, some old, new⟩

def Store.apply (s : Store V) : Except Stop (Plan V) → Progress V
  | .error stop => ⟨s, stop.halts⟩
  | .ok plan =>
    let outcome := pTab.writeRow plan.tests plan.old plan.new s.rows
    ⟨⟨outcome.1, s.next + 1⟩, outcome.2.bind Stop.halts⟩

/-- The stored tuple is lost when the planned row is written. -/
def Store.loses (s : Store V) (u : Tuple V) : Except Stop (Plan V) → Bool
  | .error _ => false
  | .ok plan => pTab.removes plan.tests plan.old plan.new s.rows u

/-- The new row costs the table a stored tuple: a test that replaces comes to it, or the row is
written over it without any test having found it. -/
def Plan.Displaces (plan : Plan V) (rows : List (Tuple V)) (u : Tuple V) : Prop :=
  (∃ before c after, plan.tests = before ++ c :: after ∧ (resolve before rows).2 = none ∧
    c.onError = .replace ∧ c.clash u = true) ∨
  ((resolve plan.tests rows).2 = none ∧ pTab.ident u = pTab.ident plan.new ∧
    ∀ o ∈ plan.old, pTab.ident u ≠ pTab.ident o)

/-- One turn of a row loop; after a halt nothing happens any more. -/
def Progress.step {ι : Type} (plan : Store V → ι → Except Stop (Plan V)) (p : Progress V)
    (item : ι) : Progress V :=
  if p.halted.isSome then p else p.store.apply pTab (plan p.store item)

def runLoop {ι : Type} (plan : Store V → ι → Except Stop (Plan V)) (s : Store V)
    (items : List ι) : Progress V :=
  items.foldl (Progress.step pTab plan) ⟨s, none⟩

/-- A row loop comes to a new row, with these tuples stored by then. -/
inductive Meets {ι : Type} (plan : Store V → ι → Except Stop (Plan V)) :
    Store V → List ι → List (Tuple V) → Plan V → Prop
  | here {s : Store V} {item : ι} {rest : List ι} {p : Plan V} (planned : plan s item = .ok p) :
      Meets plan s (item :: rest) s.rows p
  | later {s : Store V} {item : ι} {rest : List ι} {rows : List (Tuple V)} {p : Plan V}
      (goes_on : (s.apply pTab (plan s item)).halted = none)
      (meets : Meets plan (s.apply pTab (plan s item)).store rest rows p) :
      Meets plan s (item :: rest) rows p

def deleteLoop (s : Store V) (targets : List (Int ⊕ List V)) : Store V :=
  ⟨targets.foldl (fun rows target => rows.filter fun u => decide (pTab.ident u ≠ target)) s.rows,
    s.next⟩

end

section

variable {V : Type} [RowidValue V] {pTab : TableDef V} {s : Store V}

theorem Store.sound_empty (next : Nat) : (⟨[], next⟩ : Store V).Sound pTab :=
  ⟨nodup_nil, nodup_nil, by simp⟩

theorem Store.Sound.eq_of_tag (sound : s.Sound pTab) {t u : Tuple V} (tStored : t ∈ s.rows)
    (uStored : u ∈ s.rows) (eq : t.tag = u.tag) : t = u :=
  inj_on_of_nodup_map sound.tags tStored uStored eq

private theorem Store.Sound.eq_of_ident (sound : s.Sound pTab) {t u : Tuple V}
    (tStored : t ∈ s.rows) (uStored : u ∈ s.rows) (eq : pTab.ident t = pTab.ident u) : t = u :=
  inj_on_of_nodup_map sound.idents tStored uStored eq

variable [DecidableEq V]

/-- What both loops see to: the new row is a new tuple or continues the old one, and the old
one is in no test's way. -/
structure Plan.Fits (s : Store V) (plan : Plan V) : Prop where
  fresh : plan.old = none → plan.new.tag = s.next
  continues : ∀ o, plan.old = some o → o ∈ s.rows ∧ plan.new.tag = o.tag
  spares : ∀ o, plan.old = some o → ∀ c ∈ plan.tests, c.clash o = false

section

variable {ignoreChecks : Bool} {overrideError : Option OnError} {t o new : Tuple V}
  {row : NewRow V} {changes : Changes V} {target : Int ⊕ List V} {u : Tuple V} {plan : Plan V}

theorem TableDef.prepare_eq {t' : Tuple V}
    (prepared : pTab.prepare ignoreChecks overrideError t = .ok t') :
    ∃ values, pTab.notNullChecks overrideError t.values = .ok values ∧
      t' = { t with values := zipWith (fun column v => column.affinity.apply v) pTab.aCol values
        } := by
  rw [prepare] at prepared
  cases nulls : pTab.notNullChecks overrideError t.values with
  | error stop => rw [nulls] at prepared; cases prepared
  | ok values =>
    rw [nulls] at prepared
    cases checks : pTab.checkChecks ignoreChecks overrideError { t with values } with
    | error stop => simp [checks, bind, Except.bind] at prepared
    | ok u =>
      simp only [checks, bind, Except.bind, pure, Except.pure, Except.ok.injEq] at prepared
      exact ⟨values, rfl, prepared.symm⟩

theorem TableDef.prepare_ok {t' : Tuple V}
    (prepared : pTab.prepare ignoreChecks overrideError t = .ok t') :
    t'.tag = t.tag ∧ t'.rowid = t.rowid := by
  obtain ⟨values, -, rfl⟩ := prepare_eq prepared
  exact ⟨rfl, rfl⟩

private theorem TableDef.constraints_spare {pkChng : Bool} {touched : Index V → Bool} :
    ∀ c ∈ pTab.constraints overrideError pkChng touched (some o) new, c.clash o = false := by
  have rowid : (pTab.rowidConstraint overrideError (some o) new).clash o = false := by
    simp only [rowidConstraint, Option.map_some, Option.some.injEq, Bool.and_eq_false_iff,
      decide_eq_false_iff_not, not_not]
    exact (eq_or_ne o.rowid new.rowid).imp id id
  have index : ∀ c ∈ pTab.indexConstraints overrideError touched (some o) new,
      c.clash o = false := by
    intro c listed
    simp only [indexConstraints, mem_filterMap, Option.map_eq_some_iff] at listed
    obtain ⟨pIdx, -, onError, -, rfl⟩ := listed
    simp [clashes]
  intro c listed
  rcases pTab.mem_constraints_iff.mp listed with unique | ⟨-, rfl⟩
  · exact index c unique
  · exact rowid

theorem insertPlan_ok (planned : insertPlan pTab ignoreChecks overrideError s row = .ok plan) :
    ∃ rowid new, row.insertRowid pTab s.rows = some rowid ∧
      pTab.prepare ignoreChecks overrideError ⟨s.next, rowid, row.values⟩ = .ok new ∧
      plan = ⟨pTab.constraints overrideError row.rowid.isGiven (fun _ => true) none new, none,
        new⟩ := by
  rw [insertPlan] at planned
  split at planned
  · cases planned
  · rename_i rowid computed
    cases prepared : pTab.prepare ignoreChecks overrideError ⟨s.next, rowid, row.values⟩ with
    | error stop => rw [prepared] at planned; cases planned
    | ok new =>
      rw [prepared] at planned
      exact ⟨rowid, new, computed, prepared, (Except.ok.inj planned).symm⟩

private theorem updatePlan_ok
    (planned : updatePlan pTab ignoreChecks overrideError changes s target = .ok plan) :
    ∃ old rowid new, old ∈ s.rows ∧ pTab.ident old = target ∧
      changes.newRowid s.rows old = some rowid ∧
      pTab.prepare ignoreChecks overrideError
        ⟨old.tag, rowid, changes.values pTab s.rows old⟩ = .ok new ∧
      plan = ⟨pTab.constraints overrideError (changes.chngKey pTab) (changes.touches pTab)
        (some old) new, some old, new⟩ := by
  rw [updatePlan] at planned
  split at planned
  · cases planned
  · rename_i old found
    split at planned
    · cases planned
    · rename_i rowid computed
      cases prepared : pTab.prepare ignoreChecks overrideError
          ⟨old.tag, rowid, changes.values pTab s.rows old⟩ with
      | error stop => rw [prepared] at planned; cases planned
      | ok new =>
        rw [prepared] at planned
        exact ⟨old, rowid, new, mem_of_find?_eq_some found,
          by simpa using find?_some found, computed, prepared,
          (Except.ok.inj planned).symm⟩

theorem insertPlan_fits (planned : insertPlan pTab ignoreChecks overrideError s row = .ok plan) :
    plan.Fits s ∧ plan.old = none := by
  obtain ⟨rowid, new, -, prepared, rfl⟩ := insertPlan_ok planned
  exact ⟨⟨fun _ => (prepare_ok prepared).1, by simp, by simp⟩, rfl⟩

theorem updatePlan_fits
    (planned : updatePlan pTab ignoreChecks overrideError changes s target = .ok plan) :
    plan.Fits s ∧ ∃ o, plan.old = some o ∧ pTab.ident o = target := by
  obtain ⟨old, rowid, new, stored, eq, -, prepared, rfl⟩ := updatePlan_ok planned
  refine ⟨⟨by simp, ?_, ?_⟩, old, rfl, eq⟩
  · rintro o ⟨rfl⟩
    exact ⟨stored, (prepare_ok prepared).1⟩
  · rintro o ⟨rfl⟩
    exact constraints_spare

private theorem Plan.Fits.isOld_iff (fits : plan.Fits s) (sound : s.Sound pTab)
    (stored : u ∈ s.rows) :
    (plan.old.any fun o => pTab.same o u) = true ↔ plan.old = some u := by
  cases known : plan.old with
  | none => simp
  | some o =>
    simp only [Option.any_some, same, decide_eq_true_eq, Option.some.injEq]
    constructor
    · exact fun eq => sound.eq_of_ident (fits.continues o known).1 stored eq.symm
    · rintro rfl
      rfl

private theorem Plan.Fits.not_loses_old (fits : plan.Fits s) (known : plan.old = some o) :
    s.loses pTab o (.ok plan) = false := by
  simp only [Store.loses, removes, known, Option.any_some, same, decide_true,
    Bool.not_true, Bool.and_false, Bool.or_false]
  exact replaced_eq_false (fits.spares o known) s.rows

theorem Store.loses_iff (stored : u ∈ s.rows) :
    s.loses pTab u (.ok plan) = true ↔ plan.Displaces pTab s.rows u := by
  rw [Store.loses, removes, Bool.or_eq_true, replaced_iff stored, Plan.Displaces]
  refine or_congr_right ?_
  simp only [Bool.and_eq_true, Option.isNone_iff_eq_none, same, decide_eq_true_eq, and_assoc]
  refine and_congr_right fun _ => and_congr_right fun _ => ?_
  cases plan.old <;> simp

variable {plan : Except Stop (Plan V)}

private theorem Store.tag_mem_apply (sound : s.Sound pTab) (fits : ∀ p, plan = .ok p → p.Fits s)
    {k : Nat} (known : k < s.next) : (∃ t ∈ (s.apply pTab plan).store.rows, t.tag = k) ↔
      ∃ u ∈ s.rows, u.tag = k ∧ s.loses pTab u plan = false := by
  cases plan with
  | error stop => simp [Store.apply, Store.loses]
  | ok plan =>
    have fit := fits plan rfl
    simp only [Store.apply, mem_writeRow]
    constructor
    · rintro ⟨t, ⟨stored, kept, -⟩ | ⟨-, rfl⟩, tagged⟩
      · exact ⟨t, stored, tagged, kept⟩
      · cases old : plan.old with
        | none => exact absurd (fit.fresh old) (by omega)
        | some o =>
          obtain ⟨stored, eq⟩ := fit.continues o old
          exact ⟨o, stored, eq.symm.trans tagged, fit.not_loses_old old⟩
    · rintro ⟨u, stored, tagged, kept⟩
      by_cases written : (resolve plan.tests s.rows).2 = none ∧ plan.old = some u
      · exact ⟨plan.new, .inr ⟨written.1, rfl⟩, (fit.continues u written.2).2.trans tagged⟩
      · refine ⟨u, .inl ⟨stored, kept, fun passes => ?_⟩, tagged⟩
        rw [Bool.eq_false_iff, Ne, fit.isOld_iff sound stored]
        exact fun eq => written ⟨passes, eq⟩

private theorem Store.eq_of_mem_apply (sound : s.Sound pTab) (fits : ∀ p, plan = .ok p → p.Fits s)
    (after : t ∈ (s.apply pTab plan).store.rows) (stored : u ∈ s.rows) (eq : t.tag = u.tag)
    (untouched : ∀ p, plan = .ok p → p.old ≠ some u) : t = u := by
  cases plan with
  | error stop => exact sound.eq_of_tag after stored eq
  | ok plan =>
    have fit := fits plan rfl
    simp only [Store.apply, mem_writeRow] at after
    rcases after with ⟨before, -⟩ | ⟨-, rfl⟩
    · exact sound.eq_of_tag before stored eq
    · cases old : plan.old with
      | none =>
        have := sound.bound u stored
        exact absurd (fit.fresh old) (by omega)
      | some o =>
        obtain ⟨oStored, same⟩ := fit.continues o old
        have := sound.eq_of_tag oStored stored (same.symm.trans eq)
        exact absurd (this ▸ old) (untouched plan rfl)

private theorem TableDef.nodup_put {κ : Type} (key : Tuple V → κ) {rows : List (Tuple V)}
    (nodup : (rows.map key).Nodup) (apart : ∀ u ∈ rows, pTab.same new u = false → key u ≠ key new) :
    ((pTab.put new rows).map key).Nodup := by
  rw [put, map_append, nodup_append]
  refine ⟨(filter_sublist.map key).nodup nodup, nodup_singleton _, ?_⟩
  intro a left b right
  obtain ⟨u, member, rfl⟩ := mem_map.mp left
  rw [mem_filter, Bool.not_eq_true'] at member
  exact mem_singleton.mp right ▸ apart u member.1 member.2

private theorem Store.Sound.apply (sound : s.Sound pTab) (fits : ∀ p, plan = .ok p → p.Fits s) :
    (s.apply pTab plan).store.Sound pTab := by
  cases plan with
  | error stop => exact sound
  | ok plan =>
    have fit := fits plan rfl
    have sub := resolve_fst plan.tests s.rows ▸ filter_sublist
    simp only [Store.apply, writeRow]
    rcases outcome : resolve plan.tests s.rows with ⟨rest, stop⟩
    rw [outcome] at sub
    cases stop with
    | some stop =>
      exact ⟨(sub.map _).nodup sound.idents, (sub.map _).nodup sound.tags,
        fun t member => Nat.lt_succ_of_lt (sound.bound t (sub.subset member))⟩
    | none =>
      have thin : ∀ u ∈ rest.filter fun u => !plan.old.any fun o => pTab.same o u,
          u ∈ s.rows ∧ plan.old ≠ some u := by
        intro u member
        rw [mem_filter, Bool.not_eq_true', Bool.eq_false_iff] at member
        have stored := sub.subset member.1
        exact ⟨stored, fun eq => member.2 ((fit.isOld_iff sound stored).mpr eq)⟩
      have thinner := (filter_sublist (l := rest)
        (p := fun u => !plan.old.any fun o => pTab.same o u)).trans sub
      refine ⟨nodup_put _ ((thinner.map _).nodup sound.idents) ?_,
        nodup_put _ ((thinner.map _).nodup sound.tags) ?_, ?_⟩
      · intro u _ differs
        simpa [same] using differs
      · intro u member _ eq
        obtain ⟨stored, other⟩ := thin u member
        cases old : plan.old with
        | none =>
          have := sound.bound u stored
          exact absurd (fit.fresh old) (by omega)
        | some o =>
          obtain ⟨oStored, same⟩ := fit.continues o old
          exact other (sound.eq_of_tag stored oStored (eq.trans same) ▸ old)
      · intro t member
        rcases mem_append.mp member with kept | new
        · have := sound.bound t (thin t (mem_of_mem_filter kept)).1
          exact Nat.lt_succ_of_lt this
        · rw [mem_singleton.mp new]
          cases old : plan.old with
          | none => exact Nat.lt_succ_of_le (Nat.le_of_eq (fit.fresh old))
          | some o =>
            obtain ⟨oStored, same⟩ := fit.continues o old
            exact Nat.lt_succ_of_lt (same ▸ sound.bound o oStored)

end

private theorem Store.next_le_apply (s : Store V) (plan : Except Stop (Plan V)) :
    s.next ≤ (s.apply pTab plan).store.next := by
  cases plan with
  | error stop => exact le_rfl
  | ok plan => exact Nat.le_succ _

end

section

variable {V ι : Type} [RowidValue V] [DecidableEq V] {pTab : TableDef V}
variable {plan : Store V → ι → Except Stop (Plan V)} {p : Progress V} {K : Nat → Prop}

/-- The loop keeps the tuples with these tags at this turn. -/
def Progress.Spares (pTab : TableDef V) (plan : Store V → ι → Except Stop (Plan V))
    (K : Nat → Prop) (p : Progress V) (item : ι) : Prop :=
  p.halted = none → ∀ u ∈ p.store.rows, K u.tag →
    p.store.loses pTab u (plan p.store item) = false

def Progress.Holds (K : Nat → Prop) (p : Progress V) : Prop :=
  ∀ k, K k → ∃ t ∈ p.store.rows, t.tag = k

theorem along_spares_iff (s : Store V) (items : List ι) :
    Along (Progress.step pTab plan) (Progress.Spares pTab plan K) ⟨s, none⟩ items ↔
      ∀ rows p, Meets pTab plan s items rows p →
        ∀ u ∈ rows, K u.tag → ¬p.Displaces pTab rows u := by
  have halted : ∀ (p : Progress V) (stop : Stop) (items : List ι), p.halted = some stop →
      Along (Progress.step pTab plan) (Progress.Spares pTab plan K) p items := by
    intro p stop items stopped
    induction items with
    | nil => trivial
    | cons item rest ih =>
      refine ⟨fun going => absurd (going.symm.trans stopped) (by simp), ?_⟩
      rw [show p.step pTab plan item = p by simp [Progress.step, stopped]]
      exact ih
  induction items generalizing s with
  | nil => exact iff_of_true trivial fun _ _ meets => nomatch meets
  | cons item rest ih =>
    have turn : Progress.Spares pTab plan K ⟨s, none⟩ item ↔ ∀ p, plan s item = .ok p →
        ∀ u ∈ s.rows, K u.tag → ¬p.Displaces pTab s.rows u := by
      constructor
      · intro spares p planned u stored key displaced
        have kept := spares rfl u stored key
        rw [planned, (Store.loses_iff stored).mpr displaced] at kept
        cases kept
      · intro spares _ u stored key
        cases planned : plan s item with
        | error stop => rfl
        | ok p => exact Bool.eq_false_iff.mpr fun lost =>
            spares p planned u stored key ((Store.loses_iff stored).mp lost)
    rw [along_cons, turn, show Progress.step pTab plan ⟨s, none⟩ item =
      s.apply pTab (plan s item) from rfl]
    constructor
    · rintro ⟨now, after⟩ rows p (planned | ⟨goes_on, meets⟩)
      · exact now p planned
      · refine (ih _).mp ?_ rows p meets
        rwa [show s.apply pTab (plan s item) = ⟨(s.apply pTab (plan s item)).store, none⟩ by
          rw [← goes_on]] at after
    · intro spares
      refine ⟨fun p planned => spares s.rows p (.here planned), ?_⟩
      cases goes_on : (s.apply pTab (plan s item)).halted with
      | some stop => exact halted _ stop rest goes_on
      | none =>
        rw [show s.apply pTab (plan s item) = ⟨(s.apply pTab (plan s item)).store, none⟩ by
          rw [← goes_on]]
        exact (ih _).mpr fun rows p meets => spares rows p (.later goes_on meets)

private theorem Progress.next_le_step (p : Progress V) (item : ι) :
    p.store.next ≤ (p.step pTab plan item).store.next := by
  rw [Progress.step]
  split
  · exact le_rfl
  · exact Store.next_le_apply p.store _

variable (fits : ∀ s item p, plan s item = .ok p → p.Fits s)

include fits

private theorem Progress.step_sound (sound : p.store.Sound pTab) (item : ι) :
    (p.step pTab plan item).store.Sound pTab := by
  rw [Progress.step]
  split
  · exact sound
  · exact sound.apply (fits p.store item)

private theorem Progress.step_holds_iff (sound : p.store.Sound pTab)
    (known : ∀ k, K k → k < p.store.next) (item : ι) : Progress.Holds K (p.step pTab plan item) ↔
      Progress.Holds K p ∧ Progress.Spares pTab plan K p item := by
  cases halted : p.halted with
  | some stop => simp [Progress.step, Progress.Spares, halted]
  | none =>
    simp only [Progress.step, Progress.Spares, halted, true_implies]
    have one := fun k (key : K k) => Store.tag_mem_apply sound (fits p.store item) (known k key)
    constructor
    · intro after
      have before := fun k key => (one k key).mp (after k key)
      refine ⟨fun k key => (before k key).imp fun _ found => ⟨found.1, found.2.1⟩, ?_⟩
      intro u stored key
      obtain ⟨v, vStored, tagged, kept⟩ := before u.tag key
      exact sound.eq_of_tag vStored stored tagged ▸ kept
    · rintro ⟨before, spares⟩ k key
      obtain ⟨u, stored, rfl⟩ := before k key
      exact (one u.tag key).mpr ⟨u, stored, rfl, spares u stored key⟩

variable {s : Store V} (sound : s.Sound pTab)

include sound

theorem runLoop_sound (items : List ι) : (runLoop pTab plan s items).store.Sound pTab := by
  have kept : ∀ p : Progress V, p.store.Sound pTab →
      (items.foldl (Progress.step pTab plan) p).store.Sound pTab := by
    induction items with
    | nil => exact fun _ h => h
    | cons item rest ih => exact fun p h => ih _ (Progress.step_sound fits h item)
  exact kept _ sound

/-- The whole loop keeps the tags exactly when no turn loses one of their tuples: a tag that
is lost does not come back. -/
theorem runLoop_holds_iff (held : ∀ k, K k → ∃ t ∈ s.rows, t.tag = k) (items : List ι) :
    Progress.Holds K (runLoop pTab plan s items) ↔
      Along (Progress.step pTab plan) (Progress.Spares pTab plan K) ⟨s, none⟩ items := by
  let Known : Progress V → Prop := fun p =>
    p.store.Sound pTab ∧ ∀ k, K k → k < p.store.next
  have known : Known ⟨s, none⟩ := ⟨sound, fun k key => by
    obtain ⟨t, stored, rfl⟩ := held k key
    exact sound.bound t stored⟩
  have kept : ∀ p item, Known p → Known (p.step pTab plan item) := fun p item h =>
    ⟨Progress.step_sound fits h.1 item,
      fun k key => Nat.lt_of_lt_of_le (h.2 k key) (Progress.next_le_step p item)⟩
  have turn := fun p item (h : Known p) => Progress.step_holds_iff fits h.1 h.2 item
  rw [runLoop, ← visits_iff_final kept (fun p item h after => ((turn p item h).mp after).1) known]
  exact visits_iff_along_of_invariant (I := fun p => Known p ∧ Progress.Holds K p)
    (fun _ h => h.2) (fun p item h after => ((turn p item h.1).mp after).2)
    (fun p item h spares => ⟨kept p item h.1, (turn p item h.1).mpr ⟨h.2, spares⟩⟩)
    ⟨known, held⟩ items

theorem runLoop_unchanged {t : Tuple V} (stored : t ∈ s.rows) (items : List ι)
    (untouched : ∀ item ∈ items, ∀ s' p, plan s' item = .ok p → p.old ≠ some t) :
    ∀ u ∈ (runLoop pTab plan s items).store.rows, u.tag = t.tag → u = t := by
  have kept : ∀ p : Progress V, p.store.Sound pTab → t.tag < p.store.next →
      (∀ u ∈ p.store.rows, u.tag = t.tag → u = t) →
      ∀ u ∈ (items.foldl (Progress.step pTab plan) p).store.rows, u.tag = t.tag → u = t := by
    induction items with
    | nil => exact fun _ _ _ h => h
    | cons item rest ih =>
      intro p psound bound only
      refine ih (fun i member => untouched i (mem_cons_of_mem _ member)) _
        (Progress.step_sound fits psound item)
        (bound.trans_le (Progress.next_le_step p item)) ?_
      intro u after eq
      rw [Progress.step] at after
      split at after
      · exact only u after eq
      · -- the tag is still there before the turn, so its tuple is the one in question
        obtain ⟨v, vStored, tagged, -⟩ :=
          (Store.tag_mem_apply psound (fits p.store item) bound).mp ⟨u, after, eq⟩
        obtain rfl := only v vStored tagged
        exact Store.eq_of_mem_apply psound (fits p.store item) after vStored eq
          (untouched item mem_cons_self p.store)
  exact kept _ sound (sound.bound t stored) fun u member eq => sound.eq_of_tag member stored eq

end

section

variable {V : Type} [RowidValue V] [DecidableEq V] {pTab : TableDef V}

theorem mem_deleteLoop (s : Store V) (targets : List (Int ⊕ List V)) (t : Tuple V) :
    t ∈ (deleteLoop pTab s targets).rows ↔ t ∈ s.rows ∧ pTab.ident t ∉ targets := by
  simp only [deleteLoop]
  induction targets generalizing s with
  | nil => simp
  | cons target rest ih =>
    rw [foldl_cons, ih ⟨s.rows.filter fun u => decide (pTab.ident u ≠ target), s.next⟩]
    simp [and_assoc]

end

theorem newRowid_unused {V : Type} {rows : List (Tuple V)} {floor rowid : Int}
    {candidates : List Int}
    (found : newRowid rows floor candidates = some rowid) : ∀ u ∈ rows, u.rowid ≠ rowid := by
  intro u stored
  rw [newRowid] at found
  split at found
  · rename_i empty
    rw [max?_eq_none_iff, map_eq_nil_iff] at empty
    exact absurd stored (empty ▸ not_mem_nil)
  · rename_i last largest
    have le : u.rowid ≤ last :=
      (max?_eq_some_iff.mp largest).2 _ (mem_map_of_mem stored)
    split at found
    · split at found
      · have := Option.some.inj found
        omega
      · cases found
    · have unused := find?_some found
      simp only [all_eq_true, decide_eq_true_eq] at unused
      exact unused u stored

end SeSqlite.Sql
