/- source: src/insert.c, src/update.c, src/delete.c, ext/security/sesqlite/sesqlite_authorizer.c
   digest: Which statements leave the tuples alone that the policy denies to them. -/
import SeSqlite.Sql.Dml
import SeSqlite.TupleCheck

set_option autoImplicit false
set_option relaxedAutoImplicit false

namespace SeSqlite.Integrity

open Names Sql TupleCheck

/-- A WHERE clause; its subqueries may read the table. -/
abbrev Where (V : Type) := List (Tuple V) → Tuple V → Bool

/-- The order in which the collected rows are visited. -/
structure Scan (V : Type) where
  order : List (Int ⊕ List V) → List (Int ⊕ List V)
  perm : ∀ targets, (order targets).Perm targets

inductive Statement (V : Type) where
  | insert (onError : Option OnError) (rows : List (NewRow V))
  | update (onError : Option OnError) (changes : Changes V) (pWhere : Option (Where V))
      (scan : Scan V)
  | delete (pWhere : Option (Where V))

/-- A table in a transaction: its tuples now and as they were when the transaction began. -/
structure Session {V : Type} [RowidValue V] (pTab : TableDef V) where
  store : Store V
  committed : Store V
  sound : store.Sound pTab
  committed_sound : committed.Sound pTab

section

variable {V : Type} [RowidValue V] (pTab : TableDef V) (policy : Policy V)

/-- The conjunct put into the WHERE clause of an UPDATE or DELETE of a user table. Without a
column of that name the statement does not compile. -/
def checkedWhere (permission : Permission) (pWhere : Option (Where V)) :
    Option (Option (Where V)) :=
  if isUserTable pTab.zName then
    pTab.labelColumn.map fun i => some fun rows t =>
      policy.check permission (pTab.field t i) && pWhere.all fun w => w rows t
  else some pWhere

def selected (pWhere : Option (Where V)) (rows : List (Tuple V)) : List (Int ⊕ List V) :=
  (rows.filter fun t => pWhere.all fun w => w rows t).map pTab.ident

variable {pTab}

/-- ABORT undoes the statement, ROLLBACK the transaction; FAIL leaves what is done. -/
def Session.finish (session : Session pTab) (p : Progress V) : Store V :=
  match p.halted with
  | some .abort => session.store
  | some .rollback => session.committed
  | _ => p.store

variable [DecidableEq V]

def Session.execute (session : Session pTab) : Statement V → Store V
  | .insert onError rows =>
    session.finish (runLoop pTab (insertPlan pTab false onError) session.store rows)
  | .update onError changes pWhere scan =>
    -- a WITHOUT ROWID table has no rowid to set
    if pTab.pPk.isSome && changes.pRowidExpr.isSome then session.store
    else
      match checkedWhere pTab policy .update pWhere with
      | none => session.store
      | some pWhere =>
        session.finish (runLoop pTab (updatePlan pTab false onError changes) session.store
          (scan.order (selected pTab pWhere session.store.rows)))
  | .delete pWhere =>
    match checkedWhere pTab policy .delete pWhere with
    | none => session.store
    | some none => ⟨[], session.store.next⟩
    | some (some w) =>
      deleteLoop pTab session.store (selected pTab (some w) session.store.rows)

end

section

variable {V : Type} [RowidValue V] (pTab : TableDef V) (policy : Policy V)

/-- The policy denies the permission for the label of the stored tuple. -/
def Denied (permission : Permission) (t : Tuple V) : Prop :=
  ∃ i, pTab.labelColumn = some i ∧ policy.allows permission (pTab.field t i) = false

/-- No tuple denied `delete` is gone, and no tuple denied `update` has changed. -/
def Intact (before after : Store V) : Prop :=
  (∀ t ∈ before.rows, Denied pTab policy .delete t → ∃ u ∈ after.rows, u.tag = t.tag) ∧
  (∀ t ∈ before.rows, Denied pTab policy .update t → ∀ u ∈ after.rows, u.tag = t.tag → u = t)

/-- The tags of the stored tuples that are denied `delete`. -/
def Undeletable (s : Store V) (k : Nat) : Prop :=
  ∃ t ∈ s.rows, t.tag = k ∧ Denied pTab policy .delete t

/-- The tuples that are stored now and denied `delete` or `update` were stored, as they are, when
the transaction began. -/
def Session.Settled {pTab : TableDef V} (policy : Policy V) (session : Session pTab) : Prop :=
  ∀ t ∈ session.store.rows, Denied pTab policy .delete t ∨ Denied pTab policy .update t →
    t ∈ session.committed.rows

/-- A stored tuple that is denied the permission is selected: the check was answered from the
cache, for another label. -/
def Session.Lets {pTab : TableDef V} (session : Session pTab) (permission : Permission)
    (pWhere : Option (Where V)) : Prop :=
  ∃ checked, checkedWhere pTab policy permission pWhere = some checked ∧
    ∃ t ∈ session.store.rows, Denied pTab policy permission t ∧
      pTab.ident t ∈ selected pTab checked session.store.rows

def Session.Misled {pTab : TableDef V} (session : Session pTab) : Statement V → Prop
  | .insert _ _ => False
  | .update _ _ pWhere _ => session.Lets policy .update pWhere
  | .delete pWhere => session.Lets policy .delete pWhere

variable {pTab} [DecidableEq V]

/-- A row loop is not in the way of integrity: ABORT undoes it, ROLLBACK undoes a transaction that
had left the protected tuples alone, or none of the new rows it comes to displaces a tuple that is
denied `delete`. -/
def Session.LoopSpares {ι : Type} (session : Session pTab)
    (plan : Store V → ι → Except Stop (Plan V)) (items : List ι) : Prop :=
  match (runLoop pTab plan session.store items).halted with
  | some .abort => True
  | some .rollback => session.Settled policy
  | _ => ∀ rows p, Meets pTab plan session.store items rows p →
      ∀ u ∈ rows, Undeletable pTab policy session.store u.tag → ¬p.Displaces pTab rows u

/-- The loop of the statement, if it has one and compiles. -/
def Session.ForLoop (session : Session pTab)
    (P : ∀ {ι : Type}, (Store V → ι → Except Stop (Plan V)) → List ι → Prop) : Statement V → Prop
  | .insert onError rows => P (insertPlan pTab false onError) rows
  | .update onError changes pWhere scan =>
    (pTab.pPk.isSome && changes.pRowidExpr.isSome) = false →
      ∀ checked, checkedWhere pTab policy .update pWhere = some checked →
        P (updatePlan pTab false onError changes)
          (scan.order (selected pTab checked session.store.rows))
  | .delete _ => True

def Session.Spares (session : Session pTab) (statement : Statement V) : Prop :=
  ¬session.Misled policy statement ∧
    session.ForLoop policy (session.LoopSpares policy) statement

/-- The statement does not end by ROLLBACK. -/
def Session.Stays (session : Session pTab) (statement : Statement V) : Prop :=
  session.ForLoop policy (fun plan items =>
    (runLoop pTab plan session.store items).halted ≠ some .rollback) statement

end

section

variable {V : Type} [RowidValue V] {pTab : TableDef V} {policy : Policy V} {s : Store V}

private theorem Intact.refl (sound : s.Sound pTab) : Intact pTab policy s s :=
  ⟨fun t stored _ => ⟨t, stored, rfl⟩,
    fun _ stored _ _ member eq => sound.eq_of_tag member stored eq⟩

private theorem Session.Settled.intact {session : Session pTab} (settled : session.Settled policy) :
    Intact pTab policy session.store session.committed :=
  ⟨fun t stored denied => ⟨t, settled t stored (.inl denied), rfl⟩,
    fun t stored denied _ member eq =>
    session.committed_sound.eq_of_tag member (settled t stored (.inr denied)) eq⟩

variable [DecidableEq V]

private theorem Session.loop_intact_iff {ι : Type} (session : Session pTab)
    {plan : Store V → ι → Except Stop (Plan V)} (fits : ∀ s item p, plan s item = .ok p → p.Fits s)
    (items : List ι) (untouched : ∀ t ∈ session.store.rows, Denied pTab policy .update t →
      ∀ item ∈ items, ∀ s p, plan s item = .ok p → p.old ≠ some t) :
    (session.LoopSpares policy plan items → Intact pTab policy session.store
        (session.finish (runLoop pTab plan session.store items))) ∧
      ((runLoop pTab plan session.store items).halted ≠ some .rollback →
        Intact pTab policy session.store
          (session.finish (runLoop pTab plan session.store items)) →
        session.LoopSpares policy plan items) := by
  have done : Intact pTab policy session.store (runLoop pTab plan session.store items).store ↔
      ∀ rows p, Meets pTab plan session.store items rows p →
        ∀ u ∈ rows, Undeletable pTab policy session.store u.tag → ¬p.Displaces pTab rows u := by
    have held : ∀ k, Undeletable pTab policy session.store k →
        ∃ t ∈ session.store.rows, t.tag = k :=
      fun k denied => denied.imp fun _ found => ⟨found.1, found.2.1⟩
    rw [← along_spares_iff, ← runLoop_holds_iff fits session.sound held items]
    constructor
    · rintro ⟨kept, -⟩ k ⟨t, stored, rfl, denied⟩
      exact kept t stored denied
    · intro holds
      exact ⟨fun t stored denied => holds t.tag ⟨t, stored, rfl, denied⟩,
        fun t stored denied =>
          runLoop_unchanged fits session.sound stored items (untouched t stored denied)⟩
  rw [Session.LoopSpares, Session.finish]
  split
  · exact ⟨fun _ => Intact.refl session.sound, fun _ _ => trivial⟩
  · exact ⟨Session.Settled.intact, fun stays => absurd ‹_› stays⟩
  · exact ⟨done.mpr, fun _ => done.mp⟩

section

variable (session : Session pTab)

private theorem Session.insert_intact (onError : Option OnError) (rows : List (NewRow V)) :
    (session.Spares policy (.insert onError rows) →
      Intact pTab policy session.store (session.execute policy (.insert onError rows))) ∧
    (session.Stays policy (.insert onError rows) →
      Intact pTab policy session.store (session.execute policy (.insert onError rows)) →
      session.Spares policy (.insert onError rows)) := by
  have fits : ∀ s item p, insertPlan pTab false onError s item = .ok p → p.Fits s :=
    fun s item p planned => (insertPlan_fits planned).1
  have untouched : ∀ t ∈ session.store.rows, Denied pTab policy .update t → ∀ item ∈ rows,
      ∀ s p, insertPlan pTab false onError s item = .ok p → p.old ≠ some t := by
    intro t _ _ item _ s p planned
    simp [(insertPlan_fits planned).2]
  obtain ⟨enough, needed⟩ := session.loop_intact_iff fits rows untouched
  exact ⟨fun spares => enough spares.2, fun stays intact => ⟨not_false, needed stays intact⟩⟩

private theorem Session.update_intact (onError : Option OnError) (changes : Changes V)
    (pWhere : Option (Where V)) (scan : Scan V)
    (trusted : ¬session.Misled policy (.update onError changes pWhere scan)) :
    (session.Spares policy (.update onError changes pWhere scan) → Intact pTab policy session.store
      (session.execute policy (.update onError changes pWhere scan))) ∧
    (session.Stays policy (.update onError changes pWhere scan) → Intact pTab policy session.store
      (session.execute policy (.update onError changes pWhere scan)) →
      session.Spares policy (.update onError changes pWhere scan)) := by
  have unchanged : Intact pTab policy session.store session.store := Intact.refl session.sound
  rw [Session.execute, Session.Spares, and_iff_right trusted, Session.Stays]
  simp only [Session.ForLoop]
  split
  · rename_i invalid
    simp [invalid, unchanged]
  · rename_i valid
    cases compiled : checkedWhere pTab policy .update pWhere with
    | none => simp [unchanged]
    | some checked =>
      simp only [valid, Option.some.injEq, true_implies, forall_eq']
      refine session.loop_intact_iff (fun s item p planned => (updatePlan_fits planned).1) _ ?_
      intro t stored denied item visited s p planned old
      obtain ⟨o, known, target⟩ := (updatePlan_fits planned).2
      obtain rfl : o = t := Option.some.inj (known.symm.trans old)
      rw [(scan.perm _).mem_iff, ← target] at visited
      exact trusted ⟨checked, compiled, o, stored, denied, visited⟩

private theorem Session.delete_intact (user : isUserTable pTab.zName = true)
    (pWhere : Option (Where V)) (trusted : ¬session.Misled policy (.delete pWhere)) :
    Intact pTab policy session.store (session.execute policy (.delete pWhere)) := by
  rw [Session.execute]
  cases compiled : checkedWhere pTab policy .delete pWhere with
  | none => exact Intact.refl session.sound
  | some checked =>
    cases checked with
    | none => simp [checkedWhere, user] at compiled
    | some w =>
      refine ⟨fun t stored denied => ⟨t, ?_, rfl⟩, fun t stored _ u member eq => ?_⟩
      · rw [mem_deleteLoop]
        exact ⟨stored, fun chosen => trusted ⟨some w, compiled, t, stored, denied, chosen⟩⟩
      · exact session.sound.eq_of_tag ((mem_deleteLoop _ _ _).mp member).1 stored eq

end

end

def ledger : TableDef (Option Int) where
  zName := "ledger"
  aCol := [⟨"id", none, none, .none⟩, ⟨"security_context", none, none, .none⟩]
  iPKey := some 0
  keyConf := none
  pCheck := []
  pPk := none
  pIndex := []
  withoutRowid := by decide

/-- Two tuples whose labels agree in their low sixteen bits. -/
def ledgerStore : Store (Option Int) :=
  ⟨[⟨0, 2, [none, some 65543]⟩, ⟨1, 1, [none, some 7]⟩], 2⟩

def ledgerSession : Session ledger where
  store := ledgerStore
  committed := ledgerStore
  sound := ⟨by decide, by decide, by decide⟩
  committed_sound := ⟨by decide, by decide, by decide⟩

/-- Label 7 may be read, not updated or deleted; label 65543 may be all that. -/
def readOnlySeven (asked : List (Permission × Option Int)) : Policy (Option Int) where
  valueInt label := label.getD 0
  valueInt_null := getD_null
  lib := ⟨none, fun _ => true, fun _ tcon _ perm => tcon != "ro_t" || perm == "select"⟩
  scon := "init_t"
  sconId := 1
  start := ⟨⟨{ LabelIds.empty with
    hashId := BiHash.sesqliteBihashInsert (BiHash.sesqliteBihashInsert BiHash.sesqliteBihashInit
      ⟨7, some "ro_t", fun _ => ""⟩) ⟨65543, some "rw_t", fun _ => ""⟩ }, Hash.sqliteHashInit⟩,
    Hash.sqliteHashInit⟩
  asked := asked

end SeSqlite.Integrity
