/- source: src/vdbe.c, src/vdbeaux.c
   digest: A statement or a COMMIT fails on a foreign key exactly when a parent row is missing. -/
import SeSqlite.Fkey.Statements
import SeSqlite.Lib.Runs

set_option autoImplicit false
set_option relaxedAutoImplicit false

namespace SeSqlite.Fkey

open Lib.Runs List Statement

variable {T V A C : Type} [DecidableEq T] [DecidableEq V] [DecidableEq C]

section

variable (vals : Values V A C) (sc : Schema T V A C)

/-- The row lacks parents for an immediate and for a deferred key at once. -/
def LacksBoth (db : Db T V) (t : T) (stored : Row V) : Prop :=
  ∃ fk ∈ sc.pFKey t, ∃ other ∈ sc.pFKey t, fk.isDeferred = false ∧ other.isDeferred = true ∧
    fk.lacks vals sc (db.add t stored) stored = true ∧
      other.lacks vals sc (db.add t stored) stored = true

instance (db : Db T V) (t : T) (stored : Row V) : Decidable (LacksBoth vals sc db t stored) :=
  inferInstanceAs (Decidable (∃ fk ∈ sc.pFKey t, ∃ other ∈ sc.pFKey t, _ ∧ _))

/-- A single row inserted inside a transaction does not lack parents for both kinds of keys, and
a statement that may write several rows is not an OR FAIL. -/
def Proper (conn : Conn T V) : Act T V → Prop
  | .statement (.insertRow t row _) =>
    conn.autoCommit = false → ¬LacksBoth vals sc conn.db t ((sc.table t).store vals row)
  | .statement (.rows _ _ onError) => onError ≠ .fail
  | _ => True

instance (conn : Conn T V) : (a : Act T V) → Decidable (Proper vals sc conn a)
  | .statement (.insertRow t row _) => inferInstanceAs (Decidable
      (conn.autoCommit = false → ¬LacksBoth vals sc conn.db t ((sc.table t).store vals row)))
  | .statement (.rows _ _ onError) => inferInstanceAs (Decidable (onError ≠ .fail))
  | .begin | .commit | .rollback | .savepoint | .release _ | .rollbackTo _ => .isTrue trivial

/-- The foreign key error is reported exactly when a parent row is missing. -/
def Enforced (conn : Conn T V) (a : Act T V) : Prop :=
  (conn.act vals sc a).2 = .foreignKey ↔
    match a with
    | .statement s => s.Finishes vals sc conn.db ∧
        (Violated vals sc (s.after vals sc conn.db).1 false ∨
          conn.autoCommit = true ∧ Violated vals sc (s.after vals sc conn.db).1 true)
    | .commit => conn.autoCommit = false ∧ Violated vals sc conn.db true
    | .release n => n + 1 = conn.savepoints.length ∧ conn.isTransactionSavepoint = true ∧
        Violated vals sc conn.db true
    | _ => False

end

variable {vals : Values V A C} {sc : Schema T V A C} {fk : FKey T}

section

/-- What the end of a statement finds: the content and the counters as they should be, or the halt
at a single row. -/
inductive Statement.Ran (vals : Values V A C) (sc : Schema T V A C) (conn : Conn T V)
    (s : Statement T V) : Vm T V × Stop → Prop
  | done {db : Db T V} {c : Counters} (after : s.after vals sc conn.db = (db, .done))
      (valid : db.Valid vals sc) (counted : Counted vals sc ⟨db, c⟩)
      (single : s.isMultiWrite = false → ¬Violated vals sc db false) :
      Ran vals sc conn s (⟨db, c⟩, .done)
  | conflict {vm : Vm T V} (after : s.after vals sc conn.db = (vm.db, .conflict))
      (unchanged : s.onError = .fail ∨ s.isMultiWrite = false →
        vm = ⟨conn.db, ⟨0, conn.nDeferredCons⟩⟩) :
      Ran vals sc conn s (vm, .conflict)
  | halted {db : Db T V} {c : Counters} (after : s.after vals sc conn.db = (db, .done))
      (violated : Violated vals sc db false)
      (unchanged : conn.autoCommit = false → c.nDeferredCons = conn.nDeferredCons) :
      Ran vals sc conn s (⟨conn.db, c⟩, .halted)

/-- The content between two calls, with the counter that belongs to it. -/
structure Settled (vals : Values V A C) (sc : Schema T V A C) (db : Db T V) (n : Int) : Prop where
  valid : db.Valid vals sc
  immediate : missing vals sc db false = 0
  deferred : n = missing vals sc db true

structure Conn.Sound (vals : Values V A C) (sc : Schema T V A C) (conn : Conn T V) : Prop where
  now : Settled vals sc conn.db conn.nDeferredCons
  start : Settled vals sc conn.start 0
  savepoints : ∀ saved ∈ conn.savepoints, Settled vals sc saved.1 saved.2
  idle : conn.autoCommit = true → conn.db = conn.start ∧ conn.savepoints = []

variable {conn : Conn T V}

omit [DecidableEq T] [DecidableEq C] in
private theorem Conn.Sound.counted (good : conn.Sound vals sc) :
    Counted vals sc ⟨conn.db, ⟨0, conn.nDeferredCons⟩⟩ := by
  intro d
  cases d with
  | false => exact good.now.immediate.symm
  | true => exact good.now.deferred

omit [DecidableEq C] in
private theorem effects_stop (vals : Values V A C) (sc : Schema T V A C) (t : T) (onError : OnError)
    (db : Db T V) (changes : List (Change V)) : (effects vals sc t onError db changes).2 = .done ∨
      (effects vals sc t onError db changes).2 = .conflict := by
  induction changes generalizing db with
  | nil => exact .inl rfl
  | cons change rest ih =>
    unfold effects
    split
    · exact ih _
    · split
      · exact ih _
      · exact .inr rfl

private theorem Conn.Sound.ran (sound : sc.Sound vals) (good : conn.Sound vals sc)
    (s : Statement T V) (proper : Proper vals sc conn (.statement s)) :
    s.Ran vals sc conn (s.run vals sc ⟨conn.db, ⟨0, conn.nDeferredCons⟩⟩) := by
  cases s with
  | rows t changes onError =>
    obtain ⟨c, run, valid, counted⟩ :=
      runChanges_rows sound good.now.valid good.counted t onError changes
    rw [Statement.run, run]
    obtain stop | stop := effects_stop vals sc t onError conn.db changes
    · rw [stop]
      exact .done (Prod.ext rfl stop) valid counted fun single => (nomatch single)
    · rw [stop]
      refine .conflict (Prod.ext rfl stop) ?_
      rintro (fails | single)
      · exact absurd fails proper
      · cases single
  | insertRow t row onError =>
    cases fine : (sc.table t).conflicts vals (conn.db t) ((sc.table t).store vals row) with
    | true =>
      simp only [run, runChanges, makeChange, fine]
      by_cases ignore : onError = .ignore
      · rw [if_pos ignore]
        exact .done (by simp [Statement.after, effects, effect, fine, ignore]) good.now.valid
          good.counted fun _ => (missing_eq_zero_iff conn.db false).mp good.now.immediate
      · rw [if_neg ignore]
        exact .conflict (by simp [Statement.after, effects, effect, fine, ignore]) fun _ => rfl
    | false =>
      have after : (insertRow t row onError).after vals sc conn.db =
          (conn.db.add t ((sc.table t).store vals row), .done) := by
        simp [Statement.after, effects, effect, fine]
      obtain ⟨fits, apart⟩ := apart_of_fine fine
      by_cases violated : Violated vals sc (conn.db.add t ((sc.table t).store vals row)) false
      · have lacking := (violated_insert_iff sound apart good.now.immediate).mp violated
        obtain ⟨c', halted, same⟩ := fkCheck_halts sound rfl fits lacking ⟨0, conn.nDeferredCons⟩
        simp only [run, runChanges, makeChange, fine, halted]
        refine .halted after violated fun inTransaction => ?_
        rw [same]
        intro fk member deferred
        obtain ⟨other, otherMember, immediate, lacks⟩ := lacking
        rw [Bool.eq_false_iff]
        intro also
        exact proper inTransaction
          ⟨other, otherMember, fk, member, immediate, deferred, lacks, also⟩
      · obtain ⟨c', checked, counted⟩ := insertRow_counted sound good.now.valid rfl fine
          good.counted good.now.immediate violated
        simp only [run, runChanges, makeChange, fine, checked]
        exact .done after (good.now.valid.add fine) counted fun _ => violated

variable {db : Db T V} {c : Counters} {n : Int}

section

omit [DecidableEq T] [DecidableEq C]

private theorem Settled.of_counted (valid : db.Valid vals sc) (counted : Counted vals sc ⟨db, c⟩)
    (none : c.nFkConstraint = 0) : Settled vals sc db c.nDeferredCons where
  valid := valid
  immediate := (counted false).symm.trans none
  deferred := counted true

private theorem Settled.committed (settled : Settled vals sc db n) (none : ¬n > 0) :
    (Conn.committed db).Sound vals sc := by
  have zero : missing vals sc db true = 0 := by
    have nonneg := missing_nonneg vals sc db true
    have same := settled.deferred
    omega
  have now : Settled vals sc db 0 := ⟨settled.valid, settled.immediate, zero.symm⟩
  exact ⟨now, now, fun _ member => (nomatch member), fun _ => ⟨rfl, rfl⟩⟩

private theorem Conn.Sound.rolledBack (good : conn.Sound vals sc) : conn.rollbackAll.Sound vals
    sc :=
  ⟨good.start, good.start, fun _ member => (nomatch member), fun _ => ⟨rfl, rfl⟩⟩

private theorem Conn.Sound.moved (good : conn.Sound vals sc) (open_ : conn.autoCommit = false)
    (settled : Settled vals sc db n) :
    { conn with db := db, nDeferredCons := n }.Sound vals sc where
  now := settled
  start := good.start
  savepoints := good.savepoints
  idle isIdle := by
    rw [open_] at isIdle
    cases isIdle

private theorem counted_iff (counted : Counted vals sc ⟨db, c⟩) :
    (c.nFkConstraint > 0 ↔ Violated vals sc db false) ∧
      (c.nDeferredCons > 0 ↔ Violated vals sc db true) := by
  rw [← missing_pos_iff, ← missing_pos_iff, ← counted false, ← counted true]
  exact ⟨Iff.rfl, Iff.rfl⟩

end

section

variable (good : conn.Sound vals sc)

include good

section

omit [DecidableEq T] [DecidableEq C]

private theorem halt_done {multi : Bool} (onError : OnError) (valid : db.Valid vals sc)
    (counted : Counted vals sc ⟨db, c⟩) (single : multi = false → ¬Violated vals sc db false) :
    (sqlite3VdbeHalt conn multi onError ⟨db, c⟩ .done).1.Sound vals sc ∧
      ((sqlite3VdbeHalt conn multi onError ⟨db, c⟩ .done).2 = .foreignKey ↔
        Violated vals sc db false ∨ conn.autoCommit = true ∧ Violated vals sc db true) := by
  obtain ⟨immediate, deferred⟩ := counted_iff counted
  simp only [← deferred, ← immediate] at single ⊢
  simp only [sqlite3VdbeHalt, Stop.check]
  by_cases violated : c.nFkConstraint > 0
  · have several : multi = true := by
      by_contra one
      exact single (Bool.eq_false_iff.mpr one) violated
    simp only [violated, true_or, iff_true, several]
    by_cases isIdle : conn.autoCommit = true
    · rw [if_pos isIdle]
      exact ⟨good.rolledBack, rfl⟩
    · rw [if_neg isIdle]
      exact ⟨good, rfl⟩
  · have settled := Settled.of_counted valid counted (by
      have nonneg : 0 ≤ c.get false := (counted false).symm ▸ missing_nonneg vals sc db false
      change 0 ≤ c.nFkConstraint at nonneg
      omega)
    simp only [violated]
    by_cases isIdle : conn.autoCommit = true
    · rw [if_pos isIdle]
      by_cases late : c.nDeferredCons > 0
      · rw [if_pos late]
        exact ⟨good.rolledBack, by simp [isIdle, late]⟩
      · rw [if_neg late]
        exact ⟨settled.committed late, by simp [late]⟩
    · rw [if_neg isIdle]
      exact ⟨good.moved (Bool.eq_false_iff.mpr isIdle) settled, by simp [isIdle]⟩

private theorem halt_conflict (multi : Bool) {onError : OnError} {vm : Vm T V}
    (fails : onError ≠ .fail) (single : multi = false → vm = ⟨conn.db, ⟨0, conn.nDeferredCons⟩⟩) :
    (sqlite3VdbeHalt conn multi onError vm .conflict).1.Sound vals sc ∧
      (sqlite3VdbeHalt conn multi onError vm .conflict).2 = .constraint := by
  have rc : ¬(Stop.conflict.check vm.counters.nFkConstraint = .ok ∨
      Stop.conflict.errorAction onError = .fail) := by simp [Stop.check, Stop.errorAction, fails]
  simp only [sqlite3VdbeHalt, if_neg rc]
  by_cases isIdle : conn.autoCommit = true
  · rw [if_pos isIdle]
    exact ⟨good.rolledBack, rfl⟩
  · rw [if_neg isIdle]
    split
    · cases multi with
      | true => exact ⟨good, rfl⟩
      | false =>
        rw [single rfl]
        exact ⟨good.moved (Bool.eq_false_iff.mpr isIdle) good.now, rfl⟩
    · exact ⟨good.rolledBack, rfl⟩

private theorem halt_fail (multi : Bool) :
    (sqlite3VdbeHalt conn multi .fail ⟨conn.db, ⟨0, conn.nDeferredCons⟩⟩ .conflict).1.Sound
        vals sc ∧
      (sqlite3VdbeHalt conn multi .fail ⟨conn.db, ⟨0, conn.nDeferredCons⟩⟩ .conflict).2 =
        .constraint := by
  simp only [sqlite3VdbeHalt]
  by_cases isIdle : conn.autoCommit = true
  · have zero : conn.nDeferredCons = 0 := by
      rw [good.now.deferred, (good.idle isIdle).1]
      exact good.start.deferred.symm
    have none : ¬conn.nDeferredCons > 0 := by omega
    rw [if_pos isIdle, if_neg none]
    exact ⟨good.now.committed none, rfl⟩
  · rw [if_neg isIdle]
    exact ⟨good.moved (Bool.eq_false_iff.mpr isIdle) good.now, rfl⟩

private theorem halt_halted (multi : Bool) (onError : OnError)
    (unchanged : conn.autoCommit = false → c.nDeferredCons = conn.nDeferredCons) :
    (sqlite3VdbeHalt conn multi onError ⟨conn.db, c⟩ .halted).1.Sound vals sc ∧
      (sqlite3VdbeHalt conn multi onError ⟨conn.db, c⟩ .halted).2 = .foreignKey := by
  have rc : ¬(Stop.halted.check c.nFkConstraint = .ok ∨
      Stop.halted.errorAction onError = .fail) := by simp [Stop.check, Stop.errorAction]
  have aborts : Stop.halted.errorAction onError = .abort := rfl
  simp only [sqlite3VdbeHalt]
  by_cases isIdle : conn.autoCommit = true
  · rw [if_pos isIdle]
    exact ⟨good.rolledBack, rfl⟩
  · rw [if_neg isIdle]
    have isOpen := Bool.eq_false_iff.mpr isIdle
    cases multi with
    | true => exact ⟨good, rfl⟩
    | false =>
      rw [unchanged isOpen]
      exact ⟨good.moved isOpen good.now, rfl⟩

end

private theorem Conn.Sound.statement {s : Statement T V}
    (ran : s.Ran vals sc conn (s.run vals sc ⟨conn.db, ⟨0, conn.nDeferredCons⟩⟩)) :
    (conn.statement vals sc s).1.Sound vals sc ∧ Enforced vals sc conn (.statement s) := by
  simp only [Enforced, Conn.act, Conn.statement, Finishes]
  generalize s.run vals sc ⟨conn.db, ⟨0, conn.nDeferredCons⟩⟩ = ended at ran
  cases ran with
  | done after valid counted single =>
    simp only [after, true_or, true_and]
    exact halt_done good s.onError valid counted single
  | conflict after unchanged =>
    by_cases fails : s.onError = .fail
    · rw [unchanged (.inl fails)] at after ⊢
      rw [fails]
      obtain ⟨sound', rc⟩ := halt_fail good s.isMultiWrite
      refine ⟨sound', ?_⟩
      simp only [rc, after, or_true, true_and]
      have immediate := (missing_eq_zero_iff conn.db false).mp good.now.immediate
      refine ⟨fun absurd => (nomatch absurd), ?_⟩
      rintro (violated | ⟨isIdle, violated⟩)
      · exact (immediate violated).elim
      · rw [(good.idle isIdle).1, ← missing_pos_iff, ← good.start.deferred] at violated
        omega
    · obtain ⟨sound', rc⟩ := halt_conflict good s.isMultiWrite fails
        fun single => unchanged (.inr single)
      exact ⟨sound', by simp [rc, after, fails]⟩
  | halted after violated unchanged =>
    obtain ⟨sound', rc⟩ := halt_halted good s.isMultiWrite s.onError unchanged
    exact ⟨sound', by simp [rc, after, violated]⟩

omit [DecidableEq T] [DecidableEq C] in
private theorem Conn.Sound.commit : (conn.commit).1.Sound vals sc ∧
      ((conn.commit).2 = .foreignKey ↔ Violated vals sc conn.db true) := by
  rw [← (counted_iff good.counted).2]
  unfold Conn.commit
  split
  · rename_i late
    exact ⟨good, by simpa using late⟩
  · rename_i late
    exact ⟨good.now.committed late, by simpa using late⟩

end

private theorem Conn.Sound.act (sound : sc.Sound vals) (good : conn.Sound vals sc) (a : Act T V)
    (proper : Proper vals sc conn a) :
    (conn.step vals sc a).Sound vals sc ∧ Enforced vals sc conn a := by
  cases a with
  | statement s => exact good.statement (good.ran sound s proper)
  | begin =>
    simp only [Conn.step, Enforced, Conn.act]
    split
    · exact ⟨⟨good.now, good.start, good.savepoints, fun isIdle => (nomatch isIdle)⟩, by simp⟩
    · exact ⟨good, by simp⟩
  | commit =>
    simp only [Conn.step, Enforced, Conn.act]
    split
    · rename_i isIdle
      exact ⟨good, by simp [isIdle]⟩
    · rename_i isIdle
      obtain ⟨sound', rc⟩ := good.commit
      exact ⟨sound', by simp [rc, isIdle]⟩
  | rollback =>
    simp only [Conn.step, Enforced, Conn.act]
    split
    · exact ⟨good, by simp⟩
    · exact ⟨good.rolledBack, by simp⟩
  | «savepoint» =>
    simp only [Enforced, Conn.act]
    refine ⟨⟨good.now, good.start, ?_, fun isIdle => (nomatch isIdle)⟩, by simp⟩
    rintro saved (_ | ⟨_, member⟩)
    · exact good.now
    · exact good.savepoints saved member
  | release n =>
    simp only [Conn.step, Enforced, Conn.act]
    split
    · split
      · rename_i inRange whole
        obtain ⟨sound', rc⟩ := good.commit
        exact ⟨sound', by simp [rc, whole]⟩
      · rename_i inRange whole
        refine ⟨⟨good.now, good.start, ?_, fun isIdle => ⟨(good.idle isIdle).1, ?_⟩⟩, ?_⟩
        · exact fun saved member => good.savepoints saved (mem_of_mem_drop member)
        · rw [(good.idle isIdle).2, drop_nil]
        · refine ⟨fun absurd => (nomatch absurd), fun violated => ?_⟩
          exact (whole ⟨violated.1, violated.2.1⟩).elim
    · refine ⟨good, fun absurd => (nomatch absurd), fun violated => ?_⟩
      omega
  | rollbackTo n =>
    simp only [Conn.step, Enforced, Conn.act]
    split
    · rename_i saved n' found
      refine ⟨⟨good.savepoints _ (mem_of_getElem? found), good.start, ?_, ?_⟩, by simp⟩
      · exact fun other member => good.savepoints other (mem_of_mem_drop member)
      · intro isIdle
        rw [(good.idle isIdle).2] at found
        cases found
    · exact ⟨good, by simp⟩

end

def integers : Values Nat Unit Unit where
  apply _ v := v
  mustBeInt v := some v
  compareAffinity _ _ := ()
  equal _ v w := v == w
  integer := ()
  binary := ()
  apply_apply _ _ := rfl
  apply_compareAffinity _ _ := rfl
  equal_equivalence _ := by
    simp only [beq_iff_eq]
    exact eq_equivalence

/-- `p(id INTEGER PRIMARY KEY)` and `c(x REFERENCES p DEFERRABLE INITIALLY DEFERRED, y REFERENCES
p(id))`. -/
def orders : Schema Bool Nat Unit Unit where
  table
    | true => ⟨[⟨(), ()⟩], some 0, false, [], by simp, by simp, by simp, by simp⟩
    | false => ⟨[⟨(), ()⟩, ⟨(), ()⟩], none, false, [], by simp, by simp, by simp, by simp⟩
  fkeys := [⟨false, true, .named [(1, 0)], false⟩, ⟨false, true, .toPrimary [0], true⟩]

private theorem orders_sound : orders.Sound integers where
  whole := by
    intro fk member loc located idx isIdx
    have rowid : ∀ key ∈ orders.fkeys, toRowid (orders.table key.zTo) key.aCol = true := by decide
    rw [sqlite3FkLocateIndex, if_pos (rowid fk member)] at located
    cases located
    cases isIdx
  located := by decide
  distinct_named := by
    intro fk member aCol cols
    simp only [orders, mem_cons, not_mem_nil, or_false] at member
    obtain rfl | rfl := member
    · cases cols
      decide
    · cases cols
  distinct_index t idx member := by cases t <;> cases member
  primary_coll _ _ _ _ _ _ := rfl
  scan_agrees := by
    intro fk member pair pairMember v w _ _
    have rowid : ∀ key ∈ orders.fkeys, toRowid (orders.table key.zTo) key.aCol = true := by decide
    simp only [scanEqual, FKey.matches, rowid fk member, if_true, integers]
    exact BEq.comm
  self_agrees := by
    intro fk member self
    exact absurd self (by revert fk; decide)
  raw_agrees _ _ _ _ _ _ _ := rfl
  self_primary := by
    intro fk member self
    exact absurd self (by revert fk; decide)

/-- `n(id PRIMARY KEY, a UNIQUE, p REFERENCES n(a)) WITHOUT ROWID` -/
def notes : Schema Unit Nat Unit Unit where
  table _ := ⟨[⟨(), ()⟩, ⟨(), ()⟩, ⟨(), ()⟩], none, true,
    [⟨[(1, ())], none, true, false⟩, ⟨[(0, ())], none, true, true⟩],
    by simp, by simp, by simp, by simp⟩
  fkeys := [⟨(), (), .named [(2, 1)], false⟩]

def noted : Db Unit Nat :=
  fun _ => [⟨none, [some 1, some 10, none]⟩, ⟨none, [some 2, none, some 10]⟩]

/-- `p(a UNIQUE, b)` with an index `UNIQUE ON p(a) WHERE b > 0`, and `c(x REFERENCES p(a))`. -/
def offers : Schema Bool Nat Unit Unit where
  table
    | true => ⟨[⟨(), ()⟩, ⟨(), ()⟩], none, false,
      [⟨[(0, ())], some fun row => row.data[1]?.join.any fun b => 0 < b, true, false⟩,
        ⟨[(0, ())], none, true, false⟩], by simp, by simp, by simp, by simp⟩
    | false => ⟨[⟨(), ()⟩], none, false, [], by simp, by simp, by simp, by simp⟩
  fkeys := [⟨false, true, .named [(0, 0)], false⟩]

def offered : Db Bool Nat := fun t => if t then [⟨some 1, [some 1, some 0]⟩] else []

end SeSqlite.Fkey
