/- source: src/wal.c
   digest: No commit is lost and every reader sees one image, unless a checkpoint is late. -/
import SeSqlite.Wal.Moves

set_option autoImplicit false
set_option relaxedAutoImplicit false

namespace SeSqlite.Wal.Isolation

open Lib.Runs (Along Visits visits_of_invariant)
open Wal.Index (Newest linearScan_newest sqlite3WalFindFrame)
open Wal.Protocol

variable {α : Type} {n : Nat}

theorem start_inv (mem : Index.Mem) (aReadMark : Nat → Nat) (log : Nat → α) (db : DbFile α)
    (pendingBytePage : Nat) (readOnly : Fin n → Bool) :
    Inv (start mem aReadMark log db pendingBytePage readOnly) := by
  refine ⟨⟨Index.start_inv mem, rfl, fun p member => absurd member List.not_mem_nil, le_rfl,
    fun p _ found => absurd rfl found, fun p page _ => ⟨page.2.1, rfl⟩, fun _ => rfl⟩,
    fun _ => trivial, fun _ _ _ => ?_⟩
  constructor <;> simp [start, Pc.owns, Pc.checkpoints, Pc.reader]

theorem appendFrame_hdr (g : Shared α) (pgno : Nat) (content : α) :
    (appendFrame g pgno content).hdr = g.hdr := by
  rw [appendFrame]
  split <;> rfl

variable [Inhabited α]

variable {s : State n α}

/-- The frames counted by `nBackfill` are committed and their content is in the database file, and
a restart of the log happens only when the file alone is the committed image. -/
def NothingLost (s : State n α) : Prop :=
  s.shared.nBackfill ≤ s.shared.hdr.mxFrame ∧
  (∀ p f, p ≤ s.shared.hdr.nPage → Newest s.shared.index.pages s.shared.hdr.mxFrame p f → 0 < f →
    f ≤ s.shared.nBackfill → s.shared.db.Holds p (s.shared.log f)) ∧
  ∀ ca, (step s ca).shared.hdr.aSalt ≠ s.shared.hdr.aSalt →
    s.shared.db.size = s.shared.hdr.nPage ∧
    ∀ p, DataPage s.shared s.shared.hdr.nPage p → s.shared.db.page p = s.shared.image p

theorem go_hdr (free : Free) (g : Shared α) (c : Conn α) : (go free g c).2.hdr = g.hdr := by
  simp only [go]
  split <;> try rfl
  · split <;> rfl
  · rw [copyPage]
    split
    · rfl
    · split <;> rfl

theorem restart_of_salt (inv : Inv s) {ca : Fin n × Act α}
    (restarts : (step s ca).shared.hdr.aSalt ≠ s.shared.hdr.aSalt) :
    (s.conn ca.1).pc = .writing 0 := by
  obtain ⟨i, a⟩ := ca
  have ok := inv.each i
  simp only [step, act] at restarts
  split at restarts
  · exact absurd (by rw [go_hdr]) restarts
  case h_8 pc => exact pc
  case h_12 pc =>
    simp only [LocalOk, pc] at ok
    split at restarts
    · exact absurd ok.salt restarts
    · exact absurd rfl restarts
  case h_10 =>
    split at restarts
    · exact absurd (by rw [appendFrame_hdr]) restarts
    · exact absurd rfl restarts
  all_goals first
    | exact absurd rfl restarts
    | (split at restarts <;> exact absurd rfl restarts)

theorem nothingLost (inv : Inv s) : NothingLost s := by
  refine ⟨inv.common.nBackfill_le, fun p f inside newest some_frame old => ?_,
    fun ca restarts => ?_⟩
  · obtain rfl := newest.unique (linearScan_newest _ _ _)
    have written := inv.common.written p (mem_of_linearScan some_frame.ne')
    have page : DataPage s.shared s.shared.hdr.nPage p := ⟨written.1, inside, written.2⟩
    rw [inv.common.logged p page (by omega)]
    exact inv.common.backfilled p page old
  · have ok := inv.each ca.1
    simp only [LocalOk, restart_of_salt inv restarts] at ok
    have all := ok.flushed rfl
    exact ⟨inv.common.size all, fun p page => ((inv.common.sees_file all p page).1 rfl).2⟩

/-- In every run in which no checkpoint is late, nothing that was committed is lost. -/
theorem no_commit_lost (mem : Index.Mem) (aReadMark : Nat → Nat) (log : Nat → α) (db : DbFile α)
    (pendingBytePage : Nat) (readOnly : Fin n → Bool) (run : List (Fin n × Act α))
    (inTime : Along step InTime (start mem aReadMark log db pendingBytePage readOnly) run) :
    Visits step NothingLost (start mem aReadMark log db pendingBytePage readOnly) run :=
  visits_of_invariant (fun _ => nothingLost) (fun _ ca inv => inv.step ca)
    (start_inv mem aReadMark log db pendingBytePage readOnly) inTime

def newDatabase : State 3 Nat :=
  start (fun _ => Index.blank) (fun _ => Index.readmarkNotUsed) (fun _ => 0) ⟨1, fun _ => 10⟩ 262145
    fun _ => false

def goes (c : Fin 3) : List (Fin 3 × Act Nat) := List.replicate 24 (c, .go)

/-- A write transaction up to the point where the log may be written to. -/
def beginWriting (c : Fin 3) : List (Fin 3 × Act Nat) :=
  (c, .beginRead) :: goes c ++ (c, .beginWrite) :: goes c ++ (c, .restartLog) :: goes c

def writeOne (c : Fin 3) (content : Nat) : List (Fin 3 × Act Nat) :=
  beginWriting c ++ [(c, .append 1 content), (c, .commit 1), (c, .endRead)]

def checkpointAll (c : Fin 3) : List (Fin 3 × Act Nat) := (c, .checkpoint .passive) :: goes c

theorem no_commit_lost_oneCheckpoint :
    Visits step NothingLost newDatabase (writeOne 0 11 ++ checkpointAll 1) ∧
      ((writeOne 0 11 ++ checkpointAll 1).foldl step newDatabase).shared.nBackfill = 1 :=
  ⟨no_commit_lost _ _ _ _ _ _ _ (by decide +kernel), by decide +kernel⟩

/-- A checkpoint reads the header and is overtaken by a writer, which restarts the log; then it
goes on with what it has read. -/
def overtaken : List (Fin 3 × Act Nat) :=
  writeOne 0 11 ++ checkpointAll 1 ++
    [(1, .checkpoint .passive), (1, .go), (1, .go)] ++ beginWriting 0 ++ [(0, .endRead)] ++ goes 1

/-- The late checkpoint counts a frame that the restarted log does not have, and the commit that
comes to lie there next is never copied. -/
theorem late_checkpoint_loses_commit : ¬ NothingLost (overtaken.foldl step newDatabase) ∧
      ¬ NothingLost ((overtaken ++ writeOne 0 12).foldl step newDatabase) := by
  constructor
  · rintro ⟨le, -⟩
    exact absurd le (by decide +kernel)
  · rintro ⟨-, held, -⟩
    have holds := held 1 1 (by decide +kernel) (.inr ⟨by decide, by decide +kernel,
      by decide +kernel, by decide +kernel⟩) (by decide) (by decide +kernel)
    exact absurd holds.2 (by decide +kernel)

/-- The connection is in a read transaction on this read lock, and has not written to the log
itself since it has the header. -/
def InTransaction (g : Shared α) (c : Conn α) (readLock : Nat) : Prop :=
  c.pc = .reading readLock ∨ c.pc = .checking readLock ∨
    (c.pc = .writing readLock ∧ c.hdr = g.hdr)

/-- Every page that a reader reads is the one of the image that its header describes. -/
def Isolated (s : State n α) : Prop :=
  ∀ c readLock p, InTransaction s.shared (s.conn c) readLock →
    DataPage s.shared (s.conn c).hdr.nPage p →
    readPage s.shared (s.conn c) readLock p = some ((s.conn c).snapshot p)

theorem Reads.readPage {g : Shared α} {c : Conn α} {readLock p : Nat} (ok : SharedOk g)
    (reads : Reads g c readLock) (page : DataPage g c.hdr.nPage p) :
    readPage g c readLock p = some (c.snapshot p) := by
  by_cases zero : readLock = 0
  · have holds := (reads.file zero p page).1 rfl
    rw [Protocol.readPage, sqlite3WalFindFrame, if_pos (.inr zero), Option.map_some, if_pos rfl,
      holds.read]
  · obtain ⟨file, log⟩ := reads.log zero p page
    have le := Nat.le_trans (reads.copied.le (reads.salt zero)) ok.le_iFrame
    rw [Protocol.readPage, ok.index.indexed.findFrame le zero, Option.map_some]
    split
    · rename_i none_here
      rw [(file none_here).read]
    · rename_i found
      rw [log found]

theorem isolated (inv : Inv s) : Isolated s := by
  intro c readLock p inside page
  have ok := inv.each c
  refine Reads.readPage inv.common ?_ page
  rcases inside with pc | pc | ⟨pc, current⟩ <;> simp only [LocalOk, pc] at ok
  · exact ok
  · exact ok.1
  · exact Reads.start inv.common current ok.snapshot ok.lt ok.flushed ok.mark

/-- In every run in which no checkpoint is late, each reader sees one committed image. -/
theorem snapshot_isolation (mem : Index.Mem) (aReadMark : Nat → Nat) (log : Nat → α)
    (db : DbFile α) (pendingBytePage : Nat) (readOnly : Fin n → Bool) (run : List (Fin n × Act α))
    (inTime : Along step InTime (start mem aReadMark log db pendingBytePage readOnly) run) :
    Visits step Isolated (start mem aReadMark log db pendingBytePage readOnly) run :=
  visits_of_invariant (fun _ => isolated) (fun _ ca inv => inv.step ca)
    (start_inv mem aReadMark log db pendingBytePage readOnly) inTime

theorem snapshot_isolation_oneReader :
    Visits step Isolated newDatabase (writeOne 0 11 ++ (2, .beginRead) :: goes 2) ∧
      let s := (writeOne 0 11 ++ (2, .beginRead) :: goes 2).foldl step newDatabase
      (s.conn 2).pc = .reading 1 ∧ (s.conn 2).snapshot 1 = 11 :=
  ⟨snapshot_isolation _ _ _ _ _ _ _ (by decide +kernel), by decide +kernel⟩

/-- After a late checkpoint a reader takes the log for copied, and misses a commit. -/
theorem late_checkpoint_breaks_snapshot :
    ¬ Isolated ((overtaken ++ writeOne 0 12 ++ (2, .beginRead) :: goes 2).foldl step
      newDatabase) := by
  intro isolated
  have read := isolated 2 0 1 (.inl (by decide +kernel))
    ⟨by decide, by decide +kernel, by decide +kernel⟩
  exact absurd read (by decide +kernel)

/-- A writer works on what was committed last, and nobody else writes. -/
def LastCommit (s : State n α) : Prop :=
  ∀ c k, (s.conn c).pc = .writing k → (s.conn c).snapshot = s.shared.image ∧
    ∀ d ≠ c, (s.conn d).writeLock = false

theorem no_lost_update (mem : Index.Mem) (aReadMark : Nat → Nat) (log : Nat → α) (db : DbFile α)
    (pendingBytePage : Nat) (readOnly : Fin n → Bool) (run : List (Fin n × Act α))
    (inTime : Along step InTime (start mem aReadMark log db pendingBytePage readOnly) run) :
    Visits step LastCommit (start mem aReadMark log db pendingBytePage readOnly) run := by
  refine visits_of_invariant (fun s inv c k pc => ?_) (fun _ ca inv => inv.step ca)
    (start_inv mem aReadMark log db pendingBytePage readOnly) inTime
  have ok := inv.each c
  simp only [LocalOk, pc] at ok
  exact ⟨ok.snapshot, fun d other => (inv.pair c d other.symm).write ok.lock⟩

theorem no_lost_update_second :
    Visits step LastCommit newDatabase (writeOne 0 11 ++ beginWriting 1) :=
  no_lost_update _ _ _ _ _ _ _ (by decide +kernel)

end SeSqlite.Wal.Isolation
