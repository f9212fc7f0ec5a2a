/- source: src/wal.c
   digest: Connections to one log, step by step: readers, writers and checkpointers. -/
import Mathlib.Data.Fintype.Basic
import Mathlib.Data.List.MinMax
import SeSqlite.Lib.Runs
import SeSqlite.Wal.Index

set_option autoImplicit false
set_option relaxedAutoImplicit false

namespace SeSqlite.Wal.Protocol

open Wal.Index Function

def walNreader : Nat := 5

/-- The fields of the wal-index header that the protocol is about. The salts are changed by each
restart of the log and by nothing that leaves the rest of the header alone, so the number of
restarts stands for them. -/
structure Hdr where
  iChange : Nat
  nPage : Nat
  mxFrame : Nat
  aSalt : Nat
  deriving DecidableEq

section

variable {α : Type} [Inhabited α]

structure DbFile (α : Type) where
  size : Nat
  page : Nat → α

/-- A page past the end of the file reads as zeros. -/
def DbFile.read (db : DbFile α) (pgno : Nat) : α :=
  if pgno ≤ db.size then db.page pgno else default

def DbFile.write (db : DbFile α) (pgno : Nat) (content : α) : DbFile α where
  size := max db.size pgno
  page := fun p => if p = pgno then content else db.read p

/-- The file gets this size, also when it was shorter. -/
def DbFile.truncate (db : DbFile α) (size : Nat) : DbFile α := ⟨size, db.read⟩

end

def DbFile.Holds {α : Type} (db : DbFile α) (pgno : Nat) (content : α) : Prop :=
  pgno ≤ db.size ∧ db.page pgno = content

/-- What the connections share: the header, checkpoint information and hash tables of the wal-index,
the frames of the log and the database file. The last committed image is not stored anywhere, it
says what all of them together stand for. -/
structure Shared (α : Type) where
  hdr : Hdr
  nBackfill : Nat
  aReadMark : Nat → Nat
  index : Index.State
  log : Nat → α
  db : DbFile α
  image : Nat → α
  pendingBytePage : Nat

inductive Mode where
  | passive
  | full
  | restart
  deriving DecidableEq

/-- Where a connection is. The names in front of an argument are those of the local variables of
`walTryBeginRead` and `walCheckpoint`. -/
inductive Pc where
  | idle
  -- walTryBeginRead
  | gotHdr
  | tested0
  | locked0
  | scan (i mxReadMark mxI : Nat)
  | raise (i mxReadMark mxI : Nat)
  | raising (i : Nat)
  | raised (i : Nat)
  | join (mxI mxReadMark : Nat)
  | joined (mxI mxReadMark : Nat)
  | compared (mxI : Nat)
  -- between the calls of a transaction, and inside those that start to write
  | reading (readLock : Nat)
  | checking (readLock : Nat)
  | writing (readLock : Nat)
  | leaving
  -- sqlite3WalCheckpoint and walCheckpoint
  | ckLocked
  | ckReadHdr
  | ckTest
  | ckIter
  | ckLoop (i mxSafeFrame : Nat)
  | ckLock (i mxSafeFrame y : Nat)
  | ckMark (i mxSafeFrame : Nat)
  | ckMarked (i mxSafeFrame : Nat)
  | ckLock0 (mxSafeFrame : Nat)
  | ckLocked0 (mxSafeFrame : Nat)
  | ckCopy (mxSafeFrame nBackfill iDbpage : Nat)
  | ckTruncate (mxSafeFrame : Nat)
  | ckStore (mxSafeFrame : Nat)
  | ckStored
  | ckAfter
  | ckWaited
  | ckDone
  deriving DecidableEq

namespace Pc

/-- A shared lock on `WAL_READ_LOCK(k)`. -/
def shares (k : Nat) : Pc → Bool
  | locked0 => k = 0
  | joined mxI _ => k = mxI
  | compared mxI => k = mxI
  | reading readLock => k = readLock
  | checking readLock => k = readLock
  | writing readLock => k = readLock
  | leaving => k = 0
  | _ => false

/-- An exclusive lock on `WAL_READ_LOCK(k)`. -/
def owns (k : Nat) : Pc → Bool
  | raising i => k = i
  | raised i => k = i
  | ckMark i _ => k = i
  | ckMarked i _ => k = i
  | ckLocked0 _ => k = 0
  | ckCopy _ _ _ => k = 0
  | ckTruncate _ => k = 0
  | ckStore _ => k = 0
  | ckStored => k = 0
  | ckWaited => 1 ≤ k ∧ k < walNreader
  | _ => false

/-- The lock `WAL_CKPT_LOCK`. -/
def checkpoints : Pc → Bool
  | ckLocked | ckReadHdr | ckTest | ckIter | ckLoop _ _ | ckLock _ _ _ | ckMark _ _
  | ckMarked _ _ | ckLock0 _ | ckLocked0 _ | ckCopy _ _ _ | ckTruncate _ | ckStore _ | ckStored
  | ckAfter | ckWaited | ckDone => true
  | _ => false

end Pc

/-- A connection: its copy of the header, the image that was committed under that header, the lock
`WAL_WRITE_LOCK`, and for a checkpoint the mode and the page numbers that the iterator was built
from. -/
structure Conn (α : Type) where
  readOnly : Bool
  hdr : Hdr
  snapshot : Nat → α
  writeLock : Bool
  eMode : Mode
  aPgno : List Nat
  pc : Pc

/-- The locks that the other connections leave to be had. -/
structure Free where
  share : Nat → Bool
  own : Nat → Bool
  write : Bool
  ckpt : Bool

/-- All of `WAL_READ_LOCK(1)` to the last. -/
def Free.ownAll (free : Free) : Bool :=
  (List.range walNreader).all fun k => k = 0 || free.own k

/-- The page numbers of the frames up to `mxFrame`, as `walIteratorInit` finds them. -/
def walIteratorInit (mem : Index.Mem) (mxFrame : Nat) : List Nat :=
  (List.range mxFrame).map fun f =>
    let iHash := walFramePage (f + 1)
    (mem iHash).aPgno (f + 1 - iZero iHash)

/-- The next page in the order of page numbers, with its last frame. -/
def walIteratorNext (aPgno : List Nat) (iPrior : Nat) : Option (Nat × Nat) :=
  ((aPgno.filter (iPrior < ·)).min?).map fun p => (p, linearScan aPgno p aPgno.length)

section

variable {α : Type} [Inhabited α]

namespace Conn

def goto (c : Conn α) (pc : Pc) : Conn α := { c with pc := pc }

/-- `WAL_RETRY`: a reader starts again; a writer that changes its read lock keeps its header. -/
def retry (c : Conn α) : Conn α := c.goto (if c.writeLock then .scan 1 0 0 else .idle)

/-- `walIndexReadHdr`. -/
def readHdr (c : Conn α) (g : Shared α) : Conn α := { c with hdr := g.hdr, snapshot := g.image }

/-- The end of a call or of the connection itself: every lock is released. -/
def release (c : Conn α) : Conn α := { c with writeLock := false, pc := .idle }

/-- `walTryBeginRead` looks at one read mark after the other for the largest one in use. -/
def scanMark (c : Conn α) (g : Shared α) (i mxReadMark mxI : Nat) : Conn α :=
  if i < walNreader then
    let thisMark := g.aReadMark i
    if mxReadMark ≤ thisMark ∧ thisMark ≤ c.hdr.mxFrame then c.goto (.scan (i + 1) thisMark i)
    else c.goto (.scan (i + 1) mxReadMark mxI)
  else if c.readOnly = false ∧ (mxReadMark < c.hdr.mxFrame ∨ mxI = 0) then
    c.goto (.raise 1 mxReadMark mxI)
  else if mxI = 0 then c.retry
  else c.goto (.join mxI mxReadMark)

/-- One attempt to get hold of a read mark in order to raise it. -/
def raiseMark (c : Conn α) (free : Free) (i mxReadMark mxI : Nat) : Conn α :=
  if i < walNreader then
    if free.own i then c.goto (.raising i) else c.goto (.raise (i + 1) mxReadMark mxI)
  else if mxI = 0 then c.retry
  else c.goto (.join mxI mxReadMark)

/-- The header is compared for the last time, with the read lock held. -/
def accept (c : Conn α) (g : Shared α) (mxI : Nat) : Conn α :=
  if g.hdr = c.hdr then c.goto (if c.writeLock then .writing mxI else .reading mxI)
  else c.retry

def lockWrite (c : Conn α) (free : Free) : Conn α :=
  if c.eMode = .passive then c.goto .ckReadHdr
  else if free.write then { c with writeLock := true, pc := .ckReadHdr }
  else { c with eMode := .passive, pc := .ckReadHdr }

/-- The loop of `walCheckpoint` over the read marks. -/
def limitSafe (c : Conn α) (g : Shared α) (i mxSafeFrame : Nat) : Conn α :=
  if i < walNreader then
    let y := g.aReadMark i
    if mxSafeFrame > y then c.goto (.ckLock i mxSafeFrame y)
    else c.goto (.ckLoop (i + 1) mxSafeFrame)
  else if g.nBackfill < mxSafeFrame then c.goto (.ckLock0 mxSafeFrame)
  else c.goto .ckAfter

def afterBackfill (c : Conn α) (free : Free) (g : Shared α) : Conn α :=
  if c.eMode = .restart ∧ ¬ g.nBackfill < c.hdr.mxFrame ∧ free.ownAll then c.goto .ckWaited
  else c.goto .ckDone

end Conn

namespace Shared

def setMark (g : Shared α) (i mark : Nat) : Shared α :=
  { g with aReadMark := update g.aReadMark i mark }

/-- The locked part of `walRestartLog`, with the header of the writer. -/
def walRestartLog (g : Shared α) (hdr : Hdr) : Shared α :=
  { g with hdr := hdr, nBackfill := 0, index := g.index.walRestartLog,
           aReadMark := fun i => if i = 0 then g.aReadMark 0 else if i = 1 then 0
             else readmarkNotUsed }

/-- The image after a commit of the frames behind `hdr.mxFrame`. -/
def committed (g : Shared α) (pgno : Nat) : α :=
  let f := linearScan g.index.pages pgno g.index.iFrame
  if g.hdr.mxFrame < f then g.log f else g.image pgno

end Shared

/-- One page is copied into the database file, or none is left to copy. -/
def copyPage (c : Conn α) (g : Shared α) (mxSafeFrame nBackfill iPrior : Nat) : Conn α × Shared α :=
  match walIteratorNext c.aPgno iPrior with
  | none =>
    (c.goto (if mxSafeFrame = g.hdr.mxFrame then .ckTruncate mxSafeFrame
      else .ckStore mxSafeFrame), g)
  | some (iDbpage, iFrame) =>
    (c.goto (.ckCopy mxSafeFrame nBackfill iDbpage),
      if iFrame ≤ nBackfill ∨ iFrame > mxSafeFrame ∨ iDbpage > c.hdr.nPage then g
      else { g with db := g.db.write iDbpage (g.log iFrame) })

/-- The next thing that a connection does inside a call. -/
def go (free : Free) (g : Shared α) (c : Conn α) : Conn α × Shared α :=
  match c.pc with
  | .gotHdr => (c.goto (if g.nBackfill = c.hdr.mxFrame then .tested0 else .scan 1 0 0), g)
  | .tested0 => (c.goto (if free.share 0 then .locked0 else .scan 1 0 0), g)
  | .locked0 => (if g.hdr = c.hdr then c.goto (.reading 0) else c.retry, g)
  | .scan i mxReadMark mxI => (c.scanMark g i mxReadMark mxI, g)
  | .raise i mxReadMark mxI => (c.raiseMark free i mxReadMark mxI, g)
  | .raising i => (c.goto (.raised i), g.setMark i c.hdr.mxFrame)
  | .raised i => (c.goto (.join i c.hdr.mxFrame), g)
  | .join mxI mxReadMark =>
    (if free.share mxI then c.goto (.joined mxI mxReadMark) else c.retry, g)
  | .joined mxI mxReadMark =>
    (if g.aReadMark mxI = mxReadMark then c.goto (.compared mxI) else c.retry, g)
  | .compared mxI => (c.accept g mxI, g)
  | .checking readLock =>
    if c.hdr = g.hdr then (c.goto (.writing readLock), { g with index := g.index.begin 0 })
    else ({ c with writeLock := false, pc := .reading readLock }, g)
  | .leaving => (c.goto (.scan 1 0 0), g)
  | .ckLocked => (c.lockWrite free, g)
  | .ckReadHdr => ((c.readHdr g).goto .ckTest, g)
  | .ckTest => (c.goto (if g.nBackfill ≥ c.hdr.mxFrame then .ckDone else .ckIter), g)
  | .ckIter =>
    ({ c with aPgno := walIteratorInit g.index.mem c.hdr.mxFrame,
              pc := .ckLoop 1 c.hdr.mxFrame }, g)
  | .ckLoop i mxSafeFrame => (c.limitSafe g i mxSafeFrame, g)
  | .ckLock i mxSafeFrame y =>
    (c.goto (if free.own i then .ckMark i mxSafeFrame else .ckLoop (i + 1) y), g)
  | .ckMark i mxSafeFrame =>
    (c.goto (.ckMarked i mxSafeFrame),
      g.setMark i (if i = 1 then mxSafeFrame else readmarkNotUsed))
  | .ckMarked i mxSafeFrame => (c.goto (.ckLoop (i + 1) mxSafeFrame), g)
  | .ckLock0 mxSafeFrame =>
    (c.goto (if free.own 0 then .ckLocked0 mxSafeFrame else .ckAfter), g)
  | .ckLocked0 mxSafeFrame => (c.goto (.ckCopy mxSafeFrame g.nBackfill 0), g)
  | .ckCopy mxSafeFrame nBackfill iPrior => copyPage c g mxSafeFrame nBackfill iPrior
  | .ckTruncate mxSafeFrame =>
    (c.goto (.ckStore mxSafeFrame), { g with db := g.db.truncate c.hdr.nPage })
  | .ckStore mxSafeFrame => (c.goto .ckStored, { g with nBackfill := mxSafeFrame })
  | .ckStored => (c.goto .ckAfter, g)
  | .ckAfter => (c.afterBackfill free g, g)
  | .ckWaited => (c.goto .ckDone, g)
  | .ckDone => (c.release, g)
  | .idle | .reading _ | .writing _ => (c, g)

/-- What a connection may do. Every call that fails in the middle, and the end of a process, is a
`quit`. -/
inductive Act (α : Type) where
  | go
  | quit
  | beginRead
  | endRead
  | beginWrite
  | endWrite
  | restartLog
  | frames
  | append (pgno : Nat) (content : α)
  | spill
  | commit (nTruncate : Nat)
  | undo
  | savepoint
  | savepointUndo (i : Nat)
  | checkpoint (eMode : Mode)

/-- The first part of `walRestartLog`, for a writer on read lock 0. -/
def restartLog (free : Free) (g : Shared α) (c : Conn α) : Conn α × Shared α :=
  if g.nBackfill > 0 ∧ free.ownAll then
    let hdr := { c.hdr with mxFrame := 0, aSalt := c.hdr.aSalt + 1 }
    ({ c with hdr := hdr, pc := .leaving }, g.walRestartLog hdr)
  else (c.goto .leaving, g)

/-- A frame goes into the log and the wal-index. -/
def appendFrame (g : Shared α) (pgno : Nat) (content : α) : Shared α :=
  match g.index.append pgno with
  | none => g
  | some index =>
    { g with index := index, log := update g.log (g.index.iFrame + 1) content }

/-- The end of `sqlite3WalFrames`, and other moves of the writer's own end of the log. -/
def moveEnd (g : Shared α) (c : Conn α) (index : Index.State) : Conn α × Shared α :=
  ({ c with hdr := { c.hdr with mxFrame := index.mxFrame } }, { g with index := index })

/-- A commit has at least one frame, and one for each page that it adds to the database. -/
def Commits (g : Shared α) (nTruncate : Nat) : Prop :=
  g.index.mxFrame < g.index.iFrame ∧ 0 < nTruncate ∧ nTruncate ≠ g.pendingBytePage ∧
    ∀ p ∈ List.range (nTruncate + 1), g.hdr.nPage < p → p ≠ g.pendingBytePage →
      g.hdr.mxFrame < linearScan g.index.pages p g.index.iFrame

instance (g : Shared α) (nTruncate : Nat) : Decidable (Commits g nTruncate) :=
  inferInstanceAs (Decidable (_ ∧ _ ∧ _ ∧ ∀ _ ∈ _, _))

def commit (g : Shared α) (c : Conn α) (nTruncate : Nat) : Conn α × Shared α :=
  let index := g.index.finish true
  let hdr := { c.hdr with mxFrame := index.mxFrame, iChange := c.hdr.iChange + 1,
                          nPage := nTruncate }
  ({ c with hdr := hdr, snapshot := g.committed },
    { g with hdr := hdr, index := index, image := g.committed })

/-- An action whose precondition fails does nothing. -/
def act (free : Free) (g : Shared α) (c : Conn α) (a : Act α) : Conn α × Shared α :=
  match a, c.pc with
  | .go, _ => go free g c
  | .quit, _ => (c.release, g)
  | .beginRead, .idle => ((c.readHdr g).goto .gotHdr, g)
  | .endRead, .reading _ => (c.release, g)
  | .endRead, .writing _ => (c.release, g)
  | .beginWrite, .reading readLock =>
    if c.readOnly = false ∧ free.write then
      ({ c with writeLock := true, pc := .checking readLock }, g)
    else (c, g)
  | .endWrite, .writing readLock =>
    if c.hdr = g.hdr then ({ c with writeLock := false, pc := .reading readLock }, g) else (c, g)
  | .restartLog, .writing 0 => restartLog free g c
  | .frames, .writing (_ + 1) => (c, { g with index := g.index.frames })
  | .append pgno content, .writing (_ + 1) =>
    if 0 < pgno ∧ pgno ≠ g.pendingBytePage then (c, appendFrame g pgno content) else (c, g)
  | .spill, .writing (_ + 1) => moveEnd g c (g.index.finish false)
  | .commit nTruncate, .writing (_ + 1) =>
    if Commits g nTruncate then commit g c nTruncate else (c, g)
  | .undo, .writing _ => (c.readHdr g, { g with index := g.index.sqlite3WalUndo })
  | .savepoint, .writing _ => moveEnd g c g.index.sqlite3WalSavepoint
  | .savepointUndo i, .writing _ => moveEnd g c (g.index.sqlite3WalSavepointUndo i)
  | .checkpoint eMode, .idle =>
    if c.readOnly = false ∧ free.ckpt then ({ c with eMode := eMode, pc := .ckLocked }, g)
    else (c, g)
  | _, _ => (c, g)

structure State (n : Nat) (α : Type) where
  shared : Shared α
  conn : Fin n → Conn α

variable {n : Nat}

def State.free (s : State n α) (c : Fin n) : Free where
  share := fun k => decide (∀ d, d ≠ c → (s.conn d).pc.owns k = false)
  own := fun k => decide (∀ d, d ≠ c → (s.conn d).pc.owns k = false ∧
    (s.conn d).pc.shares k = false)
  write := decide (∀ d, d ≠ c → (s.conn d).writeLock = false)
  ckpt := decide (∀ d, d ≠ c → (s.conn d).pc.checkpoints = false)

def step (s : State n α) (ca : Fin n × Act α) : State n α :=
  let r := act (s.free ca.1) s.shared (s.conn ca.1) ca.2
  ⟨r.2, update s.conn ca.1 r.1⟩

/-- The page as a connection with this read lock gets it, `none` for the corruption error. -/
def readPage (g : Shared α) (c : Conn α) (readLock pgno : Nat) : Option α :=
  (sqlite3WalFindFrame g.index.mem readLock c.hdr.mxFrame pgno).map fun iRead =>
    if iRead = 0 then g.db.read pgno else g.log iRead

/-- A database with an empty log. Memory, read marks and the frames left in the log file may be
anything. -/
def start (mem : Index.Mem) (aReadMark : Nat → Nat) (log : Nat → α) (db : DbFile α)
    (pendingBytePage : Nat) (readOnly : Fin n → Bool) : State n α where
  shared := {
    hdr := ⟨0, db.size, 0, 0⟩
    nBackfill := 0
    aReadMark := aReadMark
    index := Index.start mem
    log := log
    db := db
    image := db.page
    pendingBytePage := pendingBytePage }
  conn := fun c => ⟨readOnly c, ⟨0, 0, 0, 0⟩, db.page, false, .passive, [], .idle⟩

end

end SeSqlite.Wal.Protocol
