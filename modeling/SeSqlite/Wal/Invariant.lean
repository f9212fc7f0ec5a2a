/- source: src/wal.c
   digest: What holds of the log, the database file and every connection in every state. -/
import SeSqlite.Lib.Threads
import SeSqlite.Wal.Protocol

set_option autoImplicit false
set_option relaxedAutoImplicit false

namespace SeSqlite.Wal.Protocol

open Wal.Index List Option

section

variable {pages aPgno : List Nat} {p m n iPrior f : Nat}

theorem linearScan_le (pages : List Nat) (p n : Nat) : linearScan pages p n ≤ n := by
  rcases linearScan_newest pages p n with ⟨zero, -⟩ | ⟨-, le, -⟩
  · omega
  · exact le

theorem le_linearScan (one : 1 ≤ f) (le : f ≤ n) (here : pages[f - 1]? = some p) :
    f ≤ linearScan pages p n := by
  rcases linearScan_newest pages p n with ⟨-, none_here⟩ | ⟨-, -, -, newest⟩
  · exact absurd here (none_here (f - 1) (by omega))
  · have := newest (f - 1) (by omega) here
    omega

theorem getElem?_linearScan (found : linearScan pages p n ≠ 0) :
    pages[linearScan pages p n - 1]? = some p := by
  rcases linearScan_newest pages p n with ⟨zero, -⟩ | ⟨-, -, here, -⟩
  · exact absurd zero found
  · exact here

theorem mem_of_linearScan (found : linearScan pages p n ≠ 0) : p ∈ pages :=
  mem_of_getElem? (getElem?_linearScan found)

theorem linearScan_mono (pages : List Nat) (p m n : Nat) (reaches : linearScan pages p m ≤ n) :
    linearScan pages p m ≤ linearScan pages p n := by
  by_cases zero : linearScan pages p m = 0
  · omega
  · exact le_linearScan (by omega) reaches (getElem?_linearScan zero)

theorem linearScan_eq_of_le (le : m ≤ n) (old : linearScan pages p n ≤ m) :
    linearScan pages p m = linearScan pages p n := by
  have low := linearScan_mono pages p n m old
  have high := linearScan_mono pages p m n (Nat.le_trans (linearScan_le pages p m) le)
  omega

theorem linearScan_congr {pages' : List Nat} (same : pages'.take m = pages.take m) (le : n ≤ m) :
    linearScan pages' p n = linearScan pages p n := by
  rw [← linearScan_take le, same, linearScan_take le]

theorem linearScan_eq_zero (absent : p ∉ pages) : linearScan pages p n = 0 := by
  by_contra found
  exact absent (mem_of_linearScan found)

theorem walIteratorNext_none (eq : walIteratorNext aPgno iPrior = none) :
    ∀ q ∈ aPgno, q ≤ iPrior := by
  rw [walIteratorNext, map_eq_none_iff, min?_eq_none_iff, filter_eq_nil_iff] at eq
  intro q listed
  have small := eq q listed
  rw [decide_eq_true_eq] at small
  omega

theorem walIteratorNext_some {p : Nat} (eq : walIteratorNext aPgno iPrior = some (p, f)) :
    iPrior < p ∧
      (∀ q ∈ aPgno, iPrior < q → p ≤ q) ∧ f = linearScan aPgno p aPgno.length := by
  rw [walIteratorNext, map_eq_some_iff] at eq
  obtain ⟨q, least, pair⟩ := eq
  cases pair
  rw [min?_eq_some_iff] at least
  obtain ⟨listed, le⟩ := least
  rw [mem_filter, decide_eq_true_eq] at listed
  refine ⟨listed.2, fun q other behind => le q ?_, rfl⟩
  rw [mem_filter, decide_eq_true_eq]
  exact ⟨other, behind⟩

theorem walIteratorInit_eq {index : Index.State} (inv : index.Inv) {mxFrame : Nat}
    (le : mxFrame ≤ index.iFrame) : walIteratorInit index.mem mxFrame =
      index.pages.take mxFrame := by
  refine ext_getElem? fun f => ?_
  rw [walIteratorInit, getElem?_map]
  by_cases inside : f < mxFrame
  · obtain ⟨low, high⟩ := walFramePage_bounds (f := f + 1) (by omega)
    have mapped := inv.indexed.mapped (walFramePage (f + 1)) (f + 1 - iZero (walFramePage (f + 1)))
      (by omega) (by omega) (by omega)
    have position : iZero (walFramePage (f + 1)) + (f + 1 - iZero (walFramePage (f + 1))) - 1 =
        f := by
      omega
    rw [position] at mapped
    rw [getElem?_take_of_lt inside, mapped, getElem?_range inside, map_some]
  · rw [getElem?_eq_none (by simpa using inside), getElem?_eq_none
      (by rw [length_take]; omega), map_none]

variable {α : Type} [Inhabited α] {db : DbFile α} {p q : Nat} {x y : α}

theorem DbFile.Holds.read (holds : db.Holds p x) : db.read p = x := by
  rw [DbFile.read, if_pos holds.1, holds.2]

theorem DbFile.holds_write (db : DbFile α) (p : Nat) (x : α) : (db.write p x).Holds p x :=
  ⟨Nat.le_max_right _ _, if_pos rfl⟩

theorem DbFile.Holds.write (holds : db.Holds p x) (other : p ≠ q) : (db.write q y).Holds p x := by
  refine ⟨holds.1.trans (Nat.le_max_left _ _), ?_⟩
  change (if p = q then y else db.read p) = x
  rw [if_neg other, holds.read]

theorem DbFile.Holds.truncate (holds : db.Holds p x) {size : Nat} (inside : p ≤ size) :
    (db.truncate size).Holds p x := ⟨inside, holds.read⟩

end

/-- The connection is in a read transaction, under this read lock, with the header it copied. -/
def Pc.reader : Pc → Option Nat
  | .reading readLock => some readLock
  | .checking readLock => some readLock
  | _ => none

def Pc.backfills : Pc → Bool
  | .ckTest | .ckIter | .ckLoop _ _ | .ckLock _ _ _ | .ckMark _ _ | .ckMarked _ _ | .ckLock0 _
  | .ckLocked0 _ | .ckCopy _ _ _ | .ckTruncate _ | .ckStore _ => true
  | _ => false

/-- No frame behind this one is copied while there is a reader on the lock that the checkpoint has
passed already. -/
def Pc.bound (k : Nat) : Pc → Option Nat
  | .ckLoop i mxSafeFrame => if k < i then some mxSafeFrame else none
  | .ckLock i mxSafeFrame y => if k < i then some mxSafeFrame else if k = i then some y else none
  | .ckMark i mxSafeFrame => if k < i then some mxSafeFrame else none
  | .ckMarked i mxSafeFrame => if k < i then some mxSafeFrame else none
  | .ckLock0 mxSafeFrame => some mxSafeFrame
  | .ckLocked0 mxSafeFrame => some mxSafeFrame
  | .ckCopy mxSafeFrame _ _ => some mxSafeFrame
  | .ckTruncate mxSafeFrame => some mxSafeFrame
  | .ckStore mxSafeFrame => some mxSafeFrame
  | _ => none

section

variable {α : Type} (g : Shared α)

/-- A page of the database that holds data. -/
def DataPage (nPage p : Nat) : Prop := 1 ≤ p ∧ p ≤ nPage ∧ p ≠ g.pendingBytePage

/-- Reading the log up to `last`, and the database file for the rest, gives the image. -/
def Sees (last nPage : Nat) (image : Nat → α) : Prop :=
  ∀ p, DataPage g nPage p →
    (linearScan g.index.pages p last = 0 → g.db.Holds p (image p)) ∧
    (linearScan g.index.pages p last ≠ 0 → g.log (linearScan g.index.pages p last) = image p)

/-- A page that the later of two headers adds to the database has a frame between them. -/
def Covers (before after : Hdr) : Prop :=
  ∀ p, before.nPage < p → DataPage g after.nPage p →
    before.mxFrame < linearScan g.index.pages p after.mxFrame

/-- The header was the shared one at some time, and the image the committed one. -/
structure Copied (hdr : Hdr) (snapshot : Nat → α) : Prop where
  salt_le : hdr.aSalt ≤ g.hdr.aSalt
  same : hdr = g.hdr → snapshot = g.image
  le : hdr.aSalt = g.hdr.aSalt → hdr.mxFrame ≤ g.hdr.mxFrame
  eq : hdr.aSalt = g.hdr.aSalt → hdr.mxFrame = g.hdr.mxFrame → hdr = g.hdr
  covers : hdr.aSalt = g.hdr.aSalt → Covers g hdr g.hdr

/-- Unless the log was restarted, all that the header speaks of is in the database file. -/
def Flushed (hdr : Hdr) : Prop := hdr.aSalt = g.hdr.aSalt → hdr.mxFrame ≤ g.nBackfill

/-- What all connections rely on. -/
structure SharedOk : Prop where
  index : g.index.Inv
  committed : g.index.shared = g.hdr.mxFrame
  written : ∀ p ∈ g.index.pages, 0 < p ∧ p ≠ g.pendingBytePage
  nBackfill_le : g.nBackfill ≤ g.hdr.mxFrame
  logged : ∀ p, DataPage g g.hdr.nPage p → linearScan g.index.pages p g.hdr.mxFrame ≠ 0 →
    g.log (linearScan g.index.pages p g.hdr.mxFrame) = g.image p
  backfilled : ∀ p, DataPage g g.hdr.nPage p →
    linearScan g.index.pages p g.hdr.mxFrame ≤ g.nBackfill → g.db.Holds p (g.image p)
  size : g.nBackfill = g.hdr.mxFrame → g.db.size = g.hdr.nPage

variable (c : Conn α)

/-- Inside `walTryBeginRead`. A writer is there only to change its read lock. -/
structure Begins : Prop where
  copied : Copied g c.hdr c.snapshot
  current : c.writeLock = true → c.hdr = g.hdr

/-- In a read transaction: on read lock 0 the database file alone serves, on another one the log
is still the one of the snapshot. -/
structure Reads (readLock : Nat) : Prop where
  copied : Copied g c.hdr c.snapshot
  lt : readLock < walNreader
  flushed : readLock = 0 → Flushed g c.hdr
  file : readLock = 0 → Sees g 0 c.hdr.nPage c.snapshot
  salt : readLock ≠ 0 → c.hdr.aSalt = g.hdr.aSalt
  mark : readLock ≠ 0 → g.aReadMark readLock ≤ c.hdr.mxFrame
  log : readLock ≠ 0 → Sees g c.hdr.mxFrame c.hdr.nPage c.snapshot

structure Writes (readLock : Nat) : Prop where
  lock : c.writeLock = true
  lt : readLock < walNreader
  salt : c.hdr.aSalt = g.hdr.aSalt
  snapshot : c.snapshot = g.image
  current : readLock = 0 → c.hdr = g.hdr
  level : readLock = 0 → g.index.mxFrame = g.hdr.mxFrame
  flushed : readLock = 0 → g.nBackfill = g.hdr.mxFrame
  mark : readLock ≠ 0 → g.aReadMark readLock ≤ g.hdr.mxFrame

/-- A checkpoint that has found something to copy, in the log that it found it in. -/
structure Active : Prop where
  copied : Copied g c.hdr c.snapshot
  salt : c.hdr.aSalt = g.hdr.aSalt
  lt : g.nBackfill < c.hdr.mxFrame

structure Working (mxSafeFrame : Nat) : Prop extends Active g c where
  aPgno : c.aPgno = g.index.pages.take c.hdr.mxFrame
  safe : mxSafeFrame ≤ c.hdr.mxFrame

/-- The page has been copied if it is to be copied at all. -/
def CopiedPage (mxSafeFrame p : Nat) : Prop :=
  p ≤ c.hdr.nPage → g.nBackfill < linearScan g.index.pages p c.hdr.mxFrame →
    linearScan g.index.pages p c.hdr.mxFrame ≤ mxSafeFrame →
    g.db.Holds p (g.log (linearScan g.index.pages p c.hdr.mxFrame))

/-- What holds of a connection where it is. -/
def LocalOk : Prop :=
  match c.pc with
  | .idle | .ckLocked | .ckReadHdr | .ckStored | .ckAfter | .ckWaited | .ckDone => True
  | .gotHdr => Begins g c
  | .tested0 | .locked0 => Begins g c ∧ Flushed g c.hdr
  | .scan _ mxReadMark mxI => Begins g c ∧ mxReadMark ≤ c.hdr.mxFrame ∧ mxI < walNreader
  | .raise i mxReadMark mxI => Begins g c ∧ i ≠ 0 ∧ mxReadMark ≤ c.hdr.mxFrame ∧ mxI < walNreader
  | .raising i | .raised i => Begins g c ∧ i ≠ 0 ∧ i < walNreader
  | .join mxI mxReadMark | .joined mxI mxReadMark =>
    Begins g c ∧ mxI ≠ 0 ∧ mxI < walNreader ∧ mxReadMark ≤ c.hdr.mxFrame
  | .compared mxI => Begins g c ∧ mxI ≠ 0 ∧ mxI < walNreader ∧ g.aReadMark mxI ≤ c.hdr.mxFrame
  | .reading readLock => Reads g c readLock
  | .checking readLock => Reads g c readLock ∧ c.writeLock = true
  | .writing readLock => Writes g c readLock
  | .leaving => Begins g c ∧ c.writeLock = true
  | .ckTest => Copied g c.hdr c.snapshot
  | .ckIter => Active g c
  | .ckLoop _ mxSafeFrame | .ckMark _ mxSafeFrame | .ckMarked _ mxSafeFrame =>
    Working g c mxSafeFrame
  | .ckLock _ mxSafeFrame y => Working g c mxSafeFrame ∧ y < mxSafeFrame
  | .ckLock0 mxSafeFrame | .ckLocked0 mxSafeFrame =>
    Working g c mxSafeFrame ∧ g.nBackfill < mxSafeFrame
  | .ckCopy mxSafeFrame nBackfill iPrior => (Working g c mxSafeFrame ∧ g.nBackfill < mxSafeFrame) ∧
    nBackfill = g.nBackfill ∧ ∀ p ≤ iPrior, CopiedPage g c mxSafeFrame p
  | .ckTruncate mxSafeFrame => (Working g c mxSafeFrame ∧ g.nBackfill < mxSafeFrame) ∧
    mxSafeFrame = c.hdr.mxFrame ∧ ∀ p, CopiedPage g c mxSafeFrame p
  | .ckStore mxSafeFrame => (Working g c mxSafeFrame ∧ g.nBackfill < mxSafeFrame) ∧
    (mxSafeFrame = g.hdr.mxFrame → g.db.size = g.hdr.nPage) ∧ ∀ p, CopiedPage g c mxSafeFrame p

variable (d : Conn α)

/-- What holds of two connections, in either order. -/
structure PairOk : Prop where
  owns : ∀ k, c.pc.owns k = true → d.pc.owns k = false ∧ d.pc.shares k = false
  write : c.writeLock = true → d.writeLock = false
  ckpt : c.pc.checkpoints = true → d.pc.checkpoints = false
  bound : ∀ k b, d.pc.reader = some k → k ≠ 0 → c.pc.bound k = some b → b ≤ d.hdr.mxFrame
  covers : ∀ k, d.pc.reader = some k → k ≠ 0 → c.pc.backfills = true →
    c.hdr.aSalt = d.hdr.aSalt → c.hdr.mxFrame ≤ d.hdr.mxFrame → Covers g c.hdr d.hdr

variable {g g' : Shared α} {d : Conn α}

theorem copied_self (g : Shared α) : Copied g g.hdr g.image :=
  ⟨le_rfl, fun _ => rfl, fun _ => le_rfl, fun _ _ => rfl,
    fun _ _ behind page => absurd page.2.1 behind.not_ge⟩

/-- The log only grows, and nothing of it moves to the database file. -/
structure Steady (g g' : Shared α) : Prop where
  salt : g'.hdr.aSalt = g.hdr.aSalt
  le : g.hdr.mxFrame ≤ g'.hdr.mxFrame
  eq : g'.hdr.mxFrame = g.hdr.mxFrame → g'.hdr = g.hdr
  pages : g'.index.pages.take g.hdr.mxFrame = g.index.pages.take g.hdr.mxFrame
  log : ∀ f ≤ g.hdr.mxFrame, g'.log f = g.log f
  nBackfill : g'.nBackfill = g.nBackfill
  db : g'.db = g.db
  pending : g'.pendingBytePage = g.pendingBytePage

variable {last nPage p : Nat} {hdr : Hdr}

theorem Steady.scan (steady : Steady g g') (le : last ≤ g.hdr.mxFrame) (p : Nat) :
    linearScan g'.index.pages p last = linearScan g.index.pages p last :=
  linearScan_congr steady.pages le

theorem dataPage_congr (pending : g'.pendingBytePage = g.pendingBytePage) :
    DataPage g' nPage p ↔ DataPage g nPage p := by
  rw [DataPage, DataPage, pending]

theorem Sees.steady {image : Nat → α} (sees : Sees g last nPage image) (steady : Steady g g')
    (le : last ≤ g.hdr.mxFrame) : Sees g' last nPage image := by
  intro p page
  rw [dataPage_congr steady.pending] at page
  have within := Nat.le_trans (linearScan_le g.index.pages p last) le
  rw [steady.scan le, steady.db, steady.log _ within]
  exact sees p page

theorem Covers.congr {before after : Hdr} (covers : Covers g before after)
    (pending : g'.pendingBytePage = g.pendingBytePage)
    (pages : g'.index.pages.take last = g.index.pages.take last) (le : after.mxFrame ≤ last) :
    Covers g' before after := by
  intro p behind page
  rw [dataPage_congr pending] at page
  rw [linearScan_congr pages le]
  exact covers p behind page

theorem Copied.congr {snapshot : Nat → α} (copied : Copied g hdr snapshot) (same : g'.hdr = g.hdr)
    (image : g'.image = g.image) (pending : g'.pendingBytePage = g.pendingBytePage)
    (pages : g'.index.pages.take g.hdr.mxFrame = g.index.pages.take g.hdr.mxFrame) :
    Copied g' hdr snapshot := by
  refine ⟨?_, ?_, ?_, ?_, ?_⟩ <;> rw [same]
  · exact copied.salt_le
  · rw [image]
    exact copied.same
  · exact copied.le
  · exact copied.eq
  · exact fun salt => (copied.covers salt).congr pending pages le_rfl

theorem Active.steady (active : Active g d) (steady : Steady g g')
    (copied : Copied g' d.hdr d.snapshot) : Active g' d :=
  ⟨copied, active.salt.trans steady.salt.symm, by rw [steady.nBackfill]; exact active.lt⟩

theorem Active.le (active : Active g d) : d.hdr.mxFrame ≤ g.hdr.mxFrame :=
  active.copied.le active.salt

variable {mxSafeFrame : Nat}

theorem Working.steady (working : Working g d mxSafeFrame) (steady : Steady g g')
    (copied : Copied g' d.hdr d.snapshot) : Working g' d mxSafeFrame := by
  refine ⟨working.toActive.steady steady copied, ?_, working.safe⟩
  have cut := congrArg (List.take d.hdr.mxFrame) steady.pages
  rw [take_take, take_take, Nat.min_eq_left working.toActive.le] at cut
  rw [working.aPgno, cut]

theorem CopiedPage.steady (done : CopiedPage g d mxSafeFrame p) (steady : Steady g g')
    (le : d.hdr.mxFrame ≤ g.hdr.mxFrame) : CopiedPage g' d mxSafeFrame p := by
  have within := Nat.le_trans (linearScan_le g.index.pages p d.hdr.mxFrame) le
  rw [CopiedPage, steady.scan le, steady.nBackfill, steady.db, steady.log _ within]
  exact done

/-- What a connection needs of a step of another one. -/
structure Transfers (g g' : Shared α) (d : Conn α) : Prop where
  copied : Copied g d.hdr d.snapshot → Copied g' d.hdr d.snapshot
  current : d.writeLock = true → d.hdr = g.hdr → d.hdr = g'.hdr
  flushed : Copied g d.hdr d.snapshot → Flushed g d.hdr → Flushed g' d.hdr
  mark : ∀ k, d.pc.shares k = true → g'.aReadMark k = g.aReadMark k
  reads : ∀ k, d.pc.reader = some k → d.pc.shares k = true → Reads g d k → Reads g' d k
  writes : ∀ k, d.pc.shares k = true → Writes g d k → Writes g' d k
  active : d.pc.checkpoints = true → Active g d → Steady g g'

theorem Begins.transfer (begins : Begins g d) (transfers : Transfers g g' d) : Begins g' d :=
  ⟨transfers.copied begins.copied, fun lock => transfers.current lock (begins.current lock)⟩

theorem Working.transfer (working : Working g d mxSafeFrame) (transfers : Transfers g g' d)
    (ckpt : d.pc.checkpoints = true) : Working g' d mxSafeFrame :=
  working.steady (transfers.active ckpt working.toActive) (transfers.copied working.copied)

theorem LocalOk.transfer (transfers : Transfers g g' d) (ok : LocalOk g d) : LocalOk g' d := by
  have shares := transfers.mark
  have reads := transfers.reads
  have writes := transfers.writes
  have active := transfers.active
  have working : ∀ {S}, d.pc.checkpoints = true → Working g d S → Working g' d S :=
    fun ckpt working => working.transfer transfers ckpt
  cases pc : d.pc <;> simp only [LocalOk, pc] at ok ⊢ <;>
    rw [pc] at shares reads writes active working
  case gotHdr => exact ok.transfer transfers
  case tested0 => exact ⟨ok.1.transfer transfers, transfers.flushed ok.1.copied ok.2⟩
  case locked0 => exact ⟨ok.1.transfer transfers, transfers.flushed ok.1.copied ok.2⟩
  case scan => exact ⟨ok.1.transfer transfers, ok.2⟩
  case raise => exact ⟨ok.1.transfer transfers, ok.2⟩
  case raising => exact ⟨ok.1.transfer transfers, ok.2⟩
  case raised => exact ⟨ok.1.transfer transfers, ok.2⟩
  case join => exact ⟨ok.1.transfer transfers, ok.2⟩
  case joined => exact ⟨ok.1.transfer transfers, ok.2⟩
  case compared mxI =>
    rw [shares mxI (by simp [Pc.shares])]
    exact ⟨ok.1.transfer transfers, ok.2⟩
  case reading readLock => exact reads readLock rfl (by simp [Pc.shares]) ok
  case checking readLock => exact ⟨reads readLock rfl (by simp [Pc.shares]) ok.1, ok.2⟩
  case writing readLock => exact writes readLock (by simp [Pc.shares]) ok
  case leaving => exact ⟨ok.1.transfer transfers, ok.2⟩
  case ckTest => exact transfers.copied ok
  case ckIter => exact ok.steady (active rfl ok) (transfers.copied ok.copied)
  case ckLoop => exact working rfl ok
  case ckLock => exact ⟨working rfl ok.1, ok.2⟩
  case ckMark => exact working rfl ok
  case ckMarked => exact working rfl ok
  case ckLock0 =>
    rw [(active rfl ok.1.toActive).nBackfill]
    exact ⟨working rfl ok.1, ok.2⟩
  case ckLocked0 =>
    rw [(active rfl ok.1.toActive).nBackfill]
    exact ⟨working rfl ok.1, ok.2⟩
  case ckCopy =>
    obtain ⟨⟨works, lt⟩, same, done⟩ := ok
    have steady := active rfl works.toActive
    rw [steady.nBackfill]
    exact ⟨⟨working rfl works, lt⟩, same, fun p le => (done p le).steady steady works.toActive.le⟩
  case ckTruncate =>
    obtain ⟨⟨works, lt⟩, same, done⟩ := ok
    have steady := active rfl works.toActive
    rw [steady.nBackfill]
    exact ⟨⟨working rfl works, lt⟩, same, fun p => (done p).steady steady works.toActive.le⟩
  case ckStore mxSafeFrame =>
    obtain ⟨⟨works, lt⟩, size, done⟩ := ok
    have steady := active rfl works.toActive
    rw [steady.nBackfill, steady.db]
    refine ⟨⟨working rfl works, lt⟩, fun at_end => ?_,
      fun p => (done p).steady steady works.toActive.le⟩
    have low := steady.le
    have high := works.safe.trans works.toActive.le
    have same := steady.eq (by omega)
    rw [same] at at_end ⊢
    exact size at_end

variable {c c' d : Conn α}

/-- One place holds no lock, and leads to no promise about readers, that the other does not. -/
structure Pc.Eases (pc pc' : Pc) : Prop where
  owns : ∀ k, pc'.owns k = true → pc.owns k = true
  shares : ∀ k, pc'.shares k = true → pc.shares k = true
  ckpt : pc'.checkpoints = true → pc.checkpoints = true
  bound : ∀ k b, k ≠ 0 → pc'.bound k = some b → pc.bound k = some b
  backfills : pc'.backfills = true → pc.backfills = true
  reader : ∀ k, k ≠ 0 → pc'.reader = some k → pc.reader = some k

/-- What a connection has to show to another one when it moves from `c` to `c'`. -/
structure Moves (g : Shared α) (c c' d : Conn α) : Prop where
  owns : ∀ k, c'.pc.owns k = true → c.pc.owns k = true ∨
    (d.pc.owns k = false ∧ d.pc.shares k = false)
  shares : ∀ k, c'.pc.shares k = true → c.pc.shares k = true ∨ d.pc.owns k = false
  write : c'.writeLock = true → c.writeLock = true ∨ d.writeLock = false
  ckpt : c'.pc.checkpoints = true → c.pc.checkpoints = true ∨ d.pc.checkpoints = false
  bound : ∀ k b, d.pc.reader = some k → k ≠ 0 → c'.pc.bound k = some b →
    c.pc.bound k = some b ∨ b ≤ d.hdr.mxFrame
  backfills : c'.pc.backfills = true → (c.pc.backfills = true ∧ c'.hdr = c.hdr) ∨
    ∀ k, d.pc.reader = some k → k ≠ 0 → c'.hdr.aSalt = d.hdr.aSalt →
      c'.hdr.mxFrame ≤ d.hdr.mxFrame → Covers g c'.hdr d.hdr
  reader : ∀ k, c'.pc.reader = some k → k ≠ 0 → (c.pc.reader = some k ∧ c'.hdr = c.hdr) ∨
    ((∀ b, d.pc.bound k = some b → b ≤ c'.hdr.mxFrame) ∧
      (d.pc.backfills = true → d.hdr.aSalt = c'.hdr.aSalt → d.hdr.mxFrame ≤ c'.hdr.mxFrame →
        Covers g d.hdr c'.hdr))

theorem Moves.left (moves : Moves g c c' d) (pair : PairOk g c d) : PairOk g c' d where
  owns := fun k owns => (moves.owns k owns).elim (pair.owns k) id
  write := fun lock => (moves.write lock).elim pair.write id
  ckpt := fun ckpt => (moves.ckpt ckpt).elim pair.ckpt id
  bound := fun k b reader some_log bound =>
    (moves.bound k b reader some_log bound).elim (pair.bound k b reader some_log) id
  covers := fun k reader some_log backfills salt le => by
    rcases moves.backfills backfills with ⟨already, same⟩ | covers
    · rw [same] at salt le ⊢
      exact pair.covers k reader some_log already salt le
    · exact covers k reader some_log salt le

theorem Moves.right (moves : Moves g c c' d) (pair : PairOk g d c) : PairOk g d c' where
  owns := fun k owns => by
    have old := pair.owns k owns
    refine ⟨?_, ?_⟩
    · by_contra gained
      rcases moves.owns k (by simpa using gained) with had | ⟨free, -⟩
      · rw [old.1] at had
        cases had
      · rw [owns] at free
        cases free
    · by_contra gained
      rcases moves.shares k (by simpa using gained) with had | free
      · rw [old.2] at had
        cases had
      · rw [owns] at free
        cases free
  write := fun lock => by
    by_contra gained
    rcases moves.write (by simpa using gained) with had | free
    · rw [pair.write lock] at had
      cases had
    · rw [lock] at free
      cases free
  ckpt := fun ckpt => by
    by_contra gained
    rcases moves.ckpt (by simpa using gained) with had | free
    · rw [pair.ckpt ckpt] at had
      cases had
    · rw [ckpt] at free
      cases free
  bound := fun k b reader some_log bound => by
    rcases moves.reader k reader some_log with ⟨already, same⟩ | ⟨safe, -⟩
    · rw [same]
      exact pair.bound k b already some_log bound
    · exact safe b bound
  covers := fun k reader some_log backfills salt le => by
    rcases moves.reader k reader some_log with ⟨already, same⟩ | ⟨-, covers⟩
    · rw [same] at salt le ⊢
      exact pair.covers k already some_log backfills salt le
    · exact covers backfills salt le

theorem moves_of_eases (eases : c.pc.Eases c'.pc) (hdr : c'.hdr = c.hdr)
    (write : c'.writeLock = true → c.writeLock = true ∨ d.writeLock = false) : Moves g c c' d where
  owns := fun k owns => .inl (eases.owns k owns)
  shares := fun k shares => .inl (eases.shares k shares)
  write := write
  ckpt := fun ckpt => .inl (eases.ckpt ckpt)
  bound := fun k b _ some_log bound => .inl (eases.bound k b some_log bound)
  backfills := fun backfills => .inl ⟨eases.backfills backfills, hdr⟩
  reader := fun k reader some_log => .inl ⟨eases.reader k some_log reader, hdr⟩

theorem moves_of_eases_free (eases : c.pc.Eases c'.pc) (free : c'.pc.backfills = false)
    (reader : c'.pc.reader = none)
    (write : c'.writeLock = true → c.writeLock = true ∨ d.writeLock = false) : Moves g c c' d where
  owns := fun k owns => .inl (eases.owns k owns)
  shares := fun k shares => .inl (eases.shares k shares)
  write := write
  ckpt := fun ckpt => .inl (eases.ckpt ckpt)
  bound := fun k b _ some_log bound => .inl (eases.bound k b some_log bound)
  backfills := fun backfills => absurd (free.symm.trans backfills) Bool.false_ne_true
  reader := fun k here => absurd (reader.symm.trans here) (by simp)

/-- What is said of two connections does not depend on the shared state but for the pages that
the log of a reader holds. -/
theorem PairOk.congr (pair : PairOk g c d) (pending : g'.pendingBytePage = g.pendingBytePage)
    (kept : ∀ k, d.pc.reader = some k → k ≠ 0 →
      g'.index.pages.take d.hdr.mxFrame = g.index.pages.take d.hdr.mxFrame) : PairOk g' c d where
  owns := pair.owns
  write := pair.write
  ckpt := pair.ckpt
  bound := pair.bound
  covers := fun k reader some_log backfills salt le =>
    (pair.covers k reader some_log backfills salt le).congr pending (kept k reader some_log)
      le_rfl

theorem LocalOk.bound_le (ok : LocalOk g d) {k b : Nat} (bound : d.pc.bound k = some b) :
    b ≤ g.hdr.mxFrame := by
  have safe : ∀ {S}, Working g d S → S ≤ g.hdr.mxFrame := fun works =>
    works.safe.trans works.toActive.le
  cases pc : d.pc <;> rw [pc] at bound <;>
    simp only [Pc.bound, reduceCtorEq, ite_none_right_eq_some, Option.some.injEq] at bound <;>
    simp only [LocalOk, pc] at ok
  case ckLoop => exact bound.2 ▸ safe ok
  case ckLock i mxSafeFrame y =>
    have le := safe ok.1
    split at bound
    · exact some_inj.mp bound ▸ le
    · rw [ite_none_right_eq_some, Option.some.injEq] at bound
      omega
  case ckMark => exact bound.2 ▸ safe ok
  case ckMarked => exact bound.2 ▸ safe ok
  all_goals exact bound ▸ safe (by first | exact ok.1 | exact ok.1.1)

theorem LocalOk.covers (ok : LocalOk g d) (backfills : d.pc.backfills = true)
    (salt : d.hdr.aSalt = g.hdr.aSalt) : Covers g d.hdr g.hdr := by
  cases pc : d.pc <;> rw [pc] at backfills <;>
    simp only [Pc.backfills, Bool.false_eq_true] at backfills <;> simp only [LocalOk, pc] at ok
  case ckTest => exact ok.covers salt
  case ckIter => exact ok.copied.covers salt
  all_goals first
    | exact ok.copied.covers salt
    | exact ok.1.copied.covers salt
    | exact ok.1.1.copied.covers salt

theorem LocalOk.newReader (ok : LocalOk g d) (current : hdr = g.hdr) (k : Nat) :
    (∀ b, d.pc.bound k = some b → b ≤ hdr.mxFrame) ∧
      (d.pc.backfills = true → d.hdr.aSalt = hdr.aSalt → d.hdr.mxFrame ≤ hdr.mxFrame →
        Covers g d.hdr hdr) := by
  subst current
  exact ⟨fun b bound => ok.bound_le bound, fun backfills salt _ => ok.covers backfills salt⟩

end

end SeSqlite.Wal.Protocol
