/- source: src/wal.c
   digest: Each step of a connection, as long as no checkpoint is late, keeps the invariant. -/
import SeSqlite.Wal.Invariant

set_option autoImplicit false
set_option relaxedAutoImplicit false

namespace SeSqlite.Wal.Protocol

open Wal.Index List Bool

section

variable {α : Type} {g g' : Shared α} {d : Conn α} {hdr : Hdr}

theorem Reads.steady {readLock : Nat} (reads : Reads g d readLock) (steady : Steady g g')
    (copied : Copied g' d.hdr d.snapshot)
    (mark : g'.aReadMark readLock = g.aReadMark readLock) : Reads g' d readLock where
  copied := copied
  lt := reads.lt
  flushed := fun zero salt => by
    rw [steady.nBackfill]
    exact reads.flushed zero (salt.trans steady.salt)
  file := fun zero => (reads.file zero).steady steady (Nat.zero_le _)
  salt := fun some_log => (reads.salt some_log).trans steady.salt.symm
  mark := fun some_log => by
    rw [mark]
    exact reads.mark some_log
  log := fun some_log =>
    (reads.log some_log).steady steady (reads.copied.le (reads.salt some_log))

theorem transfers_of_steady (steady : Steady g g') (hdr : g'.hdr = g.hdr)
    (image : g'.image = g.image) (index : d.writeLock = true → g'.index = g.index)
    (mark : ∀ k, d.pc.shares k = true → g'.aReadMark k = g.aReadMark k) : Transfers g g' d := by
  have copied : Copied g d.hdr d.snapshot → Copied g' d.hdr d.snapshot := fun copied =>
    copied.congr hdr image steady.pending steady.pages
  exact {
    copied := copied
    current := fun _ current => current.trans hdr.symm
    flushed := fun _ flushed salt => by
      rw [steady.nBackfill]
      exact flushed (salt.trans steady.salt)
    mark := mark
    reads := fun k _ shares reads => reads.steady steady (copied reads.copied) (mark k shares)
    writes := fun k shares writes => {
      lock := writes.lock
      lt := writes.lt
      salt := writes.salt.trans steady.salt.symm
      snapshot := writes.snapshot.trans image.symm
      current := fun zero => (writes.current zero).trans hdr.symm
      level := fun zero => by
        rw [index writes.lock, hdr]
        exact writes.level zero
      flushed := fun zero => by
        rw [steady.nBackfill, hdr]
        exact writes.flushed zero
      mark := fun some_log => by
        rw [mark k shares, hdr]
        exact writes.mark some_log }
    active := fun _ _ => steady }

theorem Copied.commit {snapshot : Nat → α} (copied : Copied g hdr snapshot) (steady : Steady g g')
    (grows : g.hdr.mxFrame < g'.hdr.mxFrame) (covers : Covers g' g.hdr g'.hdr) :
    Copied g' hdr snapshot := by
  have old : hdr.aSalt = g'.hdr.aSalt → hdr.mxFrame ≤ g.hdr.mxFrame := fun salt =>
    copied.le (salt.trans steady.salt)
  refine ⟨by rw [steady.salt]; exact copied.salt_le, fun same => ?_, fun salt => ?_,
    fun salt same => ?_, fun salt p behind page => ?_⟩
  · have le := old (by rw [same])
    rw [same] at le
    omega
  · omega
  · omega
  · by_cases added : p ≤ g.hdr.nPage
    · have page' : DataPage g g.hdr.nPage p := by
        rw [← dataPage_congr steady.pending]
        exact ⟨page.1, added, page.2.2⟩
      have before := copied.covers (salt.trans steady.salt) p behind page'
      have le := linearScan_le g.index.pages p g.hdr.mxFrame
      have same := steady.scan le_rfl p
      have mono := linearScan_mono g'.index.pages p g.hdr.mxFrame g'.hdr.mxFrame (by omega)
      omega
    · have new := covers p (by omega) page
      omega

theorem transfers_of_commit (steady : Steady g g') (grows : g.hdr.mxFrame < g'.hdr.mxFrame)
    (covers : Covers g' g.hdr g'.hdr) (other : d.writeLock = false)
    (mark : g'.aReadMark = g.aReadMark) : Transfers g g' d where
  copied := fun copied => copied.commit steady grows covers
  current := fun lock => absurd (other.symm.trans lock) false_ne_true
  flushed := fun _ flushed salt => by
    rw [steady.nBackfill]
    exact flushed (salt.trans steady.salt)
  mark := fun k _ => by rw [mark]
  reads := fun k _ _ reads =>
    reads.steady steady (reads.copied.commit steady grows covers) (by rw [mark])
  writes := fun _ _ writes => absurd (other.symm.trans writes.lock) false_ne_true
  active := fun _ _ => steady

theorem LocalOk.shares_lt (ok : LocalOk g d) {k : Nat} (shares : d.pc.shares k = true) :
    k < walNreader := by
  cases pc : d.pc <;> rw [pc] at shares <;>
    simp only [Pc.shares, false_eq_true, decide_eq_true_eq] at shares <;>
    simp only [LocalOk, pc] at ok <;> subst shares
  case locked0 => decide
  case joined => exact ok.2.2.1
  case compared => exact ok.2.2.1
  case reading => exact ok.lt
  case checking => exact ok.1.lt
  case writing => exact ok.lt
  case leaving => decide

theorem transfers_of_restart (salt : hdr.aSalt = g.hdr.aSalt + 1)
    (flushed : g.nBackfill = g.hdr.mxFrame) (ok : LocalOk g d) (other : d.writeLock = false)
    (free : ∀ k, k ≠ 0 → k < walNreader → d.pc.shares k = false) :
    Transfers g (g.walRestartLog hdr) d := by
  have zero : ∀ k, d.pc.shares k = true → k = 0 := by
    intro k shares
    by_contra some_log
    exact absurd ((free k some_log (ok.shares_lt shares)).symm.trans shares) false_ne_true
  have copied : Copied g d.hdr d.snapshot → Copied (g.walRestartLog hdr) d.hdr d.snapshot := by
    intro copied
    have older : ¬ d.hdr.aSalt = hdr.aSalt := by
      have le := copied.salt_le
      omega
    refine ⟨?_, fun same => ?_, fun same => absurd same older, fun same => absurd same older,
      fun same => absurd same older⟩
    · change d.hdr.aSalt ≤ hdr.aSalt
      have le := copied.salt_le
      omega
    · exact absurd (congrArg Hdr.aSalt same) older
  exact {
    copied := copied
    current := fun lock => absurd (other.symm.trans lock) false_ne_true
    flushed := fun old _ same => by
      change d.hdr.aSalt = hdr.aSalt at same
      have le := old.salt_le
      omega
    mark := fun k shares => by
      obtain rfl := zero k shares
      rfl
    reads := fun k _ shares reads => by
      obtain rfl := zero k shares
      refine ⟨copied reads.copied, reads.lt, fun _ same => ?_, fun _ => reads.file rfl,
        fun other => absurd rfl other, fun other => absurd rfl other,
        fun other => absurd rfl other⟩
      change d.hdr.aSalt = hdr.aSalt at same
      have le := reads.copied.salt_le
      omega
    writes := fun _ _ writes => absurd (other.symm.trans writes.lock) false_ne_true
    active := fun _ active => by
      have le := active.le
      have lt := active.lt
      omega }

theorem transfers_of_db {db : DbFile α} (other : d.pc.checkpoints = false)
    (free : d.pc.shares 0 = false) (sees : ∀ k, d.pc.reader = some k → k ≠ 0 → Reads g d k →
      Sees { g with db := db } d.hdr.mxFrame d.hdr.nPage d.snapshot) :
    Transfers g { g with db := db } d where
  copied := fun copied => copied.congr rfl rfl rfl rfl
  current := fun _ current => current
  flushed := fun _ flushed => flushed
  mark := fun _ _ => rfl
  reads := fun k reader shares reads => by
    have some_log : k ≠ 0 := by
      rintro rfl
      exact absurd (free.symm.trans shares) false_ne_true
    exact {
      copied := reads.copied.congr rfl rfl rfl rfl
      lt := reads.lt
      flushed := fun zero => absurd zero some_log
      file := fun zero => absurd zero some_log
      salt := reads.salt
      mark := reads.mark
      log := fun _ => sees k reader some_log reads }
  writes := fun _ _ writes => {
    lock := writes.lock
    lt := writes.lt
    salt := writes.salt
    snapshot := writes.snapshot
    current := writes.current
    level := writes.level
    flushed := writes.flushed
    mark := writes.mark }
  active := fun ckpt => absurd (other.symm.trans ckpt) false_ne_true

theorem transfers_of_store {mxSafeFrame : Nat} (le : g.nBackfill ≤ mxSafeFrame)
    (other : d.pc.checkpoints = false) (free : d.pc.shares 0 = false) :
    Transfers g { g with nBackfill := mxSafeFrame } d := by
  have some_log : ∀ k, d.pc.shares k = true → k ≠ 0 := by
    rintro k shares rfl
    exact absurd (free.symm.trans shares) false_ne_true
  exact {
    copied := fun copied => copied.congr rfl rfl rfl rfl
    current := fun _ current => current
    flushed := fun _ flushed salt => Nat.le_trans (flushed salt) le
    mark := fun _ _ => rfl
    reads := fun k _ shares reads => {
      copied := reads.copied.congr rfl rfl rfl rfl
      lt := reads.lt
      flushed := fun zero => absurd zero (some_log k shares)
      file := fun zero => absurd zero (some_log k shares)
      salt := reads.salt
      mark := reads.mark
      log := reads.log }
    writes := fun k shares writes => {
      lock := writes.lock
      lt := writes.lt
      salt := writes.salt
      snapshot := writes.snapshot
      current := writes.current
      level := writes.level
      flushed := fun zero => absurd zero (some_log k shares)
      mark := writes.mark }
    active := fun ckpt => absurd (other.symm.trans ckpt) false_ne_true }

end

/-- The writer works on the index behind the committed frames. -/
structure IndexMove (index index' : Index.State) : Prop where
  inv : index'.Inv
  shared : index'.shared = index.shared
  pages : index'.pages.take index.shared = index.pages.take index.shared
  sub : ∀ p ∈ index'.pages, p ∈ index.pages

section

variable {index : Index.State} (inv : index.Inv)

include inv

private theorem indexMove_of_step (op : Index.Op) {index' : Index.State}
    (eq : index.step op = some index') (other : op.isRestart = false)
    (shared : index'.shared = index.shared) (sub : ∀ p ∈ index'.pages, p ∈ index.pages) :
    IndexMove index index' := by
  obtain ⟨t, eq', inv', extends_⟩ := step_spec inv op
  cases eq'.symm.trans eq
  exact ⟨inv', shared, (extends_ other).2, sub⟩

theorem indexMove_begin : IndexMove index (index.begin 0) :=
  indexMove_of_step inv (.begin 0) rfl rfl rfl fun _ => mem_of_mem_take

theorem indexMove_frames : IndexMove index index.frames :=
  indexMove_of_step inv (.frames) rfl rfl rfl fun _ => mem_of_mem_take

theorem indexMove_spill : IndexMove index (index.finish false) :=
  indexMove_of_step inv (.finish false) rfl rfl rfl fun _ => id

theorem indexMove_undo : IndexMove index index.sqlite3WalUndo :=
  indexMove_of_step inv (.undo) rfl rfl rfl fun _ => mem_of_mem_take

theorem indexMove_savepoint : IndexMove index index.sqlite3WalSavepoint :=
  indexMove_of_step inv (.savepoint) rfl rfl rfl fun _ => id

theorem indexMove_savepointUndo (i : Nat) : IndexMove index (index.sqlite3WalSavepointUndo i) := by
  obtain ⟨frame, aWalData, -, -, eq | ⟨-, eq⟩⟩ := sqlite3WalSavepointUndo_cases inv i
  · exact indexMove_of_step inv (.savepointUndo i) rfl rfl (by rw [eq])
      fun p member => by rwa [eq] at member
  · refine indexMove_of_step inv (.savepointUndo i) rfl rfl (by rw [eq]) fun p member => ?_
    rw [eq] at member
    exact mem_of_mem_take member

end

section

variable {α : Type} {g : Shared α}

theorem SharedOk.setMark (ok : SharedOk g) (i mark : Nat) : SharedOk (g.setMark i mark) :=
  ⟨ok.index, ok.committed, ok.written, ok.nBackfill_le, ok.logged, ok.backfilled, ok.size⟩

variable {index : Index.State}

theorem steady_of_index {log : Nat → α}
    (pages : index.pages.take g.hdr.mxFrame = g.index.pages.take g.hdr.mxFrame)
    (kept : ∀ f ≤ g.hdr.mxFrame, log f = g.log f) :
    Steady g { g with index := index, log := log } :=
  ⟨rfl, le_rfl, fun _ => rfl, pages, kept, rfl, rfl, rfl⟩

theorem SharedOk.index_log (ok : SharedOk g) (log : Nat → α) (inv : index.Inv)
    (shared : index.shared = g.index.shared)
    (pages : index.pages.take g.hdr.mxFrame = g.index.pages.take g.hdr.mxFrame)
    (written : ∀ p ∈ index.pages, 0 < p ∧ p ≠ g.pendingBytePage)
    (kept : ∀ f ≤ g.hdr.mxFrame, log f = g.log f) :
    SharedOk { g with index := index, log := log } := by
  have steady := steady_of_index pages kept
  have scan := steady.scan le_rfl
  refine ⟨inv, shared.trans ok.committed, written, ok.nBackfill_le, fun p page found => ?_,
    fun p page old => ?_, ok.size⟩
  · change log (linearScan index.pages p g.hdr.mxFrame) = g.image p
    rw [scan] at found ⊢
    rw [kept _ (linearScan_le _ _ _)]
    exact ok.logged p page found
  · rw [scan] at old
    exact ok.backfilled p page old

theorem SharedOk.index_move (ok : SharedOk g) (move : IndexMove g.index index) :
    SharedOk { g with index := index } :=
  ok.index_log g.log move.inv move.shared (ok.committed ▸ move.pages)
    (fun p member => ok.written p (move.sub p member)) fun _ _ => rfl

theorem SharedOk.le_iFrame (ok : SharedOk g) : g.hdr.mxFrame ≤ g.index.iFrame := by
  rw [← ok.committed]
  exact ok.index.committed.trans ok.index.indexed.le

theorem SharedOk.sees (ok : SharedOk g) : Sees g g.hdr.mxFrame g.hdr.nPage g.image :=
  fun p page => ⟨fun zero => ok.backfilled p page (by omega), ok.logged p page⟩

theorem SharedOk.sees_file (ok : SharedOk g) (all : g.nBackfill = g.hdr.mxFrame) :
    Sees g 0 g.hdr.nPage g.image := by
  intro p page
  have le := linearScan_le g.index.pages p g.hdr.mxFrame
  exact ⟨fun _ => ok.backfilled p page (by omega), fun found => absurd rfl found⟩

theorem SharedOk.restart (ok : SharedOk g) (all : g.nBackfill = g.hdr.mxFrame) {hdr : Hdr}
    (mxFrame : hdr.mxFrame = 0) (nPage : hdr.nPage = g.hdr.nPage) :
    SharedOk (g.walRestartLog hdr) := by
  have file := ok.sees_file all
  refine ⟨ok.index.restart, mxFrame.symm, fun p member => absurd member not_mem_nil,
    Nat.zero_le _, fun p page found => ?_, fun p page _ => ?_, fun _ => ?_⟩
  · exact absurd (linearScan_eq_zero not_mem_nil) found
  · change DataPage g hdr.nPage p at page
    rw [nPage] at page
    exact (file p page).1 rfl
  · exact (ok.size all).trans nPage.symm

variable {pgno nTruncate : Nat} {c : Conn α}

theorem appendFrame_spec (ok : SharedOk g) (positive : 0 < pgno) (content : α) :
    ∃ mem, appendFrame g pgno content = { g with
      index := { g.index with mem := mem, iFrame := g.index.iFrame + 1,
                              pages := g.index.pages ++ [pgno] }
      log := Function.update g.log (g.index.iFrame + 1) content } ∧
    { g.index with mem := mem, iFrame := g.index.iFrame + 1,
                   pages := g.index.pages ++ [pgno] : Index.State }.Inv := by
  obtain ⟨mem, eq, inv⟩ := ok.index.append positive
  exact ⟨mem, by rw [appendFrame, eq], inv⟩

theorem steady_append (ok : SharedOk g) (positive : 0 < pgno) (content : α) :
    Steady g (appendFrame g pgno content) := by
  obtain ⟨mem, eq, -⟩ := appendFrame_spec ok positive content
  have le := ok.le_iFrame
  rw [eq]
  refine steady_of_index ?_ fun f inside => Function.update_of_ne (by omega) _ _
  exact take_append_of_le_length (by rw [ok.index.indexed.length]; exact le)

theorem SharedOk.append (ok : SharedOk g) (positive : 0 < pgno)
    (notPending : pgno ≠ g.pendingBytePage) (content : α) :
    SharedOk (appendFrame g pgno content) := by
  obtain ⟨mem, eq, inv⟩ := appendFrame_spec ok positive content
  have steady := steady_append ok positive content
  rw [eq] at steady ⊢
  refine ok.index_log _ inv rfl steady.pages (fun p member => ?_) steady.log
  rcases mem_append.mp member with old | new
  · exact ok.written p old
  · obtain rfl := mem_singleton.mp new
    exact ⟨positive, notPending⟩

theorem steady_commit (ok : SharedOk g) (commits : Commits g nTruncate)
    (salt : c.hdr.aSalt = g.hdr.aSalt) : Steady g (commit g c nTruncate).2 ∧
      g.hdr.mxFrame < (commit g c nTruncate).2.hdr.mxFrame ∧
      Covers (commit g c nTruncate).2 g.hdr (commit g c nTruncate).2.hdr := by
  have le := ok.index.committed
  have committed := ok.committed
  have grows : g.hdr.mxFrame < g.index.iFrame := by
    have more := commits.1
    omega
  refine ⟨⟨salt, grows.le, fun same => ?_, rfl, fun _ _ => rfl, rfl, rfl, rfl⟩, grows,
    fun p behind page => ?_⟩
  · change g.index.iFrame = g.hdr.mxFrame at same
    omega
  · refine commits.2.2.2 p (mem_range.mpr ?_) behind page.2.2
    exact Nat.lt_succ_of_le page.2.1

theorem SharedOk.commit (ok : SharedOk g) (commits : Commits g nTruncate)
    (salt : c.hdr.aSalt = g.hdr.aSalt) : SharedOk (commit g c nTruncate).2 := by
  obtain ⟨steady, grows, covers⟩ := steady_commit ok commits salt
  -- a page whose last frame was there before was a page of the database before
  have before : ∀ p, DataPage g nTruncate p →
      linearScan g.index.pages p g.index.iFrame ≤ g.hdr.mxFrame →
      DataPage g g.hdr.nPage p ∧ linearScan g.index.pages p g.hdr.mxFrame =
        linearScan g.index.pages p g.index.iFrame := by
    intro p page old
    refine ⟨⟨page.1, ?_, page.2.2⟩, linearScan_eq_of_le ok.le_iFrame old⟩
    by_contra added
    have new : g.hdr.mxFrame < linearScan g.index.pages p g.index.iFrame :=
      covers p (Nat.lt_of_not_le added) page
    omega
  refine ⟨ok.index.finish true, rfl, ok.written, ?_, fun p page found => ?_,
    fun p page old => ?_, fun all => ?_⟩
  · exact ok.nBackfill_le.trans grows.le
  · change linearScan g.index.pages p g.index.iFrame ≠ 0 at found
    change g.log (linearScan g.index.pages p g.index.iFrame) = g.committed p
    rw [Shared.committed]
    split
    · rfl
    · rename_i not_new
      obtain ⟨page', same⟩ := before p page (Nat.le_of_not_lt not_new)
      rw [← same] at found ⊢
      exact ok.logged p page' found
  · change linearScan g.index.pages p g.index.iFrame ≤ g.nBackfill at old
    have le := old.trans ok.nBackfill_le
    obtain ⟨page', same⟩ := before p page le
    change g.db.Holds p (g.committed p)
    rw [Shared.committed, if_neg le.not_gt]
    exact ok.backfilled p page' (by rw [same]; exact old)
  · have le := ok.nBackfill_le
    have all' : g.nBackfill = (Protocol.commit g c nTruncate).2.hdr.mxFrame := all
    omega

variable {c d : Conn α} {mxSafeFrame : Nat}

theorem Working.length (working : Working g c mxSafeFrame) (ok : SharedOk g) :
    c.aPgno.length = c.hdr.mxFrame := by
  have le := working.toActive.le.trans ok.le_iFrame
  rw [working.aPgno, length_take, ok.index.indexed.length]
  omega

theorem Working.scan (working : Working g c mxSafeFrame) (ok : SharedOk g) (p : Nat) :
    linearScan c.aPgno p c.aPgno.length = linearScan g.index.pages p c.hdr.mxFrame := by
  rw [working.length ok, working.aPgno, linearScan_take le_rfl]

/-- A page with a frame that may be copied. -/
def ToCopy (g : Shared α) (c : Conn α) (mxSafeFrame p : Nat) : Prop :=
  p ≤ c.hdr.nPage ∧ g.nBackfill < linearScan g.index.pages p c.hdr.mxFrame ∧
    linearScan g.index.pages p c.hdr.mxFrame ≤ mxSafeFrame

theorem SharedOk.store (ok : SharedOk g) (working : Working g c mxSafeFrame)
    (done : ∀ p, CopiedPage g c mxSafeFrame p)
    (size : mxSafeFrame = g.hdr.mxFrame → g.db.size = g.hdr.nPage) :
    SharedOk { g with nBackfill := mxSafeFrame } := by
  have le := working.toActive.le
  have safe := working.safe
  refine ⟨ok.index, ok.committed, ok.written, safe.trans le, ok.logged, fun p page old => ?_,
    size⟩
  change linearScan g.index.pages p g.hdr.mxFrame ≤ mxSafeFrame at old
  by_cases before : linearScan g.index.pages p g.hdr.mxFrame ≤ g.nBackfill
  · exact ok.backfilled p page before
  · have same : linearScan g.index.pages p c.hdr.mxFrame =
        linearScan g.index.pages p g.hdr.mxFrame :=
      linearScan_eq_of_le le (by omega)
    have inside : p ≤ c.hdr.nPage := by
      by_contra added
      have new := working.copied.covers working.salt p (Nat.lt_of_not_le added) page
      omega
    have holds := done p inside (by omega) (by omega)
    rw [same, ok.logged p page (by omega)] at holds
    exact holds

variable [Inhabited α] {k : Nat}

theorem SharedOk.write (ok : SharedOk g) (working : Working g c mxSafeFrame) {p : Nat}
    (copy : ToCopy g c mxSafeFrame p) (content : α) :
    SharedOk { g with db := g.db.write p content } := by
  have le := working.toActive.le
  have lt := working.lt
  refine ⟨ok.index, ok.committed, ok.written, ok.nBackfill_le, ok.logged, fun q page old => ?_,
    fun all => ?_⟩
  · have other : q ≠ p := by
      rintro rfl
      have newer := linearScan_mono g.index.pages q c.hdr.mxFrame g.hdr.mxFrame
        (Nat.le_trans (linearScan_le _ _ _) le)
      have behind := copy.2.1
      change linearScan g.index.pages q g.hdr.mxFrame ≤ g.nBackfill at old
      omega
    exact (ok.backfilled q page old).write other
  · change g.nBackfill = g.hdr.mxFrame at all
    omega

theorem Reads.write {p : Nat} (reads : Reads g d k) (some_log : k ≠ 0)
    (copy : ToCopy g c mxSafeFrame p) (safe : mxSafeFrame ≤ d.hdr.mxFrame) (content : α) :
    Sees { g with db := g.db.write p content } d.hdr.mxFrame d.hdr.nPage d.snapshot := by
  intro q page
  obtain ⟨file, log⟩ := reads.log some_log q page
  refine ⟨fun zero => (file zero).write ?_, log⟩
  rintro rfl
  have found := linearScan_mono g.index.pages q c.hdr.mxFrame d.hdr.mxFrame
    (copy.2.2.trans safe)
  have behind := copy.2.1
  change linearScan g.index.pages q d.hdr.mxFrame = 0 at zero
  omega

theorem SharedOk.truncate (ok : SharedOk g) (active : Active g c) :
    SharedOk { g with db := g.db.truncate c.hdr.nPage } := by
  have le := active.le
  have lt := active.lt
  refine ⟨ok.index, ok.committed, ok.written, ok.nBackfill_le, ok.logged, fun p page old => ?_,
    fun all => ?_⟩
  · refine (ok.backfilled p page old).truncate ?_
    by_contra added
    have new := active.copied.covers active.salt p (Nat.lt_of_not_le added) page
    change linearScan g.index.pages p g.hdr.mxFrame ≤ g.nBackfill at old
    omega
  · change g.nBackfill = g.hdr.mxFrame at all
    omega

theorem Reads.truncate (reads : Reads g d k) (some_log : k ≠ 0) (covers : Covers g c.hdr d.hdr) :
    Sees { g with db := g.db.truncate c.hdr.nPage } d.hdr.mxFrame d.hdr.nPage d.snapshot := by
  intro p page
  obtain ⟨file, log⟩ := reads.log some_log p page
  refine ⟨fun zero => (file zero).truncate ?_, log⟩
  by_contra added
  have new := covers p (Nat.lt_of_not_le added) page
  change linearScan g.index.pages p d.hdr.mxFrame = 0 at zero
  omega

end

end SeSqlite.Wal.Protocol
