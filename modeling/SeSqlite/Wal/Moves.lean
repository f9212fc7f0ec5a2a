/- source: src/wal.c
   digest: The invariant is kept by every connection wherever it is. -/
import SeSqlite.Wal.Steps

set_option autoImplicit false
set_option relaxedAutoImplicit false

namespace SeSqlite.Wal.Protocol

open Lib.Threads Wal.Index Function Option Bool Pc State

private theorem Pc.eases_ckpt {pc pc' : Pc} (late : pc' = .ckAfter ∨ pc' = .ckDone)
    (ckpt : pc.checkpoints = true) : pc.Eases pc' := by
  rcases late with rfl | rfl <;>
    constructor <;> simp [owns, shares, bound, backfills, reader, ckpt]

private theorem Pc.of_backfills {pc : Pc} (backfills : pc.backfills = true) :
    pc.checkpoints = true ∧ pc.reader = none := by
  cases pc <;> simp_all [Pc.backfills, checkpoints, reader]

-- a move of a connection is a comparison of what its two places hold
attribute [local simp] Pc.owns Pc.shares Pc.checkpoints Pc.bound Pc.backfills Pc.reader

variable {α : Type} {n k : Nat} {g : Shared α} {c : Conn α} {pc : Pc} {s : State n α} {i : Fin n}

private theorem Pc.eases_idle (pc : Pc) : pc.Eases .idle := by
  constructor <;> simp

private theorem Pc.eases_scan (pc : Pc) (i mxReadMark mxI : Nat) :
    pc.Eases (.scan i mxReadMark mxI) := by
  constructor <;> simp

private theorem Pc.eases_raise (pc : Pc) (i mxReadMark mxI : Nat) :
    pc.Eases (.raise i mxReadMark mxI) := by
  constructor <;> simp

private theorem Pc.eases_join (pc : Pc) (mxI mxReadMark : Nat) :
    pc.Eases (.join mxI mxReadMark) := by
  constructor <;> simp

/-- The next place holds locks of its own: exclusive ones in `own`, shared ones in `share`. -/
structure Pc.Gains (pc pc' : Pc) (own share : Nat → Prop) : Prop where
  owns : ∀ k, pc'.owns k = true → own k
  shares : ∀ k, pc'.shares k = true → share k
  ckpt : pc'.checkpoints = true → pc.checkpoints = true
  bound : ∀ k b, k ≠ 0 → pc'.bound k = some b → pc.bound k = some b
  backfills : pc'.backfills = true → pc.backfills = true
  reader : ∀ k, pc'.reader ≠ some k

private theorem moves_of_gains {d : Conn α} (own share : Nat → Prop)
    (gains : c.pc.Gains pc own share)
    (freeOwn : ∀ k, own k → d.pc.owns k = false ∧ d.pc.shares k = false)
    (freeShare : ∀ k, share k → d.pc.owns k = false) : Moves g c (c.goto pc) d where
  owns := fun k owns => .inr (freeOwn k (gains.owns k owns))
  shares := fun k shares => .inr (freeShare k (gains.shares k shares))
  write := .inl
  ckpt := fun ckpt => .inl (gains.ckpt ckpt)
  bound := fun k b _ some_log bound => .inl (gains.bound k b some_log bound)
  backfills := fun backfills => .inl ⟨gains.backfills backfills, rfl⟩
  reader := fun k reader => absurd reader (gains.reader k)

private theorem Begins.goto (begins : Begins g c) (pc : Pc) : Begins g (c.goto pc) :=
  ⟨begins.copied, begins.current⟩

private theorem Active.goto (active : Active g c) (pc : Pc) : Active g (c.goto pc) :=
  ⟨active.copied, active.salt, active.lt⟩

private theorem Working.goto {mxSafeFrame : Nat} (working : Working g c mxSafeFrame) (pc : Pc) :
    Working g (c.goto pc) mxSafeFrame :=
  ⟨working.toActive.goto pc, working.aPgno, working.safe⟩

private theorem LocalOk.retry (begins : Begins g c) : LocalOk g c.retry := by
  rw [Conn.retry]
  split
  · exact ⟨begins.goto _, Nat.zero_le _, by decide⟩
  · trivial

private theorem Conn.retry_eases (c : Conn α) : c.pc.Eases c.retry.pc := by
  rw [Conn.retry]
  split
  · exact eases_scan _ _ _ _
  · exact eases_idle _

private theorem Begins.snapshot (begins : Begins g c) (current : g.hdr = c.hdr) :
    c.snapshot = g.image :=
  begins.copied.same current.symm

private theorem steady_setMark (g : Shared α) (k mark : Nat) : Steady g (g.setMark k mark) :=
  ⟨rfl, le_rfl, fun _ => rfl, rfl, fun _ _ => rfl, rfl, rfl, rfl⟩

theorem Reads.start {g : Shared α} (ok : SharedOk g) (current : c.hdr = g.hdr)
    (snapshot : c.snapshot = g.image) (lt : k < walNreader)
    (flushed : k = 0 → g.nBackfill = g.hdr.mxFrame) (mark : k ≠ 0 → g.aReadMark k ≤ g.hdr.mxFrame) :
    Reads g c k where
  copied := by
    rw [current, snapshot]
    exact copied_self g
  lt := lt
  flushed := fun zero _ => by
    rw [current, flushed zero]
  file := fun zero => by
    rw [current, snapshot]
    exact ok.sees_file (flushed zero)
  salt := fun _ => by rw [current]
  mark := fun some_log => by
    rw [current]
    exact mark some_log
  log := fun _ => by
    rw [current, snapshot]
    exact ok.sees

def Inv (s : State n α) : Prop := Invariant SharedOk LocalOk PairOk s.shared s.conn

variable {d : Fin n} (inv : Inv s)

private theorem free_own (free : (s.free i).own k = true) (other : d ≠ i) :
    (s.conn d).pc.owns k = false ∧ (s.conn d).pc.shares k = false :=
  of_decide_eq_true free d other

private theorem free_share (free : (s.free i).share k = true) (other : d ≠ i) :
    (s.conn d).pc.owns k = false :=
  of_decide_eq_true free d other

private theorem free_write (free : (s.free i).write = true) (other : d ≠ i) :
    (s.conn d).writeLock = false :=
  of_decide_eq_true free d other

private theorem free_ckpt (free : (s.free i).ckpt = true) (other : d ≠ i) :
    (s.conn d).pc.checkpoints = false :=
  of_decide_eq_true free d other

private theorem free_ownAll (free : (s.free i).ownAll = true) (some_log : k ≠ 0)
    (lt : k < walNreader) :
    (s.free i).own k = true := by
  rw [Free.ownAll, List.all_eq_true] at free
  simpa [some_log] using free k (List.mem_range.mpr lt)

section

include inv

variable {j : Fin n}

private theorem Inv.quiet (own : LocalOk s.shared c)
    (moves : ∀ d, d ≠ i → Moves s.shared (s.conn i) c (s.conn d)) :
    Inv ⟨s.shared, update s.conn i c⟩ :=
  inv.moveQuietly i own fun d other =>
    ⟨(moves d other).left (inv.pair i d other.symm), (moves d other).right (inv.pair d i other)⟩

private theorem Inv.goto (own : LocalOk s.shared ((s.conn i).goto pc))
    (eases : (s.conn i).pc.Eases pc) :
    Inv ⟨s.shared, update s.conn i ((s.conn i).goto pc)⟩ :=
  inv.quiet own fun _ _ => moves_of_eases eases rfl .inl

private theorem Inv.retry (begins : Begins s.shared (s.conn i)) :
    Inv ⟨s.shared, update s.conn i (s.conn i).retry⟩ :=
  inv.goto (LocalOk.retry begins) (s.conn i).retry_eases

private theorem Inv.change (common : SharedOk g) (own : LocalOk g c)
    (pending : g.pendingBytePage = s.shared.pendingBytePage)
    (kept : ∀ j k, (s.conn j).pc.reader = some k → k ≠ 0 →
      g.index.pages.take (s.conn j).hdr.mxFrame = s.shared.index.pages.take (s.conn j).hdr.mxFrame)
    (transfers : ∀ d, d ≠ i → Transfers s.shared g (s.conn d))
    (moves : ∀ d, d ≠ i → Moves g (s.conn i) c (s.conn d)) : Inv ⟨g, update s.conn i c⟩ := by
  have pairs : ∀ j k, j ≠ k → PairOk g (s.conn j) (s.conn k) := fun j k differ =>
    (inv.pair j k differ).congr pending (kept k)
  refine invariant_update i common own (fun d other => ⟨?_, ?_, ?_⟩) fun j k _ _ => pairs j k
  · exact LocalOk.transfer (transfers d other) (inv.each d)
  · exact (moves d other).left (pairs i d other.symm)
  · exact (moves d other).right (pairs d i other)

private theorem Inv.reads (reader : (s.conn j).pc.reader = some k) :
    Reads s.shared (s.conn j) k := by
  have ok := inv.each j
  cases pc : (s.conn j).pc <;> rw [pc] at reader <;>
    simp only [Pc.reader, reduceCtorEq, Option.some.injEq] at reader <;>
    simp only [LocalOk, pc] at ok <;> subst reader
  case reading => exact ok
  case checking => exact ok.1

private theorem Inv.reader_le (reader : (s.conn j).pc.reader = some k) (some_log : k ≠ 0) :
    (s.conn j).hdr.mxFrame ≤ s.shared.hdr.mxFrame := by
  have reads := inv.reads reader
  exact reads.copied.le (reads.salt some_log)

private theorem Inv.kept (steady : Steady s.shared g) :
    ∀ j k, (s.conn j).pc.reader = some k → k ≠ 0 →
      g.index.pages.take (s.conn j).hdr.mxFrame =
        s.shared.index.pages.take (s.conn j).hdr.mxFrame := by
  intro j k reader some_log
  have cut := congrArg (List.take (s.conn j).hdr.mxFrame) steady.pages
  rwa [List.take_take, List.take_take, Nat.min_eq_left (inv.reader_le reader some_log)] at cut

private theorem Inv.share (own : LocalOk s.shared ((s.conn i).goto pc))
    (gains : (s.conn i).pc.Gains pc (fun _ => False) (· = k)) (free : (s.free i).share k = true) :
    Inv ⟨s.shared, update s.conn i ((s.conn i).goto pc)⟩ :=
  inv.quiet own fun _ other => moves_of_gains _ _ gains (fun _ never => absurd never id)
    fun _ eq => eq ▸ free_share free other

private theorem Inv.own (own : LocalOk s.shared ((s.conn i).goto pc))
    (gains : (s.conn i).pc.Gains pc (· = k) fun _ => False) (free : (s.free i).own k = true) :
    Inv ⟨s.shared, update s.conn i ((s.conn i).goto pc)⟩ :=
  inv.quiet own fun _ other => moves_of_gains _ _ gains (fun _ eq => eq ▸ free_own free other)
    fun _ never => absurd never id

private theorem Inv.setMark {mark : Nat} (owns : (s.conn i).pc.owns k = true)
    (own : LocalOk (s.shared.setMark k mark) ((s.conn i).goto pc))
      (eases : (s.conn i).pc.Eases pc) :
    Inv ⟨s.shared.setMark k mark, update s.conn i ((s.conn i).goto pc)⟩ := by
  have steady := steady_setMark s.shared k mark
  refine inv.change (inv.common.setMark k mark) own rfl (inv.kept steady) (fun d other => ?_)
    fun _ _ => moves_of_eases eases rfl .inl
  refine transfers_of_steady steady rfl rfl (fun _ => rfl) fun j shares => update_of_ne ?_ _ _
  rintro rfl
  have apart := (inv.pair i d other.symm).owns j owns
  exact absurd (apart.2.symm.trans shares) false_ne_true

private theorem Inv.newReader (current : c.hdr = s.shared.hdr) (pc : c.pc = .reading k)
    (shares : (s.conn i).pc.shares k = true)
    (write : c.writeLock = true → (s.conn i).writeLock = true) (own : Reads s.shared c k) :
    Inv ⟨s.shared, update s.conn i c⟩ := by
  refine inv.quiet (by rw [LocalOk, pc]; exact own) fun d _ => {
    owns := fun j owns => by simp [pc] at owns
    shares := fun j holds => .inl ?_
    write := fun lock => .inl (write lock)
    ckpt := fun ckpt => by simp [pc] at ckpt
    bound := fun j b _ _ bound => by simp [pc] at bound
    backfills := fun backfills => by simp [pc] at backfills
    reader := fun j _ _ => .inr ((inv.each d).newReader current j) }
  simp only [pc, Pc.shares, decide_eq_true_eq] at holds
  rwa [holds]

private theorem Inv.pass (k frame : Nat) (works : (s.conn i).pc.backfills = true)
    (own : LocalOk s.shared ((s.conn i).goto pc)) (backfills : pc.backfills = true)
    (owns : ∀ j, pc.owns j = false) (shares : ∀ j, pc.shares j = false)
    (bound : ∀ j b, j ≠ 0 → pc.bound j = some b → (s.conn i).pc.bound j = some b ∨ b = frame ∧
      (j = k ∨ ∃ b', (s.conn i).pc.bound j = some b' ∧ frame ≤ b'))
    (readers : ∀ d, d ≠ i → (s.conn d).pc.reader = some k → k ≠ 0 →
      frame ≤ (s.conn d).hdr.mxFrame) :
    Inv ⟨s.shared, update s.conn i ((s.conn i).goto pc)⟩ := by
  refine inv.quiet own fun d other => {
    owns := fun j holds => absurd ((owns j).symm.trans holds) false_ne_true
    shares := fun j holds => absurd ((shares j).symm.trans holds) false_ne_true
    write := .inl
    ckpt := fun _ => .inl (of_backfills works).1
    bound := fun j b reader some_log here => ?_
    backfills := fun _ => .inl ⟨works, rfl⟩
    reader := fun j here => by
      rw [show ((s.conn i).goto pc).pc = pc from rfl, (of_backfills backfills).2] at here
      exact absurd here (by simp) }
  rcases bound j b some_log here with old | ⟨rfl, rfl | ⟨b', old, le⟩⟩
  · exact .inl old
  · exact .inr (readers d other reader some_log)
  · exact .inr (le.trans ((inv.pair i d other.symm).bound j b' reader some_log old))

private theorem Inv.changeFile {db : DbFile α} (owns : (s.conn i).pc.owns 0 = true)
    (ckpt : (s.conn i).pc.checkpoints = true) (common : SharedOk { s.shared with db := db })
    (own : LocalOk { s.shared with db := db } ((s.conn i).goto pc))
    (sees : ∀ d k, d ≠ i → (s.conn d).pc.reader = some k → k ≠ 0 →
      Sees { s.shared with db := db } (s.conn d).hdr.mxFrame (s.conn d).hdr.nPage
        (s.conn d).snapshot)
    (eases : (s.conn i).pc.Eases pc) :
    Inv ⟨{ s.shared with db := db }, update s.conn i ((s.conn i).goto pc)⟩ := by
  refine inv.change common own rfl (fun _ _ _ _ => rfl) (fun d other => ?_)
    fun _ _ => moves_of_eases eases rfl .inl
  have pair := inv.pair i d other.symm
  exact transfers_of_db (pair.ckpt ckpt) (pair.owns 0 owns).2 fun k reader some_log _ =>
    sees d k other reader some_log

end

section

variable [Inhabited α]

def State.gone (s : State n α) (i : Fin n) : State n α :=
  let r := go (s.free i) s.shared (s.conn i)
  ⟨r.2, update s.conn i r.1⟩

include inv

variable {mxReadMark mxI : Nat}

private theorem Inv.gotHdr (pc : (s.conn i).pc = .gotHdr) : Inv (s.gone i) := by
  have ok := inv.each i
  simp only [LocalOk, pc] at ok
  simp only [gone, go, pc]
  split
  · rename_i all
    refine inv.goto ⟨ok.goto _, fun _ => all.symm.le⟩ ?_
    constructor <;> simp
  · exact inv.goto ⟨ok.goto _, Nat.zero_le _, by decide⟩ (eases_scan _ _ _ _)

private theorem Inv.tested0 (pc : (s.conn i).pc = .tested0) : Inv (s.gone i) := by
  have ok := inv.each i
  simp only [LocalOk, pc] at ok
  simp only [gone, go, pc]
  split
  · rename_i free
    refine inv.share ⟨ok.1.goto _, ok.2⟩ ?_ free
    constructor <;> simp
  · exact inv.goto ⟨ok.1.goto _, Nat.zero_le _, by decide⟩ (eases_scan _ _ _ _)

private theorem Inv.locked0 (pc : (s.conn i).pc = .locked0) : Inv (s.gone i) := by
  have ok := inv.each i
  simp only [LocalOk, pc] at ok
  obtain ⟨begins, flushed⟩ := ok
  simp only [gone, go, pc]
  split
  · rename_i current
    have all : s.shared.nBackfill = s.shared.hdr.mxFrame := by
      have low := flushed (by rw [current])
      have high := inv.common.nBackfill_le
      rw [current] at high ⊢
      omega
    refine inv.goto ?_ ?_
    · refine ⟨begins.copied, by decide, fun _ => flushed, fun _ => ?_,
        fun other => absurd rfl other,
        fun other => absurd rfl other, fun other => absurd rfl other⟩
      change Sees s.shared 0 (s.conn i).hdr.nPage (s.conn i).snapshot
      rw [begins.snapshot current, ← current]
      exact inv.common.sees_file all
    · rw [pc]
      constructor <;> simp
      exact fun k positive zero => absurd zero.symm positive
  · exact inv.retry begins

private theorem Inv.scan (pc : (s.conn i).pc = .scan k mxReadMark mxI) : Inv (s.gone i) := by
  have ok := inv.each i
  simp only [LocalOk, pc] at ok
  obtain ⟨begins, small, lt⟩ := ok
  simp only [gone, go, pc, Conn.scanMark]
  split
  · rename_i inside
    split
    · rename_i better
      exact inv.goto ⟨begins.goto _, better.2, inside⟩ (eases_scan _ _ _ _)
    · exact inv.goto ⟨begins.goto _, small, lt⟩ (eases_scan _ _ _ _)
  · split
    · exact inv.goto ⟨begins.goto _, by decide, small, lt⟩ (eases_raise _ _ _ _)
    · split
      · exact inv.retry begins
      · rename_i some_mark
        exact inv.goto ⟨begins.goto _, some_mark, lt, small⟩ (eases_join _ _ _)

private theorem Inv.raise (pc : (s.conn i).pc = .raise k mxReadMark mxI) : Inv (s.gone i) := by
  have ok := inv.each i
  simp only [LocalOk, pc] at ok
  obtain ⟨begins, positive, small, lt⟩ := ok
  simp only [gone, go, pc, Conn.raiseMark]
  split
  · rename_i inside
    split
    · rename_i free
      refine inv.own ⟨begins.goto _, positive, inside⟩ ?_ free
      constructor <;> simp
    · exact inv.goto ⟨begins.goto _, by omega, small, lt⟩ (eases_raise _ _ _ _)
  · split
    · exact inv.retry begins
    · rename_i some_mark
      exact inv.goto ⟨begins.goto _, some_mark, lt, small⟩ (eases_join _ _ _)

private theorem Inv.raising (pc : (s.conn i).pc = .raising k) : Inv (s.gone i) := by
  have ok := inv.each i
  simp only [LocalOk, pc] at ok
  simp only [gone, go, pc]
  refine inv.setMark (by simp [pc]) ⟨⟨ok.1.copied.congr rfl rfl rfl rfl, ok.1.current⟩, ok.2⟩ ?_
  rw [pc]
  constructor <;> simp

private theorem Inv.raised (pc : (s.conn i).pc = .raised k) : Inv (s.gone i) := by
  have ok := inv.each i
  simp only [LocalOk, pc] at ok
  simp only [gone, go, pc]
  exact inv.goto ⟨ok.1.goto _, ok.2.1, ok.2.2, le_rfl⟩ (eases_join _ _ _)

private theorem Inv.join (pc : (s.conn i).pc = .join mxI mxReadMark) : Inv (s.gone i) := by
  have ok := inv.each i
  simp only [LocalOk, pc] at ok
  simp only [gone, go, pc]
  split
  · rename_i free
    refine inv.share ⟨ok.1.goto _, ok.2⟩ ?_ free
    constructor <;> simp
  · exact inv.retry ok.1

private theorem Inv.joined (pc : (s.conn i).pc = .joined mxI mxReadMark) : Inv (s.gone i) := by
  have ok := inv.each i
  simp only [LocalOk, pc] at ok
  obtain ⟨begins, positive, lt, small⟩ := ok
  simp only [gone, go, pc]
  split
  · rename_i unchanged
    refine inv.goto ⟨begins.goto _, positive, lt, ?_⟩ ?_
    · rw [unchanged]
      exact small
    · rw [pc]
      constructor <;> simp
  · exact inv.retry begins

private theorem Inv.compared (pc : (s.conn i).pc = .compared mxI) : Inv (s.gone i) := by
  have ok := inv.each i
  simp only [LocalOk, pc] at ok
  obtain ⟨begins, positive, lt, mark⟩ := ok
  simp only [gone, go, pc, Conn.accept]
  split
  · rename_i current
    have snapshot := begins.snapshot current
    rw [← current] at mark
    split
    · rename_i lock
      refine inv.goto ⟨lock, lt, by rw [current]; rfl, snapshot, fun zero => absurd zero positive,
        fun zero => absurd zero positive, fun zero => absurd zero positive, fun _ => mark⟩ ?_
      rw [pc]
      constructor <;> simp
    · exact inv.newReader current.symm rfl (by simp [pc]) id
        (Reads.start inv.common current.symm snapshot lt (fun zero => absurd zero positive)
          fun _ => mark)
  · exact inv.retry begins

private theorem Inv.leaving (pc : (s.conn i).pc = .leaving) : Inv (s.gone i) := by
  have ok := inv.each i
  simp only [LocalOk, pc] at ok
  simp only [gone, go, pc]
  exact inv.goto ⟨ok.1.goto _, Nat.zero_le _, by decide⟩ (eases_scan _ _ _ _)

end

section

variable [Inhabited α] {mxSafeFrame : Nat}

include inv

private theorem Inv.lockWrite (pc : (s.conn i).pc = .ckLocked) : Inv (s.gone i) := by
  have eases : ckLocked.Eases .ckReadHdr := by
    constructor <;> simp
  simp only [gone, go, pc, Conn.lockWrite]
  split
  · exact inv.goto trivial (pc ▸ eases)
  · split
    · rename_i free
      exact inv.quiet trivial fun _ other =>
        moves_of_eases (pc ▸ eases) rfl fun _ => .inr (free_write free other)
    · exact inv.quiet trivial fun _ _ => moves_of_eases (pc ▸ eases) rfl .inl

private theorem Inv.readHdr (pc : (s.conn i).pc = .ckReadHdr) : Inv (s.gone i) := by
  simp only [gone, go, pc]
  refine inv.quiet (copied_self s.shared) fun d _ => {
    owns := by simp [Conn.goto]
    shares := by simp [Conn.goto]
    write := .inl
    ckpt := fun _ => .inl (by rw [pc]; rfl)
    bound := by simp [Conn.goto]
    backfills := fun _ => .inr fun k reader some_log salt le p behind page => ?_
    reader := by simp [Conn.goto] }
  -- no reader is ahead of the shared header, and one that is level with it has the same size
  have reads := inv.reads reader
  have same := reads.copied.eq (reads.salt some_log)
    (Nat.le_antisymm (inv.reader_le reader some_log) le)
  rw [same] at page
  exact absurd page.2.1 behind.not_ge

private theorem Inv.test (pc : (s.conn i).pc = .ckTest)
    (inTime : (s.conn i).hdr.aSalt = s.shared.hdr.aSalt) : Inv (s.gone i) := by
  have ok := inv.each i
  simp only [LocalOk, pc] at ok
  simp only [gone, go, pc]
  split
  · exact inv.goto trivial (eases_ckpt (.inr rfl) (by rw [pc]; rfl))
  · rename_i some_left
    refine inv.goto ⟨ok, inTime, Nat.lt_of_not_le some_left⟩ ?_
    rw [pc]
    constructor <;> simp

private theorem Inv.iterInit (pc : (s.conn i).pc = .ckIter) : Inv (s.gone i) := by
  have ok := inv.each i
  simp only [LocalOk, pc] at ok
  simp only [gone, go, pc]
  have all := walIteratorInit_eq inv.common.index (ok.le.trans inv.common.le_iFrame)
  refine inv.quiet ⟨⟨ok.copied, ok.salt, ok.lt⟩, all, le_rfl⟩ fun d _ =>
    moves_of_eases ?_ rfl .inl
  rw [pc]
  constructor <;> simp

private theorem Inv.limitSafe (pc : (s.conn i).pc = .ckLoop k mxSafeFrame) : Inv (s.gone i) := by
  have ok := inv.each i
  simp only [LocalOk, pc] at ok
  have works : (s.conn i).pc.backfills = true := by rw [pc]; rfl
  -- the mark of a lock bounds the readers that hold it
  have marks : ∀ d, (s.conn d).pc.reader = some k → k ≠ 0 →
      s.shared.aReadMark k ≤ (s.conn d).hdr.mxFrame := fun d reader some_log =>
    (inv.reads reader).mark some_log
  simp only [gone, go, pc, Conn.limitSafe]
  split
  · split
    · rename_i more
      refine inv.pass k (s.shared.aReadMark k) works ⟨ok.goto _, more⟩ rfl
        (fun _ => rfl) (fun _ => rfl) (fun j b some_log here => ?_) fun d _ => marks d
      simp only [bound] at here
      rw [pc]
      simp only [bound]
      split at here
      · rename_i before
        rw [if_pos before]
        exact .inl here
      · rw [ite_none_right_eq_some] at here
        exact .inr ⟨(some_inj.mp here.2).symm, .inl here.1⟩
    · rename_i enough
      refine inv.pass k mxSafeFrame works (ok.goto _) rfl (fun _ => rfl)
        (fun _ => rfl) (fun j b some_log here => ?_) fun d _ reader some_log =>
          Nat.le_trans (Nat.le_of_not_lt enough) (marks d reader some_log)
      simp only [bound, ite_none_right_eq_some] at here
      rw [pc]
      simp only [bound]
      by_cases before : j < k
      · rw [if_pos before]
        exact .inl here.2
      · exact .inr ⟨(some_inj.mp here.2).symm, .inl (by omega)⟩
  · split
    · rename_i some_left
      refine inv.quiet ⟨ok.goto _, some_left⟩ fun d other => {
        owns := by simp [Conn.goto]
        shares := by simp [Conn.goto]
        write := .inl
        ckpt := fun _ => .inl (by rw [pc]; rfl)
        bound := fun j b reader some_log here => .inl ?_
        backfills := fun _ => .inl ⟨works, rfl⟩
        reader := by simp [Conn.goto] }
      have lt := (inv.reads reader).lt
      rw [pc]
      simp only [bound]
      rw [if_pos (by omega)]
      exact here
    · exact inv.goto trivial (eases_ckpt (.inl rfl) (by rw [pc]; rfl))

private theorem Inv.lockMark {y : Nat} (pc : (s.conn i).pc = .ckLock k mxSafeFrame y) :
    Inv (s.gone i) := by
  have ok := inv.each i
  simp only [LocalOk, pc] at ok
  have works : (s.conn i).pc.backfills = true := by rw [pc]; rfl
  simp only [gone, go, pc]
  split
  · rename_i free
    refine inv.own (ok.1.goto _) ?_ free
    rw [pc]
    constructor <;> simp
    omega
  · -- the lock is held, so the reader's mark is the limit from now on
    have works' : Working s.shared ((s.conn i).goto (.ckLoop (k + 1) y)) y :=
      ⟨ok.1.toActive.goto _, ok.1.aPgno, Nat.le_trans ok.2.le ok.1.safe⟩
    refine inv.pass k y works works' rfl (fun _ => rfl) (fun _ => rfl)
      (fun j b some_log here => ?_) fun d other reader some_log =>
        (inv.pair i d other.symm).bound k y reader some_log (by simp [pc])
    simp only [bound, ite_none_right_eq_some] at here
    obtain ⟨before, eq⟩ := here
    obtain rfl := some_inj.mp eq
    rw [pc]
    simp only [bound]
    by_cases passed : j < k
    · rw [if_pos passed]
      exact .inr ⟨trivial, .inr ⟨mxSafeFrame, rfl, ok.2.le⟩⟩
    · rw [if_neg passed, if_pos (by omega)]
      exact .inl rfl

private theorem Inv.storeMark (pc : (s.conn i).pc = .ckMark k mxSafeFrame) : Inv (s.gone i) := by
  have ok := inv.each i
  simp only [LocalOk, pc] at ok
  simp only [gone, go, pc]
  have copied : Copied (s.shared.setMark k (if k = 1 then mxSafeFrame else readmarkNotUsed))
      (s.conn i).hdr (s.conn i).snapshot := ok.copied.congr rfl rfl rfl rfl
  refine inv.setMark (by simp [pc]) ((ok.goto _).steady (steady_setMark _ _ _) copied) ?_
  rw [pc]
  constructor <;> simp

private theorem Inv.unlockMark (pc : (s.conn i).pc = .ckMarked k mxSafeFrame) : Inv (s.gone i) := by
  have ok := inv.each i
  simp only [LocalOk, pc] at ok
  have works : (s.conn i).pc.backfills = true := by rw [pc]; rfl
  simp only [gone, go, pc]
  -- nobody can be reading under a lock that this connection has owned until now
  refine inv.pass k mxSafeFrame works (ok.goto _) rfl (fun _ => rfl)
    (fun _ => rfl) (fun j b some_log here => ?_) fun d other reader some_log => ?_
  · simp only [bound, ite_none_right_eq_some] at here
    rw [pc]
    simp only [bound]
    by_cases before : j < k
    · rw [if_pos before]
      exact .inl here.2
    · exact .inr ⟨(some_inj.mp here.2).symm, .inl (by omega)⟩
  · have apart := (inv.pair i d other.symm).owns k (by simp [pc])
    have shares : (s.conn d).pc.shares k = true := by
      cases pc' : (s.conn d).pc <;> rw [pc'] at reader <;>
        simp_all
    exact absurd (apart.2.symm.trans shares) false_ne_true

private theorem Inv.lockZero (pc : (s.conn i).pc = .ckLock0 mxSafeFrame) : Inv (s.gone i) := by
  have ok := inv.each i
  simp only [LocalOk, pc] at ok
  simp only [gone, go, pc]
  split
  · rename_i free
    refine inv.own ⟨ok.1.goto _, ok.2⟩ ?_ free
    rw [pc]
    constructor <;> simp
  · exact inv.goto trivial (eases_ckpt (.inl rfl) (by rw [pc]; rfl))

private theorem Inv.startCopy (pc : (s.conn i).pc = .ckLocked0 mxSafeFrame) : Inv (s.gone i) := by
  have ok := inv.each i
  simp only [LocalOk, pc] at ok
  simp only [gone, go, pc]
  refine inv.goto ⟨⟨ok.1.goto _, ok.2⟩, rfl, fun p le => ?_⟩ ?_
  · -- there is no page 0 in the log
    obtain rfl : p = 0 := Nat.le_zero.mp le
    intro _ some_frame
    have absent : 0 ∉ s.shared.index.pages := fun member =>
      absurd (inv.common.written 0 member).1 (Nat.lt_irrefl 0)
    rw [linearScan_eq_zero absent] at some_frame
    exact absurd some_frame (Nat.not_lt_zero _)
  · rw [pc]
    constructor <;> simp

private theorem Inv.copyPage {nBackfill iPrior : Nat}
    (pc : (s.conn i).pc = .ckCopy mxSafeFrame nBackfill iPrior) : Inv (s.gone i) := by
  have ok := inv.each i
  simp only [LocalOk, pc] at ok
  obtain ⟨⟨works, lt⟩, rfl, done⟩ := ok
  have eases : ∀ p, (s.conn i).pc.Eases (.ckCopy mxSafeFrame s.shared.nBackfill p) := by
    intro p
    rw [pc]
    constructor <;> simp
  simp only [gone, go, pc, Protocol.copyPage]
  cases next : walIteratorNext (s.conn i).aPgno iPrior with
  | none =>
    -- pages behind the last one have no frame
    have all : ∀ p, CopiedPage s.shared (s.conn i) mxSafeFrame p := by
      intro p
      by_cases passed : p ≤ iPrior
      · exact done p passed
      · intro _ some_frame
        have absent : p ∉ (s.conn i).aPgno := fun member =>
          passed (walIteratorNext_none next p member)
        rw [← works.scan inv.common, linearScan_eq_zero absent] at some_frame
        exact absurd some_frame (Nat.not_lt_zero _)
    dsimp only
    split
    · have high := works.toActive.le
      have low := works.safe
      refine inv.goto ⟨⟨works.goto _, lt⟩, (?_ : mxSafeFrame = (s.conn i).hdr.mxFrame), all⟩ ?_
      · omega
      · rw [pc]
        constructor <;>
          simp
    · rename_i not_end
      refine inv.goto ⟨⟨works.goto _, lt⟩, fun at_end => absurd at_end not_end, all⟩ ?_
      rw [pc]
      constructor <;> simp
  | some page =>
    obtain ⟨p, f⟩ := page
    obtain ⟨behind, least, rfl⟩ := walIteratorNext_some next
    rw [works.scan inv.common]
    -- what lies between the last page and this one has no frame
    have between : ∀ q ≤ p, q ≤ iPrior ∨ q = p ∨
        linearScan s.shared.index.pages q (s.conn i).hdr.mxFrame = 0 := by
      intro q le
      by_cases passed : q ≤ iPrior
      · exact .inl passed
      · by_cases here : q = p
        · exact .inr (.inl here)
        · refine .inr (.inr ?_)
          rw [← works.scan inv.common]
          refine linearScan_eq_zero fun member => ?_
          have := least q member (by omega)
          omega
    dsimp only
    split
    · refine inv.goto ⟨⟨works.goto _, lt⟩, rfl, fun q le inside new safe => ?_⟩ (eases p)
      change s.shared.nBackfill < linearScan s.shared.index.pages q (s.conn i).hdr.mxFrame at new
      change linearScan s.shared.index.pages q (s.conn i).hdr.mxFrame ≤ mxSafeFrame at safe
      change q ≤ (s.conn i).hdr.nPage at inside
      rcases between q le with passed | rfl | none_here
      · exact done q passed inside new safe
      · omega
      · omega
    · have copy : ToCopy s.shared (s.conn i) mxSafeFrame p := by
        refine ⟨?_, ?_, ?_⟩ <;> omega
      refine inv.changeFile (by simp [pc]) (by rw [pc]; rfl)
        (inv.common.write works copy _) ?_ (fun d k other reader some_log => ?_) (eases p)
      · refine ⟨⟨⟨⟨works.copied.congr rfl rfl rfl rfl, works.salt, works.lt⟩, works.aPgno,
          works.safe⟩, lt⟩, rfl, fun q le inside new safe => ?_⟩
        change s.shared.nBackfill <
          linearScan s.shared.index.pages q (s.conn i).hdr.mxFrame at new
        rcases between q le with passed | rfl | none_here
        · exact (done q passed inside new safe).write (by omega)
        · exact DbFile.holds_write _ _ _
        · omega
      · exact (inv.reads reader).write some_log copy
          ((inv.pair i d other.symm).bound k mxSafeFrame reader some_log
            (by simp [pc])) _

private theorem Inv.truncate (pc : (s.conn i).pc = .ckTruncate mxSafeFrame) : Inv (s.gone i) := by
  have ok := inv.each i
  simp only [LocalOk, pc] at ok
  obtain ⟨⟨works, lt⟩, at_end, done⟩ := ok
  simp only [gone, go, pc]
  refine inv.changeFile (by simp [pc]) (by rw [pc]; rfl)
    (inv.common.truncate works.toActive) ?_ (fun d k other reader some_log => ?_) ?_
  · refine ⟨⟨⟨⟨works.copied.congr rfl rfl rfl rfl, works.salt, works.lt⟩, works.aPgno,
      works.safe⟩, lt⟩, fun whole => ?_, fun p inside new safe => ?_⟩
    · change mxSafeFrame = s.shared.hdr.mxFrame at whole
      change (s.conn i).hdr.nPage = s.shared.hdr.nPage
      rw [works.copied.eq works.salt (by omega)]
    · exact (done p inside new safe).truncate inside
  · have pair := inv.pair i d other.symm
    have bound := pair.bound k mxSafeFrame reader some_log (by simp [pc])
    have reads := inv.reads reader
    exact reads.truncate some_log (pair.covers k reader some_log (by rw [pc]; rfl)
      (works.salt.trans (reads.salt some_log).symm) (by omega))
  · rw [pc]
    constructor <;> simp

private theorem Inv.store (pc : (s.conn i).pc = .ckStore mxSafeFrame) : Inv (s.gone i) := by
  have ok := inv.each i
  simp only [LocalOk, pc] at ok
  obtain ⟨⟨works, lt⟩, size, done⟩ := ok
  simp only [gone, go, pc]
  refine inv.change (inv.common.store works done size) trivial rfl (fun _ _ _ _ => rfl)
    (fun d other => ?_) fun _ _ => moves_of_eases ?_ rfl .inl
  · have pair := inv.pair i d other.symm
    exact transfers_of_store lt.le (pair.ckpt (by rw [pc]; rfl))
      (pair.owns 0 (by simp [pc])).2
  · rw [pc]
    constructor <;>
      simp [Conn.goto]

private theorem Inv.unlockZero (pc : (s.conn i).pc = .ckStored) : Inv (s.gone i) := by
  simp only [gone, go, pc]
  exact inv.goto trivial (eases_ckpt (.inl rfl) (by rw [pc]; rfl))

private theorem Inv.afterBackfill (pc : (s.conn i).pc = .ckAfter) : Inv (s.gone i) := by
  simp only [gone, go, pc, Conn.afterBackfill]
  split
  · rename_i wait
    refine inv.quiet trivial fun d other => moves_of_gains (fun k => k ≠ 0 ∧ k < walNreader)
      (fun _ => False) ?_ (fun k range => ?_) fun _ never => absurd never id
    · rw [pc]
      constructor <;> simp
      intro k one lt
      exact ⟨by omega, lt⟩
    · exact free_own (free_ownAll wait.2.2 range.1 range.2) other
  · exact inv.goto trivial (eases_ckpt (.inr rfl) (by rw [pc]; rfl))

private theorem Inv.waited (pc : (s.conn i).pc = .ckWaited) : Inv (s.gone i) := by
  simp only [gone, go, pc]
  exact inv.goto trivial (eases_ckpt (.inr rfl) (by rw [pc]; rfl))

end

section

private theorem Pc.eases_refl (pc : Pc) : pc.Eases pc :=
  ⟨fun _ => id, fun _ => id, id, fun _ _ _ => id, id, fun _ _ => id⟩

private theorem Reads.congr {c c' : Conn α} (reads : Reads g c k) (hdr : c'.hdr = c.hdr)
    (snapshot : c'.snapshot = c.snapshot) : Reads g c' k := by
  refine ⟨?_, reads.lt, ?_, ?_, ?_, ?_, ?_⟩ <;> rw [hdr]
  · rw [snapshot]
    exact reads.copied
  · exact reads.flushed
  · rw [snapshot]
    exact reads.file
  · exact reads.salt
  · exact reads.mark
  · rw [snapshot]
    exact reads.log

include inv

private theorem Inv.stay (i : Fin n) : Inv ⟨s.shared, update s.conn i (s.conn i)⟩ := by
  rw [update_eq_self]
  exact inv

private theorem Inv.release : Inv ⟨s.shared, update s.conn i (s.conn i).release⟩ :=
  inv.quiet trivial fun _ _ =>
    moves_of_eases (eases_idle _) rfl fun lock => absurd lock false_ne_true

private theorem Inv.beginRead :
    Inv ⟨s.shared, update s.conn i (((s.conn i).readHdr s.shared).goto .gotHdr)⟩ := by
  refine inv.quiet ⟨copied_self s.shared, fun _ => rfl⟩ fun d _ =>
    moves_of_eases_free ?_ rfl rfl .inl
  constructor <;> simp [Conn.goto]

private theorem Inv.beginWrite (pc : (s.conn i).pc = .reading k) (free : (s.free i).write = true) :
    Inv ⟨s.shared, update s.conn i
      { s.conn i with writeLock := true, pc := .checking k }⟩ := by
  have ok := inv.each i
  simp only [LocalOk, pc] at ok
  have own : Reads s.shared { s.conn i with writeLock := true, pc := .checking k } k :=
    ok.congr rfl rfl
  refine inv.quiet ⟨own, rfl⟩ fun d other =>
    moves_of_eases ?_ rfl fun _ => .inr (free_write free other)
  rw [pc]
  constructor <;> simp

private theorem Inv.notWritten (pc : (s.conn i).pc = .checking k) : Inv ⟨s.shared, update s.conn i
      { s.conn i with writeLock := false, pc := .reading k }⟩ := by
  have ok := inv.each i
  simp only [LocalOk, pc] at ok
  have own : Reads s.shared { s.conn i with writeLock := false, pc := .reading k } k :=
    ok.1.congr rfl rfl
  refine inv.quiet own fun _ _ =>
    moves_of_eases ?_ rfl fun lock => absurd lock false_ne_true
  rw [pc]
  constructor <;> simp

private theorem Inv.writeIndex {c : Conn α} (common : SharedOk g) (steady : Steady s.shared g)
    (hdr : g.hdr = s.shared.hdr) (image : g.image = s.shared.image)
    (marks : g.aReadMark = s.shared.aReadMark) (lock : (s.conn i).writeLock = true)
    (own : LocalOk g c) (eases : (s.conn i).pc.Eases c.pc) (free : c.pc.backfills = false)
    (reader : c.pc.reader = none) : Inv ⟨g, update s.conn i c⟩ := by
  refine inv.change common own steady.pending (inv.kept steady) (fun d other => ?_) fun d other =>
    moves_of_eases_free eases free reader fun _ => .inl lock
  have apart := (inv.pair i d other.symm).write lock
  exact transfers_of_steady steady hdr image
    (fun also => absurd (apart.symm.trans also) false_ne_true) fun _ _ => by rw [marks]

private theorem steady_index {index : Index.State} (move : IndexMove s.shared.index index) :
    Steady s.shared { s.shared with index := index } :=
  steady_of_index (inv.common.committed ▸ move.pages) fun _ _ => rfl

private theorem Inv.checked (pc : (s.conn i).pc = .checking k)
    (current : (s.conn i).hdr = s.shared.hdr) :
    Inv ⟨{ s.shared with index := s.shared.index.begin 0 },
      update s.conn i ((s.conn i).goto (.writing k))⟩ := by
  have ok := inv.each i
  simp only [LocalOk, pc] at ok
  obtain ⟨ok, lock⟩ := ok
  have move := indexMove_begin inv.common.index
  have all : k = 0 → s.shared.nBackfill = s.shared.hdr.mxFrame := by
    intro zero
    have low := ok.flushed zero (by rw [current])
    have high := inv.common.nBackfill_le
    rw [current] at low
    omega
  refine inv.writeIndex (inv.common.index_move move) (steady_index inv move) rfl rfl rfl lock
    ⟨lock, ok.lt, by rw [← current]; rfl, ok.copied.same current, fun _ => current,
      fun _ => inv.common.committed, all, fun some_log => ?_⟩ ?_ rfl rfl
  · rw [← current]
    exact ok.mark some_log
  · rw [pc]
    constructor <;>
      simp [Conn.goto]

private theorem Inv.endWrite (pc : (s.conn i).pc = .writing k)
    (current : (s.conn i).hdr = s.shared.hdr) :
    Inv ⟨s.shared, update s.conn i
      { s.conn i with writeLock := false, pc := .reading k }⟩ := by
  have ok := inv.each i
  simp only [LocalOk, pc] at ok
  exact inv.newReader current rfl (by simp [pc]) (fun lock => absurd lock false_ne_true)
    (Reads.start inv.common current ok.snapshot ok.lt ok.flushed ok.mark)

private theorem Inv.restartLog (pc : (s.conn i).pc = .writing 0) :
    let r := restartLog (s.free i) s.shared (s.conn i)
    Inv ⟨r.2, update s.conn i r.1⟩ := by
  have ok := inv.each i
  simp only [LocalOk, pc] at ok
  have current := ok.current rfl
  have all := ok.flushed rfl
  have eases : (s.conn i).pc.Eases .leaving := by
    rw [pc]
    constructor <;> simp
  simp only [Protocol.restartLog]
  split
  · rename_i restarts
    have free := fun d (other : d ≠ i) j (some_log : j ≠ 0) (lt : j < walNreader) =>
      (free_own (free_ownAll restarts.2 some_log lt) other).2
    have salt : (s.conn i).hdr.aSalt + 1 = s.shared.hdr.aSalt + 1 := by rw [current]
    refine inv.change (inv.common.restart all rfl (by rw [current])) ⟨⟨?_, fun _ => rfl⟩, ok.lock⟩
      rfl (fun j k reader some_log => ?_) (fun d other => ?_) fun d other =>
        moves_of_eases_free eases rfl rfl .inl
    · change Copied _ _ (s.conn i).snapshot
      rw [ok.snapshot]
      exact copied_self (s.shared.walRestartLog _)
    · -- no other connection reads the log
      have other : j ≠ i := by
        rintro rfl
        simp [pc] at reader
      have shares : (s.conn j).pc.shares k = true := by
        cases pc' : (s.conn j).pc <;> simp_all [shares]
      have apart := free j other k some_log ((inv.each j).shares_lt shares)
      exact absurd (apart.symm.trans shares) false_ne_true
    · exact transfers_of_restart salt all (inv.each d)
        ((inv.pair i d other.symm).write ok.lock) (free d other)
  · refine inv.goto ⟨⟨?_, fun _ => current⟩, ok.lock⟩ eases
    change Copied s.shared (s.conn i).hdr (s.conn i).snapshot
    rw [current, ok.snapshot]
    exact copied_self s.shared

section

variable (writing : (s.conn i).pc = .writing k)

include writing

private theorem Inv.writes : Writes s.shared (s.conn i) k := by
  have ok := inv.each i
  rwa [LocalOk, writing] at ok

/-- The writer changes the index, not the header, and stays where it is. -/
theorem Inv.stayWriting (place : c.pc = .writing k) (common : SharedOk g)
    (steady : Steady s.shared g) (hdr : g.hdr = s.shared.hdr) (image : g.image = s.shared.image)
    (marks : g.aReadMark = s.shared.aReadMark) (own : Writes g c k) :
    Inv ⟨g, update s.conn i c⟩ := by
  refine inv.writeIndex common steady hdr image marks (inv.writes writing).lock ?_ ?_
    (by rw [place]; rfl) (by rw [place]; rfl)
  · rwa [LocalOk, place]
  · rw [writing, place]
    exact eases_refl _

private theorem Inv.append {pgno : Nat} (positive : 0 < pgno)
    (notPending : pgno ≠ s.shared.pendingBytePage) (some_log : k ≠ 0) (content : α) :
    Inv ⟨appendFrame s.shared pgno content, update s.conn i (s.conn i)⟩ := by
  have ok := inv.writes writing
  have common := inv.common.append positive notPending content
  have steady := steady_append inv.common positive content
  obtain ⟨mem, eq, -⟩ := appendFrame_spec inv.common positive content
  rw [eq] at common steady ⊢
  exact inv.stayWriting writing writing common steady rfl rfl rfl
    { ok with level := fun zero => absurd zero some_log }

private theorem Inv.moveEnd {index : Index.State} (move : IndexMove s.shared.index index)
    (level : k = 0 → index.mxFrame = s.shared.hdr.mxFrame) :
    let r := moveEnd s.shared (s.conn i) index
    Inv ⟨r.2, update s.conn i r.1⟩ := by
  have ok := inv.writes writing
  refine inv.stayWriting writing writing (inv.common.index_move move) (steady_index inv move)
    rfl rfl rfl ⟨ok.lock, ok.lt, ok.salt, ok.snapshot, fun zero => ?_, level, ok.flushed, ok.mark⟩
  have current := ok.current zero
  simp only [Protocol.moveEnd, level zero, current]

private theorem Inv.frames (some_log : k ≠ 0) :
    Inv ⟨{ s.shared with index := s.shared.index.frames },
      update s.conn i (s.conn i)⟩ := by
  have ok := inv.writes writing
  have move := indexMove_frames inv.common.index
  exact inv.stayWriting writing writing (inv.common.index_move move) (steady_index inv move)
    rfl rfl rfl { ok with level := fun zero => absurd zero some_log }

private theorem Inv.undo : Inv ⟨{ s.shared with index := s.shared.index.sqlite3WalUndo },
      update s.conn i ((s.conn i).readHdr s.shared)⟩ := by
  have ok := inv.writes writing
  have move := indexMove_undo inv.common.index
  exact inv.stayWriting writing writing (inv.common.index_move move) (steady_index inv move)
    rfl rfl rfl
    ⟨ok.lock, ok.lt, rfl, rfl, fun _ => rfl, fun _ => inv.common.committed, ok.flushed, ok.mark⟩

private theorem Inv.commit (some_log : k ≠ 0) {nTruncate : Nat}
    (commits : Commits s.shared nTruncate) :
    let r := commit s.shared (s.conn i) nTruncate
    Inv ⟨r.2, update s.conn i r.1⟩ := by
  have ok := inv.writes writing
  obtain ⟨steady, grows, covers⟩ := steady_commit inv.common commits ok.salt
  have place : (Protocol.commit s.shared (s.conn i) nTruncate).1.pc = .writing k := writing
  refine inv.change (inv.common.commit commits ok.salt) ?_ rfl (inv.kept steady)
    (fun d other => ?_) fun d other =>
      moves_of_eases_free (eases_refl _) (by rw [place]; rfl) (by rw [place]; rfl) .inl
  · rw [LocalOk, place]
    exact ⟨ok.lock, ok.lt, rfl, rfl, fun _ => rfl, fun zero => absurd zero some_log,
      fun zero => absurd zero some_log,
      fun _ => Nat.le_trans (ok.mark some_log) grows.le⟩
  · exact transfers_of_commit steady grows covers ((inv.pair i d other.symm).write ok.lock) rfl

end

private theorem Inv.checkpoint (free : (s.free i).ckpt = true) (eMode : Mode) :
    Inv ⟨s.shared, update s.conn i { s.conn i with eMode := eMode, pc := .ckLocked }⟩ :=
  inv.quiet trivial fun d other => {
    owns := by simp [owns]
    shares := by simp [shares]
    write := .inl
    ckpt := fun _ => .inr (free_ckpt free other)
    bound := by simp [bound]
    backfills := by simp [backfills]
    reader := by simp [reader] }

end

section

variable [Inhabited α]

def Act.isGo : Act α → Bool
  | .go => true
  | _ => false

/-- A checkpoint is not late: when it looks at `nBackfill`, the log has not been restarted since
it read the header. -/
def InTime (s : State n α) (ca : Fin n × Act α) : Prop :=
  ca.2.isGo = true → (s.conn ca.1).pc = .ckTest →
    (s.conn ca.1).hdr.aSalt = s.shared.hdr.aSalt

instance (s : State n α) (ca : Fin n × Act α) : Decidable (InTime s ca) :=
  inferInstanceAs (Decidable (_ → _ → _))

private theorem Inv.gone (inv : Inv s) (i : Fin n) (inTime : InTime s (i, .go)) :
    Inv (s.gone i) := by
  cases pc : (s.conn i).pc with
  | idle =>
    simp only [State.gone, go, pc]
    exact inv.stay i
  | gotHdr => exact inv.gotHdr pc
  | tested0 => exact inv.tested0 pc
  | locked0 => exact inv.locked0 pc
  | scan k mxReadMark mxI => exact inv.scan pc
  | raise k mxReadMark mxI => exact inv.raise pc
  | raising k => exact inv.raising pc
  | raised k => exact inv.raised pc
  | join mxI mxReadMark => exact inv.join pc
  | joined mxI mxReadMark => exact inv.joined pc
  | compared mxI => exact inv.compared pc
  | reading readLock =>
    simp only [State.gone, go, pc]
    exact inv.stay i
  | checking readLock =>
    simp only [State.gone, go, pc]
    split
    · rename_i current
      exact inv.checked pc current
    · exact inv.notWritten pc
  | writing readLock =>
    simp only [State.gone, go, pc]
    exact inv.stay i
  | leaving => exact inv.leaving pc
  | ckLocked => exact inv.lockWrite pc
  | ckReadHdr => exact inv.readHdr pc
  | ckTest => exact inv.test pc (inTime rfl pc)
  | ckIter => exact inv.iterInit pc
  | ckLoop k mxSafeFrame => exact inv.limitSafe pc
  | ckLock k mxSafeFrame y => exact inv.lockMark pc
  | ckMark k mxSafeFrame => exact inv.storeMark pc
  | ckMarked k mxSafeFrame => exact inv.unlockMark pc
  | ckLock0 mxSafeFrame => exact inv.lockZero pc
  | ckLocked0 mxSafeFrame => exact inv.startCopy pc
  | ckCopy mxSafeFrame nBackfill iPrior => exact inv.copyPage pc
  | ckTruncate mxSafeFrame => exact inv.truncate pc
  | ckStore mxSafeFrame => exact inv.store pc
  | ckStored => exact inv.unlockZero pc
  | ckAfter => exact inv.afterBackfill pc
  | ckWaited => exact inv.waited pc
  | ckDone =>
    simp only [State.gone, go, pc]
    exact inv.release

theorem Inv.step (inv : Inv s) (ca : Fin n × Act α) (inTime : InTime s ca) : Inv (step s ca) := by
  obtain ⟨i, a⟩ := ca
  have stay := inv.stay i
  simp only [Protocol.step, act]
  split
  · exact inv.gone i inTime
  · exact inv.release
  · exact inv.beginRead
  · exact inv.release
  · exact inv.release
  · rename_i pc
    split
    · rename_i allowed
      exact inv.beginWrite pc allowed.2
    · exact stay
  · rename_i pc
    split
    · rename_i current
      exact inv.endWrite pc current
    · exact stay
  · rename_i pc
    exact inv.restartLog pc
  · rename_i k pc
    exact inv.frames pc (Nat.succ_ne_zero k)
  · rename_i k pc
    split
    · rename_i page
      exact inv.append pc page.1 page.2 (Nat.succ_ne_zero k) _
    · exact stay
  · rename_i k pc
    exact inv.moveEnd pc (indexMove_spill inv.common.index) fun zero => absurd zero (by simp)
  · rename_i k pc
    split
    · rename_i commits
      exact inv.commit pc (Nat.succ_ne_zero k) commits
    · exact stay
  · rename_i pc
    exact inv.undo pc
  · rename_i k pc
    refine inv.moveEnd pc (indexMove_savepoint inv.common.index) fun zero => ?_
    have ok := inv.each i
    simp only [LocalOk, pc] at ok
    exact ok.level zero
  · rename_i j k pc
    refine inv.moveEnd pc (indexMove_savepointUndo inv.common.index j) fun zero => ?_
    have ok := inv.each i
    simp only [LocalOk, pc] at ok
    have level := ok.level zero
    have committed := inv.common.committed
    obtain ⟨frame, aWalData, behind, -, eq | ⟨less, -⟩⟩ :=
      sqlite3WalSavepointUndo_cases inv.common.index j
    · rw [eq]
      exact level
    · omega
  · split
    · rename_i allowed
      exact inv.checkpoint allowed.2 _
    · exact stay
  · exact stay

end

end SeSqlite.Wal.Protocol
