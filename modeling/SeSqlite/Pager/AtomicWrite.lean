/- source: src/pager.c, src/journal.c
   digest: Commits that leave the journal in its buffer: a misplaced parenthesis lets sectors above
   the page size through, and the change counter is a second page. -/
import Mathlib.Data.List.Perm.Subperm

set_option autoImplicit false
set_option relaxedAutoImplicit false

namespace SeSqlite.AtomicWrite

open List

/-- What the pager knows of the database file. -/
structure Device where
  tempFile : Bool
  dc : Nat
  sectorSize : Nat
  pageSize : Nat

/-- Writes of a page are atomic: `SQLITE_IOCAP_ATOMIC`, or the bit of the page size. -/
def Device.Declared (d : Device) : Prop := d.dc &&& (1 ||| d.pageSize >>> 8) ≠ 0

instance (d : Device) : Decidable d.Declared := inferInstanceAs (Decidable (_ ≠ _))

def jrnlBufferSize (d : Device) : Nat :=
  if d.tempFile = false ∧ ¬ (d.Declared ∨ d.pageSize < d.sectorSize) then 0
  else d.sectorSize + (d.pageSize + 8)

structure JournalFile where
  nBuf : Nat
  pReal : Bool

/-- Without a buffer the file is opened at once. -/
def sqlite3JournalOpen (nBuf : Nat) : JournalFile := ⟨nBuf, nBuf == 0⟩

def createFile (p : JournalFile) : JournalFile := { p with pReal := true }

def jrnlWrite (p : JournalFile) (iAmt iOfst : Nat) : JournalFile :=
  if p.pReal = false ∧ p.nBuf < iOfst + iAmt then createFile p else p

structure Pager where
  jfd : JournalFile
  journalOff : Nat
  dbSize : Nat
  dbOrigSize : Nat
  pInJournal : List Nat
  dirty : List Nat
  changeCountDone : Bool

section

variable (d : Device)

/-- The journal with its header. -/
def pagerOpenJournal (dbSize : Nat) (changeCountDone : Bool) : Pager :=
  ⟨jrnlWrite (sqlite3JournalOpen (jrnlBufferSize d)) d.sectorSize 0, d.sectorSize, dbSize, dbSize,
    [], [], changeCountDone⟩

/-- `pager_write` -/
def pagerWritePage (p : Pager) (pgno : Nat) : Pager :=
  let p := { p with dirty := p.dirty.insert pgno, dbSize := max p.dbSize pgno }
  if pgno ∈ p.pInJournal ∨ p.dbOrigSize < pgno then p
  else
    let iOff := p.journalOff
    { p with
      jfd := jrnlWrite (jrnlWrite (jrnlWrite p.jfd 4 iOff) d.pageSize (iOff + 4)) 4
        (iOff + d.pageSize + 4)
      journalOff := iOff + (8 + d.pageSize)
      pInJournal := pgno :: p.pInJournal }

/-- The pages of a sector as far as the database goes. -/
def sectorPages (dbSize pgno : Nat) : List Nat :=
  let nPagePerSector := d.sectorSize / d.pageSize
  let pg1 := (pgno - 1) / nPagePerSector * nPagePerSector + 1
  let nPage := if dbSize < pgno then pgno - pg1 + 1
    else if dbSize < pg1 + nPagePerSector - 1 then dbSize + 1 - pg1
    else nPagePerSector
  (range nPage).map (pg1 + ·)

def sqlite3PagerWrite (p : Pager) (pgno : Nat) : Pager :=
  if d.pageSize < d.sectorSize then
    (sectorPages d p.dbSize pgno).foldl (fun p pg =>
      if pg = pgno ∨ pg ∉ p.pInJournal then pagerWritePage d p pg else p) p
  else pagerWritePage d p pgno

/-- The pages written to the database by `sqlite3PagerCommitPhaseOne`; in direct mode page 1 is
written for the change counter first. -/
def sqlite3PagerCommitPhaseOne (zMaster : Bool) (p : Pager) : Pager × List Nat :=
  if zMaster = false ∧ p.journalOff = jrnlBufferSize d ∧ p.dbOrigSize ≤ p.dbSize ∧
      p.dirty.length ≤ 1 then
    (p, (if p.changeCountDone then [] else [1]) ++ p.dirty)
  else
    let p := { p with jfd := createFile p.jfd }
    let p := if p.changeCountDone then p else sqlite3PagerWrite d p 1
    (p, p.dirty)

/-- If a page is overwritten and the journal is not on disk, the page can be written atomically, it
is the only one, and the database does not grow. -/
def Sound (r : Pager × List Nat) : Prop :=
  r.1.jfd.pReal = false → (∃ pg ∈ r.2, pg ≤ r.1.dbOrigSize) →
    d.Declared ∧ d.sectorSize ≤ d.pageSize ∧ (∃ pg, ∀ q ∈ r.2, q = pg) ∧ r.1.dbSize ≤ r.1.dbOrigSize

/-- Where one page of the database has been changed, sectors are no larger than pages, a temporary
file is on a device with atomic writes, and with these the page is page 1 or its change counter
is not written. -/
def Suitable (zMaster : Bool) (p : Pager) : Prop :=
  ∀ pg, zMaster = false → p.dirty = [pg] → pg ≤ p.dbOrigSize →
    d.sectorSize ≤ d.pageSize ∧ (d.tempFile = true → d.Declared) ∧
    (d.Declared → p.changeCountDone = true ∨ pg = 1)

end

structure Inv (d : Device) (p : Pager) : Prop where
  nBuf : p.jfd.nBuf = jrnlBufferSize d
  journalOff : p.journalOff = d.sectorSize + p.pInJournal.length * (8 + d.pageSize)
  pReal : p.jfd.pReal = false ↔ jrnlBufferSize d ≠ 0 ∧ p.pInJournal.length ≤ 1
  nodup : p.pInJournal.Nodup
  journalled : ∀ pg, pg ∈ p.pInJournal ↔ pg ∈ p.dirty ∧ pg ≤ p.dbOrigSize
  dbSize : p.dbSize = p.dbOrigSize ∨ p.dbOrigSize < p.dbSize ∧ p.dbSize ∈ p.dirty

section

variable {d : Device} {p : Pager}

theorem jrnlBufferSize_eq_or (d : Device) :
    jrnlBufferSize d = 0 ∨ jrnlBufferSize d = d.sectorSize + (d.pageSize + 8) := by
  rw [jrnlBufferSize]
  split
  · exact Or.inl rfl
  · exact Or.inr rfl

theorem jrnlWrite_nBuf (p : JournalFile) (iAmt iOfst : Nat) :
    (jrnlWrite p iAmt iOfst).nBuf = p.nBuf := by
  rw [jrnlWrite]
  split <;> rfl

theorem jrnlWrite_pReal (p : JournalFile) (iAmt iOfst : Nat) :
    (jrnlWrite p iAmt iOfst).pReal = false ↔ p.pReal = false ∧ iOfst + iAmt ≤ p.nBuf := by
  rw [jrnlWrite]
  by_cases real : p.pReal = false <;> simp [real, createFile, apply_ite]

theorem inv_open (dbSize : Nat) (changeCountDone : Bool) :
    Inv d (pagerOpenJournal d dbSize changeCountDone) where
  nBuf := jrnlWrite_nBuf ..
  journalOff := (Nat.zero_mul (8 + d.pageSize)).symm ▸ rfl
  pReal := by
    have size := jrnlBufferSize_eq_or d
    simp only [pagerOpenJournal, jrnlWrite_pReal, sqlite3JournalOpen, beq_eq_false_iff_ne,
      length_nil]
    omega
  nodup := nodup_nil
  journalled := by simp [pagerOpenJournal]
  dbSize := Or.inl rfl

theorem Inv.writePage (inv : Inv d p) (pgno : Nat) : Inv d (pagerWritePage d p pgno) := by
  have size : max p.dbSize pgno = p.dbOrigSize ∨ p.dbOrigSize < max p.dbSize pgno ∧
      max p.dbSize pgno ∈ p.dirty.insert pgno := by
    rw [mem_insert_iff]
    rcases inv.dbSize with same | ⟨more, last⟩ <;> rcases Nat.le_total p.dbSize pgno with le | le
    · omega
    · exact Or.inl ((Nat.max_eq_left le).trans same)
    · omega
    · rw [Nat.max_eq_left le]
      exact Or.inr ⟨more, Or.inr last⟩
  rw [pagerWritePage]
  split
  · rename_i known
    refine ⟨inv.nBuf, inv.journalOff, inv.pReal, inv.nodup, fun pg => ?_, size⟩
    have here := inv.journalled pg
    rw [mem_insert_iff]
    constructor
    · exact fun inside => ⟨Or.inr (here.mp inside).1, (here.mp inside).2⟩
    · rintro ⟨rfl | dirty, le⟩
      · exact known.resolve_right (Nat.not_lt.mpr le)
      · exact here.mpr ⟨dirty, le⟩
  · rename_i new
    rw [not_or, Nat.not_lt] at new
    have nBuf := jrnlBufferSize_eq_or d
    refine ⟨?_, ?_, ?_, nodup_cons.mpr ⟨new.1, inv.nodup⟩, fun pg => ?_, size⟩
    · rw [jrnlWrite_nBuf, jrnlWrite_nBuf, jrnlWrite_nBuf, inv.nBuf]
    · dsimp only
      rw [inv.journalOff, length_cons, Nat.succ_mul, Nat.add_assoc]
    · simp only [jrnlWrite_pReal, jrnlWrite_nBuf, inv.nBuf, inv.pReal, inv.journalOff, length_cons]
      rcases Nat.eq_zero_or_pos p.pInJournal.length with none | some
      · rw [none]
        omega
      · have := Nat.mul_le_mul_right (8 + d.pageSize) some
        omega
    · rw [mem_cons, mem_insert_iff, inv.journalled]
      constructor
      · rintro (rfl | ⟨dirty, le⟩)
        · exact ⟨Or.inl rfl, new.2⟩
        · exact ⟨Or.inr dirty, le⟩
      · rintro ⟨rfl | dirty, le⟩
        · exact Or.inl rfl
        · exact Or.inr ⟨dirty, le⟩

/-- What every single page keeps is kept by a call for all pages of a sector. -/
theorem pagerWrite_keeps {P : Pager → Prop} (keep : ∀ p pg, P p → P (pagerWritePage d p pg))
    (start : P p) (pgno : Nat) : P (sqlite3PagerWrite d p pgno) := by
  rw [sqlite3PagerWrite]
  split
  · generalize sectorPages d p.dbSize pgno = pages
    induction pages generalizing p with
    | nil => exact start
    | cons pg pages ih =>
      rw [foldl_cons]
      split
      · exact ih (keep p pg start)
      · exact ih start
  · exact keep p pgno start

theorem pReal_writePage (p : Pager) (pg : Nat) (real : p.jfd.pReal = true) :
    (pagerWritePage d p pg).jfd.pReal = true := by
  rw [pagerWritePage]
  split
  · exact real
  · rw [← Bool.not_eq_false, jrnlWrite_pReal, jrnlWrite_pReal, jrnlWrite_pReal]
    simp [real]

theorem Inv.journalled_one (inv : Inv d p) {pg : Nat} (dirty : p.dirty = [pg])
    (old : pg ≤ p.dbOrigSize) : p.pInJournal.length = 1 := by
  have only : p.pInJournal ⊆ [pg] := fun q inside => dirty ▸ ((inv.journalled q).mp inside).1
  have some := (inv.journalled pg).mpr ⟨by simp [dirty], old⟩
  exact Nat.le_antisymm (subperm_of_subset inv.nodup only).length_le (length_pos_of_mem some)

theorem Inv.sound_iff (inv : Inv d p) (zMaster : Bool) :
    Sound d (sqlite3PagerCommitPhaseOne d zMaster p) ↔ Suitable d zMaster p := by
  have offset := inv.journalOff
  have size := jrnlBufferSize_eq_or d
  have grown : p.dbOrigSize ≤ p.dbSize := by
    have := inv.dbSize
    omega
  rw [sqlite3PagerCommitPhaseOne]
  split
  · rename_i direct
    obtain ⟨noMaster, off, -, few⟩ := direct
    constructor
    · intro sound pg _ dirty old
      have one := inv.journalled_one dirty old
      rw [one] at offset
      obtain ⟨declared, le, ⟨q, only⟩, -⟩ := sound (inv.pReal.mpr (by omega))
        ⟨pg, by simp [dirty], old⟩
      refine ⟨le, fun _ => declared, fun _ => ?_⟩
      rw [or_iff_not_imp_left]
      intro pending
      rw [if_neg pending, dirty] at only
      rw [only pg (by simp), ← only 1 (by simp)]
    · rintro cond real -
      obtain ⟨buffered, -⟩ := inv.pReal.mp real
      have one : p.pInJournal.length = 1 :=
        Nat.eq_of_mul_eq_mul_right (show 0 < 8 + d.pageSize by omega) (by omega)
      obtain ⟨pg, single⟩ := length_eq_one_iff.mp one
      have here := (inv.journalled pg).mp (by simp [single])
      obtain ⟨q, dirty⟩ := length_eq_one_iff.mp
        (Nat.le_antisymm few (length_pos_of_mem here.1))
      obtain rfl : pg = q := by simpa [dirty] using here.1
      obtain ⟨le, temporary, counter⟩ := cond pg noMaster dirty here.2
      have declared : d.Declared := by
        by_contra undeclared
        refine buffered (if_pos ⟨Bool.eq_false_iff.mpr fun temp => undeclared (temporary temp), ?_⟩)
        exact fun either => either.elim undeclared (Nat.not_lt.mpr le)
      refine ⟨declared, le, ⟨pg, fun q inside => ?_⟩, ?_⟩
      · rcases counter declared with done | first
        · simpa [done, dirty] using inside
        · split at inside <;> simp_all
      · rcases inv.dbSize with same | ⟨more, last⟩
        · exact Nat.le_of_eq same
        · rw [dirty, mem_singleton] at last
          omega
  · rename_i indirect
    have created : (if p.changeCountDone then { p with jfd := createFile p.jfd }
        else sqlite3PagerWrite d { p with jfd := createFile p.jfd } 1).jfd.pReal = true := by
      split
      · rfl
      · exact pagerWrite_keeps pReal_writePage rfl 1
    refine iff_of_true (fun real => absurd real (by rw [created]; decide)) ?_
    intro pg noMaster dirty old
    rw [inv.journalled_one dirty old] at offset
    have unbuffered : jrnlBufferSize d = 0 := by
      refine size.resolve_right fun buffered => indirect ⟨noMaster, by omega, grown, ?_⟩
      simp [dirty]
    rw [jrnlBufferSize, ite_eq_left_iff] at unbuffered
    obtain ⟨lasting, plain⟩ := not_imp_comm.mp unbuffered (by omega)
    rw [not_or, Nat.not_lt] at plain
    exact ⟨plain.2, fun temp => absurd temp (by simp [lasting]),
      fun atomic => absurd atomic plain.1⟩

theorem atomicWrite_sound_iff (d : Device) (dbSize : Nat) (changeCountDone zMaster : Bool)
    (writes : List Nat) :
    let p := writes.foldl (sqlite3PagerWrite d) (pagerOpenJournal d dbSize changeCountDone)
    Sound d (sqlite3PagerCommitPhaseOne d zMaster p) ↔ Suitable d zMaster p := by
  refine Inv.sound_iff ?_ zMaster
  have inv := inv_open (d := d) dbSize changeCountDone
  generalize pagerOpenJournal d dbSize changeCountDone = p at inv ⊢
  induction writes generalizing p with
  | nil => exact inv
  | cons pgno writes ih => exact ih _ (pagerWrite_keeps (fun _ pg inv => inv.writePage pg) inv pgno)

/-- The only page of a database is changed, in sectors of four pages that are not atomic. -/
theorem atomicWrite_unsound : let d : Device := ⟨false, 0, 4096, 1024⟩
    ¬ Sound d (sqlite3PagerCommitPhaseOne d false
      ([1].foldl (sqlite3PagerWrite d) (pagerOpenJournal d 1 false))) := by
  intro d sound
  have declared := (sound (by decide) ⟨1, by decide, by decide⟩).1
  exact absurd declared (by decide)

end

end SeSqlite.AtomicWrite
