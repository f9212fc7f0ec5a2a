/- source: src/wal.c
   digest: Writers of frames keep the chain of checksums on the log file, whatever is undone. -/
import SeSqlite.Wal.LogFile

set_option autoImplicit false
set_option relaxedAutoImplicit false

namespace SeSqlite.Wal.Writer

open Lib Bytes Wal.Frames Wal.LogFile List Option

/-- A dirty page: its number and its buffer. -/
structure PgHdr where
  pgno : Nat
  positive : 0 < pgno
  small : pgno < 2 ^ 32
  pData : Nat → UInt8

/-- The words of `aWalData`: the frame, its running checksum and `nCkpt`. -/
structure WalData where
  mxFrame : Nat
  aFrameCksum : Cksum
  nCkpt : Nat

/-- The arguments of a call of `sqlite3WalFrames` and what it gets from outside: the salt word if
`walRestartLog` gets its locks, the random salt of a first header, the sector size if padding is
asked for, and the journal size limit. -/
structure Call where
  restart : Option (Fin 4 → UInt8)
  szPage : PageSize
  salt : Fin 8 → UInt8
  first : PgHdr
  rest : List PgHdr
  nTruncate : Fin (2 ^ 32)
  sectorSize : Option Nat
  mxWalSize : Option Nat

def Call.isCommit (call : Call) : Bool := call.nTruncate.val ≠ 0

/-- A connection with the write lock, the log file and the shared header. The last field is no
memory of the program: it is the generation that stands on the file. -/
structure Handle where
  file : ByteFile
  shared : WalIndexHdr
  hdr : WalIndexHdr
  szPage : Nat
  nCkpt : Nat
  lockZero : Bool
  truncateOnCommit : Bool
  aWalData : List WalData
  gen : Option Generation

def start : Handle :=
  ⟨ByteFile.empty, WalIndexHdr.zero, WalIndexHdr.zero, 0, 0, false, false, [], none⟩

/-- `hdr.szPage` holds the page size in 16 bits, with 65536 as 1. -/
def packSize (szPage : Nat) : Nat := szPage / 2 ^ 8 % 2 ^ 8 * 2 ^ 8 + szPage / 2 ^ 16

def unpackSize (szPage : Nat) : Nat := szPage / 2 ^ 9 % 2 ^ 7 * 2 ^ 9 + szPage % 2 * 2 ^ 16

/-- The frames of a list of dirty pages; the size field of the last one marks a commit. -/
def frameList (szPage nTruncate : Nat) : PgHdr → List PgHdr → List Frame
  | p, [] => [⟨p.pgno, nTruncate, (range szPage).map p.pData⟩]
  | p, q :: rest =>
    ⟨p.pgno, 0, (range szPage).map p.pData⟩ :: frameList szPage nTruncate q rest

/-- How often the last frame of a commit is repeated to fill the sector. -/
def nExtra (call : Call) (szPage iFrame : Nat) : Nat :=
  match call.isCommit, call.sectorSize with
  | true, some sectorSize =>
    let iOffset := walFrameOffset (iFrame + 1) szPage
    let iSyncPoint := (iOffset + sectorSize - 1) / sectorSize * sectorSize
    (iSyncPoint - iOffset + (szPage + walFrameHdrsize) - 1) / (szPage + walFrameHdrsize)
  | _, _ => 0

def lastPage (call : Call) : PgHdr := (call.first :: call.rest).getLast (cons_ne_nil _ _)

/-- All frames of a call, behind frame `iFrame`. -/
def Call.frames (call : Call) (szPage iFrame : Nat) : List Frame :=
  frameList szPage call.nTruncate call.first call.rest ++
    replicate (nExtra call szPage (iFrame + call.rest.length + 1))
      ⟨(lastPage call).pgno, call.nTruncate, (range szPage).map (lastPage call).pData⟩

namespace Handle

variable (m : Bool)

/-- A connection gets the write lock with the header as it stands in shared memory. -/
def begin (s : Handle) (nCkpt : Nat) (lockZero : Bool) : Handle :=
  { s with hdr := s.shared, szPage := unpackSize s.shared.szPage, nCkpt := nCkpt,
           lockZero := lockZero, truncateOnCommit := false, aWalData := [] }

/-- The log is reset: new salts, and both headers at its start. -/
def restart (s : Handle) (salt1 : Fin 4 → UInt8) : Handle :=
  let aSalt := sqlite3Put4byte (1 + sqlite3Get4byte s.hdr.aSalt) ++ List.ofFn salt1
  let hdr := { s.hdr with mxFrame := 0, aSalt := aSalt }
  { s with nCkpt := (s.nCkpt + 1) % 2 ^ 32, hdr := hdr, shared := hdr, lockZero := false }

/-- Only a connection on read lock 0 restarts the log, and it then takes another read lock. -/
def walRestartLog (s : Handle) (call : Call) : Handle :=
  match s.lockZero, call.restart with
  | false, _ => s
  | true, none => { s with lockZero := false }
  | true, some salt1 => s.restart salt1

def writeHeader (s : Handle) (call : Call) : Handle :=
  let aSalt := if s.nCkpt = 0 then List.ofFn call.salt else s.hdr.aSalt
  let header := walHeader m call.szPage s.nCkpt aSalt
  { s with
    file := s.file.write 0 header.1
    hdr := { s.hdr with bigEndCksum := m, aFrameCksum := header.2, aSalt := aSalt }
    szPage := call.szPage
    truncateOnCommit := true
    gen := some ⟨call.szPage, s.nCkpt, aSalt, []⟩ }

/-- The log before the first frame of a call is written. -/
def prepare (s : Handle) (call : Call) : Handle :=
  let s := s.walRestartLog call
  if s.hdr.mxFrame = 0 then s.writeHeader m call else s

/-- The frame goes behind frame `iFrame`. -/
def walWriteOneFrame (s : Handle) (iFrame : Nat) (frame : Frame) : Handle :=
  let aFrame := walEncodeFrame m s.hdr frame
  { s with
    file := writeSlot s.file (walFrameOffset (iFrame + 1) s.szPage) aFrame.1 frame.data
    hdr := { s.hdr with aFrameCksum := aFrame.2 }
    gen := s.gen.map fun g => g.put iFrame frame }

def writeFrames (s : Handle) (iFrame : Nat) : List Frame → Handle
  | [] => s
  | frame :: frames => (s.walWriteOneFrame m iFrame frame).writeFrames (iFrame + 1) frames

def walLimitSize (s : Handle) (call : Call) (iFrame : Nat) : Handle :=
  match call.isCommit && s.truncateOnCommit, call.mxWalSize with
  | true, some mxWalSize =>
    { s with file := s.file.truncate (max mxWalSize (walFrameOffset (iFrame + 1) s.szPage)),
             truncateOnCommit := false }
  | _, _ => s

/-- The private header moves behind the new frames; a commit writes the shared one, and the
savepoints of the transaction are gone. -/
def finish (s : Handle) (call : Call) (iFrame : Nat) : Handle :=
  let hdr := { s.hdr with szPage := packSize s.szPage, mxFrame := iFrame }
  if call.isCommit then
    let hdr := { hdr with nPage := call.nTruncate }
    { s with hdr := hdr, shared := hdr, aWalData := [] }
  else { s with hdr := hdr }

def sqlite3WalFrames (s : Handle) (call : Call) : Handle :=
  let s := s.prepare m call
  let frames := call.frames s.szPage s.hdr.mxFrame
  let iFrame := s.hdr.mxFrame + frames.length
  ((s.writeFrames m s.hdr.mxFrame frames).walLimitSize call iFrame).finish call iFrame

/-- The process dies in a call, before it writes the header or behind one of the frames. -/
def dies (s : Handle) (call : Call) : Option Nat → Handle
  | none => s.walRestartLog call
  | some n =>
    let s := s.prepare m call
    s.writeFrames m s.hdr.mxFrame ((call.frames s.szPage s.hdr.mxFrame).take n)

/-- The pager drops all savepoints with the transaction. -/
def sqlite3WalUndo (s : Handle) : Handle := { s with hdr := s.shared, aWalData := [] }

def sqlite3WalSavepoint (s : Handle) : Handle :=
  { s with aWalData := s.aWalData ++ [⟨s.hdr.mxFrame, s.hdr.aFrameCksum, s.nCkpt⟩] }

/-- The pager drops the savepoints inside the one it goes back to. -/
def sqlite3WalSavepointUndo (s : Handle) (i : Nat) : Handle :=
  match s.aWalData[i]? with
  | none => s
  | some data =>
    let data := if data.nCkpt ≠ s.nCkpt then { data with mxFrame := 0, nCkpt := s.nCkpt } else data
    let s := { s with aWalData := s.aWalData.take i ++ [data] }
    if data.mxFrame < s.hdr.mxFrame then
      { s with hdr := { s.hdr with mxFrame := data.mxFrame, aFrameCksum := data.aFrameCksum } }
    else s

end Handle

inductive Op where
  | begin (nCkpt : Nat) (lockZero : Bool)
  | frames (call : Call)
  | dies (call : Call) (written : Option Nat) (nCkpt : Nat) (lockZero : Bool)
  | undo
  | savepoint
  | release (i : Nat)
  | savepointUndo (i : Nat)

def step (m : Bool) (s : Handle) : Op → Handle
  | .begin nCkpt lockZero => s.begin nCkpt lockZero
  | .frames call => s.sqlite3WalFrames m call
  | .dies call written nCkpt lockZero => (s.dies m call written).begin nCkpt lockZero
  | .undo => s.sqlite3WalUndo
  | .savepoint => s.sqlite3WalSavepoint
  | .release i => { s with aWalData := s.aWalData.take i }
  | .savepointUndo i => s.sqlite3WalSavepointUndo i

def run (m : Bool) (ops : List Op) : Handle := ops.foldl (step m) start

/-- A position in the log: the start, or behind a frame of the generation on the file. -/
def Position (m : Bool) (gen : Option Generation) (mxFrame : Nat) (aFrameCksum : Cksum) : Prop :=
  mxFrame = 0 ∨ ∃ g, gen = some g ∧ mxFrame ≤ g.frames.length ∧ aFrameCksum = g.cksum m mxFrame

/-- A header that is not at the start of the log is one of the generation on the file. -/
def OfGeneration (m : Bool) (gen : Option Generation) (hdr : WalIndexHdr) : Prop :=
  hdr.mxFrame = 0 ∨ ∃ g, gen = some g ∧ hdr.aSalt = g.aSalt ∧ hdr.bigEndCksum = m ∧
    hdr.szPage = packSize g.szPage

/-- Where a savepoint leads back: to the start if the log was restarted since. -/
def target (s : Handle) (data : WalData) : Nat :=
  if data.nCkpt = s.nCkpt then data.mxFrame else 0

/-- What holds also while a call is writing frames. -/
structure Base (m : Bool) (s : Handle) : Prop where
  empty : s.gen = none → s.file.size = 0
  stands : ∀ g, s.gen = some g → OnFile m s.file g
  salt : s.hdr.aSalt.length = 8 ∧ s.shared.aSalt.length = 8
  shared : Position m s.gen s.shared.mxFrame s.shared.aFrameCksum
  sharedGen : OfGeneration m s.gen s.shared
  order : s.shared.mxFrame ≤ s.hdr.mxFrame
  saved : ∀ data ∈ s.aWalData, Position m s.gen (target s data) data.aFrameCksum
  range : ∀ data ∈ s.aWalData,
    s.shared.mxFrame ≤ target s data ∧ target s data ≤ s.hdr.mxFrame
  sorted : s.aWalData.Pairwise fun a b => target s a ≤ target s b
  current : s.lockZero = true → ∀ data ∈ s.aWalData, data.nCkpt = s.nCkpt

structure Inv (m : Bool) (s : Handle) : Prop extends Base m s where
  hdr : Position m s.gen s.hdr.mxFrame s.hdr.aFrameCksum
  hdrGen : OfGeneration m s.gen s.hdr
  szPage : s.hdr.mxFrame = 0 ∨ ∃ g, s.gen = some g ∧ s.szPage = g.szPage

/-- A call has written up to frame `k` and goes on from there. -/
structure Writing (m : Bool) (s : Handle) (k : Nat) (g : Generation) : Prop extends Base m s where
  gen : s.gen = some g
  le : s.hdr.mxFrame ≤ k
  inside : k ≤ g.frames.length
  last : s.hdr.mxFrame < k → g.frames.length = k
  cksum : s.hdr.aFrameCksum = g.cksum m k
  aSalt : s.hdr.aSalt = g.aSalt
  bigEndCksum : s.hdr.bigEndCksum = m
  szPage : s.szPage = g.szPage

section

variable {m : Bool} {s : Handle} {g : Generation}

theorem unpackSize_packSize (szPage : PageSize) : unpackSize (packSize szPage) = szPage := by
  have all : ∀ n ∈ [512, 1024, 2048, 4096, 8192, 16384, 32768, 65536],
      unpackSize (packSize n) = n := by decide
  exact all szPage.1 szPage.2

theorem Position.put {n k : Nat} {s : Cksum} (position : Position m (some g) n s) (frame : Frame)
    (le : n ≤ k) (inside : k ≤ g.frames.length) : Position m (some (g.put k frame)) n s := by
  rcases position with zero | ⟨g', same, -, eq⟩
  · exact .inl zero
  · obtain rfl := some_inj.mp same
    refine .inr ⟨_, rfl, ?_, ?_⟩
    · rw [Generation.length_put frame inside]
      omega
    · rw [eq, Generation.cksum_put frame le inside]

theorem OfGeneration.put {hdr : WalIndexHdr} {k : Nat} {frame : Frame}
    (of : OfGeneration m (some g) hdr) : OfGeneration m (some (g.put k frame)) hdr := by
  rcases of with zero | ⟨g', same, fields⟩
  · exact .inl zero
  · obtain rfl := some_inj.mp same
    exact .inr ⟨_, rfl, fields⟩

/-- Without open savepoints a handle only has to agree with the header the others see. -/
theorem inv_of_shared {s : Handle} (none_open : s.aWalData = []) (same : s.hdr = s.shared)
    (empty : s.gen = none → s.file.size = 0) (stands : ∀ g, s.gen = some g → OnFile m s.file g)
    (salt : s.shared.aSalt.length = 8) (shared : Position m s.gen s.shared.mxFrame
      s.shared.aFrameCksum) (sharedGen : OfGeneration m s.gen s.shared)
    (szPage : s.shared.mxFrame = 0 ∨ ∃ g, s.gen = some g ∧ s.szPage = g.szPage) : Inv m s := by
  have none : ∀ data, data ∉ s.aWalData := by simp [none_open]
  rw [← same] at shared sharedGen salt szPage
  exact { empty, stands, szPage, salt := ⟨salt, same ▸ salt⟩, shared := same ▸ shared,
          sharedGen := same ▸ sharedGen, order := Nat.le_of_eq (by rw [same]),
          saved := fun data member => absurd member (none data),
          range := fun data member => absurd member (none data),
          sorted := none_open ▸ List.Pairwise.nil,
          current := fun _ data member => absurd member (none data),
          hdr := shared, hdrGen := sharedGen }

theorem start_inv : Inv m start :=
  inv_of_shared rfl rfl (fun _ => rfl) (fun _ none_yet => by simp [start] at none_yet) rfl
    (.inl rfl) (.inl rfl) (.inl rfl)

theorem Base.begin (base : Base m s) (nCkpt : Nat) (lockZero : Bool) :
    Inv m (s.begin nCkpt lockZero) := by
  refine inv_of_shared rfl rfl base.empty base.stands base.salt.2 base.shared base.sharedGen ?_
  rcases base.sharedGen with zero | ⟨g, eq, -, -, size⟩
  · exact .inl zero
  · refine .inr ⟨g, eq, ?_⟩
    rw [Handle.begin, size, unpackSize_packSize]

theorem Inv.undo (inv : Inv m s) : Inv m s.sqlite3WalUndo := by
  refine inv_of_shared rfl rfl inv.empty inv.stands inv.salt.2 inv.shared inv.sharedGen ?_
  have order := inv.order
  refine inv.szPage.imp_left fun zero => ?_
  change s.shared.mxFrame = 0
  omega

theorem Inv.restart (inv : Inv m s) (lock : s.lockZero = true) (salt1 : Fin 4 → UInt8) :
    Inv m (s.restart salt1) := by
  -- a savepoint of this transaction now leads back to the start of the log
  have zero : ∀ data ∈ s.aWalData, target (s.restart salt1) data = 0 := by
    intro data member
    have same := inv.current lock data member
    refine if_neg ?_
    simp only [Handle.restart]
    omega
  have length : (s.restart salt1).hdr.aSalt.length = 8 := by simp [Handle.restart]
  exact {
    empty := inv.empty
    stands := inv.stands
    salt := ⟨length, length⟩
    shared := .inl rfl
    sharedGen := .inl rfl
    order := le_rfl
    saved := fun data member => .inl (zero data member)
    range := fun data member => by
      rw [zero data member]
      exact ⟨le_rfl, le_rfl⟩
    sorted := List.Pairwise.imp_of_mem
      (fun aIn _ _ => by rw [zero _ aIn]; exact Nat.zero_le _) inv.sorted
    current := fun still => absurd still Bool.false_ne_true
    hdr := .inl rfl
    hdrGen := .inl rfl
    szPage := .inl rfl }

theorem Inv.walRestartLog (inv : Inv m s) (call : Call) : Inv m (s.walRestartLog call) := by
  rw [Handle.walRestartLog]
  split
  · exact inv
  · exact { inv with current := fun unlocked => absurd unlocked Bool.false_ne_true }
  · rename_i salt1 lock _
    exact inv.restart lock salt1

theorem Inv.writeHeader (inv : Inv m s) (zero : s.hdr.mxFrame = 0) (call : Call) :
    ∃ g, Writing m (s.writeHeader m call) (s.writeHeader m call).hdr.mxFrame g := by
  have order := inv.order
  have sharedZero : s.shared.mxFrame = 0 := by omega
  have targets : ∀ data ∈ s.aWalData, target s data = 0 := fun data member => by
    have := (inv.range data member).2
    omega
  have length : (if s.nCkpt = 0 then List.ofFn call.salt else s.hdr.aSalt).length = 8 := by
    split
    · simp
    · exact inv.salt.1
  refine ⟨_, {
    empty := fun none_yet => absurd none_yet (by simp [Handle.writeHeader])
    stands := fun g here => by
      obtain rfl := some_inj.mp here
      exact onFile_header length
    salt := ⟨length, inv.salt.2⟩
    shared := .inl sharedZero
    sharedGen := .inl sharedZero
    order := inv.order
    saved := fun data member => .inl (targets data member)
    range := inv.range
    sorted := inv.sorted
    current := inv.current
    gen := rfl
    le := le_rfl
    inside := by
      change s.hdr.mxFrame ≤ 0
      omega
    last := fun less => absurd less (Nat.lt_irrefl _)
    cksum := by
      change _ = Generation.cksum m _ s.hdr.mxFrame
      rw [zero]
      rfl
    aSalt := rfl
    bigEndCksum := rfl
    szPage := rfl }⟩

theorem Inv.prepare (inv : Inv m s) (call : Call) :
    ∃ g, Writing m (s.prepare m call) (s.prepare m call).hdr.mxFrame g := by
  have inv' := inv.walRestartLog call
  rw [Handle.prepare]
  split
  · rename_i zero
    exact inv'.writeHeader zero call
  · rename_i behind
    obtain zero | ⟨g, eq, inside, cksum⟩ := inv'.hdr
    · exact absurd zero behind
    obtain zero | ⟨g₁, eq₁, aSalt, bigEndCksum, -⟩ := inv'.hdrGen
    · exact absurd zero behind
    obtain zero | ⟨g₂, eq₂, szPage⟩ := inv'.szPage
    · exact absurd zero behind
    obtain rfl := some_inj.mp (eq.symm.trans eq₁)
    obtain rfl := some_inj.mp (eq.symm.trans eq₂)
    exact ⟨g, { inv'.toBase with
      gen := eq
      le := le_rfl
      inside := inside
      last := fun less => absurd less (Nat.lt_irrefl _)
      cksum := cksum
      aSalt := aSalt
      bigEndCksum := bigEndCksum
      szPage := szPage }⟩

section

variable {k : Nat} {g : Generation} (writing : Writing m s k g)

include writing

theorem Writing.walWriteOneFrame {frame : Frame} (fits : frame.Fits g.szPage) :
    Writing m (s.walWriteOneFrame m k frame) (k + 1) (g.put k frame) := by
  have inside := writing.inside
  have le := writing.le
  have gen : (s.walWriteOneFrame m k frame).gen = some (g.put k frame) := by
    simp [Handle.walWriteOneFrame, writing.gen]
  have position : ∀ {n : Nat} {c : Cksum}, Position m s.gen n c → n ≤ k →
      Position m (s.walWriteOneFrame m k frame).gen n c := by
    intro n c here small
    rw [gen]
    rw [writing.gen] at here
    exact here.put frame small inside
  have encoded : walEncodeFrame m s.hdr frame = walEncodeFrame m (g.after m k) frame := by
    simp [walEncodeFrame, Generation.after, writing.cksum, writing.aSalt, writing.bigEndCksum]
  exact {
    empty := fun none_yet => by rw [gen] at none_yet; simp at none_yet
    stands := fun g' here => by
      rw [gen] at here
      obtain rfl := some_inj.mp here
      have stands := (writing.stands g writing.gen).writeSlot inside fits
      simp only [Handle.walWriteOneFrame, encoded, writing.szPage]
      exact stands
    salt := writing.salt
    shared := position writing.shared (Nat.le_trans writing.order le)
    sharedGen := by
      have old := writing.sharedGen
      rw [writing.gen] at old
      rw [gen]
      exact old.put
    order := writing.order
    saved := fun data member => position (writing.saved data member)
      (Nat.le_trans (writing.range data member).2 le)
    range := writing.range
    sorted := writing.sorted
    current := writing.current
    gen := gen
    le := Nat.le_succ_of_le le
    inside := by rw [Generation.length_put frame inside]
    last := fun _ => Generation.length_put frame inside
    cksum := by
      rw [Generation.cksum_succ (Generation.getElem?_put_self frame inside),
        Generation.cksum_put frame (Nat.le_refl k) inside]
      simp [Handle.walWriteOneFrame, walEncodeFrame_snd, writing.cksum, writing.bigEndCksum]
    aSalt := writing.aSalt
    bigEndCksum := writing.bigEndCksum
    szPage := writing.szPage }

theorem Writing.writeFrames {frames : List Frame} (fits : ∀ frame ∈ frames, frame.Fits g.szPage) :
    ∃ g', Writing m (s.writeFrames m k frames) (k + frames.length) g' ∧
      (s.writeFrames m k frames).hdr.mxFrame = s.hdr.mxFrame ∧
      (s.writeFrames m k frames).szPage = s.szPage := by
  induction frames generalizing s k g with
  | nil => exact ⟨g, writing, rfl, rfl⟩
  | cons frame frames ih =>
    rw [forall_mem_cons] at fits
    obtain ⟨g', writing', mxFrame, szPage⟩ := ih (writing.walWriteOneFrame fits.1) fits.2
    refine ⟨g', ?_, mxFrame, szPage⟩
    rwa [length_cons, Nat.add_comm frames.length, ← Nat.add_assoc]

theorem Writing.walLimitSize (some_written : s.hdr.mxFrame < k) (call : Call) :
    Writing m (s.walLimitSize call k) k g := by
  rw [Handle.walLimitSize]
  split
  · exact { writing with
      empty := fun none_yet => by rw [writing.gen] at none_yet; simp at none_yet
      stands := fun g' here => by
        obtain rfl := some_inj.mp (writing.gen.symm.trans here)
        refine (writing.stands g writing.gen).truncate ?_
        rw [writing.last some_written, writing.szPage]
        exact Nat.le_max_right _ _ }
  · exact writing

theorem Writing.finish (call : Call) : Inv m (s.finish call k) := by
  have position : Position m s.gen k s.hdr.aFrameCksum :=
    .inr ⟨g, writing.gen, writing.inside, writing.cksum⟩
  have fields : s.hdr.aSalt = g.aSalt ∧ s.hdr.bigEndCksum = m ∧
      packSize s.szPage = packSize g.szPage :=
    ⟨writing.aSalt, writing.bigEndCksum, by rw [writing.szPage]⟩
  rw [Handle.finish]
  split
  · exact inv_of_shared rfl rfl writing.empty writing.stands writing.salt.1 position
      (.inr ⟨g, writing.gen, fields⟩) (.inr ⟨g, writing.gen, writing.szPage⟩)
  · exact { writing.toBase with
      salt := writing.salt
      order := Nat.le_trans writing.order writing.le
      range := fun data member => ⟨(writing.range data member).1,
        Nat.le_trans (writing.range data member).2 writing.le⟩
      hdr := position
      hdrGen := .inr ⟨g, writing.gen, fields⟩
      szPage := .inr ⟨g, writing.gen, writing.szPage⟩ }

end

theorem frameList_fits {szPage nTruncate : Nat} (small : nTruncate < 2 ^ 32) (p : PgHdr)
    (rest : List PgHdr) : ∀ frame ∈ frameList szPage nTruncate p rest, frame.Fits szPage := by
  induction rest generalizing p with
  | nil =>
    intro frame member
    obtain rfl := mem_singleton.mp member
    exact ⟨p.positive, p.small, small, by simp⟩
  | cons q rest ih =>
    intro frame member
    rcases mem_cons.mp member with rfl | later
    · exact ⟨p.positive, p.small, Nat.two_pow_pos 32, by simp⟩
    · exact ih q frame later

theorem Call.frames_fits (call : Call) (szPage iFrame : Nat) :
    ∀ frame ∈ call.frames szPage iFrame, frame.Fits szPage := by
  intro frame member
  rcases mem_append.mp member with listed | padding
  · exact frameList_fits call.nTruncate.isLt _ _ frame listed
  · rw [eq_of_mem_replicate padding]
    exact ⟨(lastPage call).positive, (lastPage call).small, call.nTruncate.isLt, by simp⟩

theorem Call.frames_length_pos (call : Call) (szPage iFrame : Nat) :
    0 < (call.frames szPage iFrame).length := by
  have some_page : 0 < (frameList szPage call.nTruncate call.first call.rest).length := by
    cases call.rest <;> simp [frameList]
  rw [Call.frames, length_append]
  omega

section

variable (inv : Inv m s)

include inv

theorem Inv.frames (call : Call) : Inv m (s.sqlite3WalFrames m call) := by
  obtain ⟨g, writing⟩ := inv.prepare call
  rw [Handle.sqlite3WalFrames]
  generalize s.prepare m call = t at writing ⊢
  have fits := call.frames_fits t.szPage t.hdr.mxFrame
  have some_frame := call.frames_length_pos t.szPage t.hdr.mxFrame
  generalize call.frames t.szPage t.hdr.mxFrame = frames at fits some_frame ⊢
  rw [writing.szPage] at fits
  obtain ⟨g', written, mxFrame, -⟩ := writing.writeFrames fits
  exact (written.walLimitSize (by omega) call).finish call

theorem Inv.dies (call : Call) (written : Option Nat) : Base m (s.dies m call written) := by
  cases written with
  | none => exact (inv.walRestartLog call).toBase
  | some n =>
    obtain ⟨g, writing⟩ := inv.prepare call
    rw [Handle.dies]
    generalize s.prepare m call = t at writing ⊢
    have fits := call.frames_fits t.szPage t.hdr.mxFrame
    rw [writing.szPage] at fits ⊢
    obtain ⟨g', written, -⟩ := writing.writeFrames
      (fun frame member => fits frame (mem_of_mem_take member))
    exact written.toBase

theorem Inv.savepoint : Inv m s.sqlite3WalSavepoint := by
  have here : target s.sqlite3WalSavepoint ⟨s.hdr.mxFrame, s.hdr.aFrameCksum, s.nCkpt⟩ =
      s.hdr.mxFrame := if_pos rfl
  refine { inv with
    saved := fun data member => ?_
    range := fun data member => ?_
    sorted := ?_
    current := fun lock data member => ?_ }
  · rcases mem_append.mp member with old | new
    · exact inv.saved data old
    · rw [mem_singleton.mp new, here]
      exact inv.hdr
  · rcases mem_append.mp member with old | new
    · exact inv.range data old
    · rw [mem_singleton.mp new, here]
      exact ⟨inv.order, le_rfl⟩
  · refine pairwise_append.mpr ⟨inv.sorted, pairwise_singleton _ _,
      fun a old b new => ?_⟩
    rw [mem_singleton.mp new, here]
    exact (inv.range a old).2
  · rcases mem_append.mp member with old | new
    · exact inv.current lock data old
    · rw [mem_singleton.mp new]
      rfl

theorem Inv.release (i : Nat) : Inv m { s with aWalData := s.aWalData.take i } :=
  { inv with
    saved := fun data member => inv.saved data (mem_of_mem_take member)
    range := fun data member => inv.range data (mem_of_mem_take member)
    sorted := inv.sorted.sublist (take_sublist _ _)
    current := fun lock data member => inv.current lock data (mem_of_mem_take member) }

theorem Inv.keepTo {i : Nat} {data data' : WalData} (here : s.aWalData[i]? = some data)
    (same : target s data' = target s data) (cksum : data'.aFrameCksum = data.aFrameCksum)
    (nCkpt : data'.nCkpt = s.nCkpt) : Inv m { s with aWalData := s.aWalData.take i ++ [data'] } ∧
      ∀ a ∈ s.aWalData.take i, target s a ≤ target s data := by
  have listed : data ∈ s.aWalData := mem_of_getElem? here
  have before : ∀ a ∈ s.aWalData.take i, target s a ≤ target s data := by
    obtain ⟨inside, eq⟩ := List.getElem?_eq_some_iff.mp here
    have sorted := inv.sorted
    rw [← take_append_drop i s.aWalData, drop_eq_getElem_cons inside, eq, pairwise_append] at sorted
    exact fun a member => sorted.2.2 a member data mem_cons_self
  refine ⟨{ inv with
    saved := fun a member => ?_
    range := fun a member => ?_
    sorted := ?_
    current := fun lock a member => ?_ }, before⟩
  · rcases mem_append.mp member with old | new
    · exact inv.saved a (mem_of_mem_take old)
    · rw [mem_singleton.mp new, cksum]
      have old := inv.saved data listed
      rwa [← same] at old
  · rcases mem_append.mp member with old | new
    · exact inv.range a (mem_of_mem_take old)
    · rw [mem_singleton.mp new]
      have old := inv.range data listed
      rwa [← same] at old
  · refine pairwise_append.mpr ⟨inv.sorted.sublist (take_sublist _ _),
      pairwise_singleton _ _, fun a old b new => ?_⟩
    rw [mem_singleton.mp new]
    have le := before a old
    rwa [← same] at le
  · rcases mem_append.mp member with old | new
    · exact inv.current lock a (mem_of_mem_take old)
    · rw [mem_singleton.mp new]
      exact nCkpt

theorem Inv.savepointUndo (i : Nat) : Inv m (s.sqlite3WalSavepointUndo i) := by
  rw [Handle.sqlite3WalSavepointUndo]
  split
  · exact inv
  · rename_i data here
    generalize eq : (if data.nCkpt ≠ s.nCkpt then
      { data with mxFrame := 0, nCkpt := s.nCkpt } else data) = data'
    have fields : data'.nCkpt = s.nCkpt ∧ data'.aFrameCksum = data.aFrameCksum ∧
        data'.mxFrame = target s data := by
      subst eq
      by_cases current : data.nCkpt = s.nCkpt
      · simp [target, current]
      · simp [target, current]
    obtain ⟨nCkpt, cksum, mxFrame⟩ := fields
    have same : target s data' = target s data := by
      rw [target, if_pos nCkpt, mxFrame]
    obtain ⟨kept, before⟩ := inv.keepTo here same cksum nCkpt
    dsimp only
    split
    · have listed : data ∈ s.aWalData := mem_of_getElem? here
      have behind : s.hdr.mxFrame ≠ 0 := by omega
      exact { kept with
        order := by
          have := (inv.range data listed).1
          change s.shared.mxFrame ≤ data'.mxFrame
          omega
        range := fun a member => by
          refine ⟨(kept.range a member).1, ?_⟩
          change target s a ≤ data'.mxFrame
          rcases mem_append.mp member with old | new
          · rw [mxFrame]
            exact before a old
          · rw [mem_singleton.mp new, same, mxFrame]
        hdr := by
          have old := inv.saved data listed
          rwa [cksum, mxFrame]
        hdrGen := .inr (inv.hdrGen.resolve_left behind)
        szPage := .inr (inv.szPage.resolve_left behind) }
    · exact kept

theorem step_inv (op : Op) : Inv m (step m s op) := by
  cases op with
  | begin nCkpt lockZero => exact inv.toBase.begin nCkpt lockZero
  | frames call => exact inv.frames call
  | dies call written nCkpt lockZero => exact (inv.dies call written).begin nCkpt lockZero
  | undo => exact inv.undo
  | savepoint => exact inv.savepoint
  | release i => exact inv.release i
  | savepointUndo i => exact inv.savepointUndo i

end

theorem run_inv (m : Bool) (ops : List Op) : Inv m (run m ops) := by
  rw [run]
  generalize start_eq : start = s₀
  have inv : Inv m s₀ := start_eq ▸ start_inv
  clear start_eq
  induction ops generalizing s₀ with
  | nil => exact inv
  | cons op ops ih => exact ih (step m s₀ op) (step_inv inv op)

end

end SeSqlite.Wal.Writer
