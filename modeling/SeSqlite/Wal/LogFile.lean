/- source: src/wal.c
   digest: What the writers of frames leave on the log file, generation by generation. -/
import Mathlib.Data.List.TakeDrop
import SeSqlite.Lib.ByteFile
import SeSqlite.Wal.Frames

set_option autoImplicit false
set_option relaxedAutoImplicit false

namespace SeSqlite.Wal.LogFile

open Lib Lib.ByteFile Bytes Wal.Frames List

abbrev PageSize := { n : Nat // n ∈ [512, 1024, 2048, 4096, 8192, 16384, 32768, 65536] }

def walFrameOffset (iFrame szPage : Nat) : Nat :=
  walHdrsize + (iFrame - 1) * (szPage + walFrameHdrsize)

/-- The 32 bytes of the header of the log, and their checksum. -/
def walHeader (bigendian : Bool) (szPage nCkpt : Nat) (aSalt : List UInt8) : List UInt8 × Cksum :=
  let head := sqlite3Put4byte (walMagic + bigendian.toNat) ++ sqlite3Put4byte walMaxVersion ++
    sqlite3Put4byte szPage ++ sqlite3Put4byte nCkpt ++ aSalt
  let aCksum := walChecksumBytes bigendian true head (0, 0)
  (head ++ sqlite3Put4byte aCksum.1 ++ sqlite3Put4byte aCksum.2, aCksum)

/-- The header that stands on the file, and the frames written behind it that chain on to it. -/
structure Generation where
  szPage : PageSize
  nCkpt : Nat
  aSalt : List UInt8
  frames : List Frame

namespace Generation

variable (m : Bool) (g : Generation)

def szFrame : Nat := g.szPage + walFrameHdrsize

def header : List UInt8 × Cksum := walHeader m g.szPage g.nCkpt g.aSalt

def cksum (n : Nat) : Cksum := running m m (g.header m).2 (g.frames.take n)

/-- The fields of a header that stands behind `n` frames. -/
def after (n : Nat) : WalIndexHdr := ⟨m, 0, n, 0, g.cksum m n, g.aSalt⟩

/-- The frame at index `n`, counted from 0, as it is written. -/
def slot (n : Nat) (frame : Frame) : List UInt8 :=
  (walEncodeFrame m (g.after m n) frame).1 ++ frame.data

/-- Frame `k` is overwritten, counted from 0; what was chained behind it is lost. -/
def put (k : Nat) (frame : Frame) : Generation :=
  { g with frames := g.frames.take k ++ [frame] }

end Generation

/-- The generation stands on the file. -/
structure OnFile (m : Bool) (file : ByteFile) (g : Generation) : Prop where
  salt : g.aSalt.length = 8
  header : file.read 0 walHdrsize = (g.header m).1
  fits : ∀ frame ∈ g.frames, frame.Fits g.szPage
  size : walFrameOffset (g.frames.length + 1) g.szPage ≤ file.size
  stored : ∀ n frame, g.frames[n]? = some frame →
    file.read (walFrameOffset (n + 1) g.szPage) g.szFrame = g.slot m n frame

section

variable {m : Bool} {file : ByteFile} {g : Generation}

theorem walFrameOffset_succ (n szPage : Nat) :
    walFrameOffset (n + 1) szPage = walHdrsize + n * (szPage + walFrameHdrsize) := rfl

theorem walFrameOffset_next (n szPage : Nat) : walFrameOffset (n + 1 + 1) szPage =
    walFrameOffset (n + 1) szPage + (szPage + walFrameHdrsize) := by
  rw [walFrameOffset_succ, walFrameOffset_succ, Nat.add_mul]
  omega

variable {n k offset : Nat} {aSalt : List UInt8} {frame : Frame}

theorem walFrameOffset_mono (le : n ≤ k) (szPage : Nat) :
    walFrameOffset (n + 1) szPage ≤ walFrameOffset (k + 1) szPage := by
  have := Nat.mul_le_mul_right (szPage + walFrameHdrsize) le
  rw [walFrameOffset_succ, walFrameOffset_succ]
  omega

theorem length_walHeader (m : Bool) (szPage nCkpt : Nat) (salt : aSalt.length = 8) :
    (walHeader m szPage nCkpt aSalt).1.length = walHdrsize := by
  simp [walHeader, salt, walHdrsize]

theorem header_lt (m : Bool) (szPage nCkpt : Nat) (aSalt : List UInt8) :
    (walHeader m szPage nCkpt aSalt).2.1 < 2 ^ 32 ∧
      (walHeader m szPage nCkpt aSalt).2.2 < 2 ^ 32 :=
  walChecksumBytes_lt _ _ _ ⟨by decide, by decide⟩

theorem Generation.cksum_lt (m : Bool) (g : Generation) (n : Nat) :
    (g.cksum m n).1 < 2 ^ 32 ∧ (g.cksum m n).2 < 2 ^ 32 :=
  running_lt _ _ _ (header_lt _ _ _ _)

theorem Generation.cksum_put (frame : Frame) (le : n ≤ k) (inside : k ≤ g.frames.length) :
    (g.put k frame).cksum m n = g.cksum m n := by
  simp only [Generation.cksum, Generation.put]
  rw [take_append_of_le_length (by rw [length_take]; omega), take_take,
    Nat.min_eq_left le]
  rfl

theorem Generation.length_put (frame : Frame) (inside : k ≤ g.frames.length) :
    (g.put k frame).frames.length = k + 1 := by
  simp [Generation.put, inside]

theorem Generation.cksum_succ (here : g.frames[n]? = some frame) :
    g.cksum m (n + 1) = nextCksum m m (g.cksum m n) frame := by
  simp only [Generation.cksum]
  rw [take_add_one, here, Option.toList_some, running_append]

theorem Generation.getElem?_put_self (frame : Frame) (inside : k ≤ g.frames.length) :
    (g.put k frame).frames[k]? = some frame := by
  have length : (g.frames.take k).length = k := by rw [length_take]; omega
  simp only [Generation.put]
  rw [getElem?_append_right (by omega), length, Nat.sub_self]
  rfl

theorem Generation.getElem?_put_of_lt {k n : Nat} (frame : Frame) (less : n < k)
    (inside : k ≤ g.frames.length) : (g.put k frame).frames[n]? = g.frames[n]? := by
  have length : (g.frames.take k).length = k := by rw [length_take]; omega
  simp only [Generation.put]
  rw [getElem?_append_left (by omega), getElem?_take_of_lt less]

def writeSlot (file : ByteFile) (offset : Nat) (aFrame data : List UInt8) : ByteFile :=
  (file.write offset aFrame).write (offset + aFrame.length) data

theorem read_writeSlot_same {aFrame data : List UInt8} :
    (writeSlot file offset aFrame data).read offset (aFrame.length + data.length) =
      aFrame ++ data := by
  rw [writeSlot, read_add, read_write_same, read_write_apart (.inl le_rfl),
    read_write_same]

theorem read_writeSlot_before {offset' amount : Nat} {aFrame data : List UInt8}
    (before : offset' + amount ≤ offset) :
    (writeSlot file offset aFrame data).read offset' amount = file.read offset' amount := by
  rw [writeSlot, read_write_apart (.inl (by omega)), read_write_apart (.inl before)]

theorem onFile_header {szPage : PageSize} {nCkpt : Nat} (salt : aSalt.length = 8) :
    OnFile m (file.write 0 (walHeader m szPage nCkpt aSalt).1) ⟨szPage, nCkpt, aSalt, []⟩ := by
  have length := length_walHeader m szPage nCkpt salt
  refine ⟨salt, ?_, fun _ member => absurd member not_mem_nil, ?_, fun n _ here => ?_⟩
  · have read := read_write_same file 0 (walHeader m szPage nCkpt aSalt).1
    rwa [length] at read
  · simp only [ByteFile.write, length, walFrameOffset, length_nil, Nat.sub_self, Nat.zero_mul]
    exact Nat.le_max_right _ _
  · simp at here

theorem OnFile.writeSlot (stands : OnFile m file g) (inside : k ≤ g.frames.length)
    (fits : frame.Fits g.szPage) : OnFile m (writeSlot file (walFrameOffset (k + 1) g.szPage)
      (walEncodeFrame m (g.after m k) frame).1 frame.data) (g.put k frame) := by
  have aFrame_length : (walEncodeFrame m (g.after m k) frame).1.length = walFrameHdrsize :=
    length_walEncodeFrame (by exact stands.salt) frame
  have start := walFrameOffset_mono (Nat.zero_le k) g.szPage
  rw [walFrameOffset_succ 0] at start
  refine ⟨stands.salt, ?_, fun f member => ?_, ?_, fun n f here => ?_⟩
  · rw [read_writeSlot_before (by omega)]
    exact stands.header
  · rcases mem_append.mp member with old | new
    · exact stands.fits f (mem_of_mem_take old)
    · rw [mem_singleton.mp new]
      exact fits
  · rw [Generation.length_put frame inside]
    change walFrameOffset (k + 1 + 1) g.szPage ≤ _
    rw [walFrameOffset_next]
    simp only [LogFile.writeSlot, ByteFile.write, fits.length]
    omega
  · have small : n < (g.put k frame).frames.length := (List.getElem?_eq_some_iff.mp here).1
    rw [Generation.length_put frame inside] at small
    change ByteFile.read _ (walFrameOffset (n + 1) g.szPage) g.szFrame = _
    rcases Nat.lt_or_eq_of_le (Nat.le_of_lt_succ small) with less | rfl
    · have before := walFrameOffset_mono (Nat.succ_le_of_lt less) g.szPage
      rw [walFrameOffset_next] at before
      rw [Generation.getElem?_put_of_lt frame less inside] at here
      rw [read_writeSlot_before (by exact before), stands.stored n f here]
      simp only [Generation.slot, Generation.after]
      rw [Generation.cksum_put frame (Nat.le_of_lt less) inside]
      rfl
    · rw [Generation.getElem?_put_self frame inside] at here
      cases here
      have amount : g.szFrame =
          (walEncodeFrame m (g.after m n) frame).1.length + frame.data.length := by
        rw [aFrame_length, fits.length, Generation.szFrame, Nat.add_comm]
      rw [amount, read_writeSlot_same]
      simp only [Generation.slot, Generation.after]
      rw [Generation.cksum_put frame (Nat.le_refl n) inside]
      rfl

theorem OnFile.truncate (stands : OnFile m file g) {size : Nat}
    (enough : walFrameOffset (g.frames.length + 1) g.szPage ≤ size) :
    OnFile m (file.truncate size) g := by
  have start := walFrameOffset_mono (Nat.zero_le g.frames.length) g.szPage
  rw [walFrameOffset_succ 0] at start
  refine ⟨stands.salt, ?_, stands.fits, ?_, fun n frame here => ?_⟩
  · rw [read_truncate (by omega)]
    exact stands.header
  · have := stands.size
    simp only [ByteFile.truncate]
    omega
  · have small : n < g.frames.length := (List.getElem?_eq_some_iff.mp here).1
    have before := walFrameOffset_mono (Nat.succ_le_of_lt small) g.szPage
    rw [walFrameOffset_next] at before
    rw [read_truncate (by rw [Generation.szFrame]; omega)]
    exact stands.stored n frame here

end

end SeSqlite.Wal.LogFile
