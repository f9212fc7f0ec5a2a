/- source: src/wal.c
   digest: Frames and the header of the log as bytes, with the running checksum. -/
import Mathlib.Algebra.Ring.Nat
import SeSqlite.Bytes

set_option autoImplicit false
set_option relaxedAutoImplicit false

namespace SeSqlite.Wal.Frames

open Bytes List

def walHdrsize : Nat := 32
def walFrameHdrsize : Nat := 24
def walMagic : Nat := 0x377f0682
def walMaxVersion : Nat := 3007000
def sqliteMaxPageSize : Nat := 65536

abbrev Cksum := Nat × Nat

/-- A 32-bit load on a machine of the given byte order. -/
def load (bigendian : Bool) (b0 b1 b2 b3 : UInt8) : Nat :=
  if bigendian then b0.toNat * 2 ^ 24 + b1.toNat * 2 ^ 16 + b2.toNat * 2 ^ 8 + b3.toNat
  else b0.toNat + b1.toNat * 2 ^ 8 + b2.toNat * 2 ^ 16 + b3.toNat * 2 ^ 24

def byteswap32 (x : Nat) : Nat :=
  x % 2 ^ 8 * 2 ^ 24 + x / 2 ^ 8 % 2 ^ 8 * 2 ^ 16 + x / 2 ^ 16 % 2 ^ 8 * 2 ^ 8 +
    x / 2 ^ 24 % 2 ^ 8

/-- One turn of the loop for each eight bytes, in 32-bit arithmetic. -/
def walChecksumBytes (bigendian nativeCksum : Bool) : List UInt8 → Cksum → Cksum
  | b0 :: b1 :: b2 :: b3 :: b4 :: b5 :: b6 :: b7 :: rest, (s1, s2) =>
    let word := fun x => if nativeCksum then x else byteswap32 x
    let s1 := (s1 + (word (load bigendian b0 b1 b2 b3) + s2)) % 2 ^ 32
    let s2 := (s2 + (word (load bigendian b4 b5 b6 b7) + s1)) % 2 ^ 32
    walChecksumBytes bigendian nativeCksum rest (s1, s2)
  | _, s => s

theorem byteswap32_load (bigendian : Bool) (b0 b1 b2 b3 : UInt8) :
    byteswap32 (load bigendian b0 b1 b2 b3) = load (!bigendian) b0 b1 b2 b3 := by
  have h0 := b0.toNat_lt
  have h1 := b1.toNat_lt
  have h2 := b2.toNat_lt
  have h3 := b3.toNat_lt
  cases bigendian <;> simp only [byteswap32, load, Bool.not_true, Bool.not_false, if_true,
    Bool.false_eq_true, if_false] <;> omega

/-- The checksum of a log is the same on every machine: the flag of the log says in which byte
order the words are taken. -/
theorem walChecksumBytes_machine (bigEndCksum m m' : Bool) (bytes : List UInt8) (s : Cksum) :
    walChecksumBytes m (bigEndCksum == m) bytes s =
      walChecksumBytes m' (bigEndCksum == m') bytes s := by
  have word : ∀ n b0 b1 b2 b3, (if (bigEndCksum == n) = true then load n b0 b1 b2 b3
      else byteswap32 (load n b0 b1 b2 b3)) = load bigEndCksum b0 b1 b2 b3 := by
    intro n b0 b1 b2 b3
    rw [byteswap32_load]
    cases bigEndCksum <;> cases n <;> simp
  fun_induction walChecksumBytes m (bigEndCksum == m) bytes s with
  | case1 b0 b1 b2 b3 b4 b5 b6 b7 rest s1 s2 own t1 t2 ih =>
    rw [walChecksumBytes, ih]
    simp only [t2, t1, own, word]
  | case2 bytes s short =>
    rw [walChecksumBytes]
    exact short

theorem walChecksumBytes_lt (m native : Bool) (bytes : List UInt8) {s : Cksum}
    (small : s.1 < 2 ^ 32 ∧ s.2 < 2 ^ 32) : (walChecksumBytes m native bytes s).1 < 2 ^ 32 ∧
      (walChecksumBytes m native bytes s).2 < 2 ^ 32 := by
  fun_induction walChecksumBytes m native bytes s with
  | case1 b0 b1 b2 b3 b4 b5 b6 b7 rest s1 s2 _ t1 t2 ih =>
    exact ih ⟨Nat.mod_lt _ (by decide), Nat.mod_lt _ (by decide)⟩
  | case2 => exact small

/-- The fields of `WalIndexHdr` that recovery and the writer of frames use. -/
structure WalIndexHdr where
  bigEndCksum : Bool
  szPage : Nat
  mxFrame : Nat
  nPage : Nat
  aFrameCksum : Cksum
  aSalt : List UInt8
  deriving DecidableEq

/-- The header after `memset(&pWal->hdr, 0, sizeof(WalIndexHdr))`. -/
def WalIndexHdr.zero : WalIndexHdr := ⟨false, 0, 0, 0, (0, 0), replicate 8 0⟩

structure Frame where
  pgno : Nat
  nTruncate : Nat
  data : List UInt8
  deriving DecidableEq

/-- The page number and the size field are 32-bit numbers, and the page number is not zero. -/
structure Frame.Fits (frame : Frame) (szPage : Nat) : Prop where
  positive : 0 < frame.pgno
  pgno_lt : frame.pgno < 2 ^ 32
  nTruncate_lt : frame.nTruncate < 2 ^ 32
  length : frame.data.length = szPage

section

variable (bigendian : Bool)

/-- The checksum over the first eight bytes of a frame header and the page. -/
def frameCksum (bigEndCksum : Bool) (head data : List UInt8) (s : Cksum) : Cksum :=
  let nativeCksum := bigEndCksum == bigendian
  walChecksumBytes bigendian nativeCksum data (walChecksumBytes bigendian nativeCksum head s)

/-- The frame header and the new `hdr.aFrameCksum`. -/
def walEncodeFrame (hdr : WalIndexHdr) (frame : Frame) : List UInt8 × Cksum :=
  let head := sqlite3Put4byte frame.pgno ++ sqlite3Put4byte frame.nTruncate
  let aCksum := frameCksum bigendian hdr.bigEndCksum head frame.data hdr.aFrameCksum
  (head ++ hdr.aSalt ++ sqlite3Put4byte aCksum.1 ++ sqlite3Put4byte aCksum.2, aCksum)

/-- The page number and size field of a valid frame, and the new `hdr.aFrameCksum`, which has also
moved where only the checksum test fails. -/
def walDecodeFrame (hdr : WalIndexHdr) (aFrame aData : List UInt8) : Option (Nat × Nat) × Cksum :=
  if hdr.aSalt ≠ (aFrame.drop 8).take 8 then (none, hdr.aFrameCksum)
  else
    let pgno := sqlite3Get4byte aFrame
    if pgno = 0 then (none, hdr.aFrameCksum)
    else
      let aCksum := frameCksum bigendian hdr.bigEndCksum (aFrame.take 8) aData hdr.aFrameCksum
      if aCksum.1 ≠ sqlite3Get4byte (aFrame.drop 16) ∨
          aCksum.2 ≠ sqlite3Get4byte (aFrame.drop 20) then
        (none, aCksum)
      else (some (pgno, sqlite3Get4byte (aFrame.drop 4)), aCksum)

def nextCksum (bigEndCksum : Bool) (s : Cksum) (frame : Frame) : Cksum :=
  frameCksum bigendian bigEndCksum
    (sqlite3Put4byte frame.pgno ++ sqlite3Put4byte frame.nTruncate) frame.data s

def running (bigEndCksum : Bool) (s : Cksum) (frames : List Frame) : Cksum :=
  frames.foldl (nextCksum bigendian bigEndCksum) s

theorem nextCksum_machine (bigEndCksum m m' : Bool) (s : Cksum) (frame : Frame) :
    nextCksum m bigEndCksum s frame = nextCksum m' bigEndCksum s frame := by
  simp only [nextCksum, frameCksum]
  rw [walChecksumBytes_machine bigEndCksum m m' _ s, walChecksumBytes_machine bigEndCksum m m']

theorem nextCksum_lt (bigEndCksum : Bool) {s : Cksum} (frame : Frame)
    (small : s.1 < 2 ^ 32 ∧ s.2 < 2 ^ 32) : (nextCksum bigendian bigEndCksum s frame).1 < 2 ^ 32 ∧
      (nextCksum bigendian bigEndCksum s frame).2 < 2 ^ 32 :=
  walChecksumBytes_lt _ _ _ (walChecksumBytes_lt _ _ _ small)

theorem running_lt (bigEndCksum : Bool) {s : Cksum} (frames : List Frame)
    (small : s.1 < 2 ^ 32 ∧ s.2 < 2 ^ 32) : (running bigendian bigEndCksum s frames).1 < 2 ^ 32 ∧
      (running bigendian bigEndCksum s frames).2 < 2 ^ 32 := by
  induction frames generalizing s with
  | nil => exact small
  | cons frame frames ih => exact ih (nextCksum_lt bigendian bigEndCksum frame small)

theorem running_append (bigEndCksum : Bool) (s : Cksum) (frames : List Frame) (frame : Frame) :
    running bigendian bigEndCksum s (frames ++ [frame]) =
      nextCksum bigendian bigEndCksum (running bigendian bigEndCksum s frames) frame := by
  rw [running, foldl_append]
  rfl

variable {bigendian} {hdr : WalIndexHdr}

theorem walEncodeFrame_snd (frame : Frame) : (walEncodeFrame bigendian hdr frame).2 =
    nextCksum bigendian hdr.bigEndCksum hdr.aFrameCksum frame := rfl

theorem length_walEncodeFrame (salt : hdr.aSalt.length = 8) (frame : Frame) :
    (walEncodeFrame bigendian hdr frame).1.length = walFrameHdrsize := by
  simp [walEncodeFrame, salt, walFrameHdrsize]

/-- A frame is read back by a connection that has the salt, byte order and running checksum the
writer had, on whatever machine. -/
theorem walDecodeFrame_encode {m : Bool} (salt : hdr.aSalt.length = 8)
    (small : hdr.aFrameCksum.1 < 2 ^ 32 ∧ hdr.aFrameCksum.2 < 2 ^ 32) {frame : Frame} {szPage : Nat}
    (fits : frame.Fits szPage) :
    walDecodeFrame m hdr (walEncodeFrame bigendian hdr frame).1 frame.data =
      (some (frame.pgno, frame.nTruncate),
        nextCksum bigendian hdr.bigEndCksum hdr.aFrameCksum frame) := by
  have lt := nextCksum_lt bigendian hdr.bigEndCksum frame small
  have same := nextCksum_machine hdr.bigEndCksum m bigendian hdr.aFrameCksum frame
  have form : (walEncodeFrame bigendian hdr frame).1 =
      sqlite3Put4byte frame.pgno ++ (sqlite3Put4byte frame.nTruncate ++ (hdr.aSalt ++
        (sqlite3Put4byte (nextCksum bigendian hdr.bigEndCksum hdr.aFrameCksum frame).1 ++
          sqlite3Put4byte (nextCksum bigendian hdr.bigEndCksum hdr.aFrameCksum frame).2))) := by
    simp [walEncodeFrame, nextCksum]
  rw [form]
  generalize nextCksum bigendian hdr.bigEndCksum hdr.aFrameCksum frame = s at lt same ⊢
  -- the four-byte fields are explicit lists, the salt is taken off by its length
  have salted : ((sqlite3Put4byte frame.pgno ++ (sqlite3Put4byte frame.nTruncate ++
      (hdr.aSalt ++ (sqlite3Put4byte s.1 ++ sqlite3Put4byte s.2)))).drop 8).take 8 =
      hdr.aSalt := by
    exact take_left' salt
  have head : (sqlite3Put4byte frame.pgno ++ (sqlite3Put4byte frame.nTruncate ++
      (hdr.aSalt ++ (sqlite3Put4byte s.1 ++ sqlite3Put4byte s.2)))).take 8 =
      sqlite3Put4byte frame.pgno ++ sqlite3Put4byte frame.nTruncate := rfl
  have at4 : (sqlite3Put4byte frame.pgno ++ (sqlite3Put4byte frame.nTruncate ++
      (hdr.aSalt ++ (sqlite3Put4byte s.1 ++ sqlite3Put4byte s.2)))).drop 4 =
      sqlite3Put4byte frame.nTruncate ++
        (hdr.aSalt ++ (sqlite3Put4byte s.1 ++ sqlite3Put4byte s.2)) := rfl
  have at16 : (sqlite3Put4byte frame.pgno ++ (sqlite3Put4byte frame.nTruncate ++
      (hdr.aSalt ++ (sqlite3Put4byte s.1 ++ sqlite3Put4byte s.2)))).drop 16 =
      sqlite3Put4byte s.1 ++ sqlite3Put4byte s.2 := by
    exact drop_left' salt
  have at20 : (sqlite3Put4byte frame.pgno ++ (sqlite3Put4byte frame.nTruncate ++
      (hdr.aSalt ++ (sqlite3Put4byte s.1 ++ sqlite3Put4byte s.2)))).drop 20 =
      sqlite3Put4byte s.2 ++ [] := by
    change (hdr.aSalt ++ (sqlite3Put4byte s.1 ++ sqlite3Put4byte s.2)).drop (8 + 4) = _
    rw [← drop_drop, drop_left' salt]
    rfl
  have sum : frameCksum m hdr.bigEndCksum
      (sqlite3Put4byte frame.pgno ++ sqlite3Put4byte frame.nTruncate) frame.data
        hdr.aFrameCksum = s := same
  have positive := fits.positive
  simp only [walDecodeFrame, salted, head, at4, at16, at20, sum, get4byte_put4byte fits.pgno_lt,
    get4byte_put4byte fits.nTruncate_lt, get4byte_put4byte lt.1, get4byte_put4byte lt.2]
  simp [Nat.ne_of_gt positive]

end

end SeSqlite.Wal.Frames
