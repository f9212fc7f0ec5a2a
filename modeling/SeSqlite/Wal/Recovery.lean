/- source: src/wal.c
   digest: Recovery from a log file that is cut anywhere finds the last whole commit. -/
import SeSqlite.Wal.Index
import SeSqlite.Wal.Writer

set_option autoImplicit false
set_option relaxedAutoImplicit false

namespace SeSqlite.Wal.Recovery

open Lib (ByteFile)
open Lib.ByteFile (read_truncate)
open Bytes (sqlite3Put4byte sqlite3Get4byte get4byte_put4byte)
open Wal.Frames
open Wal.LogFile
open Wal.Writer (packSize Op run run_inv)
open Wal.Index (Mem readmarkNotUsed walIndexAppend sqlite3WalFindFrame Indexed indexed_empty Newest
  linearScan_newest linearScan_take)

structure Recovered where
  hdr : WalIndexHdr
  mem : Mem
  nBackfill : Nat
  aReadMark : List Nat

/-- Frame `iFrame` of the file is read and decoded. -/
def decodeAt (m : Bool) (file : ByteFile) (szPage : Nat) (hdr : WalIndexHdr) (iFrame : Nat) :
    Option (Nat × Nat) × Cksum :=
  let aFrame := file.read (walFrameOffset iFrame szPage) (szPage + walFrameHdrsize)
  walDecodeFrame m hdr (aFrame.take walFrameHdrsize) (aFrame.drop walFrameHdrsize)

/-- The loop over the frames: how many slots are left and how many are done, the header with the
running checksum, the wal-index, and the checksum of the last commit. -/
def readFrames (m : Bool) (file : ByteFile) (szPage : Nat) :
    Nat → Nat → WalIndexHdr → Mem → Cksum → Option (WalIndexHdr × Mem × Cksum)
  | 0, _, hdr, mem, aFrameCksum => some (hdr, mem, aFrameCksum)
  | left + 1, done, hdr, mem, aFrameCksum =>
    let iFrame := done + 1
    match decodeAt m file szPage hdr iFrame with
    | (none, aCksum) => some ({ hdr with aFrameCksum := aCksum }, mem, aFrameCksum)
    | (some (pgno, nTruncate), aCksum) =>
      match walIndexAppend mem hdr.mxFrame iFrame pgno with
      | none => none
      | some mem =>
        if nTruncate ≠ 0 then
          readFrames m file szPage left iFrame
            { hdr with aFrameCksum := aCksum, mxFrame := iFrame, nPage := nTruncate,
                       szPage := packSize szPage } mem aCksum
        else readFrames m file szPage left iFrame { hdr with aFrameCksum := aCksum } mem aFrameCksum

/-- The label `finished`: the checksum of the last commit and a fresh checkpoint header. -/
def finished (hdr : WalIndexHdr) (mem : Mem) (aFrameCksum : Cksum) : Recovered where
  hdr := { hdr with aFrameCksum := aFrameCksum }
  mem := mem
  nBackfill := 0
  aReadMark := [0, if hdr.mxFrame ≠ 0 then hdr.mxFrame else readmarkNotUsed, readmarkNotUsed,
    readmarkNotUsed, readmarkNotUsed]

/-- `none` stands for an error code. The frames that fit behind the header are counted at once. -/
def walIndexRecover (m : Bool) (mem : Mem) (file : ByteFile) : Option Recovered :=
  let hdr := WalIndexHdr.zero
  if file.size ≤ walHdrsize then some (finished hdr mem (0, 0))
  else
    let aBuf := file.read 0 walHdrsize
    let magic := sqlite3Get4byte aBuf
    let szPage := sqlite3Get4byte (aBuf.drop 8)
    if magic / 2 * 2 ≠ walMagic ∨ szPage &&& (szPage - 1) ≠ 0 ∨ szPage > sqliteMaxPageSize ∨
        szPage < 512 then
      some (finished hdr mem (0, 0))
    else
      let bigEndCksum := magic % 2 == 1
      let aCksum := walChecksumBytes m (bigEndCksum == m) (aBuf.take 24) (0, 0)
      let hdr := { hdr with bigEndCksum := bigEndCksum, aSalt := (aBuf.drop 16).take 8,
                            aFrameCksum := aCksum }
      if aCksum.1 ≠ sqlite3Get4byte (aBuf.drop 24) ∨
          aCksum.2 ≠ sqlite3Get4byte (aBuf.drop 28) then
        some (finished hdr mem (0, 0))
      else if sqlite3Get4byte (aBuf.drop 4) ≠ walMaxVersion then none
      else
        (readFrames m file szPage ((file.size - walHdrsize) / (szPage + walFrameHdrsize)) 0 hdr
          mem (0, 0)).map fun (hdr, mem, aFrameCksum) => finished hdr mem aFrameCksum

/-- The frames of the generation that lie wholly before the end of the file. -/
def wholeFrames (gen : Option Generation) (size : Nat) : List Frame :=
  match gen with
  | none => []
  | some g => g.frames.take ((size - walHdrsize) / g.szFrame)

/-- Frame `last` is the last one that carries a commit; 0 stands for none. -/
def LastCommit (frames : List Frame) (last : Nat) : Prop :=
  (last = 0 ∨ ∃ frame, frames[last - 1]? = some frame ∧ frame.nTruncate ≠ 0) ∧
    ∀ n frame, last ≤ n → frames[n]? = some frame → frame.nTruncate = 0

/-- The bytes behind the last frame of the chain, stale ones or those of a write that was cut
short, do not pass for its next frame. -/
def NoAccident (m : Bool) (gen : Option Generation) (file : ByteFile) : Prop :=
  ∀ g, gen = some g → walFrameOffset (g.frames.length + 2) g.szPage ≤ file.size →
    (decodeAt m file g.szPage (g.after m g.frames.length) (g.frames.length + 1)).1 = none

private theorem walDecodeFrame_machine (m m' : Bool) (hdr : WalIndexHdr)
    (aFrame aData : List UInt8) :
    walDecodeFrame m hdr aFrame aData = walDecodeFrame m' hdr aFrame aData := by
  have same : ∀ head s, frameCksum m hdr.bigEndCksum head aData s =
      frameCksum m' hdr.bigEndCksum head aData s := by
    intro head s
    simp only [frameCksum]
    rw [walChecksumBytes_machine hdr.bigEndCksum m m' head s,
      walChecksumBytes_machine hdr.bigEndCksum m m']
  simp [walDecodeFrame, same]

private theorem decodeAt_congr {m : Bool} {hdr hdr' : WalIndexHdr} (file : ByteFile)
    (szPage iFrame : Nat)
    (salt : hdr.aSalt = hdr'.aSalt) (order : hdr.bigEndCksum = hdr'.bigEndCksum)
    (cksum : hdr.aFrameCksum = hdr'.aFrameCksum) :
    decodeAt m file szPage hdr iFrame = decodeAt m file szPage hdr' iFrame := by
  simp [decodeAt, walDecodeFrame, salt, order, cksum]

/-- The words of the header as they are read back. -/
structure Words (m : Bool) (g : Generation) (aBuf : List UInt8) : Prop where
  magic : sqlite3Get4byte aBuf = walMagic + m.toNat
  version : sqlite3Get4byte (aBuf.drop 4) = walMaxVersion
  szPage : sqlite3Get4byte (aBuf.drop 8) = g.szPage
  aSalt : (aBuf.drop 16).take 8 = g.aSalt
  cksum1 : sqlite3Get4byte (aBuf.drop 24) = (g.header m).2.1
  cksum2 : sqlite3Get4byte (aBuf.drop 28) = (g.header m).2.2
  sum : ∀ m', walChecksumBytes m' (m == m') (aBuf.take 24) (0, 0) = (g.header m).2

private theorem pageSize_spec (szPage : PageSize) : szPage.1 &&& (szPage.1 - 1) = 0 ∧
    szPage.1 ≤ sqliteMaxPageSize ∧ 512 ≤ szPage.1 ∧ szPage.1 < 2 ^ 32 := by
  have all : ∀ n ∈ [512, 1024, 2048, 4096, 8192, 16384, 32768, 65536],
      n &&& (n - 1) = 0 ∧ n ≤ sqliteMaxPageSize ∧ 512 ≤ n ∧ n < 2 ^ 32 := by decide
  exact all szPage.1 szPage.2

private theorem header_words {m : Bool} {g : Generation} (salt : g.aSalt.length = 8) :
    Words m g (g.header m).1 := by
  have magic_lt : walMagic + m.toNat < 2 ^ 32 := by cases m <;> decide
  have size_lt := (pageSize_spec g.szPage).2.2.2
  have lt : (g.header m).2.1 < 2 ^ 32 ∧ (g.header m).2.2 < 2 ^ 32 := header_lt _ _ _ _
  generalize tail : sqlite3Put4byte (g.header m).2.1 ++ sqlite3Put4byte (g.header m).2.2 = sums
  have form : (g.header m).1 = sqlite3Put4byte (walMagic + m.toNat) ++
      (sqlite3Put4byte walMaxVersion ++ (sqlite3Put4byte g.szPage ++ (sqlite3Put4byte g.nCkpt ++
        (g.aSalt ++ sums)))) := by
    rw [← tail]
    simp [Generation.header, walHeader]
  have at24 : (g.header m).1.drop 24 = sums := by
    rw [form]
    simp only [← List.append_assoc]
    refine List.drop_left' ?_
    simp [salt]
  have at28 : (g.header m).1.drop 28 = sqlite3Put4byte (g.header m).2.2 ++ [] := by
    have split : (g.header m).1.drop 28 = ((g.header m).1.drop 24).drop 4 := by
      rw [List.drop_drop]
    rw [split, at24, ← tail]
    exact List.drop_left' rfl
  refine ⟨?_, ?_, ?_, ?_, ?_, ?_, fun m' => ?_⟩
  · rw [form, get4byte_put4byte magic_lt]
  · exact get4byte_put4byte (by decide) _
  · exact get4byte_put4byte size_lt _
  · rw [form]
    exact List.take_left' salt
  · rw [at24, ← tail, get4byte_put4byte lt.1]
  · rw [at28, get4byte_put4byte lt.2]
  · have head : (g.header m).1.take 24 = sqlite3Put4byte (walMagic + m.toNat) ++
        sqlite3Put4byte walMaxVersion ++ sqlite3Put4byte g.szPage ++ sqlite3Put4byte g.nCkpt ++
          g.aSalt := by
      rw [Generation.header, walHeader, List.append_assoc]
      exact List.take_left' (by simp [salt])
    rw [head, walChecksumBytes_machine m m' m, beq_self_eq_true]
    rfl

variable {file : ByteFile}

private theorem walIndexRecover_header {m m' : Bool} {mem : Mem} {g : Generation}
    (header : file.read 0 walHdrsize = (g.header m).1) (salt : g.aSalt.length = 8)
    (long : walHdrsize < file.size) : walIndexRecover m' mem file =
      (readFrames m' file g.szPage ((file.size - walHdrsize) / g.szFrame) 0
        { WalIndexHdr.zero with bigEndCksum := m, aSalt := g.aSalt, aFrameCksum := g.cksum m 0 }
        mem (0, 0)).map fun (hdr, mem, aFrameCksum) => finished hdr mem aFrameCksum := by
  have flag : ((walMagic + m.toNat) % 2 == 1) = m := by cases m <;> decide
  have magic : (walMagic + m.toNat) / 2 * 2 = walMagic := by cases m <;> decide
  obtain ⟨power, small, large, -⟩ := pageSize_spec g.szPage
  have words := header_words (m := m) salt
  have passes : ¬ ((walMagic + m.toNat) / 2 * 2 ≠ walMagic ∨ g.szPage.1 &&& (g.szPage.1 - 1) ≠ 0 ∨
      g.szPage.1 > sqliteMaxPageSize ∨ g.szPage.1 < 512) := by
    omega
  have matches_sum : ¬ ((g.header m).2.1 ≠ (g.header m).2.1 ∨
      (g.header m).2.2 ≠ (g.header m).2.2) := by simp
  rw [walIndexRecover, if_neg (by omega), header]
  simp only [words.magic, words.version, words.szPage, words.cksum1, words.cksum2, words.aSalt,
    flag, words.sum m']
  rw [if_neg passes, if_neg (by simp)]
  rfl

section

variable {m m' : Bool} {file : ByteFile} {g : Generation}

/-- The size field of the last commit, and the checksum after it. -/
def sizeAt (frames : List Frame) (last : Nat) : Nat :=
  if last = 0 then 0 else ((frames[last - 1]?).map Frame.nTruncate).getD 0

def cksumAt (m : Bool) (g : Generation) (last : Nat) : Cksum :=
  if last = 0 then (0, 0) else g.cksum m last

/-- What the loop has found after the first `done` frames. -/
structure Found (m : Bool) (g : Generation) (done : Nat) (hdr : WalIndexHdr) (mem : Mem)
    (aFrameCksum : Cksum) : Prop where
  last : LastCommit (g.frames.take done) hdr.mxFrame
  nPage : hdr.nPage = sizeAt g.frames hdr.mxFrame
  saved : aFrameCksum = cksumAt m g hdr.mxFrame
  indexed : Indexed mem hdr.mxFrame done ((g.frames.take done).map Frame.pgno)

variable {frame : Frame}

private theorem lastCommit_commit (frames : List Frame) (commit : frame.nTruncate ≠ 0) :
    LastCommit (frames ++ [frame]) (frames.length + 1) := by
  refine ⟨.inr ⟨frame, ?_, commit⟩, fun n f le here => ?_⟩
  · rw [Nat.add_sub_cancel, List.getElem?_concat_length]
  · have inside := (List.getElem?_eq_some_iff.mp here).1
    rw [List.length_append, List.length_singleton] at inside
    omega

private theorem LastCommit.spill {frames : List Frame} {last : Nat}
    (commits : LastCommit frames last)
    (spill : frame.nTruncate = 0) : LastCommit (frames ++ [frame]) last := by
  obtain ⟨here, later⟩ := commits
  constructor
  · rcases here with zero | ⟨f, eq, commit⟩
    · exact .inl zero
    · refine .inr ⟨f, ?_, commit⟩
      rw [List.getElem?_append_left (List.getElem?_eq_some_iff.mp eq).1, eq]
  · intro n f le eq
    by_cases inside : n < frames.length
    · rw [List.getElem?_append_left inside] at eq
      exact later n f le eq
    · rw [List.getElem?_append_right (by omega)] at eq
      obtain rfl := List.mem_singleton.mp (List.mem_of_getElem? eq)
      exact spill

private theorem decodeAt_slot (salt : g.aSalt.length = 8) {n : Nat}
    (here : g.frames[n]? = some frame) (fits : frame.Fits g.szPage)
    (slot : file.read (walFrameOffset (n + 1) g.szPage) g.szFrame = g.slot m n frame) :
    decodeAt m' file g.szPage (g.after m n) (n + 1) =
      (some (frame.pgno, frame.nTruncate), g.cksum m (n + 1)) := by
  have length : (walEncodeFrame m (g.after m n) frame).1.length = walFrameHdrsize :=
    length_walEncodeFrame (by exact salt) frame
  change walDecodeFrame m' _ (List.take _ (file.read _ g.szFrame))
    (List.drop _ (file.read _ g.szFrame)) = _
  rw [slot, Generation.slot, List.take_left' length, List.drop_left' length,
    walDecodeFrame_encode (by exact salt) (g.cksum_lt m n) fits, Generation.cksum_succ here]
  simp [Generation.after]

private theorem readFrames_found (m' : Bool) (file : ByteFile) (salt : g.aSalt.length = 8)
    (fits : ∀ frame ∈ g.frames, frame.Fits g.szPage) (count : Nat)
    (stored : ∀ n frame, n < count → g.frames[n]? = some frame →
      file.read (walFrameOffset (n + 1) g.szPage) g.szFrame = g.slot m n frame)
    (ends : g.frames.length < count →
      (decodeAt m' file g.szPage (g.after m g.frames.length) (g.frames.length + 1)).1 = none)
    {left done : Nat} (all : done + left = count) (inside : done ≤ g.frames.length)
    {hdr : WalIndexHdr} {mem : Mem} {aFrameCksum : Cksum}
    (found : Found m g done hdr mem aFrameCksum) (order : hdr.bigEndCksum = m)
    (aSalt : hdr.aSalt = g.aSalt) (cksum : hdr.aFrameCksum = g.cksum m done) :
    ∃ hdr' mem' aFrameCksum',
      readFrames m' file g.szPage left done hdr mem aFrameCksum =
        some (hdr', mem', aFrameCksum') ∧
      Found m g (min g.frames.length count) hdr' mem' aFrameCksum' := by
  induction left generalizing done hdr mem aFrameCksum with
  | zero =>
    refine ⟨hdr, mem, aFrameCksum, rfl, ?_⟩
    have finished : min g.frames.length count = done := by omega
    rwa [finished]
  | succ left ih =>
    have decoded : decodeAt m' file g.szPage hdr (done + 1) =
        decodeAt m' file g.szPage (g.after m done) (done + 1) :=
      decodeAt_congr file g.szPage (done + 1) aSalt order cksum
    rcases Nat.lt_or_eq_of_le inside with less | rfl
    · -- one more frame of the chain
      obtain ⟨frame, here⟩ : ∃ frame, g.frames[done]? = some frame :=
        ⟨_, List.getElem?_eq_getElem less⟩
      have frame_fits := fits frame (List.mem_of_getElem? here)
      have taken : g.frames.take (done + 1) = g.frames.take done ++ [frame] := by
        rw [List.take_add_one, here, Option.toList_some]
      have length : (g.frames.take done).length = done := by
        rw [List.length_take]
        omega
      obtain ⟨mem', appended, indexed⟩ := found.indexed.append frame_fits.positive
      have pages : (g.frames.take (done + 1)).map Frame.pgno =
          (g.frames.take done).map Frame.pgno ++ [frame.pgno] := by
        rw [taken, List.map_append]
        rfl
      rw [← pages] at indexed
      have slot := stored done frame (by omega) here
      rw [decodeAt_slot salt here frame_fits slot] at decoded
      rw [readFrames, decoded]
      dsimp only
      rw [appended]
      dsimp only
      by_cases commit : frame.nTruncate ≠ 0
      · rw [if_pos commit]
        refine ih (by omega) (by omega) ⟨?_, ?_, ?_, indexed.finish⟩ order aSalt rfl
        · have last := lastCommit_commit (g.frames.take done) commit
          rwa [length, ← taken] at last
        · simp [sizeAt, here]
        · simp [cksumAt]
      · rw [if_neg commit]
        refine ih (by omega) (by omega) ⟨?_, found.nPage, found.saved, indexed⟩ order aSalt rfl
        rw [taken]
        exact found.last.spill (by omega)
    · -- the chain has ended before the file
      have invalid := ends (by omega)
      rw [← decoded] at invalid
      obtain ⟨aCksum, eq⟩ : ∃ aCksum,
          decodeAt m' file g.szPage hdr (g.frames.length + 1) = (none, aCksum) :=
        ⟨_, Prod.ext invalid rfl⟩
      refine ⟨{ hdr with aFrameCksum := aCksum }, mem, aFrameCksum, ?_, ?_⟩
      · rw [readFrames, eq]
      · have finished : min g.frames.length count = g.frames.length := by omega
        rw [finished]
        exact ⟨found.last, found.nPage, found.saved, found.indexed⟩

end

private theorem lt_count_iff {size n : Nat} (g : Generation) :
    n < (size - walHdrsize) / g.szFrame ↔ walFrameOffset (n + 2) g.szPage ≤ size := by
  have pos : 0 < g.szFrame := Nat.succ_pos _
  rw [Nat.lt_iff_add_one_le, Nat.le_div_iff_mul_le pos]
  change _ ↔ walHdrsize + (n + 1) * g.szFrame ≤ size
  have some_frame : g.szFrame ≤ (n + 1) * g.szFrame := Nat.le_mul_of_pos_left _ (Nat.succ_pos n)
  omega

private theorem found_start (m : Bool) (g : Generation) (mem : Mem) (hdr : WalIndexHdr)
    (mxFrame : hdr.mxFrame = 0) (nPage : hdr.nPage = 0) : Found m g 0 hdr mem (0, 0) := by
  refine ⟨?_, ?_, ?_, ?_⟩
  · rw [mxFrame]
    exact ⟨.inl rfl, fun n frame _ here => by simp at here⟩
  · rw [mxFrame, nPage, sizeAt, if_pos rfl]
  · rw [mxFrame, cksumAt, if_pos rfl]
  · rw [mxFrame]
    exact indexed_empty mem

private theorem OnFile.recover {m : Bool} {g : Generation} (stands : OnFile m file g) (m' : Bool)
    (mem : Mem) (cut : Nat) (noAccident : NoAccident m (some g) (file.truncate cut)) :
    ∃ hdr mem' aFrameCksum, walIndexRecover m' mem (file.truncate cut) =
        some (finished hdr mem' aFrameCksum) ∧
      Found m g (min g.frames.length (((file.truncate cut).size - walHdrsize) / g.szFrame)) hdr
        mem' aFrameCksum := by
  by_cases short : (file.truncate cut).size ≤ walHdrsize
  · refine ⟨WalIndexHdr.zero, mem, (0, 0), by rw [walIndexRecover, if_pos short], ?_⟩
    rw [Nat.sub_eq_zero_of_le short, Nat.zero_div, Nat.min_zero]
    exact found_start m g mem _ rfl rfl
  · have within : (file.truncate cut).size ≤ cut := Nat.min_le_right _ _
    have header : (file.truncate cut).read 0 walHdrsize = (g.header m).1 := by
      rw [read_truncate (by omega)]
      exact stands.header
    rw [walIndexRecover_header header stands.salt (by omega)]
    have loop := readFrames_found m' (file.truncate cut) stands.salt stands.fits
      (((file.truncate cut).size - walHdrsize) / g.szFrame)
      (fun n frame less here => by
        have whole := (lt_count_iff g).mp less
        rw [walFrameOffset_next] at whole
        rw [read_truncate (by rw [Generation.szFrame]; omega)]
        exact stands.stored n frame here)
      (fun less => by
        rw [decodeAt, walDecodeFrame_machine m' m]
        exact noAccident g rfl ((lt_count_iff g).mp less))
      (Nat.zero_add _) (Nat.zero_le _)
      (found_start m g mem { WalIndexHdr.zero with
        bigEndCksum := m, aSalt := g.aSalt, aFrameCksum := g.cksum m 0 } rfl rfl) rfl rfl rfl
    obtain ⟨hdr, mem', aFrameCksum, eq, found⟩ := loop
    exact ⟨hdr, mem', aFrameCksum, by rw [eq]; rfl, found⟩

/-- For whatever the writers did and wherever the file is cut, recovery on any machine and with any
rest in shared memory finds the last commit that is wholly on the file, its size and its checksum,
and indexes the pages up to it. -/
theorem walIndexRecover_lastCommit (m m' : Bool) (mem : Mem) (ops : List Op) (cut : Nat)
    (noAccident : NoAccident m (run m ops).gen ((run m ops).file.truncate cut)) :
    ∃ r, walIndexRecover m' mem ((run m ops).file.truncate cut) = some r ∧
      let frames := wholeFrames (run m ops).gen ((run m ops).file.truncate cut).size
      LastCommit frames r.hdr.mxFrame ∧ r.hdr.nPage = sizeAt frames r.hdr.mxFrame ∧
      (∀ g, (run m ops).gen = some g → r.hdr.aFrameCksum = cksumAt m g r.hdr.mxFrame) ∧
      ∀ readLock pgno, readLock ≠ 0 → ∃ f,
        sqlite3WalFindFrame r.mem readLock r.hdr.mxFrame pgno = some f ∧
        Newest ((frames.take r.hdr.mxFrame).map Frame.pgno) r.hdr.mxFrame pgno f := by
  have inv := run_inv m ops
  generalize run m ops = s at noAccident inv ⊢
  cases gen : s.gen with
  | none =>
    have empty : (s.file.truncate cut).size ≤ walHdrsize := by
      have := inv.empty gen
      simp only [ByteFile.truncate]
      omega
    refine ⟨finished WalIndexHdr.zero mem (0, 0), by rw [walIndexRecover, if_pos empty],
      ⟨.inl rfl, fun n frame _ here => ?_⟩, rfl, fun g other => ?_, fun readLock pgno _ => ?_⟩
    · simp [wholeFrames] at here
    · simp at other
    · exact ⟨0, rfl, .inl ⟨rfl, fun f less => absurd less (Nat.not_lt_zero f)⟩⟩
  | some g =>
    rw [gen] at noAccident
    obtain ⟨hdr, mem', aFrameCksum, eq, found⟩ :=
      OnFile.recover (inv.stands g gen) m' mem cut noAccident
    have whole : wholeFrames (some g) (s.file.truncate cut).size =
        g.frames.take (min g.frames.length
          (((s.file.truncate cut).size - walHdrsize) / g.szFrame)) := by
      rw [wholeFrames, Nat.min_comm, ← List.take_eq_take_min]
    generalize min g.frames.length
      (((s.file.truncate cut).size - walHdrsize) / g.szFrame) = count at found whole
    have le := found.indexed.le
    refine ⟨finished hdr mem' aFrameCksum, eq, ?_⟩
    dsimp only [finished]
    rw [whole]
    refine ⟨found.last, ?_, fun g' same => ?_, fun readLock pgno reads => ?_⟩
    · rw [found.nPage, sizeAt, sizeAt]
      split
      · rfl
      · rw [List.getElem?_take_of_lt (by omega)]
    · cases same
      exact found.saved
    · refine ⟨_, found.indexed.findFrame le reads, ?_⟩
      rw [List.map_take, ← linearScan_take (Nat.le_refl hdr.mxFrame)]
      exact linearScan_newest _ _ _

/-- Two pages are committed; the log is then restarted, and one page is committed over the first
frame, so that a frame of the old log stands behind the new one. -/
def restarted : List Op :=
  [.begin 0 false, .frames ⟨none, ⟨512, by decide⟩, fun _ => 7,
    ⟨1, by decide, by decide, fun _ => 0⟩, [⟨2, by decide, by decide, fun _ => 0⟩], 2, none, none⟩,
   .begin 0 true, .frames ⟨some fun _ => 9, ⟨512, by decide⟩, fun _ => 7,
    ⟨1, by decide, by decide, fun _ => 5⟩, [], 1, none, none⟩]

private theorem restarted_gen : (run false restarted).gen = some ⟨⟨512, by decide⟩, 1,
    [7, 7, 7, 8, 9, 9, 9, 9], [⟨1, 1, (List.range 512).map fun _ => 5⟩]⟩ := rfl

private theorem restarted_size : ((run false restarted).file.truncate 1104).size = 1104 := by
  decide +kernel

/-- The salts of the old frame are not those of the new log. -/
private theorem restarted_noAccident : NoAccident false (run false restarted).gen
    ((run false restarted).file.truncate 1104) := by
  intro g here _
  rw [restarted_gen] at here
  cases here
  rw [decodeAt, walDecodeFrame, if_pos]
  decide +kernel

/-- The whole file is recovered with the frame of the new log alone. -/
theorem walIndexRecover_restarted :
    ∃ r, walIndexRecover true (fun _ => Index.blank)
        ((run false restarted).file.truncate 1104) = some r ∧
      r.hdr.mxFrame = 1 ∧ r.hdr.nPage = 1 := by
  obtain ⟨r, eq, last, nPage, -⟩ := walIndexRecover_lastCommit false true (fun _ => Index.blank)
    restarted 1104 restarted_noAccident
  rw [restarted_size, restarted_gen] at last nPage
  change LastCommit [⟨1, 1, (List.range 512).map fun _ => 5⟩] r.hdr.mxFrame at last
  have found : r.hdr.mxFrame = 1 := by
    obtain ⟨start_or_commit, later⟩ := last
    have positive : r.hdr.mxFrame ≠ 0 := fun zero =>
      absurd (later 0 _ (by omega) rfl) (by decide)
    obtain ⟨frame, here, -⟩ := start_or_commit.resolve_left positive
    have inside := (List.getElem?_eq_some_iff.mp here).1
    rw [List.length_singleton] at inside
    omega
  refine ⟨r, eq, found, ?_⟩
  rw [nPage, found]
  rfl

end SeSqlite.Wal.Recovery
