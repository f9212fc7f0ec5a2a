/- source: ext/async/sqlite3async.c (asyncRead, asyncFileSize, asyncWriterThread)
   digest: Reads over a queue of operations that a thread performs; they pass over truncations
     and leave holes unfilled. -/
import SeSqlite.Lib.ByteFile
import SeSqlite.Lib.Runs

set_option autoImplicit false
set_option relaxedAutoImplicit false

namespace SeSqlite.Async

open List Lib Lib.Runs

/-- The operations on one file in the queue; whose handle they came through makes no difference. -/
inductive AsyncWrite
  | write (iOffset : Nat) (zBuf : List UInt8)
  | truncate (iOffset : Nat)
  | sync

/-- What the underlying file system does; a longer file has zeros behind the old end. -/
def AsyncWrite.apply (file : ByteFile) : AsyncWrite → ByteFile
  | write iOffset zBuf => if zBuf = [] then file else file.write iOffset zBuf
  | truncate iOffset => ⟨iOffset, fun i => if i < iOffset then file.byte i else 0⟩
  | sync => file

/-- `performed`: the writer has done the first operation without the mutex and has yet to take
it off. `issued` is the file with every operation applied when it was issued. -/
structure AsyncFile where
  base : ByteFile
  queue : List AsyncWrite
  performed : Bool
  issued : ByteFile

/-- The buffer and `filesize` after an operation of the queue. -/
def overread (iAmt iOffset : Nat) (r : (Nat → UInt8) × Nat) : AsyncWrite → (Nat → UInt8) × Nat
  | .write offset zBuf =>
    let iBeginOut := offset - iOffset
    let iBeginIn := iOffset - offset
    let nCopy := min (zBuf.length - iBeginIn) (iAmt - iBeginOut)
    (fun j => if iBeginOut ≤ j ∧ j < iBeginOut + nCopy then zBuf.getD (iBeginIn + (j - iBeginOut)) 0
      else r.1 j, max r.2 (offset + zBuf.length))
  | _ => r

/-- The buffer after the read, and whether the read was short. -/
def asyncRead (p : AsyncFile) (zOut : Nat → UInt8) (iAmt iOffset : Nat) : (Nat → UInt8) × Bool :=
  let nRead := min (p.base.size - iOffset) iAmt
  let zOut := fun j => if j < nRead then p.base.byte (iOffset + j) else zOut j
  let r := p.queue.foldl (overread iAmt iOffset) (zOut, p.base.size)
  (r.1, r.2 < iOffset + iAmt)

def resize (s : Nat) : AsyncWrite → Nat
  | .write iOffset zBuf => max (iOffset + zBuf.length) s
  | .truncate iOffset => min s iOffset
  | .sync => s

def asyncFileSize (p : AsyncFile) : Nat := p.queue.foldl resize p.base.size

inductive Event
  | issue (op : AsyncWrite)
  /-- The writer goes on; `pBaseWrite` says whether the file has a second handle. -/
  | writer (pBaseWrite : Bool)

/-- The mutex is released during a write or a sync through a second handle. -/
def step (p : AsyncFile) : Event → AsyncFile
  | .issue op => { p with queue := p.queue ++ [op], issued := op.apply p.issued }
  | .writer pBaseWrite =>
    match p.queue with
    | [] => p
    | op :: rest =>
      if p.performed then { p with queue := rest, performed := false }
      else
        match op with
        | .truncate _ => { p with base := op.apply p.base, queue := rest }
        | _ =>
          if pBaseWrite then { p with base := op.apply p.base, performed := true }
          else { p with base := op.apply p.base, queue := rest }

/-- A file with the content, before the first operation. -/
def opened (content : List UInt8) : AsyncFile :=
  ⟨ByteFile.empty.write 0 content, [], false, ByteFile.empty.write 0 content⟩

/-- The size and every read are those of the file with all operations applied. -/
def Faithful (p : AsyncFile) : Prop :=
  asyncFileSize p = p.issued.size ∧ ∀ zOut iAmt iOffset,
    ((asyncRead p zOut iAmt iOffset).2 = true ↔ p.issued.size < iOffset + iAmt) ∧
      ∀ j < iAmt, iOffset + j < p.issued.size →
        (asyncRead p zOut iAmt iOffset).1 j = p.issued.byte (iOffset + j)

/-- No hole is left behind the end, and no truncation changes the size. -/
def Fits (file : ByteFile) : AsyncWrite → Prop
  | .write iOffset _ => iOffset ≤ file.size
  | .truncate iOffset => iOffset = file.size
  | .sync => True

def Guard (p : AsyncFile) : Event → Prop
  | .issue op => Fits p.issued op
  | .writer _ => True

def AllFit : ByteFile → List AsyncWrite → Prop
  | _, [] => True
  | file, op :: rest => Fits file op ∧ AllFit (op.apply file) rest

variable {file : ByteFile} {op : AsyncWrite} {queue : List AsyncWrite} {p : AsyncFile}

theorem allFit_append : AllFit file (queue ++ [op]) ↔
    AllFit file queue ∧ Fits (queue.foldl AsyncWrite.apply file) op := by
  induction queue generalizing file with
  | nil => simp [AllFit]
  | cons first rest ih => simp [AllFit, ih, and_assoc]

theorem resize_eq (fits : Fits file op) : resize file.size op = (op.apply file).size := by
  cases op with
  | write iOffset zBuf =>
    simp only [resize, AsyncWrite.apply]
    split
    · rename_i empty
      subst empty
      exact max_eq_right fits
    · exact max_comm ..
  | truncate iOffset =>
    cases fits
    exact min_self _
  | sync => rfl

theorem foldl_resize (fits : AllFit file queue) :
    queue.foldl resize file.size = (queue.foldl AsyncWrite.apply file).size := by
  induction queue generalizing file with
  | nil => rfl
  | cons op rest ih => rw [foldl_cons, resize_eq fits.1, foldl_cons, ih fits.2]

/-- The size of a file, and the buffer with its bytes in the range over the old content. -/
def Reads (zOut : Nat → UInt8) (iAmt iOffset : Nat) (file : ByteFile) (r : (Nat → UInt8) × Nat) :
    Prop :=
  r.2 = file.size ∧ ∀ j < iAmt,
    r.1 j = if iOffset + j < file.size then file.byte (iOffset + j) else zOut j

variable {zOut : Nat → UInt8} {iAmt iOffset : Nat} {r : (Nat → UInt8) × Nat}

theorem Reads.overread (fits : Fits file op) (reads : Reads zOut iAmt iOffset file r) :
    Reads zOut iAmt iOffset (op.apply file) (overread iAmt iOffset r op) := by
  obtain ⟨size, bytes⟩ := reads
  cases op with
  | write offset zBuf =>
    have fits : offset ≤ file.size := fits
    simp only [Async.overread, AsyncWrite.apply]
    split
    · rename_i empty
      subst empty
      refine ⟨by simp only [length_nil]; omega, fun j inside => ?_⟩
      rw [← bytes j inside]
      exact if_neg (by simp only [length_nil]; omega)
    · refine ⟨by rw [size]; rfl, fun j inside => ?_⟩
      by_cases written : offset ≤ iOffset + j ∧ iOffset + j < offset + zBuf.length
      · simp only [ByteFile.write, if_pos written]
        rw [if_pos (by omega), if_pos (by omega)]
        congr 1
        omega
      · simp only [ByteFile.write, if_neg written]
        rw [if_neg (by omega), bytes j inside]
        exact if_congr (by omega) rfl rfl
  | truncate offset =>
    cases fits
    refine ⟨size, fun j inside => (bytes j inside).trans ?_⟩
    simp only [AsyncWrite.apply]
    split <;> rfl
  | sync => exact ⟨size, bytes⟩

theorem Reads.foldl (fits : AllFit file queue) (reads : Reads zOut iAmt iOffset file r) :
    Reads zOut iAmt iOffset (queue.foldl AsyncWrite.apply file)
      (queue.foldl (Async.overread iAmt iOffset) r) := by
  induction queue generalizing file r with
  | nil => exact reads
  | cons op rest ih => exact ih fits.2 (reads.overread fits.1)

structure Inv (p : AsyncFile) : Prop where
  issued : p.issued = p.queue.foldl AsyncWrite.apply p.base
  fits : AllFit p.base p.queue
  performed : p.performed = true → ∃ op rest, p.queue = op :: rest ∧ op.apply p.base = p.base

/-- What `asyncRead` has after the last operation of the queue. -/
theorem Inv.reads (inv : Inv p) (zOut : Nat → UInt8) (iAmt iOffset : Nat) : Reads zOut iAmt iOffset
    p.issued (p.queue.foldl (overread iAmt iOffset) (fun j =>
      if j < min (p.base.size - iOffset) iAmt then p.base.byte (iOffset + j) else zOut j,
      p.base.size)) := by
  rw [inv.issued]
  exact Reads.foldl inv.fits ⟨rfl, fun j inside => if_congr (by omega) rfl rfl⟩

theorem Inv.faithful (inv : Inv p) : Faithful p := by
  refine ⟨by rw [asyncFileSize, foldl_resize inv.fits, inv.issued], fun zOut iAmt iOffset => ?_⟩
  obtain ⟨size, bytes⟩ := inv.reads zOut iAmt iOffset
  refine ⟨by simp only [asyncRead, size, decide_eq_true_iff], fun j inside below => ?_⟩
  exact (bytes j inside).trans (if_pos below)

/-- Doing an operation again changes nothing. -/
theorem apply_apply (file : ByteFile) (op : AsyncWrite) :
    op.apply (op.apply file) = op.apply file := by
  cases op with
  | write iOffset zBuf =>
    simp only [AsyncWrite.apply]
    split
    · rfl
    · simp only [ByteFile.write]
      congr 1
      · omega
      · funext i
        split <;> rfl
  | truncate iOffset =>
    simp only [AsyncWrite.apply]
    congr 1
    funext i
    split <;> rfl
  | sync => rfl

theorem fits_apply (fits : Fits file op) : Fits (op.apply file) op := by
  cases op with
  | write iOffset zBuf =>
    have fits : iOffset ≤ file.size := fits
    simp only [Fits, AsyncWrite.apply]
    split
    · exact fits
    · simp only [ByteFile.write]
      omega
  | truncate iOffset => rfl
  | sync => trivial

theorem Inv.keep (inv : Inv p) (e : Event) (guard : Guard p e) : Inv (step p e) := by
  obtain ⟨issued, fits, done⟩ := inv
  cases e with
  | issue op =>
    refine ⟨by simp [step, issued], allFit_append.mpr ⟨fits, issued ▸ guard⟩, fun performed => ?_⟩
    obtain ⟨first, rest, queue, again⟩ := done performed
    exact ⟨first, rest ++ [op], by simp [step, queue], again⟩
  | writer pBaseWrite =>
    obtain ⟨base, queue, performed, file⟩ := p
    dsimp only at issued fits done
    subst issued
    cases queue with
    | nil => exact ⟨rfl, fits, done⟩
    | cons op rest =>
      have removed : Inv ⟨op.apply base, rest, false, (op :: rest).foldl AsyncWrite.apply base⟩ :=
        ⟨rfl, fits.2, fun performed => by cases performed⟩
      have waits : Inv ⟨op.apply base, op :: rest, true,
          (op :: rest).foldl AsyncWrite.apply base⟩ := by
        refine ⟨?_, ⟨fits_apply fits.1, ?_⟩, fun _ => ⟨op, rest, rfl, apply_apply base op⟩⟩
        · rw [foldl_cons, foldl_cons, apply_apply]
        · rw [apply_apply]
          exact fits.2
      cases performed with
      | true =>
        obtain ⟨_, _, same, again⟩ := done rfl
        cases same
        rw [again] at removed
        exact removed
      | false =>
        cases op <;> cases pBaseWrite <;> first | exact removed | exact waits

theorem Inv.read_issue (inv : Inv p) (op : AsyncWrite) (zOut : Nat → UInt8) (iAmt iOffset : Nat) :
    ∃ r, Reads zOut iAmt iOffset p.issued r ∧ asyncRead (step p (.issue op)) zOut iAmt iOffset =
      ((overread iAmt iOffset r op).1, decide ((overread iAmt iOffset r op).2 < iOffset + iAmt)) :=
  ⟨_, inv.reads zOut iAmt iOffset, by simp [asyncRead, step]⟩

theorem Inv.guard (inv : Inv p) (e : Event) (faithful : Faithful (step p e)) : Guard p e := by
  cases e with
  | writer pBaseWrite => trivial
  | issue op =>
    obtain ⟨size, reads⟩ := faithful
    have before := inv.faithful.1
    simp only [asyncFileSize, step, foldl_append, foldl_cons, foldl_nil] at size before
    rw [before] at size
    cases op with
    | sync => trivial
    | truncate iOffset =>
      -- the byte at the new end
      obtain ⟨r, ⟨same, -⟩, eq⟩ := inv.read_issue (.truncate iOffset) (fun _ => 0) 1 iOffset
      have short := (reads (fun _ => 0) 1 iOffset).1
      rw [eq, decide_eq_true_iff] at short
      simp only [overread, step, resize, AsyncWrite.apply] at short size
      simp only [Guard, Fits]
      omega
    | write iOffset zBuf =>
      by_contra hole
      have hole : p.issued.size < iOffset := Nat.lt_of_not_le hole
      by_cases empty : zBuf = []
      · simp only [resize, AsyncWrite.apply, if_pos empty] at size
        omega
      · -- the first byte of the hole, into a buffer that has another value there
        let zOut := fun _ : Nat => p.issued.byte p.issued.size + 1
        obtain ⟨r, ⟨-, bytes⟩, eq⟩ := inv.read_issue (.write iOffset zBuf) zOut 1 p.issued.size
        have zero := (reads zOut 1 p.issued.size).2 0 Nat.one_pos
        rw [eq] at zero
        simp only [overread, step, AsyncWrite.apply, if_neg empty, ByteFile.write] at zero
        replace zero := zero (by omega)
        rw [if_neg (by omega), if_neg (by omega), bytes 0 Nat.one_pos, if_neg (by omega)] at zero
        simp [zOut] at zero

theorem inv_opened (content : List UInt8) : Inv (opened content) :=
  ⟨rfl, trivial, fun performed => by cases performed⟩

/-- Reads and sizes are right in every state of a run exactly when no write begins behind the
end of the file and no truncation changes its size. -/
theorem faithful_iff_guarded (content : List UInt8) (run : List Event) :
    Visits step Faithful (opened content) run ↔ Along step Guard (opened content) run :=
  visits_iff_along_of_invariant (I := Inv) (fun _ inv => inv.faithful)
    (fun _ e inv => inv.guard e) (fun _ e inv => inv.keep e) (inv_opened content) run

/-- A read of the byte that was cut off is not short. -/
theorem truncated_byte_read : ¬Visits step Faithful (opened [1, 2]) [.issue (.truncate 1)] := by
  intro visits
  have short := (visits.2.2 (fun _ => 0) 1 1).1
  exact absurd short (by decide)

end SeSqlite.Async
