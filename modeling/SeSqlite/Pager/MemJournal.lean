/- source: src/memjournal.c, src/pager.c
   digest: The in-memory journal reads back what was appended to it unless a read resumes at a null
   chunk, and the sub-journal what was recorded as long as records begin at its end. -/
import SeSqlite.Bytes
import SeSqlite.Lib.Runs

set_option autoImplicit false
set_option relaxedAutoImplicit false

namespace SeSqlite.Pager

open Bytes Lib.Runs List Option

structure FilePoint where
  iOffset : Nat
  pChunk : Option Nat

/-- Every chunk before the last one is full, so the chunks from `pFirst` on are the bytes written,
and `endpoint` is behind the last byte. A pointer is the number of a chunk, `pNext` the next
number. -/
structure MemJournal where
  bytes : List UInt8
  readpoint : FilePoint

def sqlite3MemJournalOpen : MemJournal := ⟨[], 0, none⟩

section

variable (size : Nat)

/-- The chunk so many links behind the first one. -/
def MemJournal.chunkAt (p : MemJournal) (n : Nat) : Option Nat :=
  if n * size < p.bytes.length then some n else none

/-- The loop of `memjrnlRead`, for so many rounds: the bytes and the chunk after it. -/
def copyLoop (p : MemJournal) : (rounds pChunk iChunkOffset nRead : Nat) → List UInt8 × Option Nat
  | 0, pChunk, _, _ => ([], some pChunk)
  | rounds + 1, pChunk, iChunkOffset, nRead =>
    let iSpace := size - iChunkOffset
    let copied := (p.bytes.drop (pChunk * size + iChunkOffset)).take (min nRead iSpace)
    if nRead < iSpace then (copied, some pChunk)
    else
      match p.chunkAt size (pChunk + 1) with
      | none => (copied, none)
      | some pNext =>
        if nRead = iSpace then (copied, some pNext)
        else
          let r := copyLoop p rounds pNext 0 (nRead - iSpace)
          (copied ++ r.1, r.2)

/-- `size` is `JOURNAL_CHUNKSIZE`. The walk from the first chunk has `iOfst / size` rounds; from a
null chunk nothing but no bytes can be copied. -/
def memjrnlRead (p : MemJournal) (iAmt iOfst : Nat) : Option (List UInt8 × MemJournal) :=
  match if p.readpoint.iOffset ≠ iOfst ∨ iOfst = 0 then p.chunkAt size (iOfst / size)
    else p.readpoint.pChunk with
  | none => if iAmt = 0 then some ([], { p with readpoint := ⟨iOfst, none⟩ }) else none
  | some pChunk =>
    let r := copyLoop size p (iAmt + 1) pChunk (iOfst % size) iAmt
    some (r.1, { p with readpoint := ⟨iOfst + iAmt, r.2⟩ })

/-- The loop of `memjrnlWrite`, for so many rounds; `mem` calls of `sqlite3_malloc` succeed. -/
def writeLoop : (rounds mem : Nat) → MemJournal → List UInt8 → Bool × MemJournal
  | 0, _, p, _ => (true, p)
  | rounds + 1, mem, p, zWrite =>
    let iChunkOffset := p.bytes.length % size
    if zWrite = [] then (true, p)
    else if iChunkOffset = 0 ∧ mem = 0 then (false, p)
    else writeLoop rounds (if iChunkOffset = 0 then mem - 1 else mem)
      { p with bytes := p.bytes ++ zWrite.take (size - iChunkOffset) }
      (zWrite.drop (size - iChunkOffset))

def memjrnlWrite (mem : Nat) (p : MemJournal) (zBuf : List UInt8) : Bool × MemJournal :=
  writeLoop size zBuf.length mem p zBuf

variable {size : Nat} {p : MemJournal} {data : List UInt8}

/-- Some of the bytes are appended, and all of them if the write has succeeded. -/
theorem writeLoop_spec (positive : 0 < size) (rounds mem : Nat) {zWrite : List UInt8}
    (enough : zWrite.length ≤ rounds) : ∃ part rest, zWrite = part ++ rest ∧
      (writeLoop size rounds mem p zWrite).2 = { p with bytes := p.bytes ++ part } ∧
      ((writeLoop size rounds mem p zWrite).1 = true → rest = []) := by
  induction rounds generalizing p mem zWrite with
  | zero =>
    obtain rfl := length_eq_zero_iff.mp (Nat.le_zero.mp enough)
    exact ⟨[], [], rfl, by rw [append_nil]; rfl, fun _ => rfl⟩
  | succ rounds ih =>
    have below := Nat.mod_lt p.bytes.length positive
    rw [writeLoop]
    split
    · rename_i done
      exact ⟨[], zWrite, rfl, by rw [append_nil], fun _ => done⟩
    · rename_i todo
      split
      · exact ⟨[], zWrite, rfl, by rw [append_nil], fun ok => by cases ok⟩
      · have fewer : (zWrite.drop (size - p.bytes.length % size)).length ≤ rounds := by
          rw [length_drop]
          omega
        obtain ⟨part, rest, split, later, ended⟩ := ih _ fewer
        refine ⟨zWrite.take (size - p.bytes.length % size) ++ part, rest, ?_, ?_, ended⟩
        · rw [append_assoc, ← split, take_append_drop]
        · rw [later, append_assoc]

private theorem copyLoop_spec {rounds pChunk iChunkOffset nRead : Nat} (enough : nRead < rounds)
    (before : iChunkOffset < size) (inside : pChunk * size < p.bytes.length)
    (within : pChunk * size + iChunkOffset + nRead ≤ p.bytes.length) :
    copyLoop size p rounds pChunk iChunkOffset nRead =
      ((p.bytes.drop (pChunk * size + iChunkOffset)).take nRead,
        p.chunkAt size ((pChunk * size + iChunkOffset + nRead) / size)) := by
  induction rounds generalizing pChunk iChunkOffset nRead with
  | zero => omega
  | succ rounds ih =>
    have next : (pChunk + 1) * size = pChunk * size + size := Nat.succ_mul pChunk size
    rw [copyLoop]
    split
    · rw [Nat.min_eq_left (by omega), Nat.div_eq_of_lt_le (k := pChunk) (by omega) (by omega),
        MemJournal.chunkAt, if_pos inside]
    · have last (whole : nRead = size - iChunkOffset) :
          (pChunk * size + iChunkOffset + nRead) / size = pChunk + 1 :=
        Nat.div_eq_of_eq_mul_left (by omega) (by omega)
      rw [Nat.min_eq_right (by omega)]
      by_cases less : (pChunk + 1) * size < p.bytes.length
      · rw [show p.chunkAt size (pChunk + 1) = some (pChunk + 1) from if_pos less]
        dsimp only
        split
        · rename_i whole
          rw [last whole, MemJournal.chunkAt, if_pos less, whole]
        · have cut := take_append_drop (size - iChunkOffset)
            ((p.bytes.drop (pChunk * size + iChunkOffset)).take nRead)
          rw [take_take, drop_take, drop_drop, Nat.min_eq_left (by omega)] at cut
          rw [ih (by omega) (by omega) less (by omega), ← cut, show (pChunk + 1) * size + 0 =
            pChunk * size + iChunkOffset + (size - iChunkOffset) by omega,
              Nat.add_assoc _ _ (nRead - _),
            Nat.add_sub_of_le (by omega)]
      · have whole : nRead = size - iChunkOffset := by omega
        rw [last whole, MemJournal.chunkAt, if_neg less, whole]

/-- The read point is null or points to the chunk in which its offset is now. -/
def Resumes (size : Nat) (p : MemJournal) : Prop :=
  p.readpoint.pChunk = none ∨ p.readpoint.pChunk = p.chunkAt size (p.readpoint.iOffset / size)

/-- The read resumes where the last one has left a null chunk. -/
abbrev AtNull (p : MemJournal) (iAmt iOfst : Nat) : Prop :=
  0 < iAmt ∧ iOfst ≠ 0 ∧ p.readpoint.iOffset = iOfst ∧ p.readpoint.pChunk = none

private theorem Resumes.append (resumes : Resumes size p) (part : List UInt8) :
    Resumes size { p with bytes := p.bytes ++ part } := by
  rcases resumes with null | known
  · exact Or.inl null
  · rw [Resumes, known, MemJournal.chunkAt, MemJournal.chunkAt, length_append]
    dsimp only
    split
    · exact Or.inr (if_pos (by omega)).symm
    · exact Or.inl rfl

/-- The journal stands for a file. -/
def Faithful (size : Nat) (p : MemJournal) (data : List UInt8) : Prop :=
  p.bytes = data ∧ Resumes size p

private theorem faithful_open : Faithful size sqlite3MemJournalOpen [] := ⟨rfl, Or.inl rfl⟩

private theorem Faithful.write (faithful : Faithful size p data) (positive : 0 < size) (mem : Nat)
    (zBuf : List UInt8) : ∃ part rest, zBuf = part ++ rest ∧
      Faithful size (memjrnlWrite size mem p zBuf).2 (data ++ part) ∧
      ((memjrnlWrite size mem p zBuf).1 = true → rest = []) := by
  obtain ⟨rfl, resumes⟩ := faithful
  obtain ⟨part, rest, split, written, ended⟩ :=
    writeLoop_spec positive zBuf.length mem (p := p) le_rfl
  rw [← memjrnlWrite] at written ended
  exact ⟨part, rest, split, by rw [written]; exact ⟨rfl, resumes.append part⟩, ended⟩

variable {iOfst iAmt : Nat}

private theorem chunkAt_div (inside : iOfst < p.bytes.length) :
    p.chunkAt size (iOfst / size) = some (iOfst / size) :=
  if_pos (Nat.lt_of_le_of_lt (Nat.div_mul_le_self iOfst size) inside)

private theorem Faithful.read (faithful : Faithful size p data) (positive : 0 < size)
    (within : iOfst + iAmt ≤ data.length) (live : ¬ AtNull p iAmt iOfst) :
    ∃ q, memjrnlRead size p iAmt iOfst = some ((data.drop iOfst).take iAmt, q) ∧
      Faithful size q data ∧
      (0 < iAmt → iOfst + iAmt < data.length → q.readpoint.pChunk ≠ none) := by
  obtain ⟨rfl, resumes⟩ := faithful
  rw [memjrnlRead]
  generalize start : (if p.readpoint.iOffset ≠ iOfst ∨ iOfst = 0 then
    p.chunkAt size (iOfst / size) else p.readpoint.pChunk) = pChunk
  cases pChunk with
  | none =>
    have empty : iAmt = 0 := by
      by_contra some_byte
      split at start
      · rw [chunkAt_div (by omega)] at start
        cases start
      · rename_i resume
        rw [not_or, not_not] at resume
        exact live ⟨by omega, resume.2, resume.1, start⟩
    subst empty
    exact ⟨_, rfl, ⟨rfl, Or.inl rfl⟩, fun some_byte => absurd some_byte (Nat.lt_irrefl 0)⟩
  | some pChunk =>
    have here : p.chunkAt size (iOfst / size) = some pChunk := by
      split at start
      · exact start
      · rename_i resume
        rw [not_or, not_not] at resume
        rcases resumes with null | known
        · rw [null] at start
          cases start
        · rwa [← resume.1, ← known]
    rw [MemJournal.chunkAt, ite_none_right_eq_some, Option.some.injEq] at here
    obtain ⟨inside, rfl⟩ := here
    have whole := Nat.div_add_mod' iOfst size
    dsimp only
    rw [copyLoop_spec (Nat.lt_succ_self iAmt) (Nat.mod_lt _ positive) inside (by omega), whole]
    refine ⟨_, rfl, ⟨rfl, Or.inr rfl⟩, fun _ more => ?_⟩
    simp [chunkAt_div more]

private theorem memjrnlRead_atNull (null : AtNull p iAmt iOfst) : memjrnlRead size p iAmt iOfst =
    none := by
  obtain ⟨some_byte, later, same, none⟩ := null
  rw [memjrnlRead, if_neg (by simp [same, later]), none]
  exact if_neg (by omega)

end

inductive Call
  | write (mem : Nat) (zBuf : List UInt8)
  | truncate
  | read (iAmt iOfst : Nat)

/-- The journal, and the file that it stands for. -/
structure MirroredFile where
  p : MemJournal
  data : List UInt8

namespace MirroredFile

variable (size : Nat)

def opened : MirroredFile := ⟨sqlite3MemJournalOpen, []⟩

/-- After a read that meets a null chunk the process is gone, and with it the journal. -/
def step (s : MirroredFile) : Call → MirroredFile
  | .write mem zBuf => ⟨(memjrnlWrite size mem s.p zBuf).2, s.data ++ zBuf⟩
  | .truncate => opened
  | .read iAmt iOfst => { s with p := (memjrnlRead size s.p iAmt iOfst).elim s.p Prod.snd }

/-- Allocations succeed, and reads stay inside the written length. -/
abbrev Legal (s : MirroredFile) : Call → Prop
  | .write mem zBuf => (memjrnlWrite size mem s.p zBuf).1 = true
  | .truncate => True
  | .read iAmt iOfst => iOfst + iAmt ≤ s.data.length

abbrev ReadsBack (s : MirroredFile) : Call → Prop
  | .read iAmt iOfst =>
    (memjrnlRead size s.p iAmt iOfst).map Prod.fst = some ((s.data.drop iOfst).take iAmt)
  | _ => True

/-- No read begins where the last one has ended without a chunk. -/
abbrev Live (s : MirroredFile) : Call → Prop
  | .read iAmt iOfst => ¬ AtNull s.p iAmt iOfst
  | _ => True

variable {size} {s : MirroredFile} {call : Call}

private theorem step_faithful (positive : 0 < size) (faithful : Faithful size s.p s.data)
    (legal : s.Legal size call) : Faithful size (s.step size call).p (s.step size call).data := by
  cases call with
  | write mem zBuf =>
    obtain ⟨part, rest, rfl, written, ended⟩ := faithful.write positive mem zBuf
    obtain rfl := ended legal
    rw [append_nil] at written ⊢
    exact written
  | truncate => exact faithful_open
  | read iAmt iOfst =>
    by_cases null : AtNull s.p iAmt iOfst
    · rw [step, memjrnlRead_atNull null]
      exact faithful
    · obtain ⟨q, read, kept, -⟩ := faithful.read positive legal null
      rw [step, read]
      exact kept

private theorem readsBack_iff (positive : 0 < size) (faithful : Faithful size s.p s.data)
    (legal : s.Legal size call) : s.ReadsBack size call ↔ s.Live call := by
  cases call with
  | write mem zBuf => exact Iff.rfl
  | truncate => exact Iff.rfl
  | read iAmt iOfst =>
    constructor
    · intro reads null
      rw [ReadsBack, memjrnlRead_atNull null] at reads
      cases reads
    · intro live
      obtain ⟨q, read, -⟩ := faithful.read positive legal live
      rw [ReadsBack, read, map_some]

private theorem along_iff (positive : 0 < size) (faithful : Faithful size s.p s.data)
    {run : List Call} (legal : Along (step size) (Legal size) s run) :
    Along (step size) (ReadsBack size) s run ↔ Along (step size) Live s run := by
  induction run generalizing s with
  | nil => exact Iff.rfl
  | cons call rest ih =>
    have kept := step_faithful positive faithful legal.1
    rw [along_cons, along_cons, readsBack_iff positive faithful legal.1, ih kept legal.2]

end MirroredFile

structure PageRecord (pageSize : Nat) where
  pgno : Nat
  pData : List UInt8
  small : pgno < 2 ^ 32
  whole : pData.length = pageSize

/-- The sub-journal, and the records that have been written successfully. -/
structure SubJournal (pageSize : Nat) where
  sjfd : MemJournal
  nSubRec : Nat
  records : List (PageRecord pageSize)

inductive SubCall (pageSize : Nat)
  | record (mem mem' : Nat) (pPg : PageRecord pageSize)
  | playback (ii : Nat)
  | release

namespace SubJournal

variable (size : Nat) {pageSize : Nat}

def opened : SubJournal pageSize := ⟨sqlite3MemJournalOpen, 0, []⟩

/-- In a journal mode other than `OFF`, with the chunks that are there for the page number and for
the image. -/
def subjournalPage (mem mem' : Nat) (s : SubJournal pageSize) (pPg : PageRecord pageSize) :
    SubJournal pageSize :=
  let (rc, sjfd) := memjrnlWrite size mem s.sjfd (sqlite3Put4byte pPg.pgno)
  if rc then
    let (rc, sjfd) := memjrnlWrite size mem' sjfd pPg.pData
    if rc then ⟨sjfd, s.nSubRec + 1, s.records ++ [pPg]⟩ else { s with sjfd }
  else { s with sjfd }

/-- The page number and the image that `pager_playback_one_page` reads from record `ii`. -/
def playbackOnePage (s : SubJournal pageSize) (ii : Nat) :
    Option ((Nat × List UInt8) × MemJournal) :=
  (memjrnlRead size s.sjfd 4 (ii * (4 + pageSize))).bind fun head =>
    (memjrnlRead size head.2 pageSize (ii * (4 + pageSize) + 4)).map fun body =>
      ((sqlite3Get4byte head.1, body.1), body.2)

/-- The release is that of the outermost savepoint. -/
def step (s : SubJournal pageSize) : SubCall pageSize → SubJournal pageSize
  | .record mem mem' pPg => subjournalPage size mem mem' s pPg
  | .playback ii => { s with sjfd := (playbackOnePage size s ii).elim s.sjfd Prod.snd }
  | .release => opened

abbrev ReadsBack (s : SubJournal pageSize) : SubCall pageSize → Prop
  | .playback ii => (playbackOnePage size s ii).map Prod.fst =
    s.records[ii]?.map fun pPg => (pPg.pgno, pPg.pData)
  | _ => True

/-- A record is begun at the end of the file, as `memjrnlWrite` asserts. -/
abbrev Aligned (s : SubJournal pageSize) : SubCall pageSize → Prop
  | .record .. => s.sjfd.bytes.length = s.nSubRec * (4 + pageSize)
  | .playback ii => ii < s.nSubRec ∧ ¬ AtNull s.sjfd 4 (ii * (4 + pageSize))
  | .release => True

/-- What the file begins with; a record that was not finished may follow. -/
def encoded (records : List (PageRecord pageSize)) : List UInt8 :=
  records.flatMap fun pPg => sqlite3Put4byte pPg.pgno ++ pPg.pData

structure Sound (s : SubJournal pageSize) : Prop where
  count : s.nSubRec = s.records.length
  file : ∃ rest, Faithful size s.sjfd (encoded s.records ++ rest)

variable {size} {s : SubJournal pageSize}

private theorem length_encoded (records : List (PageRecord pageSize)) :
    (encoded records).length = records.length * (4 + pageSize) := by
  induction records with
  | nil => exact (Nat.zero_mul _).symm
  | cons pPg records ih =>
    rw [encoded, flatMap_cons, ← encoded, length_append, ih, length_append,
      length_put4byte, pPg.whole, length_cons, Nat.succ_mul, Nat.add_comm]

private theorem Sound.record (sound : s.Sound size) (positive : 0 < size)
    (aligned : s.sjfd.bytes.length = s.nSubRec * (4 + pageSize)) (mem mem' : Nat)
    (pPg : PageRecord pageSize) : (subjournalPage size mem mem' s pPg).Sound size := by
  obtain ⟨rest, file⟩ := sound.file
  have at_end : rest = [] := by
    have length := congrArg List.length file.1
    rw [aligned, sound.count, length_append, length_encoded] at length
    exact length_eq_zero_iff.mp (by omega)
  rw [at_end, append_nil] at file
  obtain ⟨part, rest, split, file, ended⟩ := file.write positive mem (sqlite3Put4byte pPg.pgno)
  rw [subjournalPage]
  dsimp only
  split
  · rename_i ok
    obtain rfl := ended ok
    rw [append_nil] at split
    subst split
    obtain ⟨part', rest', split', file, ended'⟩ := file.write positive mem' pPg.pData
    split
    · rename_i ok'
      obtain rfl := ended' ok'
      rw [append_nil] at split'
      subst split'
      refine ⟨by simp [sound.count], [], ?_⟩
      rw [append_nil, encoded, flatMap_append, flatMap_singleton, ← append_assoc]
      exact file
    · exact ⟨sound.count, _, append_assoc .. ▸ file⟩
  · exact ⟨sound.count, part, file⟩

private theorem Sound.playback (sound : s.Sound size) (positive : 0 < size) (page : 0 < pageSize)
    {ii : Nat}
    (inside : ii < s.nSubRec) (live : ¬ AtNull s.sjfd 4 (ii * (4 + pageSize))) : ∃ sjfd rest,
      playbackOnePage size s ii = s.records[ii]?.map (fun pPg => ((pPg.pgno, pPg.pData), sjfd)) ∧
      Faithful size sjfd (encoded s.records ++ rest) := by
  obtain ⟨rest, file⟩ := sound.file
  rw [sound.count] at inside
  generalize data : encoded s.records ++ rest = bytes at file
  obtain ⟨before, after, prior, parts⟩ : ∃ before after : List UInt8,
      before.length = ii * (4 + pageSize) ∧ bytes = before ++ (sqlite3Put4byte s.records[ii].pgno ++
        (s.records[ii].pData ++ after)) := by
    refine ⟨encoded (s.records.take ii), encoded (s.records.drop (ii + 1)) ++ rest, ?_, ?_⟩
    · rw [length_encoded, length_take, Nat.min_eq_left (by omega)]
    · rw [← data]
      nth_rewrite 1 [← take_append_drop ii s.records]
      rw [encoded, flatMap_append, ← encoded, drop_eq_getElem_cons inside, flatMap_cons, ← encoded]
      simp
  have total := congrArg List.length parts
  simp only [length_append, length_put4byte, s.records[ii].whole] at total
  obtain ⟨q, head, mid, chunk⟩ := file.read positive (by omega) live
  have alive : ¬ AtNull q pageSize (ii * (4 + pageSize) + 4) :=
    fun null => chunk (by omega) (by omega) null.2.2.2
  obtain ⟨sjfd, body, kept, -⟩ := mid.read positive (by omega) alive
  refine ⟨sjfd, rest, ?_, data ▸ kept⟩
  rw [playbackOnePage, head, bind_some, body, map_some, getElem?_eq_getElem inside, map_some,
    ← drop_drop, parts, drop_left' prior, take_left' (length_put4byte _),
    drop_left' (length_put4byte _), take_left' s.records[ii].whole]
  rw [← append_nil (sqlite3Put4byte _), get4byte_put4byte s.records[ii].small]

theorem subjournal_readsBack (positive : 0 < size) (page : 0 < pageSize)
    (run : List (SubCall pageSize)) (aligned : Along (step size) Aligned opened run) :
    Along (step size) (ReadsBack size) opened run := by
  have start : (opened : SubJournal pageSize).Sound size := ⟨rfl, [], faithful_open⟩
  refine along_of_invariant (I := Sound size) ?_ ?_ start aligned
  · intro s call sound aligned
    cases call with
    | record mem mem' pPg => exact sound.record positive aligned mem mem' pPg
    | playback ii =>
      obtain ⟨sjfd, rest, read, kept⟩ := sound.playback positive page aligned.1 aligned.2
      rw [step, read, getElem?_eq_getElem (sound.count ▸ aligned.1)]
      exact ⟨sound.count, rest, kept⟩
    | release => exact start
  · intro s call sound aligned
    cases call with
    | record mem mem' pPg => trivial
    | playback ii =>
      obtain ⟨sjfd, rest, read, -⟩ := sound.playback positive page aligned.1 aligned.2
      rw [ReadsBack, read, Option.map_map]
      rfl
    | release => trivial

/-- There is no second chunk for page 9, which is recorded again after the release. -/
theorem subjournal_readsBack_first : Along (step 1016) (ReadsBack 1016) (opened : SubJournal 512)
      [.record 1 0 ⟨7, replicate 512 1, by decide, by decide +kernel⟩,
        .record 0 0 ⟨9, replicate 512 1, by decide, by decide +kernel⟩,
        .playback 0, .release,
        .record 1 0 ⟨9, replicate 512 1, by decide, by decide +kernel⟩, .playback 0] :=
  subjournal_readsBack (by decide) (by decide) _
    ⟨by decide +kernel, by decide +kernel, by decide +kernel, trivial, by decide +kernel,
      by decide +kernel, trivial⟩

/-- There is no second chunk for page 7, and then there is one for page 9. -/
theorem subjournal_shifted : ¬ Along (step 1016) (ReadsBack 1016) (opened : SubJournal 512)
      [.record 1 0 ⟨5, replicate 512 1, by decide, by decide +kernel⟩,
        .record 0 0 ⟨7, replicate 512 1, by decide, by decide +kernel⟩,
        .record 1 0 ⟨9, replicate 512 1, by decide, by decide +kernel⟩,
        .playback 1] := by
  rintro ⟨-, -, -, reads, -⟩
  have pgno := congrArg (Option.map Prod.fst) reads
  revert pgno
  decide +kernel

end SubJournal

end SeSqlite.Pager
