/- source: src/wal.c
   digest: The iterator of a checkpoint visits each page of the log once, with its last frame. -/
import Mathlib.Data.Finset.Card
import Mathlib.Order.Interval.Finset.Nat
import SeSqlite.Wal.Invariant
import SeSqlite.Wal.Mergesort

set_option autoImplicit false
set_option relaxedAutoImplicit false

namespace SeSqlite.Wal.Iterator

open Lib.LastKeys Wal.Index Wal.Mergesort List Function

/-- `aIndex` is where the slots of the segment begin. -/
structure WalSegment where
  iNext : Nat
  aIndex : Nat
  aPgno : Nat → Nat
  nEntry : Nat
  iZero : Nat

/-- The iterator with the slots of all its segments behind it. -/
structure WalIterator where
  iPrior : Nat
  nSegment : Nat
  aSegment : Nat → WalSegment
  slots : Nat → Nat

/-- One round of the loop of `walIteratorInit`. -/
def initSegment (mem : Mem) (iLast : Nat) (p : WalIterator) (i : Nat) : WalIterator :=
  let aPgno := fun j => (mem i).aPgno (j + 1)
  let count := if i + 1 = p.nSegment then iLast - iZero i else nEntry i
  let aIndex := iZero i
  let slots := fun k => if aIndex ≤ k ∧ k < aIndex + count then k - aIndex else p.slots k
  let (slots, count) := walMergesort aPgno slots aIndex count
  { p with
    slots := slots
    aSegment := update p.aSegment i ⟨0, aIndex, aPgno, count, iZero i + 1⟩ }

def walIteratorInit (mem : Mem) (iLast : Nat) : WalIterator :=
  let nSegment := walFramePage iLast + 1
  (range nSegment).foldl (initSegment mem iLast)
    ⟨0, nSegment, fun _ => ⟨0, 0, fun _ => 0, 0, 0⟩, fun _ => 0⟩

def WalSegment.pgno (segment : WalSegment) (slots : Nat → Nat) (j : Nat) : Nat :=
  segment.aPgno (slots (segment.aIndex + j))

/-- The loop over the entries of one segment, for so many rounds: the entry where it stops. -/
def skipTo (slots : Nat → Nat) (segment : WalSegment) (iMin : Nat) :
    (rounds : Nat) → (iNext : Nat) → Nat
  | 0, iNext => iNext
  | rounds + 1, iNext =>
    if iNext < segment.nEntry then
      if segment.pgno slots iNext > iMin then iNext
      else skipTo slots segment iMin rounds (iNext + 1)
    else iNext

/-- One round of the loop of `walIteratorNext`, over segment `i`; beside the iterator the least
page number so far and its frame. -/
def nextIn (iMin : Nat) (state : WalIterator × Nat × Nat) (i : Nat) : WalIterator × Nat × Nat :=
  let (p, iRet, iFrame) := state
  let segment := p.aSegment i
  let iNext := skipTo p.slots segment iMin (segment.nEntry - segment.iNext) segment.iNext
  let p := { p with aSegment := update p.aSegment i { segment with iNext := iNext } }
  if iNext < segment.nEntry ∧ segment.pgno p.slots iNext < iRet then
    (p, segment.pgno p.slots iNext, segment.iZero + p.slots (segment.aIndex + iNext))
  else (p, iRet, iFrame)

def noPage : Nat := 0xFFFFFFFF

/-- The page and its frame, or `none` when there are no more; and the iterator. -/
def walIteratorNext (p : WalIterator) : Option (Nat × Nat) × WalIterator :=
  let (p', iRet, iFrame) :=
    (range p.nSegment).reverse.foldl (nextIn p.iPrior) (p, noPage, 0)
  (if iRet = noPage then none else some (iRet, iFrame), { p' with iPrior := iRet })

/-- What the calls of `walIteratorNext` return before the one that returns 1, if there are no more
than so many. -/
def visit : (calls : Nat) → WalIterator → Option (List (Nat × Nat))
  | 0, _ => none
  | calls + 1, p =>
    match walIteratorNext p with
    | (none, _) => some []
    | (some found, p') => (visit calls p').map (found :: ·)

def pageOf (mem : Mem) (iFrame : Nat) : Nat :=
  (mem (walFramePage iFrame)).aPgno (iFrame - iZero (walFramePage iFrame))

section

variable {i : Nat}

theorem iZero_mono {j : Nat} (le : i ≤ j) : iZero i ≤ iZero j := by
  induction le with
  | refl => exact le_rfl
  | step _ ih =>
    rw [iZero_succ]
    exact Nat.le_add_right_of_le ih

variable {mem : Mem} {iLast : Nat} {p : WalIterator}

def frames (iLast i : Nat) : Nat :=
  if i = walFramePage iLast then iLast - iZero i else nEntry i

theorem frames_bounds (some_frame : 0 < iLast) (inside : i ≤ walFramePage iLast) :
    0 < frames iLast i ∧ frames iLast i ≤ nEntry i ∧ iZero i + frames iLast i ≤ iLast ∧
      (i < walFramePage iLast → iZero i + frames iLast i = iZero (i + 1)) ∧
      (i = walFramePage iLast → iZero i + frames iLast i = iLast) := by
  obtain ⟨low, high⟩ := walFramePage_bounds some_frame
  rw [frames]
  split
  · rename_i last
    subst last
    omega
  · have positive := nEntry_pos i
    have ascending : iZero (i + 1) ≤ iZero (walFramePage iLast) := iZero_mono (by omega)
    rw [iZero_succ] at ascending ⊢
    omega

theorem pageOf_segment {j : Nat} (some_frame : 0 < iLast) (inside : i ≤ walFramePage iLast)
    (entry : j < frames iLast i) : pageOf mem (iZero i + 1 + j) = (mem i).aPgno (j + 1) := by
  have bounds := frames_bounds some_frame inside
  have page : walFramePage (iZero i + 1 + j) = i :=
    (walFramePage_eq_iff (by omega) i).mpr (by omega)
  rw [pageOf, page]
  congr 1
  omega

/-- A segment as the calls of `walIteratorNext` find it: sorted, and with entries of the pages
visited before the next one. -/
structure Segment (mem : Mem) (iLast iPrior : Nat) (slots : Nat → Nat) (i : Nat)
    (segment : WalSegment) : Prop where
  aIndex : segment.aIndex = iZero i
  aPgno : segment.aPgno = fun j => (mem i).aPgno (j + 1)
  iZero : segment.iZero = iZero i + 1
  latest : Latest segment.aPgno (slice slots segment.aIndex segment.nEntry) 0 (frames iLast i)
  next : segment.iNext ≤ segment.nEntry
  passed : ∀ j < segment.iNext, segment.pgno slots j ≤ iPrior

structure Inv (mem : Mem) (iLast : Nat) (p : WalIterator) : Prop where
  nSegment : p.nSegment = walFramePage iLast + 1
  segments : ∀ i < p.nSegment, Segment mem iLast p.iPrior p.slots i (p.aSegment i)

theorem initSegment_spec (some_frame : 0 < iLast) (nSegment : p.nSegment = walFramePage iLast + 1)
    (inside : i < p.nSegment)
    (sorted : ∀ k < i, Segment mem iLast p.iPrior p.slots k (p.aSegment k)) :
    (initSegment mem iLast p i).nSegment = p.nSegment ∧
    (initSegment mem iLast p i).iPrior = p.iPrior ∧
    ∀ k < i + 1, Segment mem iLast p.iPrior (initSegment mem iLast p i).slots k
      ((initSegment mem iLast p i).aSegment k) := by
  have bounds := frames_bounds some_frame (i := i) (by omega)
  have count : (if i + 1 = p.nSegment then iLast - iZero i else nEntry i) = frames iLast i := by
    rw [frames, nSegment]
    simp
  have few : frames iLast i ≤ 4096 := by
    refine bounds.2.1.trans ?_
    rw [nEntry, hashtableNpageOne, hashtableNpage]
    split <;> omega
  rw [initSegment]
  rw [count]
  let fresh := fun k =>
    if iZero i ≤ k ∧ k < iZero i + frames iLast i then k - iZero i else p.slots k
  have positions : ∀ j < frames iLast i, fresh (iZero i + j) = j := by
    intro j small
    simp only [fresh]
    rw [if_pos (by omega), Nat.add_sub_cancel_left]
  obtain ⟨slots, n, eq, latest, frame⟩ : ∃ slots n, walMergesort (fun j => (mem i).aPgno (j + 1))
      fresh (iZero i) (frames iLast i) = (slots, n) ∧ _ := walMergesort_spec bounds.1 few positions
  simp only [fresh] at eq frame
  simp only [eq]
  refine ⟨trivial, trivial, fun k below => ?_⟩
  rcases Nat.lt_succ_iff_lt_or_eq.mp below with before | rfl
  · rw [update_of_ne before.ne]
    have old := sorted k before
    have bounds' := frames_bounds some_frame (i := k) (by omega)
    have ascending : iZero (k + 1) ≤ iZero i := iZero_mono before
    have short := old.latest.length_le
    rw [Mergesort.length_slice] at short
    have place := old.aIndex
    -- the slots of the segment lie before those of the new one
    have same : ∀ j, iZero k ≤ j → j < iZero k + frames iLast k → slots j = p.slots j := by
      intro j above below
      rw [frame j (.inl (by omega)), if_neg (by omega)]
    refine ⟨old.aIndex, old.aPgno, old.iZero, ?_, old.next, fun j earlier => ?_⟩
    · rw [slice_congr fun j above below => same j (by omega) (by omega)]
      exact old.latest
    · have next := old.next
      have passed := old.passed j earlier
      rw [WalSegment.pgno] at passed ⊢
      rwa [same _ (by omega) (by omega)]
  · rw [update_self]
    exact ⟨rfl, rfl, rfl, latest, Nat.zero_le n, fun j before => absurd before (Nat.not_lt_zero j)⟩

theorem inv_walIteratorInit (mem : Mem) (some_frame : 0 < iLast) :
    Inv mem iLast (walIteratorInit mem iLast) ∧ (walIteratorInit mem iLast).iPrior = 0 := by
  rw [walIteratorInit]
  have loop : ∀ n ≤ walFramePage iLast + 1, ∀ p : WalIterator,
      p = (range n).foldl (initSegment mem iLast)
        ⟨0, walFramePage iLast + 1, fun _ => ⟨0, 0, fun _ => 0, 0, 0⟩, fun _ => 0⟩ →
      p.nSegment = walFramePage iLast + 1 ∧ p.iPrior = 0 ∧
        ∀ k < n, Segment mem iLast p.iPrior p.slots k (p.aSegment k) := by
    intro n
    induction n with
    | zero =>
      rintro - p rfl
      exact ⟨rfl, rfl, fun k below => absurd below (Nat.not_lt_zero k)⟩
    | succ n ih =>
      rintro le p rfl
      rw [range_succ, foldl_append]
      obtain ⟨nSegment, iPrior, sorted⟩ := ih (by omega) _ rfl
      obtain ⟨nSegment', iPrior', sorted'⟩ :=
        initSegment_spec some_frame nSegment (by omega) sorted
      refine ⟨nSegment'.trans nSegment, iPrior'.trans iPrior, fun k below => ?_⟩
      exact sorted' k below
  obtain ⟨nSegment, iPrior, sorted⟩ := loop _ le_rfl _ rfl
  exact ⟨⟨nSegment, fun i inside => sorted i (by omega)⟩, iPrior⟩

variable {iLast iMin calls : Nat}

theorem skipTo_spec {slots : Nat → Nat} {segment : WalSegment} {rounds iNext : Nat}
    (enough : segment.nEntry ≤ iNext + rounds) (inside : iNext ≤ segment.nEntry)
    (passed : ∀ j < iNext, segment.pgno slots j ≤ iMin) :
    skipTo slots segment iMin rounds iNext ≤ segment.nEntry ∧
    (∀ j < skipTo slots segment iMin rounds iNext, segment.pgno slots j ≤ iMin) ∧
    (skipTo slots segment iMin rounds iNext < segment.nEntry →
      iMin < segment.pgno slots (skipTo slots segment iMin rounds iNext)) := by
  induction rounds generalizing iNext with
  | zero => exact ⟨inside, passed, fun less => by rw [skipTo] at less; omega⟩
  | succ rounds ih =>
    rw [skipTo]
    split
    · rename_i less
      split
      · rename_i behind
        exact ⟨inside, passed, fun _ => behind⟩
      · rename_i notBehind
        refine ih (by omega) less fun j before => ?_
        rcases Nat.lt_succ_iff_lt_or_eq.mp before with earlier | rfl
        · exact passed j earlier
        · exact Nat.le_of_not_lt notBehind
    · rename_i finished
      exact ⟨inside, passed, fun less => absurd less finished⟩

section

variable {slots : Nat → Nat} {i : Nat} {segment : WalSegment} {t : Nat}
  (sorted : Segment mem iLast iMin slots i segment)

include sorted

theorem Segment.exists_entry {j : Nat} (frame : j < frames iLast i) :
    ∃ t < segment.nEntry, segment.pgno slots t = (mem i).aPgno (j + 1) := by
  obtain ⟨y, listed, -, same⟩ := sorted.latest.exists_last (Nat.zero_le j) frame
  obtain ⟨t, -, inside, rfl⟩ := mem_slice.mp listed
  rw [sorted.aPgno] at same
  refine ⟨t, inside, ?_⟩
  rw [WalSegment.pgno, sorted.aPgno]
  exact same

theorem Segment.ascending {u : Nat} (le : t ≤ u) (inside : u < segment.nEntry) :
    segment.pgno slots t ≤ segment.pgno slots u :=
  (ascending_of_slice sorted.latest.sorted).le_of_rest ⟨u, le, inside, rfl⟩

theorem Segment.last_frame (inside : t < segment.nEntry) :
    slots (segment.aIndex + t) < frames iLast i ∧
    (mem i).aPgno (slots (segment.aIndex + t) + 1) = segment.pgno slots t ∧
    ∀ j < frames iLast i, slots (segment.aIndex + t) < j →
      (mem i).aPgno (j + 1) ≠ segment.pgno slots t := by
  have listed : slots (segment.aIndex + t) ∈ slice slots segment.aIndex segment.nEntry :=
    mem_slice.mpr ⟨t, Nat.zero_le t, inside, rfl⟩
  obtain ⟨-, below, last⟩ := (sorted.latest.mem_iff _).mp listed
  have page : segment.pgno slots t = (mem i).aPgno (slots (segment.aIndex + t) + 1) := by
    rw [WalSegment.pgno, sorted.aPgno]
  refine ⟨below, page.symm, fun j frame later => ?_⟩
  have other := last j later frame
  rw [sorted.aPgno] at other
  rw [page]
  exact other

end

/-- Of the segments from `i` on, the least page behind `iMin` with its last frame. -/
structure Best (mem : Mem) (iLast iMin i iRet iFrame : Nat) : Prop where
  least : ∀ f, iZero i < f → f ≤ iLast → iMin < pageOf mem f → iRet ≤ pageOf mem f
  found : iRet = noPage ∨ (iMin < iRet ∧ iZero i < iFrame ∧ iFrame ≤ iLast ∧
    pageOf mem iFrame = iRet ∧ ∀ f, iFrame < f → f ≤ iLast → pageOf mem f ≠ iRet)

theorem frame_cases {f : Nat} (some_frame : 0 < iLast) (inside : i ≤ walFramePage iLast)
    (above : iZero i < f) (below : f ≤ iLast) :
    (∃ j < frames iLast i, f = iZero i + 1 + j) ∨ iZero (i + 1) < f := by
  have bounds := frames_bounds some_frame inside
  rcases Nat.lt_or_ge (iZero i + frames iLast i) f with later | here
  · rcases Nat.eq_or_lt_of_le inside with last | notLast
    · omega
    · exact .inr (by omega)
  · exact .inl ⟨f - (iZero i + 1), by omega, by omega⟩

structure Calling (mem : Mem) (iLast iMin i : Nat) (state : WalIterator × Nat × Nat) : Prop where
  nSegment : state.1.nSegment = walFramePage iLast + 1
  segments : ∀ k < state.1.nSegment, Segment mem iLast iMin state.1.slots k (state.1.aSegment k)
  best : Best mem iLast iMin i state.2.1 state.2.2

section

variable {state : WalIterator × Nat × Nat} {p : WalIterator} (some_frame : 0 < iLast)

include some_frame

theorem Calling.nextIn {i : Nat} (calling : Calling mem iLast iMin (i + 1) state)
    (inside : i ≤ walFramePage iLast) : Calling mem iLast iMin i (nextIn iMin state i) := by
  obtain ⟨p, iRet, iFrame⟩ := state
  obtain ⟨nSegment, segments, least, found⟩ := calling
  dsimp only at nSegment segments least found
  have sorted := segments i (by omega)
  have ascending : iZero i ≤ iZero (i + 1) := iZero_mono (Nat.le_succ i)
  have enough : (p.aSegment i).nEntry ≤ (p.aSegment i).iNext +
      ((p.aSegment i).nEntry - (p.aSegment i).iNext) := by omega
  obtain ⟨le, passed, behind⟩ := skipTo_spec enough sorted.next sorted.passed
  rw [Iterator.nextIn]
  dsimp only
  generalize skipTo p.slots (p.aSegment i) iMin ((p.aSegment i).nEntry - (p.aSegment i).iNext)
    (p.aSegment i).iNext = iNext at le passed behind
  have segments' : ∀ k < p.nSegment, Segment mem iLast iMin p.slots k
      (update p.aSegment i { p.aSegment i with iNext := iNext } k) := by
    intro k below
    by_cases here : k = i
    · subst here
      rw [update_self]
      exact ⟨sorted.aIndex, sorted.aPgno, sorted.iZero, sorted.latest, le, passed⟩
    · rw [update_of_ne here]
      exact segments k below
  have in_segment : ∀ j < frames iLast i, iMin < (mem i).aPgno (j + 1) →
      iNext < (p.aSegment i).nEntry ∧
        (p.aSegment i).pgno p.slots iNext ≤ (mem i).aPgno (j + 1) := by
    intro j frame above
    obtain ⟨t, entry, page⟩ := sorted.exists_entry frame
    have late : iNext ≤ t := by
      by_contra early
      have := passed t (Nat.lt_of_not_le early)
      omega
    exact ⟨by omega, page ▸ sorted.ascending late entry⟩
  split
  · rename_i better
    obtain ⟨entry, less⟩ := better
    obtain ⟨below, page, last⟩ := sorted.last_frame entry
    have frame := frames_bounds some_frame inside
    refine ⟨nSegment, segments', ⟨fun f above upTo page_behind => ?_, .inr ⟨behind entry, ?_⟩⟩⟩
    · dsimp only
      rcases frame_cases some_frame inside above upTo with ⟨j, small, rfl⟩ | later
      · rw [pageOf_segment some_frame inside small] at page_behind ⊢
        exact (in_segment j small page_behind).2
      · have := least f later upTo page_behind
        omega
    · dsimp only
      rw [sorted.iZero]
      refine ⟨by omega, by omega, ?_, fun f above upTo same => ?_⟩
      · rw [pageOf_segment some_frame inside below]
        exact page
      · rcases frame_cases some_frame inside (by omega) upTo with ⟨j, small, rfl⟩ | later
        · rw [pageOf_segment some_frame inside small] at same
          exact last j small (by omega) same
        · have := least f later upTo (same ▸ behind entry)
          omega
  · refine ⟨nSegment, segments', ⟨fun f above upTo page_behind => ?_, ?_⟩⟩
    · dsimp only
      rcases frame_cases some_frame inside above upTo with ⟨j, small, rfl⟩ | later
      · rw [pageOf_segment some_frame inside small] at page_behind ⊢
        obtain ⟨entry, page_le⟩ := in_segment j small page_behind
        omega
      · exact least f later upTo page_behind
    · dsimp only
      rcases found with none | ⟨above, later, rest⟩
      · exact .inl none
      · exact .inr ⟨above, by omega, rest⟩

theorem Calling.foldl {n : Nat} (calling : Calling mem iLast iMin n state)
    (le : n ≤ walFramePage iLast + 1) :
    Calling mem iLast iMin 0 ((range n).reverse.foldl (Iterator.nextIn iMin) state) := by
  induction n generalizing state with
  | zero => exact calling
  | succ n ih =>
    rw [range_succ, reverse_append, reverse_singleton, singleton_append]
    exact ih (calling.nextIn some_frame (by omega)) (by omega)

variable (valid : ∀ f, 0 < f → f ≤ iLast → pageOf mem f < noPage)

include valid

theorem walIteratorNext_spec (inv : Inv mem iLast p) : Inv mem iLast (walIteratorNext p).2 ∧
    ((walIteratorNext p).1 = none ∧ (∀ f, 0 < f → f ≤ iLast → pageOf mem f ≤ p.iPrior) ∨
    ∃ pgno iFrame, (walIteratorNext p).1 = some (pgno, iFrame) ∧
      (walIteratorNext p).2.iPrior = pgno ∧ p.iPrior < pgno ∧
      (∀ f, 0 < f → f ≤ iLast → p.iPrior < pageOf mem f → pgno ≤ pageOf mem f) ∧
      0 < iFrame ∧ iFrame ≤ iLast ∧ pageOf mem iFrame = pgno ∧
      ∀ f, iFrame < f → f ≤ iLast → pageOf mem f ≠ pgno) := by
  obtain ⟨-, high⟩ := walFramePage_bounds some_frame
  have start : Calling mem iLast p.iPrior p.nSegment (p, noPage, 0) := by
    refine ⟨inv.nSegment, inv.segments, ⟨fun f above upTo _ => ?_, .inl rfl⟩⟩
    rw [inv.nSegment, iZero_succ] at above
    omega
  have ends := start.foldl some_frame inv.nSegment.le
  rw [walIteratorNext]
  generalize (range p.nSegment).reverse.foldl (Iterator.nextIn p.iPrior) (p, noPage, 0) = final
    at ends
  obtain ⟨p', iRet, iFrame⟩ := final
  obtain ⟨nSegment, segments, least, found⟩ := ends
  dsimp only at nSegment segments least found ⊢
  refine ⟨⟨nSegment, fun i inside => ?_⟩, ?_⟩
  · -- what was passed stays behind
    have sorted := segments i inside
    have block : i ≤ walFramePage iLast := by
      change i < p'.nSegment at inside
      omega
    refine ⟨sorted.aIndex, sorted.aPgno, sorted.iZero, sorted.latest, sorted.next,
      fun j before => ?_⟩
    dsimp only
    rcases found with none | ⟨above, -⟩
    · obtain ⟨entry, page, -⟩ := sorted.last_frame (before.trans_le sorted.next)
      have bounds := frames_bounds some_frame block
      have small := valid (iZero i + 1 + p'.slots ((p'.aSegment i).aIndex + j)) (by omega)
        (by omega)
      rw [pageOf_segment some_frame block entry] at small
      omega
    · exact Nat.le_trans (sorted.passed j before) above.le
  · rcases found with none | ⟨above, positive, upTo, page, last⟩
    · refine .inl ⟨if_pos none, fun f above upTo => ?_⟩
      by_contra behind
      have := least f above upTo (Nat.lt_of_not_le behind)
      have := valid f above upTo
      omega
    · have some_page : iRet ≠ noPage := Nat.ne_of_lt (page ▸ valid iFrame positive upTo)
      exact .inr ⟨iRet, iFrame, if_neg some_page, rfl, above, least, positive, upTo, page, last⟩

/-- Each call gives what the protocol takes it to give. -/
theorem walIteratorNext_refines (inv : Inv mem iLast p) : (walIteratorNext p).1 =
      Protocol.walIteratorNext (Protocol.walIteratorInit mem iLast) p.iPrior := by
  have entry : ∀ f < iLast,
      (Protocol.walIteratorInit mem iLast)[f]? = some (pageOf mem (f + 1)) := by
    intro f inside
    rw [Protocol.walIteratorInit, getElem?_map, getElem?_range inside]
    rfl
  have length : (Protocol.walIteratorInit mem iLast).length = iLast := by
    simp [Protocol.walIteratorInit]
  have listed : ∀ q, q ∈ Protocol.walIteratorInit mem iLast ↔
      ∃ f, 0 < f ∧ f ≤ iLast ∧ pageOf mem f = q := by
    intro q
    simp only [Protocol.walIteratorInit, mem_map, mem_range]
    constructor
    · rintro ⟨f, inside, eq⟩
      exact ⟨f + 1, Nat.succ_pos f, inside, eq⟩
    · rintro ⟨f, positive, upTo, eq⟩
      obtain ⟨f, rfl⟩ := Nat.exists_eq_succ_of_ne_zero positive.ne'
      exact ⟨f, upTo, eq⟩
  rcases (walIteratorNext_spec some_frame valid inv).2 with ⟨none, all⟩ |
    ⟨pgno, iFrame, found, -, above, least, positive, upTo, page, last⟩
  · rw [none, eq_comm, Protocol.walIteratorNext, Option.map_eq_none_iff, min?_eq_none_iff,
      filter_eq_nil_iff]
    intro q member
    obtain ⟨f, positive, upTo, rfl⟩ := (listed q).mp member
    simpa using all f positive upTo
  · have min : ((Protocol.walIteratorInit mem iLast).filter (p.iPrior < ·)).min? = some pgno := by
      rw [min?_eq_some_iff]
      refine ⟨mem_filter.mpr ⟨(listed pgno).mpr ⟨iFrame, positive, upTo, page⟩, by simpa⟩, ?_⟩
      intro q member
      obtain ⟨member, behind⟩ := mem_filter.mp member
      obtain ⟨f, positive', upTo', rfl⟩ := (listed q).mp member
      exact least f positive' upTo' (by simpa using behind)
    have newest : Newest (Protocol.walIteratorInit mem iLast) iLast pgno iFrame := by
      refine .inr ⟨positive, upTo, ?_, fun f inside here => ?_⟩
      · rw [entry _ (by omega), Nat.sub_add_cancel positive, page]
      · rw [entry f inside] at here
        by_contra late
        exact last (f + 1) (by omega) (by omega) (Option.some_inj.mp here)
    rw [found, Protocol.walIteratorNext, min, Option.map_some, length,
      newest.unique (linearScan_newest _ pgno iLast)]

end

/-- The frames with a page behind those already visited. -/
def ahead (mem : Mem) (iLast iPrior : Nat) : Finset Nat :=
  (Finset.Icc 1 iLast).filter fun f => iPrior < pageOf mem f

theorem visit_spec (some_frame : 0 < iLast) (valid : ∀ f, 0 < f → f ≤ iLast → pageOf mem f < noPage)
    (inv : Inv mem iLast p) (enough : (ahead mem iLast p.iPrior).card < calls) :
    ∃ out, visit calls p = some out ∧ (out.map Prod.fst).Pairwise (· < ·) ∧
      (∀ pgno, pgno ∈ out.map Prod.fst ↔
        p.iPrior < pgno ∧ ∃ f, 0 < f ∧ f ≤ iLast ∧ pageOf mem f = pgno) ∧
      ∀ found ∈ out, 0 < found.2 ∧ found.2 ≤ iLast ∧ pageOf mem found.2 = found.1 ∧
        ∀ f, found.2 < f → f ≤ iLast → pageOf mem f ≠ found.1 := by
  induction calls generalizing p with
  | zero => exact absurd enough (Nat.not_lt_zero _)
  | succ calls ih =>
    obtain ⟨inv', call⟩ := walIteratorNext_spec some_frame valid inv
    rw [visit]
    generalize walIteratorNext p = result at inv' call
    obtain ⟨found, p'⟩ := result
    rcases call with ⟨none, all⟩ |
      ⟨pgno, iFrame, next, prior, above, least, positive, upTo, page, last⟩
    · subst none
      refine ⟨[], rfl, List.Pairwise.nil, fun pgno => ?_, fun _ listed => absurd listed not_mem_nil⟩
      refine ⟨fun listed => absurd listed not_mem_nil, ?_⟩
      rintro ⟨behind, f, positive, upTo, rfl⟩
      exact absurd (all f positive upTo) behind.not_ge
    · dsimp only at next prior inv'
      subst next prior
      -- the frame found is no longer ahead
      have fewer : (ahead mem iLast p'.iPrior).card < (ahead mem iLast p.iPrior).card := by
        refine Finset.card_lt_card (Finset.ssubset_iff_subset_ne.mpr
          ⟨fun f member => ?_, fun same => ?_⟩)
        · rw [ahead, Finset.mem_filter] at member ⊢
          exact ⟨member.1, above.trans member.2⟩
        · have member : iFrame ∈ ahead mem iLast p.iPrior :=
            Finset.mem_filter.mpr ⟨Finset.mem_Icc.mpr ⟨positive, upTo⟩, page ▸ above⟩
          rw [← same, ahead, Finset.mem_filter, page] at member
          exact Nat.lt_irrefl _ member.2
      obtain ⟨out, rest, sorted, pages, newest⟩ := ih inv' (by omega)
      refine ⟨(p'.iPrior, iFrame) :: out, by simp only [rest, Option.map_some], ?_, ?_, ?_⟩
      · rw [map_cons, pairwise_cons]
        exact ⟨fun q listed => ((pages q).mp listed).1, sorted⟩
      · intro q
        rw [map_cons, mem_cons, pages]
        constructor
        · rintro (rfl | ⟨behind, f⟩)
          · exact ⟨above, iFrame, positive, upTo, page⟩
          · exact ⟨above.trans behind, f⟩
        · rintro ⟨behind, f, positive', upTo', rfl⟩
          rcases Nat.eq_or_lt_of_le (least f positive' upTo' behind) with same | later
          · exact .inl same.symm
          · exact .inr ⟨later, f, positive', upTo', rfl⟩
      · intro found listed
        rcases mem_cons.mp listed with rfl | later
        · exact ⟨positive, upTo, page, last⟩
        · exact newest found later

theorem visit_of_le {out : List (Nat × Nat)} {more : Nat} (visits : visit calls p = some out)
    (le : calls ≤ more) : visit more p = some out := by
  induction calls generalizing p out more with
  | zero => exact absurd visits (by simp [visit])
  | succ calls ih =>
    obtain ⟨more, rfl⟩ : ∃ fewer, more = fewer + 1 := ⟨more - 1, by omega⟩
    rw [visit] at visits ⊢
    generalize walIteratorNext p = result at visits ⊢
    rcases result with ⟨_ | found, p'⟩
    · exact visits
    · obtain ⟨rest, later, rfl⟩ := Option.map_eq_some_iff.mp visits
      simp [ih later (Nat.le_of_succ_le_succ le)]

end

/-- The calls of a checkpoint yield every page of the log once, in the order of the page numbers,
each with its last frame. -/
theorem iterator_visits_newest (mem : Mem) (iLast : Nat) (some_frame : 0 < iLast)
    (numbers : ∀ f, 0 < f → f ≤ iLast → 0 < pageOf mem f ∧ pageOf mem f < noPage) :
    ∃ out, (∀ calls > iLast, visit calls (walIteratorInit mem iLast) = some out) ∧
      (out.map Prod.fst).Pairwise (· < ·) ∧
      (∀ pgno, pgno ∈ out.map Prod.fst ↔ ∃ f, 0 < f ∧ f ≤ iLast ∧ pageOf mem f = pgno) ∧
      ∀ found ∈ out, 0 < found.2 ∧ found.2 ≤ iLast ∧ pageOf mem found.2 = found.1 ∧
        ∀ f, found.2 < f → f ≤ iLast → pageOf mem f ≠ found.1 := by
  obtain ⟨inv, prior⟩ := inv_walIteratorInit mem some_frame
  have few : (ahead mem iLast (walIteratorInit mem iLast).iPrior).card < iLast + 1 := by
    refine Nat.lt_succ_of_le (Nat.le_trans (Finset.card_filter_le _ _) ?_)
    rw [Nat.card_Icc, Nat.add_sub_cancel]
  obtain ⟨out, visits, sorted, pages, newest⟩ :=
    visit_spec some_frame (fun f positive upTo => (numbers f positive upTo).2) inv few
  refine ⟨out, fun calls enough => visit_of_le visits enough, sorted, fun pgno => ?_, newest⟩
  rw [pages, prior, and_iff_right_iff_imp]
  rintro ⟨f, positive, upTo, rfl⟩
  exact (numbers f positive upTo).1

/-- An index in which two pages have the frames in turn. -/
def inTurn : Mem := fun _ => ⟨fun j => j % 2 + 1, fun _ => 0⟩

theorem iterator_visits_newest_inTurn :
    ∃ out, (∀ calls > 5000, visit calls (walIteratorInit inTurn 5000) = some out) ∧
      (out.map Prod.fst).Pairwise (· < ·) ∧
      (∀ pgno, pgno ∈ out.map Prod.fst ↔ ∃ f, 0 < f ∧ f ≤ 5000 ∧ pageOf inTurn f = pgno) ∧
      ∀ found ∈ out, 0 < found.2 ∧ found.2 ≤ 5000 ∧ pageOf inTurn found.2 = found.1 ∧
        ∀ f, found.2 < f → f ≤ 5000 → pageOf inTurn f ≠ found.1 :=
  iterator_visits_newest inTurn 5000 (by decide) fun f _ _ => by
    simp only [pageOf, inTurn, noPage]
    omega

theorem first_page_inTurn : (walIteratorNext (walIteratorInit inTurn 9)).1 = some (1, 8) :=
  (walIteratorNext_refines (by decide) (fun f _ _ => by simp only [pageOf, inTurn, noPage]; omega)
    (inv_walIteratorInit inTurn (by decide)).1).trans (by decide)

end SeSqlite.Wal.Iterator
