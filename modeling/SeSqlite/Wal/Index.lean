/- source: src/wal.c
   digest: The hash tables of the wal-index answer every snapshot as a scan of the log does. -/
import Mathlib.Data.List.TakeDrop
import SeSqlite.Lib.Probing

set_option autoImplicit false
set_option relaxedAutoImplicit false

namespace SeSqlite.Wal.Index

open Lib.Probing List Function Option

def readmarkNotUsed : Nat := 0xffffffff
def hashtableNpage : Nat := 4096
def hashtableHash1 : Nat := 383
def hashtableNslot : Nat := hashtableNpage * 2

/-- The 136 bytes of the header take the place of 34 page numbers on the first page. -/
def hashtableNpageOne : Nat := hashtableNpage - 136 / 4

/-- The mask keeps the low bits, so the wrap of the unsigned product does not show. -/
def walHash (iPage : Nat) : Nat := iPage * hashtableHash1 % hashtableNslot

def walFramePage (iFrame : Nat) : Nat :=
  (iFrame + hashtableNpage - hashtableNpageOne - 1) / hashtableNpage

def iZero (iHash : Nat) : Nat :=
  if iHash = 0 then 0 else hashtableNpageOne + (iHash - 1) * hashtableNpage

def nEntry (iHash : Nat) : Nat := if iHash = 0 then hashtableNpageOne else hashtableNpage

/-- The arrays `aPgno[1 …]` and `aHash[0 …]` of one page of the wal-index. -/
structure HashPage where
  aPgno : Nat → Nat
  aHash : Nat → Nat

abbrev Mem := Nat → HashPage

def blank : HashPage := ⟨fun _ => 0, fun _ => 0⟩

def HashPage.cut (page : HashPage) (iLimit : Nat) : HashPage where
  aPgno := fun j => if iLimit < j then 0 else page.aPgno j
  aHash := fun k => if iLimit < page.aHash k then 0 else page.aHash k

def walCleanupHash (mem : Mem) (mxFrame : Nat) : Mem :=
  if mxFrame = 0 then mem
  else
    let iHash := walFramePage mxFrame
    update mem iHash ((mem iHash).cut (mxFrame - iZero iHash))

/-- What `walIndexAppend` does to the page before it writes the new entry. -/
def makeReady (mem : Mem) (mxFrame iFrame : Nat) : Mem :=
  let iHash := walFramePage iFrame
  let idx := iFrame - iZero iHash
  let mem := if idx = 1 then update mem iHash blank else mem
  if (mem iHash).aPgno idx ≠ 0 then walCleanupHash mem mxFrame else mem

/-- `none` is the corruption error of the collision limit. -/
def walIndexAppend (mem : Mem) (mxFrame iFrame iPage : Nat) : Option Mem :=
  let iHash := walFramePage iFrame
  let idx := iFrame - iZero iHash
  let mem := makeReady mem mxFrame iFrame
  (firstFree hashtableNslot (mem iHash).aHash idx (walHash iPage)).map fun iKey =>
    update mem iHash
      ⟨update (mem iHash).aPgno idx iPage, update (mem iHash).aHash iKey idx⟩

/-- The inner loop of `sqlite3WalFindFrame`, over one hash table. -/
def findInTable (mem : Mem) (iLast pgno iHash : Nat) : Option Nat :=
  let page := mem iHash
  foldProbe hashtableNslot page.aHash
    (fun iRead i => if i + iZero iHash ≤ iLast ∧ page.aPgno i = pgno then i + iZero iHash
      else iRead)
    hashtableNslot (walHash pgno) 0

def findFrom (mem : Mem) (iLast pgno : Nat) : Nat → Option Nat
  | 0 => findInTable mem iLast pgno 0
  | iHash + 1 =>
    match findInTable mem iLast pgno (iHash + 1) with
    | none => none
    | some 0 => findFrom mem iLast pgno iHash
    | some iRead => some iRead

def sqlite3WalFindFrame (mem : Mem) (readLock iLast pgno : Nat) : Option Nat :=
  if iLast = 0 ∨ readLock = 0 then some 0 else findFrom mem iLast pgno (walFramePage iLast)

/-- The linear search of the expensive assert, over the page numbers of the frames. -/
def linearScan (pages : List Nat) (pgno : Nat) : Nat → Nat
  | 0 => 0
  | iTest + 1 => if pages[iTest]? = some pgno then iTest + 1 else linearScan pages pgno iTest

/-- Frame `r` is the newest one of the page among the first `mxFrame`, or 0 stands for none. -/
def Newest (pages : List Nat) (mxFrame pgno r : Nat) : Prop :=
  (r = 0 ∧ ∀ f < mxFrame, pages[f]? ≠ some pgno) ∨
  (1 ≤ r ∧ r ≤ mxFrame ∧ pages[r - 1]? = some pgno ∧
    ∀ f < mxFrame, pages[f]? = some pgno → f < r)

theorem iZero_succ (iHash : Nat) : iZero (iHash + 1) = iZero iHash + nEntry iHash := by
  cases iHash with
  | zero => simp [iZero, nEntry]
  | succ b =>
    simp only [iZero, nEntry, Nat.succ_ne_zero, if_false, Nat.add_sub_cancel, Nat.add_mul]
    omega

theorem walFramePage_eq_iff {f : Nat} (pos : 1 ≤ f) (b : Nat) :
    walFramePage f = b ↔ iZero b < f ∧ f ≤ iZero b + nEntry b := by
  cases b with
  | zero =>
    simp only [walFramePage, iZero, nEntry, hashtableNpage, if_true]
    omega
  | succ b =>
    simp only [walFramePage, iZero, nEntry, hashtableNpage, Nat.succ_ne_zero, if_false]
    omega

theorem walFramePage_bounds {f : Nat} (pos : 1 ≤ f) :
    iZero (walFramePage f) < f ∧ f ≤ iZero (walFramePage f) + nEntry (walFramePage f) :=
  (walFramePage_eq_iff pos _).mp rfl

theorem nEntry_lt (b : Nat) : nEntry b < hashtableNslot := by
  simp only [nEntry, hashtableNslot, hashtableNpageOne, hashtableNpage]
  split <;> omega

theorem nEntry_pos (b : Nat) : 0 < nEntry b := by
  simp only [nEntry, hashtableNpageOne, hashtableNpage]
  split <;> omega

theorem walHash_lt (iPage : Nat) : walHash iPage < hashtableNslot :=
  Nat.mod_lt _ (by decide)

variable {iPage n : Nat} {page : HashPage}

/-- The page holds the entries `1 … n` and nothing else. -/
structure HashPage.Filled (page : HashPage) (n : Nat) : Prop where
  numbered : ∀ j, 1 ≤ j → (page.aPgno j ≠ 0 ↔ j ≤ n)
  probed : Probed hashtableNslot (fun i => walHash (page.aPgno i)) page.aHash n

theorem blank_filled : blank.Filled 0 :=
  ⟨fun j pos => by simp only [blank]; omega, probed_empty⟩

theorem HashPage.Filled.cut {iLimit : Nat} (filled : page.Filled n) (le : iLimit ≤ n) :
    (page.cut iLimit).Filled iLimit := by
  refine ⟨fun j pos => ?_, (filled.probed.truncate le).congr fun i _ small => ?_⟩
  · have old := filled.numbered j pos
    simp only [HashPage.cut]
    split
    · omega
    · omega
  · simp only [HashPage.cut]
    rw [if_neg (by omega)]

theorem HashPage.Filled.append (filled : page.Filled n) (room : n + 1 < hashtableNslot)
    (pos : 0 < iPage) : ∃ iKey,
      firstFree hashtableNslot page.aHash (n + 1) (walHash iPage) = some iKey ∧
      HashPage.Filled ⟨update page.aPgno (n + 1) iPage,
        update page.aHash iKey (n + 1)⟩ (n + 1) := by
  obtain ⟨d, small, gap⟩ := filled.probed.exists_gap (by omega) (walHash iPage)
  refine ⟨slot hashtableNslot (walHash iPage) d,
    gap.firstFree_eq (walHash_lt iPage) (by omega), fun j one => ?_, ?_⟩
  · by_cases here : j = n + 1
    · subst here
      simp only [update_self]
      omega
    · have old := filled.numbered j one
      dsimp only
      rw [update_of_ne here]
      omega
  · have homes : Probed hashtableNslot
        (fun i => walHash (update page.aPgno (n + 1) iPage i)) page.aHash n :=
      filled.probed.congr fun i _ le => by rw [update_of_ne (by omega)]
    have inserted := homes.insert (d := d) (by omega)
      (by simpa only [update_self] using gap) (by omega)
    simpa only [update_self] using inserted

/-- The wal-index covers the frames `1 … iFrame` of the log. Entries of an abandoned transaction
may follow, but not behind frames that the present writer has itself added. -/
structure Indexed (mem : Mem) (mxFrame iFrame : Nat) (pages : List Nat) : Prop where
  length : pages.length = iFrame
  le : mxFrame ≤ iFrame
  filled : ∀ b, iZero b < iFrame → ∃ n, (mem b).Filled n ∧ n ≤ nEntry b ∧
    (iFrame - iZero b ≤ n ∨ n = nEntry b) ∧
    (mxFrame < iFrame → iFrame ≤ iZero b + nEntry b → n = iFrame - iZero b)
  mapped : ∀ b j, 1 ≤ j → j ≤ nEntry b → iZero b + j ≤ iFrame →
    pages[iZero b + j - 1]? = some ((mem b).aPgno j)

variable {last : Nat}

section

variable {mem : Mem} {mxFrame iFrame : Nat} {pages : List Nat}

theorem indexed_empty (mem : Mem) : Indexed mem 0 0 [] :=
  ⟨rfl, le_rfl, fun _ less => absurd less (Nat.not_lt_zero _), fun _ _ _ _ less => by omega⟩

section

variable (indexed : Indexed mem mxFrame iFrame pages)

include indexed

theorem Indexed.back (le : last ≤ iFrame) : Indexed mem last last (pages.take last) := by
  refine ⟨?_, le_rfl, fun b less => ?_, fun b j one small inside => ?_⟩
  · rw [length_take, indexed.length]
    omega
  · obtain ⟨n, filled, small, enough, -⟩ := indexed.filled b (by omega)
    exact ⟨n, filled, small, by omega, fun less => absurd less (Nat.lt_irrefl _)⟩
  · rw [getElem?_take_of_lt (by omega)]
    exact indexed.mapped b j one small (by omega)

theorem Indexed.finish : Indexed mem iFrame iFrame pages :=
  ⟨indexed.length, le_rfl, fun b less => by
    obtain ⟨n, filled, small, enough, -⟩ := indexed.filled b less
    exact ⟨n, filled, small, enough, fun less => absurd less (Nat.lt_irrefl _)⟩, indexed.mapped⟩

omit indexed in
theorem Indexed.cleanup (indexed : Indexed mem mxFrame mxFrame pages) :
    Indexed (walCleanupHash mem mxFrame) mxFrame mxFrame pages := by
  by_cases zero : mxFrame = 0
  · rwa [walCleanupHash, if_pos zero]
  rw [walCleanupHash, if_neg zero]
  obtain ⟨low, high⟩ := walFramePage_bounds (f := mxFrame) (by omega)
  refine ⟨indexed.length, le_rfl, fun b less => ?_, fun b j one small inside => ?_⟩
  · obtain ⟨n, filled, small, enough, -⟩ := indexed.filled b less
    by_cases here : b = walFramePage mxFrame
    · subst here
      rw [update_self]
      exact ⟨_, filled.cut (by omega), by omega, by omega, by omega⟩
    · rw [update_of_ne here]
      exact ⟨n, filled, small, enough, by omega⟩
  · have old := indexed.mapped b j one small inside
    by_cases here : b = walFramePage mxFrame
    · subst here
      rw [update_self, old]
      simp only [HashPage.cut]
      rw [if_neg (by omega)]
    · rw [update_of_ne here, old]

/-- Before the new entry is written its page holds exactly the entries of the log, whatever an
earlier writer left there. -/
theorem Indexed.ready : let b := walFramePage (iFrame + 1)
    let mem' := makeReady mem mxFrame (iFrame + 1)
    (mem' b).Filled (iFrame - iZero b) ∧ (∀ c ≠ b, mem' c = mem c) ∧
      ∀ j, 1 ≤ j → iZero b + j ≤ iFrame → (mem' b).aPgno j = (mem b).aPgno j := by
  intro b mem'
  obtain ⟨low, high⟩ := walFramePage_bounds (f := iFrame + 1) (by omega)
  change iZero b < iFrame + 1 at low
  change iFrame + 1 ≤ iZero b + nEntry b at high
  by_cases first : iFrame + 1 - iZero b = 1
  · -- the first entry of a page finds it blank
    have eq : mem' = update mem b blank := by
      simp only [mem', makeReady]
      rw [if_pos first, update_self, if_neg (by simp [blank])]
    have none_yet : iFrame - iZero b = 0 := by omega
    rw [eq, update_self, none_yet]
    exact ⟨blank_filled, fun c other => update_of_ne other _ _,
      fun j one inside => by omega⟩
  · obtain ⟨n, filled, small, enough, exact_top⟩ := indexed.filled b (by omega)
    have slot_used := filled.numbered (iFrame + 1 - iZero b) (by omega)
    by_cases leftover : iFrame + 1 - iZero b ≤ n
    · -- entries of a writer that did not finish: the log ends at mxFrame itself
      have at_end : mxFrame = iFrame := by
        by_contra differ
        have le := indexed.le
        omega
      have same_page : walFramePage iFrame = b :=
        (walFramePage_eq_iff (by omega) b).mpr ⟨by omega, by omega⟩
      have eq : mem' = update mem b ((mem b).cut (iFrame - iZero b)) := by
        simp only [mem', makeReady]
        rw [if_neg first, if_pos (slot_used.mpr leftover), at_end, walCleanupHash,
          if_neg (by omega), same_page]
      rw [eq, update_self]
      refine ⟨filled.cut (by omega), fun c other => update_of_ne other _ _,
        fun j one inside => ?_⟩
      simp only [HashPage.cut]
      rw [if_neg (by omega)]
    · have eq : mem' = mem := by
        simp only [mem', makeReady]
        rw [if_neg first, if_neg (fun used => leftover (slot_used.mp used))]
      have count : n = iFrame - iZero b := by omega
      rw [eq, ← count]
      exact ⟨filled, fun _ _ => rfl, fun _ _ _ => rfl⟩

theorem Indexed.append (pos : 0 < iPage) :
    ∃ mem', walIndexAppend mem mxFrame (iFrame + 1) iPage = some mem' ∧
      Indexed mem' mxFrame (iFrame + 1) (pages ++ [iPage]) := by
  obtain ⟨filled, others, kept⟩ := indexed.ready
  obtain ⟨low, high⟩ := walFramePage_bounds (f := iFrame + 1) (by omega)
  have count : iFrame + 1 - iZero (walFramePage (iFrame + 1)) =
      iFrame - iZero (walFramePage (iFrame + 1)) + 1 := by omega
  have room := nEntry_lt (walFramePage (iFrame + 1))
  obtain ⟨iKey, found, added⟩ := filled.append (by omega) pos
  refine ⟨_, by rw [walIndexAppend, count, found, map_some], ?_, ?_, ?_, ?_⟩
  · rw [length_append, indexed.length, length_singleton]
  · exact Nat.le_succ_of_le indexed.le
  · intro b less
    by_cases here : b = walFramePage (iFrame + 1)
    · subst here
      rw [update_self]
      exact ⟨_, added, by omega, by omega, fun _ _ => by omega⟩
    · -- an earlier page is full, and stays as it is
      obtain ⟨n, old, small, enough, exact_top⟩ := indexed.filled b (by
        by_contra late
        have := nEntry_pos b
        exact here ((walFramePage_eq_iff (by omega) b).mpr ⟨less, by omega⟩).symm)
      have beyond : ¬ iFrame + 1 ≤ iZero b + nEntry b := fun inside =>
        here ((walFramePage_eq_iff (by omega) b).mpr ⟨less, inside⟩).symm
      rw [update_of_ne here, others b here]
      exact ⟨n, old, small, by omega, fun _ inside => absurd inside beyond⟩
  · intro b j one small inside
    by_cases here : b = walFramePage (iFrame + 1)
    · subst here
      rw [update_self]
      dsimp only
      by_cases last : j = iFrame - iZero (walFramePage (iFrame + 1)) + 1
      · have position : iZero (walFramePage (iFrame + 1)) + j - 1 = pages.length := by
          rw [indexed.length]
          omega
        rw [position, getElem?_concat_length, last, update_self]
      · rw [getElem?_append_left (by rw [indexed.length]; omega),
          indexed.mapped _ j one small (by omega), update_of_ne last,
          kept j one (by omega)]
    · have before : iZero b + j ≤ iFrame := by
        by_contra late
        exact here ((walFramePage_eq_iff (by omega) b).mpr ⟨by omega, by omega⟩).symm
      rw [update_of_ne here, others b here,
        getElem?_append_left (by rw [indexed.length]; omega)]
      exact indexed.mapped b j one small before

end

theorem linearScan_newest (pages : List Nat) (pgno mxFrame : Nat) :
    Newest pages mxFrame pgno (linearScan pages pgno mxFrame) := by
  induction mxFrame with
  | zero => exact .inl ⟨rfl, fun f less => absurd less (Nat.not_lt_zero f)⟩
  | succ last ih =>
    rw [linearScan]
    split
    · rename_i hit
      exact .inr ⟨by omega, le_rfl, by simpa using hit, fun f less _ => less⟩
    · rename_i miss
      rcases ih with ⟨zero, none_before⟩ | ⟨one, le, hit, newest⟩
      · refine .inl ⟨zero, fun f less => ?_⟩
        rcases Nat.lt_succ_iff_lt_or_eq.mp less with before | rfl
        · exact none_before f before
        · exact miss
      · refine .inr ⟨one, by omega, hit, fun f less eq => ?_⟩
        rcases Nat.lt_succ_iff_lt_or_eq.mp less with before | rfl
        · exact newest f before eq
        · exact absurd eq miss

theorem Newest.unique {pages : List Nat} {mxFrame pgno r r' : Nat}
    (left : Newest pages mxFrame pgno r) (right : Newest pages mxFrame pgno r') : r = r' := by
  rcases left with ⟨zero, none_left⟩ | ⟨one, le, hit, newest⟩ <;>
    rcases right with ⟨zero', none_right⟩ | ⟨one', le', hit', newest'⟩
  · omega
  · exact absurd hit' (none_left _ (by omega))
  · exact absurd hit (none_right _ (by omega))
  · have := newest _ (by omega) hit'
    have := newest' _ (by omega) hit
    omega

variable {mem : Mem} {mxFrame iFrame iLast pgno : Nat} {pages : List Nat}

section

variable {b : Nat} (indexed : Indexed mem mxFrame iFrame pages) (le : iLast ≤ iFrame)

include indexed le

theorem Indexed.findInTable_eq (inside : iZero b < iLast) (pgno : Nat) :
    ∃ r, findInTable mem iLast pgno b = some r ∧
      ((r = 0 ∧ ∀ f, iZero b ≤ f → f < iZero b + nEntry b → f < iLast →
          pages[f]? ≠ some pgno) ∨
        (iZero b < r ∧ r ≤ iZero b + nEntry b ∧ r ≤ iLast ∧ pages[r - 1]? = some pgno ∧
          ∀ f, f < iZero b + nEntry b → f < iLast → pages[f]? = some pgno → f < r)) := by
  obtain ⟨n, filled, small, enough, -⟩ := indexed.filled b (by omega)
  have room := nEntry_lt b
  obtain ⟨es, folded, range, listed, sorted⟩ :=
    filled.probed.walk (by omega) (walHash_lt pgno) hashtableNslot (by omega)
  -- what the loop's test says about the log
  let hit : Nat → Bool := fun i => decide (i + iZero b ≤ iLast ∧ (mem b).aPgno i = pgno)
  have hit_iff : ∀ i, 1 ≤ i → i ≤ n → (hit i = true ↔
      i + iZero b ≤ iLast ∧ pages[iZero b + i - 1]? = some pgno) := by
    intro i one le_n
    simp only [hit, decide_eq_true_eq]
    refine and_congr_right fun visible => ?_
    rw [indexed.mapped b i one (by omega) (by omega), some_inj]
  have sorted' : es.Pairwise fun i j => hit j = true → i < j := by
    refine sorted.imp fun {i j} older matched => older ?_
    simp only [hit, decide_eq_true_eq] at matched
    simp [matched.2]
  have eq : findInTable mem iLast pgno b =
      some (es.foldl (fun acc i => if hit i then i + iZero b else acc) 0) := by
    rw [findInTable, folded]
    simp [hit]
  -- a frame of this table that shows the page is an entry that hits
  have entry : ∀ f, iZero b ≤ f → f < iZero b + nEntry b → f < iLast →
      pages[f]? = some pgno → f + 1 - iZero b ∈ es ∧ hit (f + 1 - iZero b) = true := by
    intro f low high visible eq_pgno
    have position : iZero b + (f + 1 - iZero b) - 1 = f := by omega
    have matched : hit (f + 1 - iZero b) = true :=
      (hit_iff _ (by omega) (by omega)).mpr ⟨by omega, by rwa [position]⟩
    refine ⟨listed _ (by omega) (by omega) ?_, matched⟩
    simp only [hit, decide_eq_true_eq] at matched
    rw [matched.2]
  rcases foldl_last_cases (fun i => i + iZero b) 0 sorted' with
    ⟨miss, none_found⟩ | ⟨r, r_in, r_hit, greatest, found⟩
  · refine ⟨0, by rw [eq, none_found], .inl ⟨rfl, fun f low high less eq_pgno => ?_⟩⟩
    obtain ⟨f_in, f_hit⟩ := entry f low high less eq_pgno
    exact absurd f_hit (Bool.eq_false_iff.mp (miss _ f_in))
  · obtain ⟨one, le_n⟩ := range r r_in
    obtain ⟨visible, shows⟩ := (hit_iff r one le_n).mp r_hit
    have position : r + iZero b - 1 = iZero b + r - 1 := by omega
    refine ⟨r + iZero b, by rw [eq, found],
      .inr ⟨by omega, by omega, visible, by rwa [position], ?_⟩⟩
    intro f high less eq_pgno
    by_cases low : iZero b ≤ f
    · obtain ⟨f_in, f_hit⟩ := entry f low high less eq_pgno
      have := greatest _ f_in f_hit
      omega
    · omega

theorem Indexed.findFrom_eq (inside : iZero b < iLast) (pgno : Nat) :
    ∃ r, findFrom mem iLast pgno b = some r ∧
      Newest pages (min iLast (iZero b + nEntry b)) pgno r := by
  induction b with
  | zero =>
    obtain ⟨r, eq, answer⟩ := indexed.findInTable_eq le inside pgno
    refine ⟨r, eq, ?_⟩
    have start : iZero 0 = 0 := rfl
    rcases answer with ⟨rfl, none_here⟩ | ⟨low, high, visible, shows, newest⟩
    · exact .inl ⟨rfl, fun f less => none_here f (by omega) (by omega) (by omega)⟩
    · exact .inr ⟨by omega, by omega, shows, fun f less => newest f (by omega) (by omega)⟩
  | succ b ih =>
    obtain ⟨r, eq, answer⟩ := indexed.findInTable_eq le inside pgno
    have start := iZero_succ b
    rcases answer with ⟨rfl, none_here⟩ | ⟨low, high, visible, shows, newest⟩
    · obtain ⟨r, eq', older⟩ := ih (by omega)
      refine ⟨r, by rw [findFrom, eq]; exact eq', ?_⟩
      -- nothing in table b + 1, so the newest frame up to its start is the newest
      rcases older with ⟨rfl, none_below⟩ | ⟨one, small, shows, newest⟩
      · refine .inl ⟨rfl, fun f less => ?_⟩
        by_cases below : f < iZero (b + 1)
        · exact none_below f (by omega)
        · exact none_here f (by omega) (by omega) (by omega)
      · refine .inr ⟨one, by omega, shows, fun f less eq_pgno => ?_⟩
        by_cases below : f < iZero (b + 1)
        · exact newest f (by omega) eq_pgno
        · exact absurd eq_pgno (none_here f (by omega) (by omega) (by omega))
    · refine ⟨r, ?_, .inr ⟨by omega, by omega, shows, fun f less =>
        newest f (by omega) (by omega)⟩⟩
      obtain ⟨k, rfl⟩ : ∃ k, r = k + 1 := ⟨r - 1, by omega⟩
      simp [findFrom, eq]

theorem Indexed.findFrame {readLock : Nat} (reads : readLock ≠ 0) :
    sqlite3WalFindFrame mem readLock iLast pgno = some (linearScan pages pgno iLast) := by
  by_cases zero : iLast = 0
  · subst zero
    rw [sqlite3WalFindFrame, if_pos (.inl rfl), linearScan]
  obtain ⟨low, high⟩ := walFramePage_bounds (f := iLast) (by omega)
  obtain ⟨r, eq, newest⟩ := indexed.findFrom_eq le low pgno
  rw [Nat.min_eq_left high] at newest
  rw [sqlite3WalFindFrame, if_neg (by omega), eq,
    newest.unique (linearScan_newest pages pgno iLast)]

end

end

/-- The shared tables and header field, the fields of the present writer that bear on them, and
the page numbers of the frames `1 … iFrame` in the log. -/
structure State where
  mem : Mem
  shared : Nat
  mxFrame : Nat
  iFrame : Nat
  nCkpt : Nat
  aWalData : List (Nat × Nat)
  pages : List Nat

def start (mem : Mem) : State := ⟨mem, 0, 0, 0, 0, [], []⟩

inductive Op where
  | begin (nCkpt : Nat)
  | restart
  | frames
  | append (iPage : Nat) (positive : 0 < iPage)
  | finish (isCommit : Bool)
  | undo
  | savepoint
  | savepointUndo (i : Nat)

def Op.isRestart : Op → Bool
  | .restart => true
  | _ => false

namespace State

/-- Another writer takes over from the shared header. The one before it has ended or has died,
possibly between two appends. -/
def begin (s : State) (nCkpt : Nat) : State :=
  { s with mxFrame := s.shared, iFrame := s.shared, nCkpt := nCkpt, aWalData := [],
           pages := s.pages.take s.shared }

def walRestartLog (s : State) : State :=
  { s with shared := 0, mxFrame := 0, iFrame := 0, nCkpt := s.nCkpt + 1, pages := [] }

/-- The loop of `sqlite3WalFrames` over the wal-index starts behind `hdr.mxFrame`, also where an
earlier loop was left by an error. -/
def frames (s : State) : State :=
  { s with iFrame := s.mxFrame, pages := s.pages.take s.mxFrame }

def append (s : State) (iPage : Nat) : Option State :=
  (walIndexAppend s.mem s.mxFrame (s.iFrame + 1) iPage).map fun mem =>
    { s with mem := mem, iFrame := s.iFrame + 1, pages := s.pages ++ [iPage] }

/-- The end of `sqlite3WalFrames`; a commit closes the savepoints of the transaction. -/
def finish (s : State) (isCommit : Bool) : State :=
  if isCommit then { s with mxFrame := s.iFrame, shared := s.iFrame, aWalData := [] }
  else { s with mxFrame := s.iFrame }

def sqlite3WalUndo (s : State) : State :=
  { s with mem := if s.mxFrame ≠ s.shared then walCleanupHash s.mem s.shared else s.mem,
           mxFrame := s.shared, iFrame := s.shared, pages := s.pages.take s.shared }

/-- The words 0 and 3 of `aWalData`. -/
def sqlite3WalSavepoint (s : State) : State :=
  { s with aWalData := s.aWalData ++ [(s.mxFrame, s.nCkpt)] }

def sqlite3WalSavepointUndo (s : State) (i : Nat) : State :=
  match s.aWalData[i]? with
  | none => s
  | some (frame, ckpt) =>
    let frame := if ckpt ≠ s.nCkpt then 0 else frame
    let s := { s with aWalData := s.aWalData.set i (frame, s.nCkpt) }
    if frame < s.mxFrame then
      { s with mem := walCleanupHash s.mem frame, mxFrame := frame, iFrame := frame,
               pages := s.pages.take frame }
    else s

def step (s : State) : Op → Option State
  | .begin nCkpt => some (s.begin nCkpt)
  | .restart => some s.walRestartLog
  | .frames => some s.frames
  | .append iPage _ => s.append iPage
  | .finish isCommit => some (s.finish isCommit)
  | .undo => some s.sqlite3WalUndo
  | .savepoint => some s.sqlite3WalSavepoint
  | .savepointUndo i => some (s.sqlite3WalSavepointUndo i)

def run (s : State) : List Op → Option State
  | [] => some s
  | op :: ops => (s.step op).bind fun t => t.run ops

/-- A savepoint of the present transaction lies behind the committed frames, or it is from before
a restart of the log. -/
def SavedBehind (s : State) (data : Nat × Nat) : Prop :=
  (data.2 = s.nCkpt ∧ s.shared ≤ data.1) ∨ (data.2 < s.nCkpt ∧ s.shared = 0)

structure Inv (s : State) : Prop where
  indexed : Indexed s.mem s.mxFrame s.iFrame s.pages
  committed : s.shared ≤ s.mxFrame
  saved : ∀ data ∈ s.aWalData, s.SavedBehind data

def Extends (s t : State) : Prop :=
  s.shared ≤ t.shared ∧ t.pages.take s.shared = s.pages.take s.shared

end State

section

open State

theorem start_inv (mem : Mem) : (start mem).Inv :=
  ⟨indexed_empty mem, le_rfl, fun _ member => absurd member not_mem_nil⟩

variable {s : State} {pages : List Nat}

private theorem Indexed.cleanup_back {mem : Mem} {mxFrame iFrame : Nat}
    (indexed : Indexed mem mxFrame iFrame pages) (le : last ≤ iFrame) :
    Indexed (walCleanupHash mem last) last last (pages.take last) :=
  (indexed.back le).cleanup

section

variable (inv : s.Inv)

include inv

theorem State.Inv.begin (nCkpt : Nat) : (s.begin nCkpt).Inv :=
  ⟨inv.indexed.back (inv.committed.trans inv.indexed.le), le_rfl,
    fun _ member => absurd member not_mem_nil⟩

theorem State.Inv.restart : s.walRestartLog.Inv := by
  refine ⟨indexed_empty _, le_rfl, fun data member => .inr ⟨?_, rfl⟩⟩
  have old := inv.saved data member
  simp only [SavedBehind] at old
  simp only [walRestartLog]
  omega

theorem State.Inv.frames : s.frames.Inv :=
  ⟨inv.indexed.back inv.indexed.le, inv.committed, inv.saved⟩

theorem State.Inv.append (pos : 0 < iPage) : ∃ mem,
    s.append iPage =
      some { s with mem := mem, iFrame := s.iFrame + 1, pages := s.pages ++ [iPage] } ∧
    { s with mem := mem, iFrame := s.iFrame + 1, pages := s.pages ++ [iPage] : State }.Inv := by
  obtain ⟨mem, eq, indexed⟩ := inv.indexed.append pos
  exact ⟨mem, by rw [State.append, eq, map_some], indexed, inv.committed, inv.saved⟩

theorem State.Inv.finish (isCommit : Bool) : (s.finish isCommit).Inv := by
  have le := inv.committed.trans inv.indexed.le
  cases isCommit with
  | false => exact ⟨inv.indexed.finish, le, inv.saved⟩
  | true =>
    exact ⟨inv.indexed.finish, le_rfl, fun _ member => absurd member not_mem_nil⟩

theorem State.Inv.undo : s.sqlite3WalUndo.Inv := by
  have le := inv.committed.trans inv.indexed.le
  refine ⟨?_, le_rfl, inv.saved⟩
  simp only [sqlite3WalUndo]
  split
  · exact inv.indexed.cleanup_back le
  · exact inv.indexed.back le

theorem State.Inv.savepoint : s.sqlite3WalSavepoint.Inv := by
  refine ⟨inv.indexed, inv.committed, fun data member => ?_⟩
  rcases mem_append.mp member with old | new
  · exact inv.saved data old
  · obtain rfl := mem_singleton.mp new
    exact .inl ⟨rfl, inv.committed⟩

/-- What `sqlite3WalSavepointUndo` can do: nothing, or move the end of the log back to a frame
that is not before the committed ones. -/
theorem sqlite3WalSavepointUndo_cases (i : Nat) :
    ∃ frame aWalData, s.shared ≤ frame ∧ (∀ data ∈ aWalData, s.SavedBehind data) ∧
      (s.sqlite3WalSavepointUndo i = { s with aWalData := aWalData } ∨
        frame < s.mxFrame ∧ s.sqlite3WalSavepointUndo i =
          { s with aWalData := aWalData, mem := walCleanupHash s.mem frame, mxFrame := frame,
                   iFrame := frame, pages := s.pages.take frame }) := by
  rw [sqlite3WalSavepointUndo]
  split
  · exact ⟨s.shared, s.aWalData, le_rfl, inv.saved, .inl rfl⟩
  · rename_i frame ckpt entry
    have old := inv.saved _ (mem_of_getElem? entry)
    simp only [SavedBehind] at old
    generalize eq : (if ckpt ≠ s.nCkpt then 0 else frame) = target
    have behind : s.shared ≤ target := by
      subst eq
      split <;> omega
    refine ⟨target, s.aWalData.set i (target, s.nCkpt), behind, fun data member => ?_, ?_⟩
    · rcases mem_or_eq_of_mem_set member with kept | rfl
      · exact inv.saved data kept
      · exact .inl ⟨rfl, behind⟩
    · dsimp only
      split
      · rename_i less
        exact .inr ⟨less, rfl⟩
      · exact .inl rfl

theorem State.Inv.savepointUndo (i : Nat) : (s.sqlite3WalSavepointUndo i).Inv := by
  obtain ⟨frame, aWalData, behind, saved, eq | ⟨less, eq⟩⟩ := sqlite3WalSavepointUndo_cases inv i
  · rw [eq]
    exact ⟨inv.indexed, inv.committed, saved⟩
  · have le := inv.indexed.le
    rw [eq]
    exact ⟨inv.indexed.cleanup_back (by omega), behind, saved⟩

end

theorem extends_take {s t : State} (shared : s.shared ≤ t.shared) (le : s.shared ≤ last)
    (pages : t.pages = s.pages.take last) : s.Extends t :=
  ⟨shared, by rw [pages, take_take, Nat.min_eq_left le]⟩

/-- No operation fails, each keeps the index in step with the log, and only a restart touches
committed frames. -/
theorem step_spec (inv : s.Inv) (op : Op) : ∃ t, s.step op = some t ∧ t.Inv ∧
    (op.isRestart = false → s.Extends t) := by
  have le := inv.committed.trans inv.indexed.le
  have all_pages : s.pages = s.pages.take s.iFrame := by
    rw [← inv.indexed.length, take_length]
  cases op with
  | begin nCkpt =>
    exact ⟨_, rfl, inv.begin nCkpt, fun _ => extends_take le_rfl le_rfl rfl⟩
  | restart => exact ⟨_, rfl, inv.restart, fun other => absurd other (by decide)⟩
  | frames => exact ⟨_, rfl, inv.frames, fun _ => extends_take le_rfl inv.committed rfl⟩
  | append iPage positive =>
    obtain ⟨mem, eq, inv'⟩ := inv.append positive
    refine ⟨_, eq, inv', fun _ => ⟨le_rfl, ?_⟩⟩
    rw [take_append_of_le_length (by rw [inv.indexed.length]; exact le)]
  | finish isCommit =>
    refine ⟨_, rfl, inv.finish isCommit, fun _ => ?_⟩
    cases isCommit with
    | false => exact extends_take le_rfl le all_pages
    | true => exact extends_take le le all_pages
  | undo => exact ⟨_, rfl, inv.undo, fun _ => extends_take le_rfl le_rfl rfl⟩
  | savepoint => exact ⟨_, rfl, inv.savepoint, fun _ => extends_take le_rfl le all_pages⟩
  | savepointUndo i =>
    refine ⟨_, rfl, inv.savepointUndo i, fun _ => ?_⟩
    obtain ⟨frame, aWalData, behind, -, eq | ⟨less, eq⟩⟩ := sqlite3WalSavepointUndo_cases inv i
    · rw [eq]
      exact extends_take le_rfl le all_pages
    · rw [eq]
      exact extends_take le_rfl behind rfl

theorem run_spec (inv : s.Inv) (ops : List Op) : ∃ t, s.run ops = some t ∧ t.Inv ∧
    ((∀ op ∈ ops, op.isRestart = false) → s.Extends t) := by
  induction ops generalizing s with
  | nil => exact ⟨s, rfl, inv, fun _ => ⟨le_rfl, rfl⟩⟩
  | cons op ops ih =>
    obtain ⟨t, eq, inv', kept⟩ := step_spec inv op
    obtain ⟨u, eq', inv'', kept'⟩ := ih inv'
    refine ⟨u, by rw [run, eq, bind_some, eq'], inv'', fun none_restarts => ?_⟩
    rw [forall_mem_cons] at none_restarts
    obtain ⟨le, same⟩ := kept none_restarts.1
    obtain ⟨le', same'⟩ := kept' none_restarts.2
    refine ⟨le.trans le', ?_⟩
    have cut := congrArg (List.take s.shared) same'
    rw [take_take, take_take, Nat.min_eq_left le] at cut
    rw [cut, same]

theorem linearScan_take {pgno mxFrame : Nat} (le : mxFrame ≤ last) :
    linearScan (pages.take last) pgno mxFrame = linearScan pages pgno mxFrame := by
  induction mxFrame with
  | zero => rfl
  | succ f ih =>
    rw [linearScan, linearScan, getElem?_take_of_lt (by omega), ih (by omega)]

/-- Whatever writers do, no append and no lookup reports corruption. A connection that reads the
log gets the newest frame of the page in its snapshot: the writer up to its own last frame, and a
reader in the log as it was when it took the snapshot, as long as the log is not restarted. A
connection on read lock 0 does not use the log and gets 0. -/
theorem findFrame_newest (mem : Mem) (before after : List Op) : ∃ s t,
    (start mem).run before = some s ∧ s.run after = some t ∧ ∀ readLock pgno : Nat,
      (∀ iLast, sqlite3WalFindFrame t.mem 0 iLast pgno = some 0) ∧
      (∀ iLast ≤ t.mxFrame, readLock ≠ 0 → ∃ r,
        sqlite3WalFindFrame t.mem readLock iLast pgno = some r ∧ Newest t.pages iLast pgno r) ∧
      ((∀ op ∈ after, op.isRestart = false) → ∀ iLast ≤ s.shared, readLock ≠ 0 → ∃ r,
        sqlite3WalFindFrame t.mem readLock iLast pgno = some r ∧ Newest s.pages iLast pgno r) := by
  obtain ⟨s, eq, inv, -⟩ := run_spec (start_inv mem) before
  obtain ⟨t, eq', inv', kept⟩ := run_spec inv after
  refine ⟨s, t, eq, eq', fun readLock pgno => ⟨fun iLast => ?_, fun iLast le reads => ?_,
    fun none_restarts iLast le reads => ?_⟩⟩
  · rw [sqlite3WalFindFrame, if_pos (.inr rfl)]
  · have covered := inv'.indexed.le
    exact ⟨_, inv'.indexed.findFrame (by omega) reads, linearScan_newest _ _ _⟩
  · obtain ⟨grown, same⟩ := kept none_restarts
    have covered := inv'.indexed.le
    have committed := inv'.committed
    refine ⟨_, inv'.indexed.findFrame (by omega) reads, ?_⟩
    rw [← linearScan_take le, same, linearScan_take le]
    exact linearScan_newest _ _ _

private theorem one_frame_run : ∃ mem, (start fun _ => blank).run
    [.begin 0, .frames, .append 1 Nat.one_pos, .finish true] =
      some ⟨mem, 1, 1, 1, 0, [], [1]⟩ := by
  obtain ⟨mem, eq, -⟩ := ((start_inv fun _ => blank).begin 0).frames.append Nat.one_pos
  refine ⟨mem, ?_⟩
  simp only [run, step, bind_some, eq]
  rfl

theorem findFrame_newest_one_frame : ∃ t,
    (start fun _ => blank).run [.begin 0, .frames, .append 1 Nat.one_pos, .finish true] = some t ∧
      ∃ r, sqlite3WalFindFrame t.mem 1 1 1 = some r ∧ Newest t.pages 1 1 r := by
  obtain ⟨s, t, eq, same, answers⟩ := findFrame_newest (fun _ => blank)
    [.begin 0, .frames, .append 1 Nat.one_pos, .finish true] []
  obtain ⟨mem, eq'⟩ := one_frame_run
  obtain rfl : s = t := some_inj.mp same
  obtain rfl := some_inj.mp (eq.symm.trans eq')
  exact ⟨_, eq, (answers 1 1).2.1 1 le_rfl (by decide)⟩

/-- Page 1 is committed in frame 1; a reader on read lock 0 gets 0 for it all the same. -/
theorem findFrame_on_lock_zero : ∃ t,
    (start fun _ => blank).run [.begin 0, .frames, .append 1 Nat.one_pos, .finish true] = some t ∧
      t.shared = 1 ∧ t.pages = [1] ∧ sqlite3WalFindFrame t.mem 0 t.shared 1 = some 0 ∧
      ¬ Newest t.pages t.shared 1 0 := by
  obtain ⟨mem, runs⟩ := one_frame_run
  refine ⟨_, runs, rfl, rfl, rfl, ?_⟩
  rintro (⟨-, absent⟩ | ⟨one, -⟩)
  · exact absent 0 Nat.one_pos rfl
  · cases one

end

end SeSqlite.Wal.Index
