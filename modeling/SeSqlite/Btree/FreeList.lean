/- source: src/btree.c
   digest: The list of free pages loses and duplicates nothing. -/
import Mathlib.Data.Finset.Card
import Mathlib.Data.Finset.Dedup
import Mathlib.Logic.Relation
import Mathlib.Order.Interval.Finset.Nat
import SeSqlite.Btree.PageCount
import SeSqlite.Lib.UnrolledList

set_option autoImplicit false
set_option relaxedAutoImplicit false

namespace SeSqlite.Btree.FreeList

open Lib.UnrolledList List Function

def ptrmapRootpage : Nat := 1
def ptrmapFreepage : Nat := 2

/-- The pages as arrays of four-byte words, word `w` at offset `4 w`, and the entries of the pointer
map by page. A pointer-map page holds nothing else. -/
structure BtShared extends PageCount.BtShared where
  autoVacuum : Bool
  secureDelete : Bool
  mxPgno : Nat
  nPage : Nat
  page : Mem
  ptrmap : Nat → Nat × Nat

inductive Mode where
  | any
  | exact
  | le
  deriving DecidableEq

namespace BtShared

variable (s : BtShared)

/-- `btreeGetPage` succeeds: the pager has such a page, or can add it. -/
def canGet (pgno : Nat) : Bool :=
  pgno ≠ 0 ∧ pgno ≤ pagerMaxPgno ∧ pgno ≠ s.pendingBytePage ∧ (pgno ≤ s.nPage ∨ pgno ≤ s.mxPgno)

def put4byte (pgno word value : Nat) : BtShared := { s with page := put s.page pgno word value }

/-- The entry of the page itself would lie before its map page: an error. -/
def ptrmapPut (key eType parent : Nat) : Option BtShared :=
  if key < 2 ∨ key ≤ s.ptrmapPageno key then none
  else some { s with ptrmap := update s.ptrmap key (eType, parent) }

def maxLeaf : Nat := s.usableSize / 4 - 2

def newTrunk (iPage iTrunk : Nat) : Option BtShared :=
  if s.canGet iPage then
    some (((s.put4byte iPage 0 iTrunk).put4byte iPage 1 0).put4byte 1 8 iPage)
  else none

/-- The page goes to the list, as a leaf of the first trunk while that has fewer than
`usableSize / 4 - 8`. -/
def link (nFree iPage : Nat) : Option BtShared :=
  if nFree ≠ 0 then
    let iTrunk := s.page 1 8
    if s.canGet iTrunk then
      let nLeaf := s.page iTrunk 1
      if nLeaf > s.maxLeaf then none
      else if nLeaf < s.usableSize / 4 - 8 then
        some ((s.put4byte iTrunk 1 (nLeaf + 1)).put4byte iTrunk (2 + nLeaf) iPage)
      else s.newTrunk iPage iTrunk
    else none
  else s.newTrunk iPage 0

/-- The content of the page, under `secure_delete`. -/
def wipe (iPage : Nat) : Option BtShared :=
  if s.secureDelete then
    if s.canGet iPage then some { s with page := fun p w => if p = iPage then 0 else s.page p w }
    else none
  else some s

def mark (iPage : Nat) : Option BtShared :=
  if s.autoVacuum then s.ptrmapPut iPage ptrmapFreepage 0 else some s

def freePage2 (iPage : Nat) : Option BtShared := do
  let nFree := s.page 1 9
  let s := s.put4byte 1 9 (nFree + 1)
  let s ← s.wipe iPage
  let s ← s.mark iPage
  s.link nFree iPage

end BtShared

/-- `sqlite3AbsInt32` of the difference of two unsigned numbers. -/
def absDiff (a b : Nat) : Int :=
  let x := Int.bmod ((a : Int) - b) (2 ^ 32)
  if x ≥ 0 then x else if x = -2 ^ 31 then 2 ^ 31 - 1 else -x

/-- The loop over the leaves `1 … i` for the one closest to `nearby`. -/
def closestLeaf (leaf : Nat → Nat) (nearby : Nat) : Nat → Nat
  | 0 => 0
  | i + 1 =>
    let closest := closestLeaf leaf nearby i
    if absDiff (leaf (i + 1)) nearby < absDiff (leaf closest) nearby then i + 1 else closest

def firstLeafLe (leaf : Nat → Nat) (nearby k : Nat) : Nat :=
  ((range k).find? fun i => decide (leaf i ≤ nearby)).getD 0

def chooseLeaf (leaf : Nat → Nat) (nearby : Nat) (eMode : Mode) (k : Nat) : Nat :=
  if nearby > 0 then
    if eMode = .le then firstLeafLe leaf nearby k else closestLeaf leaf nearby (k - 1)
  else 0

def wanted (nearby : Nat) (eMode : Mode) (pgno : Nat) : Bool :=
  pgno = nearby ∨ (pgno < nearby ∧ eMode = .le)

namespace BtShared

variable (s : BtShared)

/-- The link to a trunk is in the trunk before it, or on page 1. -/
def getLink (prevTrunk : Option Nat) : Nat :=
  match prevTrunk with
  | none => s.page 1 8
  | some p => s.page p 0

def setLink (prevTrunk : Option Nat) (value : Nat) : BtShared :=
  match prevTrunk with
  | none => s.put4byte 1 8 value
  | some p => s.put4byte p 0 value

/-- A trunk is taken although it may have leaves: the first of them becomes a trunk. -/
def takeTrunk (prevTrunk : Option Nat) (iTrunk k : Nat) : Option BtShared :=
  if k = 0 then some (s.setLink prevTrunk (s.page iTrunk 0))
  else
    let iNewTrunk := s.page iTrunk 2
    if iNewTrunk > s.nPage then none
    else if s.canGet iNewTrunk then
      let page := fun p w =>
        if p = iNewTrunk then
          if w = 0 then s.page iTrunk 0
          else if w = 1 then k - 1
          else if w < 2 + (k - 1) then s.page iTrunk (w + 1)
          else s.page p w
        else s.page p w
      some ({ s with page := page }.setLink prevTrunk iNewTrunk)
    else none

/-- A leaf is taken and the last one put in its place. -/
def takeLeaf (iTrunk k closest : Nat) : BtShared :=
  let s' := if closest < k - 1 then s.put4byte iTrunk (2 + closest) (s.page iTrunk (1 + k)) else s
  s'.put4byte iTrunk 1 (k - 1)

/-- The loop over the trunks. It goes on only in a search, and there are no more trunks than pages
on the list, which is what the bound stands for. -/
def allocateFrom (nearby : Nat) (eMode : Mode) (searchList : Bool) :
    (bound : Nat) → (prevTrunk : Option Nat) → Option (Nat × BtShared)
  | 0, _ => none
  | bound + 1, prevTrunk =>
    let iTrunk := s.getLink prevTrunk
    if iTrunk > s.nPage ∨ s.canGet iTrunk = false then none
    else
      let k := s.page iTrunk 1
      if k = 0 ∧ searchList = false then some (iTrunk, s.put4byte 1 8 (s.page iTrunk 0))
      else if k > s.maxLeaf then none
      else if searchList ∧ wanted nearby eMode iTrunk then
        (s.takeTrunk prevTrunk iTrunk k).map fun s => (iTrunk, s)
      else if k > 0 then
        let closest := chooseLeaf (fun i => s.page iTrunk (2 + i)) nearby eMode k
        let iPage := s.page iTrunk (2 + closest)
        if iPage > s.nPage then none
        else if searchList = false ∨ wanted nearby eMode iPage then
          if s.canGet iPage then some (iPage, s.takeLeaf iTrunk k closest) else none
        else allocateFrom nearby eMode searchList bound (some iTrunk)
      else allocateFrom nearby eMode searchList bound (some iTrunk)

def skipPending (pgno : Nat) : Nat := if pgno = s.pendingBytePage then pgno + 1 else pgno

/-- A page is added behind the end of the file, with a pointer-map page before it if one is due. -/
def appendPage : Option (Nat × BtShared) :=
  let nPage := s.skipPending (s.nPage + 1)
  let mapped := s.autoVacuum && s.isPtrmapPage nPage
  if mapped && !s.canGet nPage then none
  else
    let nPage := if mapped then s.skipPending (nPage + 1) else nPage
    if s.canGet nPage then some (nPage, { s.put4byte 1 7 nPage with nPage := nPage }) else none

/-- Whether the list is searched for `nearby`; an exact search asks the pointer map first, which
may report an error. -/
def searchList (nearby : Nat) (eMode : Mode) : Option Bool :=
  match eMode with
  | .any => some false
  | .le => some true
  | .exact =>
    if nearby ≤ s.nPage then
      let eType := (s.ptrmap nearby).1
      if nearby < 2 ∨ nearby ≤ s.ptrmapPageno nearby ∨ eType < 1 ∨ eType > 5 then none
      else some (decide (eType = ptrmapFreepage))
    else some false

def allocateBtreePage (nearby : Nat) (eMode : Mode) : Option (Nat × BtShared) :=
  let n := s.page 1 9
  if n ≥ s.nPage then none
  else if n > 0 then
    (s.searchList nearby eMode).bind fun searchList =>
      (s.put4byte 1 9 (n - 1)).allocateFrom nearby eMode searchList (n + 1) none
  else s.appendPage

end BtShared

section

open BtShared

variable {s : BtShared}

/-- A page of the file that holds data: not the first, not the page of the pending byte and not a
page of the pointer map. -/
def BtShared.Usable (s : BtShared) (pgno : Nat) : Prop :=
  1 < pgno ∧ pgno ≤ s.nPage ∧ pgno ≠ s.pendingBytePage ∧
    (s.autoVacuum = true → s.isPtrmapPage pgno = false)

variable {pgno nearby : Nat}

private theorem BtShared.Usable.ptrmapPageno_lt (usable : s.Usable pgno)
    (auto : s.autoVacuum = true) (size : s.nPage ≤ pagerMaxPgno) : s.ptrmapPageno pgno < pgno := by
  obtain ⟨behindFirst, inside, notPending, notMap⟩ := usable
  rw [pagerMaxPgno] at size
  refine PageCount.BtShared.ptrmapPageno_lt behindFirst (by omega) ?_
  simp [PageCount.BtShared.ordinary, notMap auto, notPending]

private theorem absDiff_nonneg (a b : Nat) : 0 ≤ absDiff a b := by
  simp only [absDiff]
  split
  · assumption
  · split <;> omega

private theorem absDiff_self (a : Nat) : absDiff a a = 0 := by
  simp [absDiff]

private theorem eq_of_absDiff_eq_zero {a b : Nat} (aSmall : a < 2 ^ 32) (bSmall : b < 2 ^ 32)
    (zero : absDiff a b = 0) : a = b := by
  simp only [absDiff] at zero
  have bmod : Int.bmod ((a : Int) - b) (2 ^ 32) = 0 := by
    split at zero
    · exact zero
    · split at zero <;> omega
  have divides := Int.dvd_of_bmod_eq_zero bmod
  omega

private theorem closestLeaf_spec (leaf : Nat → Nat) (nearby i : Nat) :
    closestLeaf leaf nearby i ≤ i ∧
    ∀ j ≤ i, absDiff (leaf (closestLeaf leaf nearby i)) nearby ≤ absDiff (leaf j) nearby := by
  induction i with
  | zero =>
    refine ⟨le_rfl, fun j le => ?_⟩
    obtain rfl : j = 0 := by omega
    exact le_rfl
  | succ i ih =>
    obtain ⟨le, least⟩ := ih
    simp only [closestLeaf]
    split
    · refine ⟨le_rfl, fun j small => ?_⟩
      rcases Nat.lt_or_eq_of_le small with less | rfl
      · have := least j (by omega)
        omega
      · exact le_rfl
    · refine ⟨Nat.le_succ_of_le le, fun j small => ?_⟩
      rcases Nat.lt_or_eq_of_le small with less | rfl
      · exact least j (by omega)
      · omega

private theorem wanted_le : wanted nearby .le pgno = true ↔ pgno ≤ nearby := by
  simp only [wanted, decide_eq_true_eq, and_true]
  omega

private theorem wanted_eq {eMode : Mode} (other : eMode ≠ .le) :
    wanted nearby eMode pgno = true ↔ pgno = nearby := by
  simp [wanted, other]

private theorem chooseLeaf_spec (leaf : Nat → Nat) (nearby : Nat) (eMode : Mode) {k : Nat}
    (some_leaf : 0 < k) (small : ∀ i < k, leaf i < 2 ^ 32) : chooseLeaf leaf nearby eMode k < k ∧
    ∀ i < k, 0 < leaf i → wanted nearby eMode (leaf i) = true →
      wanted nearby eMode (leaf (chooseLeaf leaf nearby eMode k)) = true := by
  rw [chooseLeaf]
  split
  · split
    · rename_i le_mode
      subst le_mode
      simp only [wanted_le]
      rw [firstLeafLe]
      cases found : (range k).find? fun i => decide (leaf i ≤ nearby) with
      | none =>
        refine ⟨some_leaf, fun i inside _ le => ?_⟩
        have none_le := find?_eq_none.mp found i (mem_range.mpr inside)
        exact absurd (decide_eq_true le) none_le
      | some c =>
        have le := find?_some found
        have inside := mem_range.mp (mem_of_find?_eq_some found)
        exact ⟨inside, fun _ _ _ _ => of_decide_eq_true le⟩
    · rename_i other
      simp only [wanted_eq other]
      obtain ⟨le, least⟩ := closestLeaf_spec leaf nearby (k - 1)
      have inside : closestLeaf leaf nearby (k - 1) < k := by omega
      refine ⟨inside, fun i i_inside _ eq => ?_⟩
      have at_zero : absDiff (leaf (closestLeaf leaf nearby (k - 1))) nearby = 0 := by
        have bound := least i (by omega)
        have nonneg := absDiff_nonneg (leaf (closestLeaf leaf nearby (k - 1))) nearby
        rw [eq, absDiff_self] at bound
        omega
      exact eq_of_absDiff_eq_zero (small _ inside) (eq ▸ small i i_inside) at_zero
  · refine ⟨some_leaf, fun i inside positive want => ?_⟩
    simp only [wanted, decide_eq_true_eq] at want
    omega

end

/-- The list of free pages: trunks with their leaves, as page 1 leads to them. -/
structure Shape (s : BtShared) (ts : List (Nat × List Nat)) : Prop where
  size : 1 ≤ s.nPage ∧ s.nPage ≤ pagerMaxPgno
  chain : Chain s.page (s.page 1 8) ts
  nodup : (members ts).Nodup
  room : ∀ t ∈ ts, t.2.length ≤ s.maxLeaf
  usable : ∀ p ∈ members ts, s.Usable p
  marked : s.autoVacuum = true → ∀ p ∈ members ts, (s.ptrmap p).1 = ptrmapFreepage

structure Lists (s : BtShared) (ts : List (Nat × List Nat)) : Prop extends Shape s ts where
  count : s.page 1 9 = (members ts).length

variable {page : Mem} {ts' : List (Nat × List Nat)}

section

variable {s : BtShared} {ts : List (Nat × List Nat)}

section

variable (shape : Shape s ts)

include shape

private theorem Shape.canGet {pgno : Nat} (usable : s.Usable pgno) : s.canGet pgno = true := by
  obtain ⟨behindFirst, inside, notPending, -⟩ := usable
  have small := shape.size.2
  simp only [BtShared.canGet, decide_eq_true_eq]
  exact ⟨by omega, by omega, notPending, .inl inside⟩

private theorem Shape.block_ne_one {t : Nat × List Nat} (listed : t ∈ ts) : t.1 ≠ 1 := by
  have behindFirst := (shape.usable t.1 (mem_members_block listed)).1
  omega

theorem Shape.frame {ptrmap : Nat → Nat × Nat} (first : page 1 8 = s.page 1 8)
    (trunks : ∀ t ∈ ts, ∀ w, page t.1 w = s.page t.1 w)
    (marks : ∀ p ∈ members ts, (ptrmap p).1 = (s.ptrmap p).1) :
    Shape { s with page := page, ptrmap := ptrmap } ts where
  size := shape.size
  chain := by
    change Chain page (page 1 8) ts
    rw [first]
    exact shape.chain.congr trunks
  nodup := shape.nodup
  room := shape.room
  usable := shape.usable
  marked := fun auto p listed => by
    change (ptrmap p).1 = _
    rw [marks p listed]
    exact shape.marked auto p listed

private theorem Shape.change (chain : Chain page (page 1 8) ts') (nodup : (members ts').Nodup)
    (room : ∀ t ∈ ts', t.2.length ≤ s.maxLeaf) (sub : ∀ p ∈ members ts', p ∈ members ts) :
    Shape { s with page := page } ts' where
  size := shape.size
  chain := chain
  nodup := nodup
  room := room
  usable := fun p listed => shape.usable p (sub p listed)
  marked := fun auto p listed => shape.marked auto p (sub p listed)

private theorem Shape.extend {iPage : Nat} (usable : s.Usable iPage) (fresh : iPage ∉ members ts)
    (marked : s.autoVacuum = true → (s.ptrmap iPage).1 = ptrmapFreepage)
    (chain : Chain page (page 1 8) ts') (room : ∀ t ∈ ts', t.2.length ≤ s.maxLeaf)
    (perm : (members ts').Perm (iPage :: members ts)) : Shape { s with page := page } ts' where
  size := shape.size
  chain := chain
  nodup := perm.nodup_iff.mpr (nodup_cons.mpr ⟨fresh, shape.nodup⟩)
  room := room
  usable := fun p listed => by
    rcases mem_cons.mp (perm.mem_iff.mp listed) with rfl | old
    · exact usable
    · exact shape.usable p old
  marked := fun auto p listed => by
    rcases mem_cons.mp (perm.mem_iff.mp listed) with rfl | old
    · exact marked auto
    · exact shape.marked auto p old

end

theorem lists_nil (size : 1 ≤ s.nPage ∧ s.nPage ≤ pagerMaxPgno) (first : s.page 1 8 = 0)
    (count : s.page 1 9 = 0) : Lists s [] where
  size := size
  chain := first
  nodup := nodup_nil
  room := fun _ listed => absurd listed not_mem_nil
  usable := fun _ listed => absurd listed not_mem_nil
  marked := fun _ _ listed => absurd listed not_mem_nil
  count := count

private theorem Lists.count_lt (lists : Lists s ts) : s.page 1 9 < s.nPage := by
  have sub : (members ts).toFinset ⊆ Finset.Icc 2 s.nPage := by
    intro p listed
    rw [mem_toFinset] at listed
    obtain ⟨behindFirst, inside, -⟩ := lists.usable p listed
    exact Finset.mem_Icc.mpr ⟨behindFirst, inside⟩
  have card := Finset.card_le_card sub
  rw [toFinset_card_of_nodup lists.nodup, Nat.card_Icc] at card
  have size := lists.size.1
  rw [lists.count]
  omega

variable {ts : List (Nat × List Nat)} {iPage t : Nat} {leaves : List Nat}

private theorem Shape.newTrunk (shape : Shape s ts) (usable : s.Usable iPage)
    (fresh : iPage ∉ members ts)
    (marked : s.autoVacuum = true → (s.ptrmap iPage).1 = ptrmapFreepage) :
    ∃ page, s.newTrunk iPage (s.page 1 8) = some { s with page := page } ∧
      Shape { s with page := page } ((iPage, []) :: ts) ∧ page 1 9 = s.page 1 9 := by
  let page := put (put (put s.page iPage 0 (s.page 1 8)) iPage 1 0) 1 8 iPage
  have words : page 1 8 = iPage ∧ page iPage 0 = s.page 1 8 ∧ page iPage 1 = 0 ∧
      page 1 9 = s.page 1 9 := by
    simp [page, put]
  have trunks : ∀ t ∈ ts, ∀ w, page t.1 w = s.page t.1 w := by
    intro t listed w
    have other : t.1 ≠ iPage := fun eq => fresh (eq ▸ mem_members_block listed)
    simp [page, put, shape.block_ne_one listed, other]
  obtain ⟨first, link, none_yet, count⟩ := words
  refine ⟨page, by rw [BtShared.newTrunk, if_pos (shape.canGet usable)]; rfl,
    shape.extend usable fresh marked ?_ (fun t listed => ?_) (List.Perm.refl _), count⟩
  · refine ⟨rfl, none_yet, fun i e here => by simp at here, ?_⟩
    rw [link]
    exact shape.chain.congr trunks
  · rcases mem_cons.mp listed with rfl | old
    · exact Nat.zero_le _
    · exact shape.room t old

private theorem members_concat :
    (members ((t, leaves ++ [iPage]) :: ts)).Perm (iPage :: members ((t, leaves) :: ts)) := by
  simp only [members_cons, append_assoc]
  exact (perm_middle.cons t).trans (List.Perm.swap ..)

private theorem Shape.newLeaf (shape : Shape s ((t, leaves) :: ts)) (usable : s.Usable iPage)
    (fresh : iPage ∉ members ((t, leaves) :: ts))
    (marked : s.autoVacuum = true → (s.ptrmap iPage).1 = ptrmapFreepage)
    (few : leaves.length < s.usableSize / 4 - 8) :
    Shape ((s.put4byte t 1 (leaves.length + 1)).put4byte t (2 + leaves.length) iPage)
      ((t, leaves ++ [iPage]) :: ts) := by
  have notFirst : t ≠ 1 := shape.block_ne_one (t := (t, leaves)) mem_cons_self
  have nodup := shape.nodup
  rw [members_cons, nodup_cons] at nodup
  refine shape.extend usable fresh marked ?_ (fun b listed => ?_) members_concat
  · let page := put (put s.page t 1 (leaves.length + 1)) t (2 + leaves.length) iPage
    have first : page 1 8 = s.page 1 8 := by simp [page, put, notFirst.symm]
    change Chain page (page 1 8) ([] ++ (t, leaves ++ [iPage]) :: ts)
    rw [first]
    have chain := shape.chain
    refine chain.replace (fun b listed w => ?_) ?_ ?_ fun i e here => ?_
    · have other : b.1 ≠ t := by
        rintro rfl
        exact nodup.1 (mem_append_right _ (mem_members_block (b := b) listed))
      simp [page, put, other]
    · have behind : 0 ≠ 2 + leaves.length := by omega
      simp [page, put, behind]
    · have behind : 1 ≠ 2 + leaves.length := by omega
      simp [page, put, behind]
    · by_cases last : i = leaves.length
      · subst last
        rw [getElem?_concat_length] at here
        cases here
        simp [page]
      · have inside := (List.getElem?_eq_some_iff.mp here).1
        rw [length_append, length_singleton] at inside
        rw [getElem?_append_left (by omega)] at here
        have behind : 2 + i ≠ 2 + leaves.length := by omega
        have behind' : 2 + i ≠ 1 := by omega
        simp only [page, put, behind, behind']
        exact shape.chain.2.2.1 i e here
  · rcases mem_cons.mp listed with rfl | old
    · change (leaves ++ [iPage]).length ≤ s.usableSize / 4 - 2
      rw [length_append, length_singleton]
      omega
    · exact shape.room b (mem_cons_of_mem _ old)

private theorem Shape.link (shape : Shape s ts) (usable : s.Usable iPage)
    (fresh : iPage ∉ members ts)
    (marked : s.autoVacuum = true → (s.ptrmap iPage).1 = ptrmapFreepage) :
    ∃ page ts', s.link (members ts).length iPage = some { s with page := page } ∧
      Shape { s with page := page } ts' ∧ page 1 9 = s.page 1 9 ∧
      (members ts').Perm (iPage :: members ts) := by
  cases ts with
  | nil =>
    obtain ⟨page, eq, shape', count⟩ := shape.newTrunk usable fresh marked
    have first : s.page 1 8 = 0 := shape.chain
    rw [first] at eq
    exact ⟨page, _, by rw [BtShared.link]; exact eq, shape', count,
      List.Perm.refl _⟩
  | cons trunk rest =>
    obtain ⟨t, leaves⟩ := trunk
    obtain ⟨first, nLeaf, -, -⟩ := shape.chain
    have room := shape.room (t, leaves) mem_cons_self
    have canGet := shape.canGet (shape.usable t (mem_members_block (b := (t, leaves))
      mem_cons_self))
    have notFirst : t ≠ 1 := shape.block_ne_one (t := (t, leaves)) mem_cons_self
    rw [BtShared.link, if_pos (by simp [members_cons])]
    simp only [first, canGet, if_true, nLeaf]
    rw [if_neg room.not_gt]
    split
    · rename_i few
      refine ⟨_, _, rfl, shape.newLeaf usable fresh marked few, ?_, members_concat⟩
      simp [BtShared.put4byte, put, notFirst.symm]
    · obtain ⟨page, eq, shape', count⟩ := shape.newTrunk usable fresh marked
      rw [first] at eq
      exact ⟨page, _, eq, shape', count, List.Perm.refl _⟩

private theorem Lists.freePage2 (lists : Lists s ts) (usable : s.Usable iPage)
    (fresh : iPage ∉ members ts) : ∃ s' ts', s.freePage2 iPage = some s' ∧ Lists s' ts' ∧
      (members ts').Perm (iPage :: members ts) := by
  have notFirst : iPage ≠ 1 := usable.1.ne'
  have canGet := lists.canGet usable
  -- the count, the content and the mark of the page are not part of the list
  obtain ⟨page, wiped, first, count, trunks⟩ : ∃ page : Mem,
      (s.put4byte 1 9 (s.page 1 9 + 1)).wipe iPage = some { s with page := page } ∧
      page 1 8 = s.page 1 8 ∧ page 1 9 = s.page 1 9 + 1 ∧
      ∀ t ∈ ts, ∀ w, page t.1 w = s.page t.1 w := by
    rw [BtShared.wipe]
    split
    · rw [if_pos (by exact canGet)]
      refine ⟨_, rfl, ?_, ?_, fun t listed w => ?_⟩
      · simp [BtShared.put4byte, put, notFirst.symm]
      · simp [BtShared.put4byte, notFirst.symm]
      · have other : t.1 ≠ iPage := fun eq => fresh (eq ▸ mem_members_block listed)
        simp [BtShared.put4byte, put, other, lists.block_ne_one listed]
    · refine ⟨_, rfl, ?_, ?_, fun t listed w => ?_⟩
      · simp [put]
      · simp
      · simp [put, lists.block_ne_one listed]
  obtain ⟨ptrmap, mapped, marked, marks⟩ : ∃ ptrmap : Nat → Nat × Nat,
      ({ s with page := page } : BtShared).mark iPage =
        some { s with page := page, ptrmap := ptrmap } ∧
      (s.autoVacuum = true → (ptrmap iPage).1 = ptrmapFreepage) ∧
      ∀ p ∈ members ts, (ptrmap p).1 = (s.ptrmap p).1 := by
    rw [BtShared.mark]
    split
    · rename_i auto
      have lt := usable.ptrmapPageno_lt auto lists.size.2
      refine ⟨update s.ptrmap iPage (ptrmapFreepage, 0), ?_, fun _ => ?_,
        fun p listed => ?_⟩
      · rw [BtShared.ptrmapPut, if_neg]
        change ¬ (iPage < 2 ∨ iPage ≤ s.ptrmapPageno iPage)
        omega
      · rw [update_self]
      · have other : p ≠ iPage := by
          rintro rfl
          exact fresh listed
        rw [update_of_ne other]
    · rename_i off
      exact ⟨s.ptrmap, rfl, fun auto => absurd auto off, fun _ _ => rfl⟩
  have shape := lists.toShape.frame first trunks marks
  obtain ⟨page', ts', linked, shape', kept, perm⟩ := shape.link usable fresh marked
  refine ⟨_, ts', ?_, ⟨shape', ?_⟩, perm⟩
  · rw [BtShared.freePage2, wiped, Option.bind_eq_bind, Option.bind_some, mapped, lists.count]
    exact linked
  · change page' 1 9 = _
    rw [kept, perm.length_eq, length_cons, ← lists.count]
    exact count

variable {pre rest : List (Nat × List Nat)} {t : Nat} {leaves : List Nat} {nearby : Nat}
  {eMode : Mode}

/-- Only page 1 and pages on the list are written. -/
def Kept (s : BtShared) (ts : List (Nat × List Nat)) (page : Mem) : Prop :=
  ∀ p, p ≠ 1 → p ∉ members ts → page p = s.page p

/-- What an allocation from the list does: the page was on it, and the others stay. -/
structure Taken (s : BtShared) (ts : List (Nat × List Nat)) (pgno : Nat) (s' : BtShared) :
    Prop where
  rest : ∃ page ts', s' = { s with page := page } ∧ Shape s' ts' ∧ page 1 9 = s.page 1 9 ∧
    (members ts).Perm (pgno :: members ts') ∧ Kept s ts page

def prevTrunk (pre : List (Nat × List Nat)) : Option Nat := pre.getLast?.map Prod.fst

private theorem getLink_eq (pre : List (Nat × List Nat)) :
    s.getLink (prevTrunk pre) = linkAfter s.page (s.page 1 8) pre := by
  rw [prevTrunk, linkAfter]
  cases pre.getLast? <;> rfl

section

variable (shape : Shape s (pre ++ (t, leaves) :: rest))

include shape

private theorem Shape.apart : (∀ b ∈ pre ++ rest, b.1 ≠ t) ∧ (∀ b ∈ pre ++ rest, b.1 ∉ leaves) := by
  have nodup := shape.nodup
  have perm : (members (pre ++ (t, leaves) :: rest)).Perm
      (t :: (leaves ++ members (pre ++ rest))) := by
    rw [members_append, members_append, members_cons]
    refine perm_middle.trans (List.Perm.cons t ?_)
    rw [← append_assoc, ← append_assoc]
    exact (perm_append_comm.append_right _)
  rw [perm.nodup_iff, nodup_cons, nodup_append] at nodup
  obtain ⟨not_t, -, -, disjoint⟩ := nodup
  refine ⟨fun b listed eq => not_t ?_, fun b listed leaf => ?_⟩
  · exact mem_append_right _ (eq ▸ mem_members_block listed)
  · exact disjoint b.1 leaf b.1 (mem_members_block listed) rfl

private theorem Shape.setLink (page : Mem) (link : Nat) {rest' : List (Nat × List Nat)}
    (first : page 1 8 = s.page 1 8) (passed : ∀ b ∈ pre, ∀ w, page b.1 w = s.page b.1 w)
    (tail : Chain page link rest') (later : ∀ b ∈ rest', b.1 ≠ 1 ∧ ∀ c ∈ pre, b.1 ≠ c.1) :
    ∃ page', BtShared.setLink { s with page := page } (prevTrunk pre) link =
        { s with page := page' } ∧
      Chain page' (page' 1 8) (pre ++ rest') ∧ page' 1 9 = page 1 9 ∧
      ∀ p, p ≠ 1 → (∀ b ∈ pre, b.1 ≠ p) → page' p = page p := by
  have passedOne : ∀ b ∈ pre, b.1 ≠ 1 := fun b listed =>
    shape.block_ne_one (mem_append_left _ listed)
  have nodup : (members pre).Nodup := by
    have all := shape.nodup
    rw [members_append] at all
    exact (nodup_append.mp all).1
  cases pre using List.reverseRecOn with
  | nil =>
    refine ⟨put page 1 8 link, rfl, ?_, put_other_word (by decide),
      fun p other _ => funext fun w => put_other_block other⟩
    exact tail.congr fun b listed w => put_other_block (later b listed).1
  | append_singleton init c =>
    have notFirst : c.1 ≠ 1 := passedOne c (by simp)
    have prev : prevTrunk (init ++ [c]) = some c.1 := by simp [prevTrunk]
    refine ⟨put page c.1 0 link, by rw [prev]; rfl, ?_, put_other_block notFirst.symm,
      fun p _ others => funext fun w => put_other_block (others c (by simp)).symm⟩
    have head : put page c.1 0 link 1 8 = s.page 1 8 := by
      rw [put_other_block notFirst.symm, first]
    have tail' : Chain (put page c.1 0 link) link rest' := tail.congr fun b listed w =>
      put_other_block ((later b listed).2 c (by simp))
    have relinked := shape.chain.relink nodup tail' fun b listed w => by
      rw [relink_concat]
      by_cases here : b.1 = c.1 ∧ w = 0
      · rw [here.1, here.2, put_same, put_same]
      · simp only [put, if_neg here]
        exact passed b listed w
    rw [head]
    rwa [if_neg (by simp)] at relinked

private theorem Shape.taken {pgno : Nat} (chain : Chain page (page 1 8) ts')
    (perm : (members (pre ++ (t, leaves) :: rest)).Perm (pgno :: members ts'))
    (room : ∀ b ∈ ts', b.2.length ≤ s.maxLeaf) (count : page 1 9 = s.page 1 9)
    (kept : Kept s (pre ++ (t, leaves) :: rest) page) :
    Taken s (pre ++ (t, leaves) :: rest) pgno { s with page := page } := by
  have nodup := perm.nodup_iff.mp shape.nodup
  exact ⟨page, ts', rfl, shape.change chain (nodup_cons.mp nodup).2 room
    (fun p listed => perm.mem_iff.mpr (mem_cons_of_mem _ listed)), count, perm, kept⟩

private theorem Shape.room_others : ∀ b ∈ pre ++ rest, b.2.length ≤ s.maxLeaf := fun b listed =>
  shape.room b (by
    rcases mem_append.mp listed with old | old
    · exact mem_append_left _ old
    · exact mem_append_right _ (mem_cons_of_mem _ old))

private theorem Shape.room_replaced {t' : Nat} {leaves' : List Nat}
    (le : leaves'.length ≤ leaves.length) :
    ∀ b ∈ pre ++ (t', leaves') :: rest, b.2.length ≤ s.maxLeaf := by
  intro b here
  rcases mem_append.mp here with old | old
  · exact shape.room_others b (mem_append_left _ old)
  · rcases mem_cons.mp old with rfl | old
    · exact le.trans (shape.room (t, leaves) (by simp))
    · exact shape.room_others b (mem_append_right _ old)

private theorem Shape.later : ∀ b ∈ rest, b.1 ≠ 1 ∧ ∀ c ∈ pre, b.1 ≠ c.1 := by
  intro b listed
  refine ⟨shape.block_ne_one (mem_append_right _ (mem_cons_of_mem _ listed)),
    fun c passed eq => ?_⟩
  have nodup := shape.nodup
  rw [members_append, nodup_append] at nodup
  exact nodup.2.2 c.1 (mem_members_block passed) b.1
    (mem_members_block (mem_cons_of_mem _ listed)) eq.symm

private theorem Shape.takeTrunk : ∃ s', s.takeTrunk (prevTrunk pre) t leaves.length = some s' ∧
      Taken s (pre ++ (t, leaves) :: rest) t s' := by
  obtain ⟨not_t, not_leaf⟩ := shape.apart
  have passed : ∀ p ∉ members (pre ++ (t, leaves) :: rest), ∀ b ∈ pre, b.1 ≠ p :=
    fun p unlisted b before same =>
      unlisted (same ▸ mem_members_block (mem_append_left _ before))
  have tail := shape.chain.after
  obtain ⟨-, -, listed, behind⟩ := tail
  cases leaves with
  | nil =>
    obtain ⟨page, eq, chain, count, kept⟩ := shape.setLink s.page _ rfl (fun _ _ _ => rfl)
      behind shape.later
    refine ⟨{ s with page := page }, ?_, shape.taken chain ?_ shape.room_others count
      fun p other unlisted => kept p other (passed p unlisted)⟩
    · exact congrArg some eq
    rw [members_append, members_append]
    exact perm_middle
  | cons leaf leaves =>
    have leaf_in : leaf ∈ members (pre ++ (t, leaf :: leaves) :: rest) :=
      mem_members_entry (b := (t, leaf :: leaves)) (by simp) mem_cons_self
    have usable := shape.usable leaf leaf_in
    have leaf_one : leaf ≠ 1 := usable.1.ne'
    have at_leaf : s.page t 2 = leaf := listed 0 leaf rfl
    let page : Mem := fun p w =>
      if p = leaf then
        if w = 0 then s.page t 0
        else if w = 1 then (leaf :: leaves).length - 1
        else if w < 2 + ((leaf :: leaves).length - 1) then s.page t (w + 1)
        else s.page p w
      else s.page p w
    have outside : ∀ p, p ≠ leaf → ∀ w, page p w = s.page p w := fun p other w => if_neg other
    have other_leaf : ∀ b ∈ pre ++ rest, b.1 ≠ leaf := by
      rintro b other rfl
      exact not_leaf b other mem_cons_self
    have chain_leaf : Chain page leaf ((leaf, leaves) :: rest) := by
      refine ⟨rfl, by simp [page], fun i e here => ?_, ?_⟩
      · have inside := (List.getElem?_eq_some_iff.mp here).1
        have entry := listed (i + 1) e here
        have below : 2 + i < 2 + ((leaf :: leaves).length - 1) := by
          rw [length_cons]
          omega
        simp only [page, if_neg (show ¬ 2 + i = 0 by omega), if_neg (show ¬ 2 + i = 1 by omega),
          if_pos below]
        exact entry
      · have link : page leaf 0 = s.page t 0 := by simp [page]
        rw [link]
        exact behind.congr fun b old w =>
          outside b.1 (other_leaf b (mem_append_right _ old)) w
    obtain ⟨page', eq, chain, count, kept⟩ := shape.setLink page leaf
      (outside 1 leaf_one.symm 8)
      (fun b passed w => outside b.1 (other_leaf b (mem_append_left _ passed)) w) chain_leaf
      (by
        intro b here
        rcases mem_cons.mp here with rfl | old
        · exact ⟨leaf_one, fun c passed =>
            Ne.symm (other_leaf c (mem_append_left _ passed))⟩
        · exact shape.later b old)
    refine ⟨_, ?_, shape.taken chain ?_ (shape.room_replaced (Nat.le_succ _)) ?_
      fun p other unlisted => ?_⟩
    · rw [BtShared.takeTrunk, at_leaf]
      rw [if_neg usable.2.1.not_gt, if_pos (shape.canGet usable)]
      exact congrArg some eq
    · rw [members_append, members_append]
      exact perm_middle
    · rw [count]
      exact outside 1 leaf_one.symm 9
    · rw [kept p other (passed p unlisted)]
      exact funext (outside p fun same => unlisted (same ▸ leaf_in))

private theorem Shape.takeLeaf {i leaf : Nat} (here : leaves[i]? = some leaf) :
    Taken s (pre ++ (t, leaves) :: rest) leaf (s.takeLeaf t leaves.length i) := by
  obtain ⟨not_t, -⟩ := shape.apart
  obtain ⟨-, -, listed, -⟩ := shape.chain.after
  have inside := (List.getElem?_eq_some_iff.mp here).1
  have notFirst : t ≠ 1 := shape.block_ne_one (t := (t, leaves)) (by simp)
  have last : s.page t (1 + leaves.length) = leaves.getLastD 0 := by
    have at_end := listed (leaves.length - 1) (leaves.getLastD 0) (by
      rw [getLastD_eq_getLast?, getLast?_eq_getElem?]
      rw [getElem?_eq_getElem (by omega), Option.getD_some])
    rwa [show 2 + (leaves.length - 1) = 1 + leaves.length by omega] at at_end
  obtain ⟨page, eq, own, others⟩ : ∃ page : Mem,
      s.takeLeaf t leaves.length i = { s with page := page } ∧
      (∀ w, page t w = if w = 1 then leaves.length - 1
        else if w = 2 + i ∧ i < leaves.length - 1 then leaves.getLastD 0 else s.page t w) ∧
      ∀ b ≠ t, ∀ w, page b w = s.page b w := by
    rw [BtShared.takeLeaf, last]
    by_cases before : i < leaves.length - 1
    · rw [if_pos before]
      refine ⟨_, rfl, fun w => ?_, fun b other w => ?_⟩
      · simp [BtShared.put4byte, put, before]
      · rw [put_other_block other]
        exact put_other_block other
    · rw [if_neg before]
      refine ⟨_, rfl, fun w => ?_, fun b other w => put_other_block other⟩
      simp [put, before]
  have chain : Chain page (page 1 8) (pre ++ (t, takeOut leaves i) :: rest) := by
    rw [others 1 notFirst.symm]
    refine shape.chain.replace (fun b old w => others b.1 (not_t b old) w) ?_ ?_ fun j e entry => ?_
    · rw [own 0, if_neg (by decide), if_neg (by omega)]
    · rw [own 1, if_pos rfl, length_takeOut]
    · have small := (List.getElem?_eq_some_iff.mp entry).1
      rw [length_takeOut] at small
      have found := SeSqlite.Lib.UnrolledList.getElem?_takeOut entry
      rw [own (2 + j), if_neg (by omega)]
      split at found
      · rw [if_pos ⟨by omega, by omega⟩, found]
      · rw [if_neg (by omega)]
        exact listed j e found
  rw [eq]
  have fewer : (takeOut leaves i).length ≤ leaves.length := by
    rw [length_takeOut]
    exact Nat.sub_le _ _
  have kept : Kept s (pre ++ (t, leaves) :: rest) page := by
    intro p _ unlisted
    refine funext (others p ?_)
    rintro rfl
    exact unlisted (mem_members_block (b := (p, leaves)) (by simp))
  refine shape.taken chain ?_ (shape.room_replaced fewer) (others 1 notFirst.symm 9) kept
  rw [members_append, members_append]
  have block : (t :: (leaves ++ members rest)).Perm
      (leaf :: t :: (takeOut leaves i ++ members rest)) :=
    (((perm_takeOut here).append_right _).cons t).trans (List.Perm.swap ..)
  exact (block.append_left _).trans perm_middle

private theorem Shape.at_trunk :
    linkAfter s.page (s.page 1 8) pre = t ∧ ¬ (t > s.nPage ∨ s.canGet t = false) ∧
      s.page t 1 = leaves.length ∧ ¬ leaves.length > s.maxLeaf := by
  obtain ⟨link, count, -, -⟩ := shape.chain.after
  have usable := shape.usable t (mem_members_block (b := (t, leaves)) (by simp))
  have inside := usable.2.1
  refine ⟨link, ?_, count, Nat.not_lt.mpr (shape.room (t, leaves) (by simp))⟩
  rw [shape.canGet usable]
  simp only [Bool.true_eq_false, or_false]
  omega

private theorem Shape.chosen (some_leaf : 0 < leaves.length) (nearby : Nat) (eMode : Mode) :
    ∃ i leaf, leaves[i]? = some leaf ∧
      i = chooseLeaf (fun i => s.page t (2 + i)) nearby eMode leaves.length ∧
      s.page t (2 + i) = leaf ∧ s.Usable leaf ∧
      ((∃ p ∈ leaves, wanted nearby eMode p = true) → wanted nearby eMode leaf = true) := by
  obtain ⟨-, -, listed, -⟩ := shape.chain.after
  have usable : ∀ p ∈ leaves, s.Usable p := fun p leaf =>
    shape.usable p (mem_members_entry (b := (t, leaves)) (by simp) leaf)
  have word : ∀ i (inside : i < leaves.length), s.page t (2 + i) = leaves[i] := fun i inside =>
    listed i _ (getElem?_eq_getElem inside)
  have limit : pagerMaxPgno < 2 ^ 32 := by decide
  obtain ⟨inside, best⟩ := chooseLeaf_spec (fun i => s.page t (2 + i)) nearby eMode some_leaf
    (fun i inside => by
      have small := (usable _ (getElem_mem inside)).2.1
      have size := shape.size.2
      rw [word i inside]
      omega)
  refine ⟨_, _, getElem?_eq_getElem inside, rfl, word _ inside,
    usable _ (getElem_mem inside), ?_⟩
  rintro ⟨p, leaf, want⟩
  obtain ⟨i, i_inside, rfl⟩ := getElem_of_mem leaf
  have positive := (usable _ leaf).1
  have found := best i i_inside (by rw [word i i_inside]; omega) (by rwa [word i i_inside])
  rwa [word _ inside] at found

end

section

variable {pgno : Nat} {s' : BtShared} {ts : List (Nat × List Nat)}

private theorem Shape.allocateFirst (shape : Shape s ((t, leaves) :: rest)) (nearby : Nat)
    (eMode : Mode) (bound : Nat) :
    ∃ pgno s', s.allocateFrom nearby eMode false (bound + 1) none = some (pgno, s') ∧
      Taken s ((t, leaves) :: rest) pgno s' := by
  have none_before : Shape s ([] ++ (t, leaves) :: rest) := shape
  obtain ⟨link, inside, count, room⟩ := none_before.at_trunk
  rw [BtShared.allocateFrom]
  dsimp only
  rw [show s.getLink none = t from link, count, if_neg inside]
  by_cases none_left : leaves.length = 0
  · obtain rfl := length_eq_zero_iff.mp none_left
    obtain ⟨s', eq, taken⟩ := none_before.takeTrunk
    exact ⟨t, s', congrArg (fun s => some (t, s)) (Option.some_inj.mp eq), taken⟩
  · obtain ⟨i, leaf, here, chosen, word, usable, -⟩ :=
      none_before.chosen (by omega) nearby eMode
    rw [if_neg (by simp [none_left]), if_neg room, if_neg (by simp), if_pos (by omega), ← chosen,
      word, if_neg usable.2.1.not_gt, if_pos (shape.canGet usable)]
    exact ⟨leaf, _, rfl, none_before.takeLeaf here⟩

private theorem Shape.search (pre : List (Nat × List Nat)) (shape : Shape s (pre ++ rest))
    (nearby : Nat) (eMode : Mode) (bound : Nat) (enough : rest.length < bound) :
    ((∀ p ∈ members rest, wanted nearby eMode p = false) ∧
      s.allocateFrom nearby eMode true bound (prevTrunk pre) = none) ∨
    ∃ pgno s', s.allocateFrom nearby eMode true bound (prevTrunk pre) = some (pgno, s') ∧
      wanted nearby eMode pgno = true ∧ Taken s (pre ++ rest) pgno s' := by
  induction rest generalizing pre bound with
  | nil =>
    obtain ⟨bound, rfl⟩ : ∃ b, bound = b + 1 := ⟨bound - 1, by omega⟩
    refine .inl ⟨fun p listed => absurd listed not_mem_nil, ?_⟩
    have ended := shape.chain.after
    rw [BtShared.allocateFrom]
    rw [getLink_eq, ended, if_pos (.inr (by simp [BtShared.canGet]))]
  | cons trunk rest ih =>
    obtain ⟨t, leaves⟩ := trunk
    obtain ⟨bound, rfl⟩ : ∃ b, bound = b + 1 := ⟨bound - 1, by omega⟩
    rw [length_cons] at enough
    obtain ⟨link, inside, count, room⟩ := shape.at_trunk
    -- the rest of the search, with this trunk passed
    have next := ih (pre ++ [(t, leaves)]) (by rwa [append_assoc]) bound (by omega)
    rw [append_assoc] at next
    have prev : prevTrunk (pre ++ [(t, leaves)]) = some t := by simp [prevTrunk]
    rw [prev] at next
    rw [BtShared.allocateFrom]
    dsimp only
    rw [getLink_eq, link, count, if_neg inside, if_neg (by simp), if_neg room]
    by_cases want : wanted nearby eMode t = true
    · obtain ⟨s', eq, taken⟩ := shape.takeTrunk
      rw [if_pos ⟨rfl, want⟩, eq]
      exact .inr ⟨t, s', rfl, want, taken⟩
    · rw [if_neg (fun both => want both.2)]
      have t_unwanted := Bool.eq_false_iff.mpr want
      have pass : (∀ p ∈ leaves, wanted nearby eMode p = false) →
          (∀ p ∈ members rest, wanted nearby eMode p = false) →
          ∀ p ∈ members ((t, leaves) :: rest), wanted nearby eMode p = false := by
        intro own others p listed
        rw [members_cons, mem_cons, mem_append] at listed
        rcases listed with rfl | leaf | other
        · exact t_unwanted
        · exact own p leaf
        · exact others p other
      by_cases some_leaf : leaves.length > 0
      · obtain ⟨i, leaf, here, chosen, word, usable, best⟩ := shape.chosen some_leaf nearby eMode
        rw [if_pos some_leaf, ← chosen, word, if_neg usable.2.1.not_gt]
        by_cases want_leaf : wanted nearby eMode leaf = true
        · rw [if_pos (.inr want_leaf), if_pos (shape.canGet usable)]
          exact .inr ⟨leaf, _, rfl, want_leaf, shape.takeLeaf here⟩
        · rw [if_neg (by simp [want_leaf])]
          refine next.imp_left fun ⟨unwanted, eq⟩ => ⟨pass (fun p own => ?_) unwanted, eq⟩
          exact Bool.eq_false_iff.mpr fun want_p => want_leaf (best ⟨p, own, want_p⟩)
      · rw [if_neg some_leaf]
        refine next.imp_left fun ⟨unwanted, eq⟩ => ⟨pass (fun p own => ?_) unwanted, eq⟩
        exact absurd (length_pos_of_mem own) some_leaf

private theorem appendPage_spec (eq : s.appendPage = some (pgno, s'))
    (size : 1 ≤ s.nPage ∧ s.nPage ≤ pagerMaxPgno) :
    s.nPage < pgno ∧ pgno ≠ s.pendingBytePage ∧
      (s.autoVacuum = true → s.isPtrmapPage pgno = false) ∧
      s' = { s.put4byte 1 7 pgno with nPage := pgno } ∧ s.canGet pgno = true ∧
      ∀ g, s.nPage < g → g < pgno → s.ordinary g = false := by
  have skip : ∀ p, p ≤ s.skipPending p ∧ s.skipPending p ≤ p + 1 ∧
      s.skipPending p ≠ s.pendingBytePage ∧ (p < s.skipPending p → p = s.pendingBytePage) := by
    intro p
    rw [BtShared.skipPending]
    split <;> omega
  rw [pagerMaxPgno] at size
  obtain ⟨low, high, notPending, skipped⟩ := skip (s.nPage + 1)
  rw [BtShared.appendPage] at eq
  dsimp only at eq
  generalize s.skipPending (s.nPage + 1) = p at low high notPending skipped eq
  obtain ⟨low', high', notPending', skipped'⟩ := skip (p + 1)
  generalize target : (if (s.autoVacuum && s.isPtrmapPage p) = true then s.skipPending (p + 1)
    else p) = q at eq
  have pending : s.ordinary s.pendingBytePage = false := by simp [PageCount.BtShared.ordinary]
  have before : ∀ g, s.nPage < g → g < p → s.ordinary g = false := by
    intro g low high
    obtain rfl : g = s.pendingBytePage := by omega
    exact pending
  have page : s.nPage < q ∧ q ≠ s.pendingBytePage ∧
      (s.autoVacuum = true → s.isPtrmapPage q = false) ∧
      ∀ g, s.nPage < g → g < q → s.ordinary g = false := by
    subst target
    split
    · rename_i mapped
      rw [Bool.and_eq_true] at mapped
      refine ⟨by omega, notPending', fun _ => ?_, fun g low high => ?_⟩
      · have behind : s.skipPending (p + 1) = p + 1 ∨ s.skipPending (p + 1) = p + 2 := by omega
        rcases behind with here | here <;> rw [here] <;>
          exact PageCount.BtShared.not_isPtrmapPage_behind (by omega) (by omega) mapped.2 (by omega)
      · rcases Nat.lt_trichotomy g p with less | rfl | more
        · exact before g low less
        · simp [PageCount.BtShared.ordinary, mapped.2]
        · obtain rfl : g = s.pendingBytePage := by omega
          exact pending
    · rename_i unmapped
      refine ⟨by omega, notPending, fun auto => ?_, before⟩
      rw [auto] at unmapped
      exact Bool.eq_false_iff.mpr unmapped
  split at eq
  · simp at eq
  · split at eq
    · rename_i got
      cases eq
      exact ⟨page.1, page.2.1, page.2.2.1, rfl, got, page.2.2.2⟩
    · simp at eq

/-- The page is taken from the list. -/
def Given (s : BtShared) (ts : List (Nat × List Nat)) (pgno : Nat) (s' : BtShared) : Prop :=
  ∃ page ts', s' = { s with page := page } ∧ Lists s' ts' ∧
    (members ts).Perm (pgno :: members ts') ∧ Kept s ts page

/-- The list is empty, and the file grows. -/
structure Appended (s : BtShared) (ts : List (Nat × List Nat)) (pgno : Nat) (s' : BtShared) :
    Prop where
  empty : members ts = []
  lists : Lists s' []
  eq : s' = { s.put4byte 1 7 pgno with nPage := pgno }
  behind : s.nPage < pgno
  notPending : pgno ≠ s.pendingBytePage
  notMap : s.autoVacuum = true → s.isPtrmapPage pgno = false
  between : ∀ g, s.nPage < g → g < pgno → s.ordinary g = false

variable (lists : Lists s ts)

include lists

private theorem Lists.lowered (n : Nat) : Shape (s.put4byte 1 9 n) ts :=
  lists.toShape.frame (put_other_word (by decide))
    (fun _ listed _ => put_other_block (lists.block_ne_one listed)) fun _ _ => rfl

private theorem Lists.of_taken (taken : Taken (s.put4byte 1 9 (s.page 1 9 - 1)) ts pgno s') :
    Given s ts pgno s' := by
  obtain ⟨page, ts', rfl, shape, count, perm, kept⟩ := taken.rest
  refine ⟨page, ts', rfl, ⟨shape, ?_⟩, perm, fun p other unlisted => ?_⟩
  · have length := perm.length_eq
    change page 1 9 = put s.page 1 9 (s.page 1 9 - 1) 1 9 at count
    change page 1 9 = _
    rw [count, put_same, lists.count, length, length_cons, Nat.add_sub_cancel]
  · rw [kept p other unlisted]
    exact funext fun w => put_other_block other

private theorem Lists.walk (some_page : 0 < s.page 1 9) (nearby : Nat) (eMode : Mode)
    (searchList : Bool) :
    let result := (s.put4byte 1 9 (s.page 1 9 - 1)).allocateFrom nearby eMode searchList
      (s.page 1 9 + 1) none
    (searchList = true ∧ (∀ p ∈ members ts, wanted nearby eMode p = false) ∧ result = none) ∨
    ∃ pgno s', result = some (pgno, s') ∧
      (searchList = true → wanted nearby eMode pgno = true) ∧ Given s ts pgno s' := by
  have shape := lists.lowered (s.page 1 9 - 1)
  cases searchList with
  | false =>
    cases ts with
    | nil =>
      have count := lists.count
      rw [members_nil, length_nil] at count
      omega
    | cons trunk rest =>
      obtain ⟨pgno, s', found, taken⟩ := shape.allocateFirst nearby eMode
        (s.page 1 9)
      exact .inr ⟨pgno, s', found, fun search => absurd search (by simp), lists.of_taken taken⟩
  | true =>
    have blocks := length_le_members ts
    rw [← lists.count] at blocks
    rcases Shape.search [] shape nearby eMode (s.page 1 9 + 1) (by omega) with
      ⟨unwanted, failed⟩ | ⟨pgno, s', found, want, taken⟩
    · exact .inl ⟨rfl, unwanted, failed⟩
    · exact .inr ⟨pgno, s', found, fun _ => want, lists.of_taken taken⟩

theorem Lists.allocate (eq : s.allocateBtreePage nearby eMode = some (pgno, s')) :
    Given s ts pgno s' ∨ Appended s ts pgno s' := by
  rw [BtShared.allocateBtreePage] at eq
  rw [if_neg lists.count_lt.not_ge] at eq
  split at eq
  · rename_i some_page
    left
    obtain ⟨searchList, -, walked⟩ := Option.bind_eq_some_iff.mp eq
    rcases lists.walk some_page nearby eMode searchList with
      ⟨-, -, failed⟩ | ⟨p, t, found, -, done⟩
    · rw [failed] at walked
      simp at walked
    · cases found.symm.trans walked
      exact done
  · right
    have empty : members ts = [] := by
      rw [← length_eq_zero_iff, ← lists.count]
      omega
    have blocks := length_le_members ts
    rw [empty, length_nil, Nat.le_zero, length_eq_zero_iff] at blocks
    subst blocks
    obtain ⟨behind, notPending, notMap, rfl, got, between⟩ := appendPage_spec eq lists.size
    simp only [BtShared.canGet, decide_eq_true_eq] at got
    refine ⟨rfl, lists_nil ⟨?_, got.2.1⟩ ?_ ?_, rfl, behind, notPending, notMap, between⟩
    · change 1 ≤ pgno
      omega
    · have first : s.page 1 8 = 0 := lists.chain
      simpa [BtShared.put4byte, put] using first
    · simpa [BtShared.put4byte, put] using lists.count

private theorem Lists.allocate_wanted (search : s.searchList nearby eMode = some true) {p : Nat}
    (free : p ∈ members ts) (want : wanted nearby eMode p = true) :
    ∃ pgno s', s.allocateBtreePage nearby eMode = some (pgno, s') ∧
      wanted nearby eMode pgno = true ∧ pgno ∈ members ts := by
  have some_page : 0 < s.page 1 9 := by
    rw [lists.count]
    exact length_pos_of_mem free
  rw [BtShared.allocateBtreePage]
  rw [if_neg lists.count_lt.not_ge, if_pos some_page, search]
  rcases lists.walk some_page nearby eMode true with
    ⟨-, unwanted, -⟩ | ⟨pgno, s', found, wants, -, ts', -, -, perm, -⟩
  · exact absurd want (Bool.eq_false_iff.mp (unwanted p free))
  · exact ⟨pgno, s', found, wants rfl, perm.mem_iff.mpr mem_cons_self⟩

private theorem Lists.searchList_exact (auto : s.autoVacuum = true) (free : nearby ∈ members ts) :
    s.searchList nearby .exact = some true := by
  obtain ⟨behindFirst, inside, -⟩ := lists.usable nearby free
  have lt := (lists.usable nearby free).ptrmapPageno_lt auto lists.size.2
  have marked := lists.marked auto nearby free
  have kind : ptrmapFreepage = 2 := rfl
  rw [BtShared.searchList]
  rw [if_pos inside, if_neg (by omega), marked]
  rfl

end

end

/-- One call, with the set of pages that were freed and not allocated again. A page to be freed is
a data page in use; the exact and the bounded mode are for auto-vacuum databases. Callers also
write the map entries of pages in use. -/
inductive Step : BtShared × Finset Nat → BtShared × Finset Nat → Prop where
  | free {s s' : BtShared} {freed : Finset Nat} {iPage : Nat} (usable : s.Usable iPage)
      (inUse : iPage ∉ freed) (call : s.freePage2 iPage = some s') :
      Step (s, freed) (s', insert iPage freed)
  | allocate {s s' : BtShared} {freed : Finset Nat} {nearby pgno : Nat} {eMode : Mode}
      (allowed : eMode = .any ∨ (0 < nearby ∧ s.autoVacuum = true))
      (call : s.allocateBtreePage nearby eMode = some (pgno, s')) :
      Step (s, freed) (s', freed.erase pgno)
  | ptrmapPut {s s' : BtShared} {freed : Finset Nat} {key eType parent : Nat}
      (inUse : key ∉ freed) (call : s.ptrmapPut key eType parent = some s') :
      Step (s, freed) (s', freed)

/-- The structure on the pages lists exactly the freed ones, each once, with their number. -/
def Holds (state : BtShared × Finset Nat) : Prop :=
  ∃ ts, Lists state.1 ts ∧ (members ts).toFinset = state.2

private theorem Step.holds {state state' : BtShared × Finset Nat} (step : Step state state')
    (holds : Holds state) : Holds state' := by
  obtain ⟨ts, lists, same⟩ := holds
  cases step with
  | free usable inUse call =>
    obtain rfl := same
    rw [mem_toFinset] at inUse
    obtain ⟨s', ts', eq, lists', perm⟩ := lists.freePage2 usable inUse
    cases eq.symm.trans call
    refine ⟨ts', lists', ?_⟩
    rw [toFinset_eq_of_perm _ _ perm, toFinset_cons]
  | allocate allowed call =>
    obtain rfl := same
    rcases lists.allocate call with ⟨-, ts', -, lists', perm, -⟩ | ⟨empty, lists', -⟩
    · refine ⟨ts', lists', ?_⟩
      have nodup := perm.nodup_iff.mp lists.nodup
      rw [toFinset_eq_of_perm _ _ perm, toFinset_cons, Finset.erase_insert]
      rw [mem_toFinset]
      exact (nodup_cons.mp nodup).1
    · refine ⟨[], lists', ?_⟩
      simp [empty]
  | @ptrmapPut s s' freed key eType parent inUse call =>
    obtain rfl := same
    rw [mem_toFinset] at inUse
    rw [BtShared.ptrmapPut] at call
    split at call
    · simp at call
    · cases call
      refine ⟨ts, ⟨lists.toShape.frame rfl (fun _ _ _ => rfl) fun p listed => ?_, lists.count⟩, rfl⟩
      have other : p ≠ key := fun eq => inUse (eq ▸ listed)
      rw [update_of_ne other]

/-- From a well-formed database, in every run of calls, the list holds exactly the pages freed and
not allocated again. An allocated page comes from it, or from behind the end of the file. The exact
mode gives the wanted page if it is free, and the bounded mode one within the bound if one is free;
freeing a page in use does not fail. -/
theorem freeList_exact {s₀ s : BtShared} {freed₀ freed : Finset Nat}
    (wellFormed : Holds (s₀, freed₀)) (run : Relation.ReflTransGen Step (s₀, freed₀) (s, freed)) :
    Holds (s, freed) ∧
    (∀ nearby eMode pgno s', s.allocateBtreePage nearby eMode = some (pgno, s') →
      pgno ∈ freed ∨ (freed = ∅ ∧ s.nPage < pgno ∧ pgno ≠ s.pendingBytePage ∧
        (s.autoVacuum = true → s.isPtrmapPage pgno = false))) ∧
    (∀ nearby, s.autoVacuum = true → nearby ∈ freed →
      ∃ s', s.allocateBtreePage nearby .exact = some (nearby, s')) ∧
    (∀ nearby, (∃ p ∈ freed, p ≤ nearby) →
      ∃ pgno s', s.allocateBtreePage nearby .le = some (pgno, s') ∧ pgno ≤ nearby ∧ pgno ∈ freed) ∧
    (∀ iPage, s.Usable iPage → iPage ∉ freed → ∃ s', s.freePage2 iPage = some s') := by
  have holds : Holds (s, freed) := by
    generalize state : (s, freed) = final at run
    induction run generalizing s freed with
    | refl => exact wellFormed
    | tail _ step ih => exact step.holds (ih rfl)
  obtain ⟨ts, lists, rfl⟩ := holds
  refine ⟨⟨ts, lists, rfl⟩, ?_, ?_, ?_, ?_⟩
  · intro nearby eMode pgno s' call
    rcases lists.allocate call with ⟨-, ts', -, -, perm, -⟩ | appended
    · exact .inl (mem_toFinset.mpr (perm.mem_iff.mpr mem_cons_self))
    · exact .inr ⟨by simp [appended.empty], appended.behind, appended.notPending,
        appended.notMap⟩
  · intro nearby auto free
    rw [mem_toFinset] at free
    obtain ⟨pgno, s', call, want, -⟩ := lists.allocate_wanted
      (lists.searchList_exact auto free) free (by simp [wanted])
    obtain rfl := (wanted_eq (by decide)).mp want
    exact ⟨s', call⟩
  · rintro nearby ⟨p, free, le⟩
    rw [mem_toFinset] at free
    obtain ⟨pgno, s', call, want, listed⟩ := lists.allocate_wanted rfl free (wanted_le.mpr le)
    exact ⟨pgno, s', call, wanted_le.mp want, mem_toFinset.mpr listed⟩
  · intro iPage usable inUse
    rw [mem_toFinset] at inUse
    obtain ⟨s', -, call, -⟩ := lists.freePage2 usable inUse
    exact ⟨s', call⟩

/-- A new auto-vacuum database of four pages, the second of them of the pointer map. -/
def newDatabase : BtShared where
  usableSize := 512
  low := PageCount.small_page_low
  high := PageCount.small_page_high
  pendingBytePage := 1000
  autoVacuum := true
  secureDelete := false
  mxPgno := 1000
  nPage := 4
  page := fun _ _ => 0
  ptrmap := fun _ => (ptrmapRootpage, 0)

private theorem newDatabase_holds : Holds (newDatabase, ∅) :=
  ⟨[], lists_nil (by decide) rfl rfl, rfl⟩

theorem freeList_exact_newDatabase : ∃ s s', newDatabase.freePage2 3 = some s ∧
    Relation.ReflTransGen Step (newDatabase, ∅) (s, {3}) ∧ Holds (s, {3}) ∧
    s.allocateBtreePage 3 .exact = some (3, s') := by
  have usable : newDatabase.Usable 3 := by
    refine ⟨by decide, by decide, by decide, fun _ => by decide⟩
  obtain ⟨s, call⟩ := (freeList_exact newDatabase_holds .refl).2.2.2.2 3 usable (by decide)
  have auto : s.autoVacuum = true := by
    have kept : (newDatabase.freePage2 3).map BtShared.autoVacuum = some true := by decide
    rw [call] at kept
    exact Option.some_inj.mp kept
  have run : Relation.ReflTransGen Step (newDatabase, ∅) (s, {3}) :=
    .single (.free usable (by decide) call)
  obtain ⟨holds, -, exact_mode, -⟩ := freeList_exact newDatabase_holds run
  obtain ⟨s', given⟩ := exact_mode 3 auto (by decide)
  exact ⟨s, s', call, run, holds, given⟩

end SeSqlite.Btree.FreeList
