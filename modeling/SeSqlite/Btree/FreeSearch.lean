/- source: src/btree.c
   digest: The search of the list of free pages on files of any content, and when it ends. -/
import Mathlib.Order.Interval.Finset.Nat
import SeSqlite.Btree.FreeList
import SeSqlite.Lib.Runs

set_option autoImplicit false
set_option relaxedAutoImplicit false

namespace SeSqlite.Btree.FreeList

open Lib.Runs

/-- What one pass of the loop over the trunks comes to: the loop is left, with a page or with an
error, or it goes on behind a trunk. -/
inductive Pass where
  | ends (result : Option (Nat × BtShared))
  | goesOn (trunk : Nat)

namespace BtShared

variable (s : BtShared) (nearby : Nat) (eMode : Mode)

/-- One pass of the loop of `allocateBtreePage`. -/
def pass (searchList : Bool) (prevTrunk : Option Nat) : Pass :=
  let iTrunk := s.getLink prevTrunk
  if iTrunk > s.nPage ∨ s.canGet iTrunk = false then .ends none
  else
    let k := s.page iTrunk 1
    if k = 0 ∧ searchList = false then
      .ends (some (iTrunk, s.put4byte 1 8 (s.page iTrunk 0)))
    else if k > s.maxLeaf then .ends none
    else if searchList ∧ wanted nearby eMode iTrunk then
      .ends ((s.takeTrunk prevTrunk iTrunk k).map fun s => (iTrunk, s))
    else if k > 0 then
      let closest := chooseLeaf (fun i => s.page iTrunk (2 + i)) nearby eMode k
      let iPage := s.page iTrunk (2 + closest)
      if iPage > s.nPage then .ends none
      else if searchList = false ∨ wanted nearby eMode iPage then
        .ends (if s.canGet iPage then some (iPage, s.takeLeaf iTrunk k closest) else none)
      else .goesOn iTrunk
    else .goesOn iTrunk

def passes (searchList : Bool) : (bound : Nat) → (prevTrunk : Option Nat) →
    Option (Option (Nat × BtShared))
  | 0, _ => none
  | bound + 1, prevTrunk =>
    match s.pass nearby eMode searchList prevTrunk with
    | .ends result => some result
    | .goesOn trunk => passes searchList bound (some trunk)

/-- `allocateBtreePage`, with so many passes of its loop. -/
def allocateWithin (bound : Nat) : Option (Option (Nat × BtShared)) :=
  let n := s.page 1 9
  if n ≥ s.nPage then some none
  else if n > 0 then
    match s.searchList nearby eMode with
    | none => some none
    | some searchList => (s.put4byte 1 9 (n - 1)).passes nearby eMode searchList bound none
  else some s.appendPage

def Returns : Prop := ∃ bound result, s.allocateWithin nearby eMode bound = some result

/-- A trunk at which a search goes on: it is in the file, its leaf count in range, and neither the
trunk nor the leaf that is looked at is wanted. -/
def passesBy (trunk : Nat) : Bool :=
  trunk ≤ s.nPage ∧ s.canGet trunk ∧ s.page trunk 1 ≤ s.maxLeaf ∧
    wanted nearby eMode trunk = false ∧
    (s.page trunk 1 = 0 ∨
      let leaf := s.page trunk (2 + chooseLeaf (fun i => s.page trunk (2 + i)) nearby eMode
        (s.page trunk 1))
      leaf ≤ s.nPage ∧ wanted nearby eMode leaf = false)

/-- The trunk so many links behind the first one. -/
def trunkAt (i : Nat) : Nat := (fun trunk => s.page trunk 0)^[i] (s.page 1 8)

/-- The list is searched, and its trunks lead back to one of them with no trunk among them at which
the search would end. The count of free pages on page 1 is already lowered. -/
def Circles : Prop :=
  let n := s.page 1 9
  let s' := s.put4byte 1 9 (n - 1)
  0 < n ∧ n < s.nPage ∧ s.searchList nearby eMode = some true ∧
    ∃ i j, i < j ∧ s'.trunkAt i = s'.trunkAt j ∧
      ∀ l < j, s'.passesBy nearby eMode (s'.trunkAt l) = true

variable {s nearby eMode} {prevTrunk : Option Nat}

theorem pass_without_search (prevTrunk : Option Nat) :
    ∃ result, s.pass nearby eMode false prevTrunk = .ends result := by
  rw [pass]
  dsimp only
  split
  · exact ⟨_, rfl⟩
  · split
    · exact ⟨_, rfl⟩
    · rename_i leaves
      split
      · exact ⟨_, rfl⟩
      · split
        · exact ⟨_, rfl⟩
        · have some_leaf := Nat.pos_of_ne_zero fun none => leaves ⟨none, rfl⟩
          rw [if_pos some_leaf]
          split
          · exact ⟨_, rfl⟩
          · exact ⟨_, if_pos (.inl rfl)⟩

theorem pass_of_passesBy (by_trunk : s.passesBy nearby eMode (s.getLink prevTrunk) = true) :
    s.pass nearby eMode true prevTrunk = .goesOn (s.getLink prevTrunk) := by
  simp only [passesBy, decide_eq_true_eq] at by_trunk
  obtain ⟨inside, canGet, room, other, leaf⟩ := by_trunk
  rw [pass]
  rw [if_neg (by simp [canGet]; omega), if_neg (by simp), if_neg (by omega),
    if_neg (by simp [other])]
  split
  · obtain ⟨leafInside, leafOther⟩ := leaf.resolve_left (by omega)
    rw [if_neg (by omega), if_neg (by simp [leafOther])]
  · rfl

theorem pass_of_not_passesBy (stops : s.passesBy nearby eMode (s.getLink prevTrunk) ≠ true) :
    ∃ result, s.pass nearby eMode true prevTrunk = .ends result := by
  rw [pass]
  dsimp only
  split
  · exact ⟨_, rfl⟩
  · rename_i got
    split
    · exact ⟨_, rfl⟩
    · split
      · exact ⟨_, rfl⟩
      · split
        · exact ⟨_, rfl⟩
        · rename_i other
          -- what is left is a trunk whose leaf ends the search
          simp only [not_or, Bool.not_eq_false, true_and, Bool.not_eq_true] at got other
          split
          · split
            · exact ⟨_, rfl⟩
            · split
              · exact ⟨_, rfl⟩
              · rename_i leafOther
                refine absurd (decide_eq_true
                  ⟨by omega, got.2, by omega, other, .inr ⟨by omega, ?_⟩⟩)
                  stops
                simpa using leafOther
          · exact absurd (decide_eq_true ⟨by omega, got.2, by omega, other, .inl (by omega)⟩) stops

variable (s) in
def beforeTrunk : Nat → Option Nat
  | 0 => none
  | i + 1 => some (s.trunkAt i)

theorem getLink_beforeTrunk (i : Nat) : s.getLink (s.beforeTrunk i) = s.trunkAt i := by
  cases i with
  | zero => rfl
  | succ i =>
    rw [trunkAt, Function.iterate_succ_apply']
    rfl

theorem passes_succ (bound i : Nat) (by_trunk : s.passesBy nearby eMode (s.trunkAt i) = true) :
    s.passes nearby eMode true (bound + 1) (s.beforeTrunk i) =
      s.passes nearby eMode true bound (s.beforeTrunk (i + 1)) := by
  rw [← getLink_beforeTrunk] at by_trunk
  rw [passes, pass_of_passesBy by_trunk, getLink_beforeTrunk]
  rfl

theorem passes_eq_none (always : ∀ l, s.passesBy nearby eMode (s.trunkAt l) = true)
    (bound i : Nat) : s.passes nearby eMode true bound (s.beforeTrunk i) = none := by
  induction bound generalizing i with
  | zero => rfl
  | succ bound ih =>
    rw [passes_succ bound i (always i)]
    exact ih (i + 1)

theorem passes_eq_some {i l : Nat} (before : i ≤ l)
    (stops : s.passesBy nearby eMode (s.trunkAt l) ≠ true) :
    ∃ bound result, s.passes nearby eMode true bound (s.beforeTrunk i) = some result := by
  induction before using Nat.decreasingInduction with
  | self =>
    rw [← getLink_beforeTrunk] at stops
    obtain ⟨result, ends⟩ := pass_of_not_passesBy stops
    exact ⟨1, result, by rw [passes, ends]⟩
  | of_succ i less ih =>
    by_cases by_trunk : s.passesBy nearby eMode (s.trunkAt i) = true
    · obtain ⟨bound, result, later⟩ := ih
      exact ⟨bound + 1, result, by rw [passes_succ bound i by_trunk, later]⟩
    · rw [← getLink_beforeTrunk] at by_trunk
      obtain ⟨result, ends⟩ := pass_of_not_passesBy by_trunk
      exact ⟨1, result, by rw [passes, ends]⟩

/-- Trunks that are passed by are pages of the file, so that a search that passes by so many has
met one of them twice. -/
theorem exists_repeated_trunk (long : ∀ l ≤ s.nPage, s.passesBy nearby eMode (s.trunkAt l) = true) :
    ∃ i j, i < j ∧ j ≤ s.nPage ∧ s.trunkAt i = s.trunkAt j := by
  have card : (Finset.Icc 1 s.nPage).card = s.nPage := by
    rw [Nat.card_Icc, Nat.add_sub_cancel]
  have stays : ∀ l ≤ (Finset.Icc 1 s.nPage).card,
      (fun trunk => s.page trunk 0)^[l] (s.page 1 8) ∈ Finset.Icc 1 s.nPage := by
    intro l le
    rw [card] at le
    have by_trunk := long l le
    simp only [passesBy, decide_eq_true_eq, canGet] at by_trunk
    exact Finset.mem_Icc.mpr ⟨Nat.pos_of_ne_zero by_trunk.2.1.1, by_trunk.1⟩
  obtain ⟨i, j, less, le, same⟩ := exists_repeat stays
  exact ⟨i, j, less, card ▸ le, same⟩

theorem not_returns_of_circles (circles : s.Circles nearby eMode) : ¬ s.Returns nearby eMode := by
  obtain ⟨free, few, search, i, j, less, same, by_all⟩ := circles
  rintro ⟨bound, result, call⟩
  rw [allocateWithin] at call
  simp only [if_neg few.not_ge, if_pos free, search] at call
  let s' := s.put4byte 1 9 (s.page 1 9 - 1)
  have always :=
    orbit_of_repeat (P := fun trunk => s'.passesBy nearby eMode trunk = true) less same by_all
  have endless := passes_eq_none always bound 0
  rw [beforeTrunk] at endless
  rw [endless] at call
  cases call

theorem returns_of_not_circles (straight : ¬ s.Circles nearby eMode) : s.Returns nearby eMode := by
  by_cases many : s.page 1 9 ≥ s.nPage
  · exact ⟨0, none, by rw [allocateWithin]; simp only [if_pos many]⟩
  by_cases free : s.page 1 9 > 0
  swap
  · exact ⟨0, s.appendPage, by rw [allocateWithin]; simp only [if_neg many, if_neg free]⟩
  simp only [Returns, allocateWithin, if_neg many, if_pos free]
  cases search : s.searchList nearby eMode with
  | none => exact ⟨0, none, rfl⟩
  | some searching =>
    cases searching with
    | false =>
      obtain ⟨result, ends⟩ : ∃ result, (s.put4byte 1 9 (s.page 1 9 - 1)).pass nearby eMode false
        none = .ends result := pass_without_search none
      exact ⟨1, result, by simp only [passes, ends]⟩
    | true =>
      -- a search that does not end within the length of the file has met a trunk twice
      by_cases long : ∀ l ≤ s.nPage, (s.put4byte 1 9 (s.page 1 9 - 1)).passesBy nearby eMode
          ((s.put4byte 1 9 (s.page 1 9 - 1)).trunkAt l) = true
      · obtain ⟨i, j, less, le, same⟩ := exists_repeated_trunk
          (s := s.put4byte 1 9 (s.page 1 9 - 1)) long
        exact absurd ⟨free, Nat.lt_of_not_le many, search, i, j, less, same,
          fun l before => long l (Nat.le_trans before.le le)⟩ straight
      · simp only [not_forall] at long
        obtain ⟨l, -, stops⟩ := long
        exact passes_eq_some (Nat.zero_le l) stops

end BtShared

/-- On a file of any content the call returns, unless the list is searched along trunks that lead
back to one of them. -/
theorem allocateBtreePage_returns_iff (s : BtShared) (nearby : Nat) (eMode : Mode) :
    s.Returns nearby eMode ↔ ¬ s.Circles nearby eMode :=
  ⟨fun returns circles => BtShared.not_returns_of_circles circles returns,
    BtShared.returns_of_not_circles⟩

/-- Five pages; page 4, on the list as its only trunk, is linked to itself, and the pointer map has
page 5 as free. -/
def linkedToItself : BtShared where
  usableSize := 512
  low := PageCount.small_page_low
  high := PageCount.small_page_high
  pendingBytePage := 1000
  autoVacuum := true
  secureDelete := false
  mxPgno := 1000
  nPage := 5
  page := fun pgno word =>
    if pgno = 1 ∧ word = 8 then 4
    else if pgno = 1 ∧ word = 9 then 2
    else if pgno = 4 ∧ word = 0 then 4
    else 0
  ptrmap := fun pgno => if pgno = 4 ∨ pgno = 5 then (ptrmapFreepage, 0) else (ptrmapRootpage, 0)

theorem search_without_end : ¬ linkedToItself.Returns 5 .exact := by
  apply BtShared.not_returns_of_circles
  refine ⟨by decide, by decide, by decide, 0, 1, by decide, by decide, ?_⟩
  intro l first
  obtain rfl : l = 0 := by omega
  decide

end SeSqlite.Btree.FreeList
