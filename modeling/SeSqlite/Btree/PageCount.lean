/- source: src/btree.c
   digest: The size of an auto-vacuum database without its free pages. -/
import Mathlib.Data.List.Range
import Mathlib.Tactic.Ring

set_option autoImplicit false
set_option relaxedAutoImplicit false

namespace SeSqlite.Btree

def pagerMaxPgno : Nat := 2147483647

namespace PageCount

/-- The difference of two unsigned numbers of 32 bits. -/
def sub32 (a b : Nat) : Nat := (a + (2 ^ 32 - b)) % 2 ^ 32

def add32 (a b : Nat) : Nat := (a + b) % 2 ^ 32

/-- What the layout of an auto-vacuum database depends on. -/
structure BtShared where
  usableSize : Nat
  low : 480 ≤ usableSize
  high : usableSize ≤ 65536
  pendingBytePage : Nat

namespace BtShared

variable (s : BtShared)

def nEntry : Nat := s.usableSize / 5

def ptrmapPageno (pgno : Nat) : Nat :=
  if pgno < 2 then 0
  else
    let nPagesPerMapPage := s.usableSize / 5 + 1
    let iPtrMap := (pgno - 2) / nPagesPerMapPage
    let ret := add32 (iPtrMap * nPagesPerMapPage) 2
    if ret = s.pendingBytePage then add32 ret 1 else ret

/-- `PTRMAP_ISPAGE` -/
def isPtrmapPage (pgno : Nat) : Bool := s.ptrmapPageno pgno = pgno

/-- The loop at the end of `finalDbSize`, for so many rounds. -/
def skipBack : (rounds : Nat) → (nFin : Nat) → Option Nat
  | 0, _ => none
  | rounds + 1, nFin =>
    if s.isPtrmapPage nFin ∨ nFin = s.pendingBytePage then skipBack rounds (sub32 nFin 1)
    else some nFin

def finalDbSize (nOrig nFree : Nat) (rounds : Nat) : Option Nat :=
  let nPtrmap := add32 (add32 (sub32 nFree nOrig) (s.ptrmapPageno nOrig)) s.nEntry / s.nEntry
  let nFin := sub32 (sub32 nOrig nFree) nPtrmap
  let nFin := if nOrig > s.pendingBytePage ∧ nFin < s.pendingBytePage then sub32 nFin 1 else nFin
  s.skipBack rounds nFin

def ordinary (pgno : Nat) : Bool := !s.isPtrmapPage pgno && pgno ≠ s.pendingBytePage

/-- The number of ordinary pages among the first ones. -/
def ordinaryPages (n : Nat) : Nat := (List.range' 1 n).countP s.ordinary

/-- Page `n` is the page `r` of group `q`: a place for a page of the map, and the pages with their
entries there. -/
def At (n q r : Nat) : Prop := r ≤ s.nEntry ∧ n = 2 + q * (s.nEntry + 1) + r

theorem nEntry_bounds : 96 ≤ s.nEntry ∧ s.nEntry ≤ 13107 := by
  have low := s.low
  have high := s.high
  rw [nEntry]
  omega

variable {s}

theorem exists_at {n : Nat} (behind : 2 ≤ n) : ∃ q r, s.At n q r := by
  refine ⟨(n - 2) / (s.nEntry + 1), (n - 2) % (s.nEntry + 1), ?_, ?_⟩
  · exact Nat.lt_succ_iff.mp (Nat.mod_lt _ (Nat.succ_pos _))
  · have division := Nat.div_add_mod' (n - 2) (s.nEntry + 1)
    omega

namespace At

variable {n q r : Nat} (at_n : s.At n q r)

include at_n

private theorem group : (n - 2) / (s.nEntry + 1) = q := by
  obtain ⟨small, rfl⟩ := at_n
  have rest : 2 + q * (s.nEntry + 1) + r - 2 = r + q * (s.nEntry + 1) := by omega
  rw [rest, Nat.add_mul_div_right _ _ (Nat.succ_pos _),
    Nat.div_eq_of_lt (Nat.lt_succ_iff.mpr small), Nat.zero_add]

private theorem ptrmapPageno (size : n < 2 ^ 32) : s.ptrmapPageno n =
    if 2 + q * (s.nEntry + 1) = s.pendingBytePage then add32 (2 + q * (s.nEntry + 1)) 1
    else 2 + q * (s.nEntry + 1) := by
  have group := at_n.group
  obtain ⟨small, rfl⟩ := at_n
  have place : add32 (q * (s.nEntry + 1)) 2 = 2 + q * (s.nEntry + 1) := by
    rw [add32, Nat.mod_eq_of_lt (by omega), Nat.add_comm]
  rw [BtShared.ptrmapPageno, if_neg (by omega)]
  dsimp only
  rw [← nEntry, group, place]

private theorem isPtrmapPage (size : n < 2 ^ 32) : s.isPtrmapPage n = true ↔
    (2 + q * (s.nEntry + 1) = s.pendingBytePage ∧ r = 1) ∨
    (2 + q * (s.nEntry + 1) ≠ s.pendingBytePage ∧ r = 0) := by
  rw [BtShared.isPtrmapPage, decide_eq_true_eq, at_n.ptrmapPageno size, add32]
  obtain ⟨small, rfl⟩ := at_n
  split <;> omega

theorem ordinary (size : n < 2 ^ 32) : s.ordinary n = true ↔
    n ≠ s.pendingBytePage ∧ (2 + q * (s.nEntry + 1) = s.pendingBytePage → r ≠ 1) ∧
    (2 + q * (s.nEntry + 1) ≠ s.pendingBytePage → r ≠ 0) := by
  have map := at_n.isPtrmapPage size
  rw [BtShared.ordinary, Bool.and_eq_true, Bool.not_eq_true', ← Bool.not_eq_true, map]
  simp only [ne_eq, decide_not, Bool.not_eq_true', decide_eq_false_iff_not, not_or, not_and]
  tauto

end At

theorem ptrmapPageno_lt {n : Nat} (behind : 2 ≤ n) (small : n < 2 ^ 32)
    (ordinary : s.ordinary n = true) : s.ptrmapPageno n < n := by
  obtain ⟨q, r, at_n⟩ := exists_at (s := s) behind
  rw [at_n.ordinary small] at ordinary
  rw [at_n.ptrmapPageno small]
  obtain ⟨inside, n_eq⟩ := at_n
  rw [add32]
  split <;> omega

theorem not_isPtrmapPage_behind {n d : Nat} (behind : 2 ≤ n) (small : n + d < 2 ^ 32)
    (map : s.isPtrmapPage n = true) (near : 1 ≤ d ∧ d ≤ 2) : s.isPtrmapPage (n + d) = false := by
  obtain ⟨q, r, at_n⟩ := exists_at (s := s) behind
  have many := s.nEntry_bounds
  rw [at_n.isPtrmapPage (by omega)] at map
  obtain ⟨-, n_eq⟩ := at_n
  have at_d : s.At (n + d) q (r + d) := ⟨by omega, by omega⟩
  rw [← Bool.not_eq_true, at_d.isPtrmapPage small]
  omega

theorem ordinary_one : s.ordinary 1 = true ↔ s.pendingBytePage ≠ 1 := by
  have notMap : s.isPtrmapPage 1 = false := by simp [isPtrmapPage, ptrmapPageno]
  rw [ordinary, notMap, Bool.not_false, Bool.true_and, decide_eq_true_eq]
  exact ne_comm

private theorem ordinaryPages_succ (n : Nat) : s.ordinaryPages (n + 1) =
    s.ordinaryPages n + if s.ordinary (n + 1) then 1 else 0 := by
  rw [ordinaryPages, List.range'_concat, List.countP_append, List.countP_singleton, ordinaryPages]
  simp [Nat.add_comm 1 n]

private theorem ordinaryPages_one : s.ordinaryPages 1 = if s.pendingBytePage ≠ 1 then 1 else 0 := by
  rw [ordinaryPages_succ]
  simp [ordinaryPages, ordinary_one]

/-- Up to page `n` each group has lost one page to the map, and one is lost to the pending byte
unless it is in the place of the map page. -/
theorem At.ordinaryPages {n q r : Nat} (at_n : s.At n q r) (size : n < 2 ^ 32) :
    s.ordinaryPages n + (q + 1) + (if 1 ≤ s.pendingBytePage ∧ (s.pendingBytePage < n ∨
      (s.pendingBytePage = n ∧ r ≠ 0)) then 1 else 0) = n := by
  induction n generalizing q r with
  | zero =>
    obtain ⟨-, n_eq⟩ := at_n
    omega
  | succ n ih =>
    have ordinary := at_n.ordinary size
    have many := s.nEntry_bounds
    rw [ordinaryPages_succ]
    cases r with
    | succ r =>
      have before : s.At n q r := ⟨Nat.le_of_succ_le at_n.1, by have := at_n.2; omega⟩
      have sum := ih before (by omega)
      obtain ⟨small, n_eq⟩ := at_n
      simp only [ordinary]
      split at sum <;> split <;> split <;> omega
    | zero =>
      cases q with
      | zero =>
        obtain rfl : n = 1 := by
          have := at_n.2
          omega
        rw [ordinaryPages_one]
        simp only [ordinary]
        split <;> split <;> split <;> omega
      | succ q =>
        have before : s.At n q s.nEntry := by
          refine ⟨le_rfl, ?_⟩
          have := at_n.2
          rw [Nat.add_mul] at this
          omega
        have sum := ih before (by omega)
        obtain ⟨small, n_eq⟩ := at_n
        simp only [ordinary]
        split at sum <;> split <;> split <;> omega

variable {pgno : Nat}

private theorem skipBack_of_ordinary (ordinary : s.ordinary pgno = true) (rounds : Nat) :
    s.skipBack (rounds + 1) pgno = some pgno := by
  rw [BtShared.ordinary, Bool.and_eq_true, Bool.not_eq_true', decide_eq_true_eq] at ordinary
  rw [skipBack, if_neg (by simp [ordinary])]

private theorem skipBack_of_not_ordinary (lost : s.ordinary pgno = false) (behind : 1 ≤ pgno)
    (size : pgno < 2 ^ 32) (rounds : Nat) :
    s.skipBack (rounds + 1) pgno = s.skipBack rounds (pgno - 1) := by
  have one_less : sub32 pgno 1 = pgno - 1 := by
    rw [sub32]
    omega
  have lost' : s.isPtrmapPage pgno = true ∨ pgno = s.pendingBytePage := by
    rw [BtShared.ordinary, Bool.and_eq_false_iff] at lost
    simpa using lost
  rw [skipBack, if_pos lost', one_less]

private theorem skipBack_spec (some_page : 0 < s.ordinaryPages pgno) (size : pgno < 2 ^ 32) :
    ∃ nFin ≤ pgno, (∀ rounds ≥ pgno, s.skipBack rounds pgno = some nFin) ∧ 1 ≤ nFin ∧
      s.ordinary nFin = true ∧ s.ordinaryPages nFin = s.ordinaryPages pgno := by
  induction pgno with
  | zero => exact absurd some_page (by simp [ordinaryPages])
  | succ n ih =>
    cases ordinary : s.ordinary (n + 1) with
    | true =>
      refine ⟨n + 1, le_rfl, fun rounds enough => ?_, Nat.succ_pos n, ordinary, rfl⟩
      obtain ⟨rest, rfl⟩ : ∃ rest, rounds = rest + 1 := ⟨rounds - 1, by omega⟩
      exact skipBack_of_ordinary ordinary rest
    | false =>
      have same : s.ordinaryPages (n + 1) = s.ordinaryPages n := by
        simp [ordinaryPages_succ, ordinary]
      rw [same] at some_page ⊢
      obtain ⟨nFin, le, loop, rest⟩ := ih some_page (by omega)
      refine ⟨nFin, by omega, fun rounds enough => ?_, rest⟩
      obtain ⟨less, rfl⟩ : ∃ less, rounds = less + 1 := ⟨rounds - 1, by omega⟩
      rw [skipBack_of_not_ordinary ordinary (Nat.succ_pos n) size]
      exact loop less (by omega)

section

variable {nOrig nFree q r : Nat}

/-- The distance of the map page of the last group from the place for it. -/
def shift (s : BtShared) (q : Nat) : Nat :=
  if 2 + q * (s.nEntry + 1) = s.pendingBytePage then 1 else 0

private theorem shift_le_one (q : Nat) : s.shift q ≤ 1 := by
  rw [shift]
  split <;> omega

/-- What holds of the sizes: the last page is one behind the map page of its group, and fewer pages
are free than there are ordinary ones. -/
structure Sizes (s : BtShared) (nOrig nFree q r : Nat) : Prop where
  at_last : s.At nOrig q r
  size : nOrig < 2 ^ 32
  notPending : nOrig ≠ s.pendingBytePage
  behindMap : s.shift q < r
  few : nFree + (q + 1) + (if 1 ≤ s.pendingBytePage ∧ s.pendingBytePage < nOrig then 1 else 0) <
    nOrig

private theorem Sizes.of_last (at_last : s.At nOrig q r) (size : nOrig < 2 ^ 32)
    (ordinary : s.ordinary nOrig = true) (few : nFree < s.ordinaryPages nOrig) :
    Sizes s nOrig nFree q r where
  at_last := at_last
  size := size
  notPending := ((at_last.ordinary size).mp ordinary).1
  behindMap := by
    have ordinary := (at_last.ordinary size).mp ordinary
    have n_eq := at_last.2
    rw [shift]
    split <;> omega
  few := by
    have sum := at_last.ordinaryPages size
    split at sum <;> split <;> omega

variable (sizes : Sizes s nOrig nFree q r)

include sizes

private theorem Sizes.nPtrmap : add32 (add32 (sub32 nFree nOrig) (s.ptrmapPageno nOrig)) s.nEntry =
      nFree + s.nEntry + s.shift q - r ∧
    nFree + s.nEntry + s.shift q - r ≤ (q + 1) * s.nEntry := by
  obtain ⟨at_last, size, -, behindMap, few⟩ := sizes
  have bounds := s.nEntry_bounds
  have map : s.ptrmapPageno nOrig = 2 + q * (s.nEntry + 1) + s.shift q := by
    have n_eq := at_last.2
    rw [at_last.ptrmapPageno size, shift]
    split
    · rw [add32]
      omega
    · rfl
  obtain ⟨small, n_eq⟩ := at_last
  have expand : q * (s.nEntry + 1) = q * s.nEntry + q := by ring
  have expand' : (q + 1) * s.nEntry = q * s.nEntry + s.nEntry := by ring
  have le : nFree + s.nEntry + s.shift q - r ≤ (q + 1) * s.nEntry := by
    rw [shift] at behindMap ⊢
    split at few <;> split <;> omega
  -- with many groups a group has fewer entries than there are groups
  have bound : (q + 1) * s.nEntry < 2 ^ 32 := by
    rcases Nat.lt_or_ge q s.nEntry with fewGroups | manyGroups
    · calc (q + 1) * s.nEntry ≤ s.nEntry * s.nEntry := Nat.mul_le_mul_right _ fewGroups
        _ ≤ 13107 * 13107 := Nat.mul_le_mul bounds.2 bounds.2
        _ < 2 ^ 32 := by decide
    · omega
  refine ⟨?_, le⟩
  rw [map, add32, add32, sub32]
  omega

def correct (s : BtShared) (nOrig nFin : Nat) : Nat :=
  if nOrig > s.pendingBytePage ∧ nFin < s.pendingBytePage then nFin - 1 else nFin

variable {t u nFin : Nat}

private theorem Sizes.count_straight (straight : s.shift q = 0)
    (division : nFree + s.nEntry = s.nEntry * t + u + r) (rest : u < s.nEntry) (groups : t ≤ q + 1)
    (sum : nFin + t + nFree = nOrig) : 1 ≤ s.correct nOrig nFin ∧
    s.ordinaryPages (s.correct nOrig nFin) + nFree = s.ordinaryPages nOrig := by
  obtain ⟨at_last, size, notPending, -, few⟩ := sizes
  have total := at_last.ordinaryPages size
  have expand : q * (s.nEntry + 1) = q * s.nEntry + q := by ring
  have n_eq := at_last.2
  rcases Nat.lt_or_ge q t with all | notAll
  · -- nothing is left but page 1
    obtain rfl : t = q + 1 := by omega
    have expand' : s.nEntry * (q + 1) = q * s.nEntry + s.nEntry := by ring
    have one : s.correct nOrig nFin = 1 := by
      rw [correct]
      split at few <;> split <;> omega
    rw [one, ordinaryPages_one]
    split at few <;> split at total <;> split <;> omega
  · obtain ⟨q', rfl⟩ : ∃ q', q = q' + t := ⟨q - t, by omega⟩
    have expand' : (q' + t) * s.nEntry = q' * s.nEntry + s.nEntry * t := by ring
    have expand'' : q' * (s.nEntry + 1) = q' * s.nEntry + q' := by ring
    rw [correct]
    split
    · have at_nFin : s.At (nFin - 1) q' (s.nEntry - u - 1) := ⟨by omega, by omega⟩
      have left := at_nFin.ordinaryPages (by omega)
      split at total <;> split at left <;> omega
    · have at_nFin : s.At nFin q' (s.nEntry - u) := ⟨by omega, by omega⟩
      have left := at_nFin.ordinaryPages (by omega)
      split at total <;> split at left <;> omega

private theorem Sizes.count_displaced (displaced : s.shift q = 1)
    (division : nFree + s.nEntry + 1 = s.nEntry * t + u + r) (rest : u < s.nEntry)
    (groups : t ≤ q + 1) (sum : nFin + t + nFree = nOrig) : 1 ≤ s.correct nOrig nFin ∧
    s.ordinaryPages (s.correct nOrig nFin) + nFree = s.ordinaryPages nOrig := by
  obtain ⟨at_last, size, notPending, -, few⟩ := sizes
  have total := at_last.ordinaryPages size
  have expand : q * (s.nEntry + 1) = q * s.nEntry + q := by ring
  obtain ⟨small, n_eq⟩ := at_last
  have pending : s.pendingBytePage = 2 + q * (s.nEntry + 1) := by
    rw [shift] at displaced
    split at displaced <;> omega
  rw [if_pos (by omega)] at total few
  cases u with
  | zero =>
    -- the size is that of the place for a map page
    obtain ⟨t, rfl⟩ : ∃ t', t = t' + 1 := by
      refine Nat.exists_eq_succ_of_ne_zero ?_
      rintro rfl
      omega
    obtain ⟨q', rfl⟩ : ∃ q', q = q' + t := ⟨q - t, by omega⟩
    have expand' : (q' + t) * s.nEntry = q' * s.nEntry + s.nEntry * t := by ring
    have expand'' : q' * (s.nEntry + 1) = q' * s.nEntry + q' := by ring
    rw [Nat.mul_add, Nat.mul_one] at division
    have place : nFin = 2 + q' * (s.nEntry + 1) := by omega
    cases t with
    | zero =>
      have at_pending : s.At nFin q' 0 := ⟨Nat.zero_le _, place⟩
      have left := at_pending.ordinaryPages (by omega)
      rw [if_neg (by omega)] at left
      rw [correct, if_neg (by omega)]
      omega
    | succ t =>
      rw [correct, if_pos (by omega)]
      cases q' with
      | zero =>
        obtain rfl : nFin = 2 := by omega
        rw [ordinaryPages_one, if_pos (by omega)]
        omega
      | succ q' =>
        have expand''' : (q' + 1) * (s.nEntry + 1) = q' * (s.nEntry + 1) + s.nEntry + 1 := by ring
        have at_nFin : s.At (nFin - 1) q' s.nEntry := ⟨le_rfl, by omega⟩
        have left := at_nFin.ordinaryPages (by omega)
        rw [if_neg (by omega)] at left
        omega
  | succ u =>
    have notAll : t ≤ q := by
      rcases Nat.lt_or_ge q t with all | notAll
      · obtain rfl : t = q + 1 := by omega
        have expand' : s.nEntry * (q + 1) = q * s.nEntry + s.nEntry := by ring
        omega
      · exact notAll
    obtain ⟨q', rfl⟩ : ∃ q', q = q' + t := ⟨q - t, by omega⟩
    have expand' : (q' + t) * s.nEntry = q' * s.nEntry + s.nEntry * t := by ring
    have expand'' : q' * (s.nEntry + 1) = q' * s.nEntry + q' := by ring
    cases t with
    | zero =>
      have at_nFin : s.At nFin q' (s.nEntry - u) := ⟨by omega, by omega⟩
      have left := at_nFin.ordinaryPages (by omega)
      rw [correct, if_neg (by omega)]
      rw [if_pos (by omega)] at left
      omega
    | succ t =>
      have positive : s.nEntry * (t + 1) = s.nEntry * t + s.nEntry := by ring
      have at_nFin : s.At (nFin - 1) q' (s.nEntry - u - 1) := ⟨by omega, by omega⟩
      have left := at_nFin.ordinaryPages (by omega)
      rw [correct, if_pos (by omega)]
      rw [if_neg (by omega)] at left
      omega

private theorem Sizes.count :
    ∃ nFin ≤ nOrig, (∀ rounds, s.finalDbSize nOrig nFree rounds = s.skipBack rounds nFin) ∧
      s.ordinaryPages nFin + nFree = s.ordinaryPages nOrig := by
  obtain ⟨dividend, groups⟩ := sizes.nPtrmap
  have bounds := s.nEntry_bounds
  have positive : 0 < s.nEntry := by omega
  have size := sizes.size
  have few := sizes.few
  obtain ⟨small, n_eq⟩ := sizes.at_last
  have division := Nat.div_add_mod (nFree + s.nEntry + s.shift q - r) s.nEntry
  have rest := Nat.mod_lt (nFree + s.nEntry + s.shift q - r) positive
  have quotient : (nFree + s.nEntry + s.shift q - r) / s.nEntry ≤ q + 1 :=
    Nat.div_le_of_le_mul (by rwa [Nat.mul_comm])
  generalize t_eq : (nFree + s.nEntry + s.shift q - r) / s.nEntry = t at division quotient
  generalize (nFree + s.nEntry + s.shift q - r) % s.nEntry = u at division rest
  obtain ⟨nFin, sum⟩ : ∃ nFin, nFin + t + nFree = nOrig := ⟨nOrig - nFree - t, by omega⟩
  have right : 1 ≤ s.correct nOrig nFin ∧
      s.ordinaryPages (s.correct nOrig nFin) + nFree = s.ordinaryPages nOrig := by
    rcases Nat.eq_zero_or_pos (s.shift q) with straight | displaced
    · exact sizes.count_straight straight (by omega) rest quotient sum
    · have one : s.shift q = 1 := Nat.le_antisymm (shift_le_one q) displaced
      exact sizes.count_displaced one (by omega) rest quotient sum
  refine ⟨s.correct nOrig nFin, ?_, fun rounds => ?_, right.2⟩
  · rw [correct]
    split <;> omega
  · have left : sub32 (sub32 nOrig nFree) t = nFin := by
      rw [sub32, sub32]
      omega
    have corrected : (if nOrig > s.pendingBytePage ∧ nFin < s.pendingBytePage then sub32 nFin 1
        else nFin) = s.correct nOrig nFin := by
      have one_more := right.1
      rw [correct] at one_more ⊢
      split
      · rw [sub32]
        omega
      · rfl
    rw [finalDbSize]
    simp [dividend, t_eq, left, corrected]

end

private theorem finalDbSize_one (rounds : Nat) : s.finalDbSize 1 0 rounds = s.skipBack rounds
    1 := by
  have bounds := s.nEntry_bounds
  have none_freed : add32 (add32 (sub32 0 1) (s.ptrmapPageno 1)) s.nEntry / s.nEntry = 0 := by
    refine Nat.div_eq_of_lt ?_
    rw [ptrmapPageno, if_pos (by decide), add32, add32, sub32]
    omega
  rw [finalDbSize]
  simp only [none_freed]
  rw [if_neg (by simp [sub32]; omega)]
  rfl

end BtShared

/-- The size is that of the database without its free pages: it ends with an ordinary page, and has
as many ordinary pages fewer as there were free ones. -/
theorem finalDbSize_exact (s : BtShared) (nOrig nFree : Nat) (size : nOrig < 2 ^ 32)
    (notMap : s.isPtrmapPage nOrig = false) (notPending : nOrig ≠ s.pendingBytePage)
    (few : nFree < s.ordinaryPages nOrig) :
    ∃ nFin, (∀ rounds ≥ nOrig, s.finalDbSize nOrig nFree rounds = some nFin) ∧
      1 ≤ nFin ∧ nFin ≤ nOrig ∧ s.isPtrmapPage nFin = false ∧ nFin ≠ s.pendingBytePage ∧
      s.ordinaryPages nFin = s.ordinaryPages nOrig - nFree := by
  have ordinary : s.ordinary nOrig = true := by
    simp [BtShared.ordinary, notMap, notPending]
  obtain ⟨start, le, loop, count⟩ : ∃ start ≤ nOrig,
      (∀ rounds, s.finalDbSize nOrig nFree rounds = s.skipBack rounds start) ∧
        s.ordinaryPages start + nFree = s.ordinaryPages nOrig := by
    rcases Nat.lt_or_ge nOrig 2 with small | large
    · obtain rfl : nOrig = 1 := by
        refine Nat.le_antisymm (Nat.le_of_lt_succ small) (Nat.pos_of_ne_zero ?_)
        rintro rfl
        exact absurd few (by simp [BtShared.ordinaryPages])
      obtain rfl : nFree = 0 := by
        rw [BtShared.ordinaryPages_one] at few
        split at few <;> omega
      exact ⟨1, Nat.le_refl 1, BtShared.finalDbSize_one, rfl⟩
    · obtain ⟨q, r, at_last⟩ := BtShared.exists_at large
      exact (BtShared.Sizes.of_last at_last size ordinary few).count
  have some_page : 0 < s.ordinaryPages start := by omega
  obtain ⟨nFin, le', back, positive, last, same⟩ := BtShared.skipBack_spec some_page (by omega)
  rw [BtShared.ordinary, Bool.and_eq_true, Bool.not_eq_true', decide_eq_true_eq] at last
  refine ⟨nFin, fun rounds enough => ?_, positive, by omega, last.1, last.2, by omega⟩
  rw [loop, back rounds (by omega)]

theorem small_page_low : 480 ≤ 512 := by decide

theorem small_page_high : 512 ≤ 65536 := by decide

/-- Pages of 512 bytes; the file ends six pages behind the page of the pending byte, which is in the
last group but not in the place of its map page. -/
def beyondPending : BtShared := ⟨512, small_page_low, small_page_high, 110⟩

theorem finalDbSize_exact_beyondPending :
    ∃ nFin, (∀ rounds ≥ 116, beyondPending.finalDbSize 116 10 rounds = some nFin) ∧
      1 ≤ nFin ∧ nFin ≤ 116 ∧ beyondPending.isPtrmapPage nFin = false ∧ nFin ≠ 110 ∧
      beyondPending.ordinaryPages nFin = beyondPending.ordinaryPages 116 - 10 :=
  finalDbSize_exact beyondPending 116 10 (by decide) (by decide) (by decide) (by decide +kernel)

end PageCount

end SeSqlite.Btree
