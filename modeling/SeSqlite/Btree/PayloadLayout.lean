/- source: src/btree.c
   digest: Where the bytes of a payload stand, and what leaves a cell and its chain as they are. -/
import SeSqlite.Btree.Payload
import SeSqlite.Lib.Scatter

set_option autoImplicit false
set_option relaxedAutoImplicit false

namespace SeSqlite.Btree.Payload

open Btree.PageCount Bytes Lib.Scatter Varint MemPage

section

variable {mem : Nat → UInt8} {offset i v : Nat} {bytes : List UInt8}

theorem memcpy_inside {k : Nat} (inside : k < bytes.length) :
    memcpy mem offset bytes (offset + k) = bytes[k] := by
  rw [memcpy, if_pos ⟨by omega, by omega⟩, Nat.add_sub_cancel_left,
    List.getD_eq_getElem _ _ inside]

theorem memcpy_outside (outside : i < offset ∨ offset + bytes.length ≤ i) :
    memcpy mem offset bytes i = mem i := by
  rw [memcpy, if_neg (by omega)]

theorem get4byte_congr {mem' : Nat → UInt8} {offset' : Nat}
    (same : ∀ k < 4, mem' (offset' + k) = mem (offset + k)) :
    get4byte mem' offset' = get4byte mem offset := by
  have zero := same 0 (by decide)
  rw [Nat.add_zero, Nat.add_zero] at zero
  rw [get4byte, get4byte, zero, same 1 (by decide), same 2 (by decide), same 3 (by decide)]

theorem get4byte_memcpy (small : v < 2 ^ 32) :
    get4byte (memcpy mem offset (sqlite3Put4byte v)) offset = v := by
  have stands (k : Nat) (inside : k < 4) :
      memcpy mem offset (sqlite3Put4byte v) (offset + k) = (sqlite3Put4byte v)[k] :=
    memcpy_inside inside
  have first := stands 0 (by decide)
  rw [Nat.add_zero] at first
  rw [get4byte, first, stands 1 (by decide), stands 2 (by decide), stands 3 (by decide)]
  exact get4byte_put4byte small []

def Db.byte (db : Db) (spot : Nat × Nat) : UInt8 := db.page spot.1 spot.2

theorem Db.page_memcpy_other (db : Db) {pgno pgno' : Nat} (other : pgno' ≠ pgno) (offset : Nat)
    (bytes : List UInt8) : (db.memcpy pgno offset bytes).page pgno' = db.page pgno' :=
  Function.update_of_ne other _ _

theorem Db.page_memcpy_same (db : Db) (pgno offset : Nat) (bytes : List UInt8) :
    (db.memcpy pgno offset bytes).page pgno = Payload.memcpy (db.page pgno) offset bytes :=
  Function.update_self _ _ _

theorem Db.overwritten_memcpy {db : Db} {loc : Nat → Nat × Nat} {pgno : Nat}
    (consecutive : ∀ k < bytes.length, loc (i + k) = (pgno, offset + k)) :
    Overwritten db.byte (db.memcpy pgno offset bytes).byte loc i bytes := by
  refine ⟨fun k inside => ?_, fun spot outside => ?_⟩
  · rw [consecutive k inside, Db.byte, db.page_memcpy_same]
    exact memcpy_inside inside
  · rw [Db.byte, Db.byte]
    rcases eq_or_ne spot.1 pgno with same | other
    · rw [same, db.page_memcpy_same]
      refine memcpy_outside ?_
      by_contra inside
      have less : spot.2 - offset < bytes.length := by omega
      refine outside (spot.2 - offset) less ?_
      rw [consecutive _ less, ← same]
      have number : offset + (spot.2 - offset) = spot.2 := by omega
      rw [number]
    · rw [db.page_memcpy_other other]

variable {p p' : Nat → UInt8}

theorem getFrom_congr {rounds : Nat}
    (same : ∀ k, i ≤ k → k < (getFrom p rounds i v).2 → p' k = p k) :
    getFrom p' rounds i v = getFrom p rounds i v ∧ i < (getFrom p rounds i v).2 := by
  induction rounds generalizing i v with
  | zero =>
    have here := same i (Nat.le_refl i) (by simp [getFrom])
    rw [getFrom, here]
    exact ⟨rfl, Nat.lt_succ_self i⟩
  | succ rounds ih =>
    have next : getFrom p (rounds + 1) i v = if (p i).toNat < 2 ^ 7 then
        (v * 2 ^ 7 + (p i).toNat, i + 1)
        else getFrom p rounds (i + 1) (v * 2 ^ 7 + (p i).toNat % 2 ^ 7) := rfl
    rw [next] at same ⊢
    split at same
    · rename_i low
      have here := same i (Nat.le_refl i) (Nat.lt_succ_self i)
      rw [getFrom, here, if_pos low, if_pos low]
      exact ⟨rfl, Nat.lt_succ_self i⟩
    · rename_i high
      obtain ⟨rest, behind⟩ := ih fun k from_i inside => same k (by omega) inside
      have here := same i (Nat.le_refl i) (by omega)
      rw [getFrom, here, if_neg high, if_neg high]
      exact ⟨rest, by omega⟩

theorem getVarint_congr (same : ∀ k < (sqlite3GetVarint p).2, p' k = p k) :
    sqlite3GetVarint p' = sqlite3GetVarint p :=
  (getFrom_congr fun k _ inside => same k inside).1

theorem getVarint32_congr (same : ∀ k < (getVarint32 p).2, p' k = p k) :
    getVarint32 p' = getVarint32 p := by
  rw [getVarint32, getVarint_congr same]
  rfl

variable {bt : BtShared} {page : MemPage} {nPayload : Nat}

theorem parse_data (intKey : page.intKey = true) (data : page.hasData = true)
    (pCell : Nat → UInt8) : btreeParseCellPtr bt page pCell =
    let (nPayload, n) := getVarint32 pCell
    let (key, more) := sqlite3GetVarint fun i => pCell (n + i)
    page.cellInfo bt (i64 key) nPayload nPayload (n + more) := by
  rw [btreeParseCellPtr, if_pos intKey, if_pos data]

theorem parse_key (intKey : page.intKey = true) (data : page.hasData = false)
    (pCell : Nat → UInt8) : btreeParseCellPtr bt page pCell =
    let (key, more) := sqlite3GetVarint fun i => pCell (page.childPtrSize + i)
    page.cellInfo bt (i64 key) 0 0 (page.childPtrSize + more) := by
  rw [btreeParseCellPtr, if_pos intKey, data, if_neg (by decide)]

theorem parse_index (index : page.intKey = false) (pCell : Nat → UInt8) :
    btreeParseCellPtr bt page pCell =
    let (nPayload, more) := getVarint32 fun i => pCell (page.childPtrSize + i)
    page.cellInfo bt nPayload 0 nPayload (page.childPtrSize + more) := by
  rw [btreeParseCellPtr, index, if_neg (by decide)]

theorem childPtrSize_of_data (data : page.hasData = true) : page.childPtrSize = 0 := by
  rw [hasData, Bool.and_eq_true] at data
  rw [childPtrSize, if_pos data.2]

theorem parse_congr {pCell pCell' : Nat → UInt8}
    (same : ∀ k, page.childPtrSize ≤ k → k < (btreeParseCellPtr bt page pCell).nHeader →
      pCell' k = pCell k) : btreeParseCellPtr bt page pCell' = btreeParseCellPtr bt page pCell := by
  cases intKey : page.intKey with
  | true =>
    cases data : page.hasData with
    | true =>
      rw [parse_data intKey data] at same ⊢
      have leaf := childPtrSize_of_data data
      dsimp only [cellInfo] at same
      have first := getVarint32_congr fun k inside => same k (by omega) (by omega)
      have second : sqlite3GetVarint (fun i => pCell' ((getVarint32 pCell).2 + i)) =
          sqlite3GetVarint (fun i => pCell ((getVarint32 pCell).2 + i)) :=
        getVarint_congr fun k inside => same _ (by omega) (by omega)
      rw [parse_data intKey data, first]
      dsimp only
      rw [second]
    | false =>
      rw [parse_key intKey data] at same ⊢
      dsimp only [cellInfo] at same
      have second : sqlite3GetVarint (fun i => pCell' (page.childPtrSize + i)) =
          sqlite3GetVarint (fun i => pCell (page.childPtrSize + i)) :=
        getVarint_congr fun k inside => same _ (by omega) (by omega)
      rw [parse_key intKey data, second]
  | false =>
    rw [parse_index intKey] at same ⊢
    dsimp only [cellInfo] at same
    have first : getVarint32 (fun i => pCell' (page.childPtrSize + i)) =
        getVarint32 (fun i => pCell (page.childPtrSize + i)) :=
      getVarint32_congr fun k inside => same _ (by omega) (by omega)
    rw [parse_index intKey, first]

theorem parse_eq (bt : BtShared) (page : MemPage) (pCell : Nat → UInt8) : ∃ nKey nData nPayload n,
    btreeParseCellPtr bt page pCell = page.cellInfo bt nKey nData nPayload n ∧
    (if page.intKey then 0 else nKey.toNat) + nData = nPayload := by
  cases intKey : page.intKey with
  | true =>
    cases data : page.hasData with
    | true => exact ⟨_, _, _, _, parse_data intKey data pCell, Nat.zero_add _⟩
    | false => exact ⟨_, _, _, _, parse_key intKey data pCell, Nat.zero_add _⟩
  | false => exact ⟨_, _, _, _, parse_index intKey pCell, rfl⟩

theorem childPtrSize_le_nHeader (bt : BtShared) (page : MemPage) (pCell : Nat → UInt8) :
    page.childPtrSize ≤ (btreeParseCellPtr bt page pCell).nHeader := by
  cases intKey : page.intKey with
  | true =>
    cases data : page.hasData with
    | true =>
      rw [childPtrSize_of_data data]
      exact Nat.zero_le _
    | false =>
      rw [parse_key intKey data]
      exact Nat.le_add_right _ _
  | false =>
    rw [parse_index intKey]
    exact Nat.le_add_right _ _

variable (bt : BtShared) (page : MemPage)

theorem BtShared.ovflSize_pos : 0 < bt.ovflSize := by
  have low := bt.low
  rw [ovflSize]
  omega

theorem MemPage.bounds : 0 < page.minLocal bt ∧ page.minLocal bt ≤ page.maxLocal bt ∧
    page.maxLocal bt + 35 ≤ bt.usableSize := by
  have low := bt.low
  unfold minLocal maxLocal
  split
  · simp only [BtShared.minLeaf, BtShared.maxLeaf]
    omega
  · simp only [BtShared.minLocal, BtShared.maxLocal]
    omega

theorem MemPage.nLocal_le_maxLocal (nPayload : Nat) :
    page.nLocal bt nPayload ≤ page.maxLocal bt := by
  have bounds := page.bounds bt
  unfold nLocal
  dsimp only
  split
  · assumption
  · split
    · assumption
    · exact bounds.2.1

theorem MemPage.nLocal_of_large (large : page.maxLocal bt < nPayload) :
    0 < page.nLocal bt nPayload ∧ page.nLocal bt nPayload < nPayload := by
  have bounds := page.bounds bt
  have most := page.nLocal_le_maxLocal bt nPayload
  refine ⟨?_, by omega⟩
  unfold nLocal
  dsimp only
  rw [if_neg (by omega)]
  split <;> omega

theorem MemPage.nLocal_of_small (small : nPayload ≤ page.maxLocal bt) :
    page.nLocal bt nPayload = nPayload := by
  rw [nLocal, if_pos small]

theorem MemPage.nLocal_le (nPayload : Nat) : page.nLocal bt nPayload ≤ nPayload := by
  rcases Nat.lt_or_ge (page.maxLocal bt) nPayload with large | small
  · exact Nat.le_of_lt (page.nLocal_of_large bt large).2
  · rw [page.nLocal_of_small bt small]

def nOvfl (nPayload : Nat) : Nat :=
  (nPayload - page.nLocal bt nPayload + bt.ovflSize - 1) / bt.ovflSize

theorem nOvfl_room (nPayload : Nat) :
    nPayload ≤ page.nLocal bt nPayload + nOvfl bt page nPayload * bt.ovflSize := by
  have pos := bt.ovflSize_pos
  rw [nOvfl]
  have division := Nat.div_add_mod'
    (nPayload - page.nLocal bt nPayload + bt.ovflSize - 1) bt.ovflSize
  have rest := Nat.mod_lt (nPayload - page.nLocal bt nPayload + bt.ovflSize - 1) pos
  omega

end

section

variable {bt : BtShared} {n : Nat}

/-- Two pages in a row that are of the pointer map or of the pending byte are followed by one that
is neither. -/
theorem ordinary_third (behind : 1 ≤ n) (small : n + 2 < 2 ^ 32) (first : ¬ bt.ordinary n = true)
    (second : ¬ bt.ordinary (n + 1) = true) : bt.ordinary (n + 2) = true := by
  have many := bt.nEntry_bounds
  rcases Nat.lt_or_ge n 2 with page_one | behind
  · obtain rfl : n = 1 := by omega
    have pending : bt.pendingBytePage = 1 := by
      rw [PageCount.BtShared.ordinary_one] at first
      omega
    have at_3 : bt.At 3 0 1 := ⟨by omega, by omega⟩
    rw [at_3.ordinary small]
    omega
  obtain ⟨q, r, at_n⟩ := PageCount.BtShared.exists_at (s := bt.toBtShared) behind
  rw [at_n.ordinary (by omega)] at first
  obtain ⟨inside, n_eq⟩ := at_n
  have next_group : (q + 1) * (bt.nEntry + 1) = q * (bt.nEntry + 1) + (bt.nEntry + 1) :=
    Nat.succ_mul _ _
  -- the group of the map that the second and the third page are in
  rcases Nat.lt_trichotomy (r + 1) bt.nEntry with less | last | more
  · have at_1 : bt.At (n + 1) q (r + 1) := ⟨by omega, by omega⟩
    have at_2 : bt.At (n + 2) q (r + 2) := ⟨by omega, by omega⟩
    rw [at_1.ordinary (by omega)] at second
    rw [at_2.ordinary small]
    omega
  · have at_1 : bt.At (n + 1) q (r + 1) := ⟨by omega, by omega⟩
    have at_2 : bt.At (n + 2) (q + 1) 0 := ⟨by omega, by omega⟩
    rw [at_1.ordinary (by omega)] at second
    omega
  · have at_2 : bt.At (n + 2) (q + 1) 1 := ⟨by omega, by omega⟩
    rw [at_2.ordinary small]
    omega

theorem skipForward_succ (rounds n : Nat) : bt.skipForward (rounds + 1) n =
    if bt.ordinary n = true then some n else bt.skipForward rounds (add32 n 1) := by
  rw [BtShared.skipForward, PageCount.BtShared.ordinary]
  by_cases map : bt.isPtrmapPage n = true
  · simp [map]
  · by_cases pending : n = bt.pendingBytePage <;> simp [map]

theorem skipForward_spec (bt : BtShared) (behind : 1 ≤ n) (small : n + 2 < 2 ^ 32) :
    ∃ found, bt.skipForward 3 n = some found ∧ n ≤ found ∧ found ≤ n + 2 ∧
      bt.ordinary found = true ∧ ∀ g, n ≤ g → g < found → bt.ordinary g ≠ true := by
  have next (n : Nat) (size : n + 1 < 2 ^ 32) : add32 n 1 = n + 1 := by
    rw [add32, Nat.mod_eq_of_lt size]
  rw [skipForward_succ]
  split
  · rename_i ordinary
    exact ⟨n, rfl, le_rfl, by omega, ordinary, fun g low high => by omega⟩
  · rename_i first
    rw [next n (by omega), skipForward_succ]
    split
    · rename_i ordinary
      refine ⟨n + 1, rfl, by omega, by omega, ordinary, fun g low high => ?_⟩
      obtain rfl : g = n := by omega
      exact first
    · rename_i second
      have third := ordinary_third behind small first second
      rw [next (n + 1) (by omega), skipForward_succ, if_pos third]
      refine ⟨n + 2, rfl, by omega, le_rfl, third, fun g low high => ?_⟩
      rcases Nat.lt_or_ge g (n + 1) with before | behind
      · obtain rfl : g = n := by omega
        exact first
      · obtain rfl : g = n + 1 := by omega
        exact second

end

end SeSqlite.Btree.Payload
