/- source: src/btree.c
   digest: The pages that are taken from the list of free pages are what the filling of a cell
   relies on. -/
import SeSqlite.Btree.FreeList
import SeSqlite.Btree.PayloadFill

set_option autoImplicit false
set_option relaxedAutoImplicit false

namespace SeSqlite.Btree

open Bytes Lib.UnrolledList List

namespace FreeList.BtShared

/-- The words on the pages fit into four bytes each. -/
def Small (s : BtShared) : Prop := ∀ p w, s.page p w < 2 ^ 32

variable {s s' : BtShared} {pgno nearby : Nat} {eMode : Mode}

private theorem Small.put4byte (small : s.Small) (p w : Nat) {value : Nat}
    (fits : value < 2 ^ 32) : (s.put4byte p w value).Small := by
  intro p' w'
  simp only [BtShared.put4byte, put]
  split
  · exact fits
  · exact small p' w'

private theorem Small.setLink (small : s.Small) (prevTrunk : Option Nat) {value : Nat}
    (fits : value < 2 ^ 32) : (s.setLink prevTrunk value).Small := by
  cases prevTrunk with
  | none => exact small.put4byte 1 8 fits
  | some p => exact small.put4byte p 0 fits

private theorem Small.takeTrunk (small : s.Small) {prevTrunk : Option Nat} {iTrunk k : Nat}
    (fits : k < 2 ^ 32) (eq : s.takeTrunk prevTrunk iTrunk k = some s') : s'.Small := by
  rw [BtShared.takeTrunk] at eq
  split at eq
  · cases eq
    exact small.setLink _ (small iTrunk 0)
  · dsimp only at eq
    split at eq
    · cases eq
    · split at eq
      · cases eq
        refine Small.setLink (fun p w => ?_) _ (small iTrunk 2)
        dsimp only
        split_ifs
        · exact small iTrunk 0
        · omega
        · exact small iTrunk (w + 1)
        · exact small p w
        · exact small p w
      · cases eq

private theorem Small.takeLeaf (small : s.Small) (iTrunk closest : Nat) {k : Nat}
    (fits : k < 2 ^ 32) : (s.takeLeaf iTrunk k closest).Small := by
  rw [BtShared.takeLeaf]
  refine Small.put4byte ?_ _ _ (by omega)
  split
  · exact small.put4byte _ _ (small iTrunk (1 + k))
  · exact small

private theorem Small.allocateFrom (small : s.Small) {searchList : Bool} {bound : Nat}
    {prevTrunk : Option Nat}
    (eq : s.allocateFrom nearby eMode searchList bound prevTrunk = some (pgno, s')) :
    s'.Small := by
  induction bound generalizing prevTrunk with
  | zero => cases eq
  | succ bound ih =>
    rw [BtShared.allocateFrom] at eq
    dsimp only at eq
    generalize s.getLink prevTrunk = iTrunk at eq
    have count := small iTrunk 1
    split at eq
    · cases eq
    split at eq
    · cases eq
      exact small.put4byte 1 8 (small pgno 0)
    split at eq
    · cases eq
    split at eq
    · obtain ⟨taken, call, same⟩ := Option.map_eq_some_iff.mp eq
      cases same
      exact small.takeTrunk count call
    split at eq
    · split at eq
      · cases eq
      split at eq
      · split at eq
        · cases eq
          exact small.takeLeaf iTrunk _ count
        · cases eq
      · exact ih eq
    · exact ih eq

private theorem Small.allocateBtreePage (small : s.Small)
    (eq : s.allocateBtreePage nearby eMode = some (pgno, s')) : s'.Small := by
  rw [BtShared.allocateBtreePage] at eq
  split at eq
  · cases eq
  split at eq
  · obtain ⟨searchList, -, walked⟩ := Option.bind_eq_some_iff.mp eq
    have count := small 1 9
    exact (small.put4byte 1 9 (by omega)).allocateFrom walked
  · rw [BtShared.appendPage] at eq
    dsimp only at eq
    generalize s.skipPending (s.nPage + 1) = p at eq
    generalize (if (s.autoVacuum && s.isPtrmapPage p) = true then s.skipPending (p + 1)
      else p) = q at eq
    split at eq
    · cases eq
    split at eq
    · rename_i got
      simp only [BtShared.canGet, decide_eq_true_eq] at got
      cases eq
      exact small.put4byte 1 7 (got.2.1.trans_lt (by decide))
    · cases eq

end FreeList.BtShared

namespace Payload

/-- The word at offset `4 w` of a page. -/
def wordsOf (page : Nat → UInt8) (w : Nat) : Nat := get4byte page (4 * w)

def bytesOf (words : Nat → Nat) (i : Nat) : UInt8 :=
  (sqlite3Put4byte (words (i / 4))).getD (i % 4) 0

private theorem wordsOf_lt (page : Nat → UInt8) (w : Nat) : wordsOf page w < 2 ^ 32 := by
  simp only [wordsOf, get4byte, sqlite3Get4byte]
  have a := (page (4 * w)).toNat_lt
  have b := (page (4 * w + 1)).toNat_lt
  have c := (page (4 * w + 2)).toNat_lt
  have d := (page (4 * w + 3)).toNat_lt
  omega

private theorem wordsOf_bytesOf {words : Nat → Nat} {w : Nat} (small : words w < 2 ^ 32) :
    wordsOf (bytesOf words) w = words w := by
  have place : ∀ r < 4, (4 * w + r) / 4 = w ∧ (4 * w + r) % 4 = r := by omega
  have read := get4byte_put4byte small []
  rw [append_nil] at read
  rw [wordsOf, get4byte, ← read]
  simp only [bytesOf]
  rw [(place 1 (by omega)).1, (place 1 (by omega)).2, (place 2 (by omega)).1,
    (place 2 (by omega)).2, (place 3 (by omega)).1, (place 3 (by omega)).2,
    Nat.mul_div_cancel_left w (by omega), Nat.mul_mod_right]
  rw [read]
  exact read

private theorem bytesOf_wordsOf (page : Nat → UInt8) : bytesOf (wordsOf page) = page := by
  have whole : ∀ a b c d : UInt8, sqlite3Put4byte (sqlite3Get4byte [a, b, c, d]) =
      [a, b, c, d] := by
    intro a b c d
    have := a.toNat_lt
    have := b.toNat_lt
    have := c.toNat_lt
    have := d.toNat_lt
    simp only [sqlite3Put4byte, sqlite3Get4byte, cons.injEq, and_true, ← UInt8.toNat_inj,
      UInt8.toNat_ofNat']
    omega
  funext i
  rw [bytesOf, wordsOf, get4byte, whole]
  have parts := Nat.div_add_mod i 4
  have small := Nat.mod_lt i (show 0 < 4 by omega)
  generalize i / 4 = q at parts
  generalize i % 4 = r at parts small
  subst parts
  obtain rfl | rfl | rfl | rfl : r = 0 ∨ r = 1 ∨ r = 2 ∨ r = 3 := by omega
  all_goals rfl

section

variable (bt : BtShared) (secureDelete : Bool) (mxPgno : Nat)

/-- The pages as the allocation sees them. -/
def words (db : Db) : FreeList.BtShared where
  toBtShared := bt.toBtShared
  autoVacuum := bt.autoVacuum
  secureDelete := secureDelete
  mxPgno := mxPgno
  nPage := db.nPage
  page := fun p => wordsOf (db.page p)
  ptrmap := db.ptrmap

def bytes (s : FreeList.BtShared) : Db := ⟨s.nPage, fun p => bytesOf (s.page p), s.ptrmap⟩

def allocateBtreePage (db : Db) (nearby : Nat) : Option (Nat × Db) :=
  ((words bt secureDelete mxPgno db).allocateBtreePage nearby .any).map fun given =>
    (given.1, bytes given.2)

/-- The list of free pages is well formed, and no page in use is on it. -/
def FreeListHolds (db : Db) (used : Finset Nat) : Prop :=
  ∃ ts, FreeList.Lists (words bt secureDelete mxPgno db) ts ∧
    ∀ p ∈ used, p ≠ 1 ∧ p ≤ db.nPage ∧ p ∉ members ts

variable {bt secureDelete mxPgno} {db db' : Db} {used : Finset Nat} {nearby pgno : Nat}

private theorem words_bytes (db : Db) {page : Mem} (small : ∀ p w, page p w < 2 ^ 32)
    (nPage : Nat) :
    words bt secureDelete mxPgno
        (bytes { words bt secureDelete mxPgno db with nPage := nPage, page := page }) =
      { words bt secureDelete mxPgno db with nPage := nPage, page := page } := by
  have back : (fun p => wordsOf (bytesOf (page p))) = page :=
    funext₂ fun p w => wordsOf_bytesOf (small p w)
  simp only [words, bytes, back]

private theorem ordinary_of_usable (usable : (words bt secureDelete mxPgno db).Usable pgno)
    (auto : bt.autoVacuum = true) : bt.ordinary pgno = true := by
  obtain ⟨-, -, notPending, notMap⟩ := usable
  have notPending' : pgno ≠ bt.pendingBytePage := notPending
  have notMap' : bt.isPtrmapPage pgno = false := notMap auto
  simp [PageCount.BtShared.ordinary, notMap', notPending']

private theorem FreeListHolds.grants (holds : FreeListHolds bt secureDelete mxPgno db used)
    (call : allocateBtreePage bt secureDelete mxPgno db nearby = some (pgno, db')) :
    Granted bt db used pgno db' ∧
      FreeListHolds bt secureDelete mxPgno db' (insert pgno used) := by
  obtain ⟨ts, lists, apart⟩ := holds
  obtain ⟨⟨pgno, s'⟩, given, same⟩ := Option.map_eq_some_iff.mp call
  cases same
  have small := FreeList.BtShared.Small.allocateBtreePage (fun p w => wordsOf_lt _ w) given
  rcases lists.allocate given with ⟨page, ts', rfl, lists', perm, kept⟩ | appended
  · have listed : pgno ∈ members ts := perm.mem_iff.mpr mem_cons_self
    have usable := lists.usable pgno listed
    have nodup := perm.nodup_iff.mp lists.nodup
    refine ⟨⟨⟨usable.1, usable.2.1.trans lists.size.2⟩,
      fun member => (apart pgno member).2.2 listed, ordinary_of_usable usable,
      fun p member => ?_, fun _ g _ inside _ => ⟨inside, rfl⟩⟩, ts', ?_, fun p member => ?_⟩
    · obtain ⟨other, -, unlisted⟩ := apart p member
      change bytesOf (page p) = db.page p
      rw [kept p other unlisted]
      exact bytesOf_wordsOf (db.page p)
    · rw [words_bytes db small]
      exact lists'
    · rcases Finset.mem_insert.mp member with rfl | before
      · exact ⟨usable.1.ne', usable.2.1, (nodup_cons.mp nodup).1⟩
      · obtain ⟨other, inside, unlisted⟩ := apart p before
        exact ⟨other, inside, fun left => unlisted (perm.mem_iff.mpr (mem_cons_of_mem _ left))⟩
  · obtain ⟨-, lists', rfl, behind, notPending, notMap, between⟩ := appended
    have first := lists.size.1
    have beyond : ∀ p ∈ used, p < pgno := fun p member => (apart p member).2.1.trans_lt behind
    have usable : (words bt secureDelete mxPgno { db with nPage := pgno }).Usable pgno :=
      ⟨by omega, le_rfl, notPending, notMap⟩
    refine ⟨⟨⟨usable.1, lists'.size.2⟩, fun member => (beyond pgno member).ne rfl,
      ordinary_of_usable usable, fun p member => ?_, fun _ g other inside ordinary => ⟨?_, rfl⟩⟩,
      [], ?_, fun p member => ?_⟩
    · have put_same_page : put (words bt secureDelete mxPgno db).page 1 7 pgno p =
          wordsOf (db.page p) := funext fun w => put_other_block (apart p member).1
      change bytesOf (put _ 1 7 pgno p) = db.page p
      rw [put_same_page]
      exact bytesOf_wordsOf (db.page p)
    · by_contra above
      have less : g < pgno := lt_of_le_of_ne inside other
      exact absurd (ordinary.symm.trans (between g (Nat.not_le.mp above) less)) (by decide)
    · exact (words_bytes db small pgno).symm ▸ lists'
    · rcases Finset.mem_insert.mp member with rfl | before
      · exact ⟨usable.1.ne', le_rfl, not_mem_nil⟩
      · exact ⟨(apart p before).1, (beyond p before).le, not_mem_nil⟩

private theorem FreeListHolds.keeps (holds : FreeListHolds bt secureDelete mxPgno db used)
    (size : db'.nPage = db.nPage)
    (same : ∀ p ∉ used, db'.page p = db.page p ∧ db'.ptrmap p = db.ptrmap p) :
    FreeListHolds bt secureDelete mxPgno db' used := by
  obtain ⟨ts, lists, apart⟩ := holds
  obtain ⟨nPage, page, ptrmap⟩ := db'
  subst size
  have first : page 1 = db.page 1 := (same 1 fun member => (apart 1 member).1 rfl).1
  have free : ∀ p ∈ members ts, page p = db.page p ∧ ptrmap p = db.ptrmap p :=
    fun p listed => same p fun member => (apart p member).2.2 listed
  refine ⟨ts, ⟨lists.toShape.frame ?_ (fun t listed w => ?_) fun p listed => ?_, ?_⟩, apart⟩
  · exact congrArg (fun bytes => wordsOf bytes 8) first
  · exact congrArg (fun bytes => wordsOf bytes w) (free t.1 (mem_members_block listed)).1
  · exact congrArg Prod.fst (free p listed).2
  · exact (congrArg (fun bytes => wordsOf bytes 9) first).trans lists.count

variable (bt secureDelete mxPgno)

/-- `allocateBtreePage` on the list of free pages is an allocator as the filling of cells needs. -/
def freeListAllocator : Allocator bt where
  allocate := allocateBtreePage bt secureDelete mxPgno
  Holds := FreeListHolds bt secureDelete mxPgno
  grants := FreeListHolds.grants
  keeps := FreeListHolds.keeps

end

end Payload

end SeSqlite.Btree
