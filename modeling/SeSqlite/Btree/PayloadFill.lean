/- source: src/btree.c
   digest: A filled cell holds its key or data and the zeros behind it, and every part of that can
   be read back and written, in any run. -/
import Mathlib.Data.Finset.Dedup
import Mathlib.Data.Finset.Lattice.Basic
import SeSqlite.Btree.PayloadAccess

set_option autoImplicit false
set_option relaxedAutoImplicit false

namespace SeSqlite.Btree.Payload

open Btree.PageCount Bytes Lib.Scatter List Option Fill

/-- A page is given that was not in use, and the pages in use and the other entries of the pointer
map are kept. -/
structure Granted (bt : BtShared) (db : Db) (used : Finset Nat) (pgno : Nat) (db' : Db) :
    Prop where
  number : 1 < pgno ∧ pgno ≤ pagerMaxPgno
  unused : pgno ∉ used
  ordinary : bt.autoVacuum = true → bt.ordinary pgno = true
  pages : ∀ p ∈ used, db'.page p = db.page p
  entries : bt.autoVacuum = true → ∀ g, g ≠ pgno → g ≤ db'.nPage → bt.ordinary g = true →
    g ≤ db.nPage ∧ db'.ptrmap g = db.ptrmap g

/-- `allocateBtreePage` as its callers know it. What it relies on itself, the list of free pages,
does not depend on pages in use and their entries. -/
structure Allocator (bt : BtShared) where
  allocate : Db → Nat → Option (Nat × Db)
  Holds : Db → Finset Nat → Prop
  grants : ∀ {db used nearby pgno db'}, Holds db used →
    allocate db nearby = some (pgno, db') →
    Granted bt db used pgno db' ∧ Holds db' (insert pgno used)
  keeps : ∀ {db db' used}, Holds db used → db'.nPage = db.nPage →
    (∀ p ∉ used, db'.page p = db.page p ∧ db'.ptrmap p = db.ptrmap p) → Holds db' used

theorem Fill.Asks.loop_eq_none {bt : BtShared} {allocate : Db → Nat → Option (Nat × Db)} {s : Fill}
    {db : Db} {nearby : Nat} (asks : s.Asks bt allocate db nearby)
    (failed : allocate db nearby = none) (rounds : Nat) : loop bt allocate rounds s = none := by
  induction asks generalizing rounds with
  | here some_byte full hint =>
    cases rounds with
    | zero => exact if_neg some_byte
    | succ rounds => rw [loop, if_neg some_byte, if_pos full, addPage, hint, bind_some, failed]; rfl
  | later some_byte round _ ih =>
    cases rounds with
    | zero => exact if_neg some_byte
    | succ rounds =>
      rw [loop, if_neg some_byte, round]
      exact ih failed rounds

/-- The pointer map leads to further overflow pages only from pages in use. -/
def MapHolds (bt : BtShared) (db : Db) (used : Finset Nat) : Prop :=
  bt.autoVacuum = true → ∀ g, 1 < g → g ≤ db.nPage → bt.ordinary g = true →
    1 ≤ (db.ptrmap g).1 ∧ (db.ptrmap g).1 ≤ 5 ∧
    ((db.ptrmap g).1 = ptrmapOverflow2 → (db.ptrmap g).2 ∈ used)

section

variable {s : Fill} {bytes : List UInt8}

/-- A byte of a cell in a buffer, or of the pages. -/
def cellByte (cell : Nat → UInt8) (db : Db) (spot : Option Nat × Nat) : UInt8 :=
  match spot with
  | (none, i) => cell i
  | (some pgno, i) => db.page pgno i

def Fill.byte (s : Fill) : Option Nat × Nat → UInt8 := cellByte s.cell s.db

theorem Fill.overwritten_memcpy {loc : Nat → Option Nat × Nat} {dest : Option Nat × Nat} {i : Nat}
    (consecutive : ∀ k < bytes.length, loc (i + k) = (dest.1, dest.2 + k)) :
    Overwritten s.byte (s.memcpy dest bytes).byte loc i bytes := by
  obtain ⟨_ | pgno, offset⟩ := dest
  · refine ⟨fun k inside => ?_, fun spot outside => ?_⟩
    · rw [consecutive k inside]
      exact memcpy_inside inside
    · obtain ⟨_ | p, j⟩ := spot
      · refine memcpy_outside ?_
        by_contra inside
        have less : j - offset < bytes.length := by omega
        refine outside (j - offset) less ?_
        rw [consecutive _ less]
        have number : offset + (j - offset) = j := by omega
        rw [number]
      · rfl
  · have onPage : Overwritten s.db.byte (s.db.memcpy pgno offset bytes).byte
        (fun k => (pgno, offset + k)) 0 bytes :=
      Db.overwritten_memcpy fun k _ => by rw [Nat.zero_add]
    refine ⟨fun k inside => ?_, fun spot outside => ?_⟩
    · rw [consecutive k inside]
      have stored := onPage.stores k inside
      rw [Nat.zero_add] at stored
      exact stored
    · obtain ⟨_ | p, j⟩ := spot
      · rfl
      · refine onPage.kept (p, j) fun k less same => outside k less ?_
        rw [consecutive k less]
        cases same
        rw [Nat.zero_add]

namespace Fill

variable (s : Fill) (dest : Option Nat × Nat) (bytes : List UInt8)

@[simp] theorem memcpy_db : (s.memcpy dest bytes).db.nPage = s.db.nPage ∧
    (s.memcpy dest bytes).db.ptrmap = s.db.ptrmap := by
  obtain ⟨_ | pgno, offset⟩ := dest <;> exact ⟨rfl, rfl⟩

/-- A copy changes bytes only. -/
@[simp] theorem memcpy_rest : (s.memcpy dest bytes).pSrc = s.pSrc ∧
    (s.memcpy dest bytes).nPayload = s.nPayload ∧ (s.memcpy dest bytes).spaceLeft = s.spaceLeft ∧
    (s.memcpy dest bytes).pgnoOvfl = s.pgnoOvfl ∧ (s.memcpy dest bytes).pPrior = s.pPrior ∧
    (s.memcpy dest bytes).pPayload = s.pPayload := by
  obtain ⟨_ | pgno, offset⟩ := dest <;> exact ⟨rfl, rfl, rfl, rfl, rfl, rfl⟩

theorem memcpy_page_other {pgno : Nat} (other : dest.1 ≠ some pgno) :
    (s.memcpy dest bytes).db.page pgno = s.db.page pgno := by
  obtain ⟨_ | p, offset⟩ := dest
  · rfl
  · exact s.db.page_memcpy_other (fun same => other (congrArg some same.symm)) offset bytes

end Fill

end

/-- Where the bytes go that are stored: to the buffer of the cell, and to pages. -/
def fillSpots (bt : BtShared) (info : CellInfo) (chain : List Nat) : Nat → Option Nat × Nat :=
  place none info.nHeader info.nLocal 4 bt.ovflSize (chain.map some)

def linkSpot (info : CellInfo) (chain : List Nat) : Option Nat × Nat :=
  match chain.getLast? with
  | none => (none, info.iOverflow)
  | some p => (some p, 0)

/-- The sizes of the cell are those of its payload, which is the content and zeros behind it. -/
structure Sized (bt : BtShared) (info : CellInfo) (content payload : List UInt8) : Prop where
  whole : ∃ nZero, payload = content ++ replicate nZero 0
  onPage : info.nLocal ≤ payload.length
  overflow : info.nLocal < payload.length → info.iOverflow = info.nHeader + info.nLocal

/-- The variables of the loop after so many bytes, with these overflow pages. -/
structure Progress (bt : BtShared) (info : CellInfo) (content payload : List UInt8) (i : Nat)
    (chain : List Nat) (s : Fill) : Prop where
  left : s.nPayload + i = payload.length
  source : s.pSrc = content.drop i
  space : s.spaceLeft + i = info.nLocal + chain.length * bt.ovflSize
  onLast : chain ≠ [] → info.nLocal + (chain.length - 1) * bt.ovflSize ≤ i
  dest : 0 < s.spaceLeft → s.pPayload = fillSpots bt info chain i
  prior : s.pPrior = linkSpot info chain
  last : s.pgnoOvfl = chain.getLast?.getD 0

/-- The bytes that are stored, the links and the header of the cell. -/
structure Laid (bt : BtShared) (info : CellInfo) (cell₀ : Nat → UInt8) (payload : List UInt8)
    (i : Nat) (chain : List Nat) (s : Fill) : Prop where
  stores : Stores s.byte (fillSpots bt info chain) 0 (payload.take i)
  first : ∀ p ∈ chain.head?, get4byte s.cell info.iOverflow = p
  links : ∀ k (inside : k + 1 < chain.length),
    get4byte (s.db.page (chain.get ⟨k, Nat.lt_of_succ_lt inside⟩)) 0 = chain[k + 1]
  header : ∀ k < info.nHeader, s.cell k = cell₀ k

/-- The overflow pages are new, and the pages in use before are kept. -/
structure Owned (bt : BtShared) (alloc : Allocator bt) (used : Finset Nat) (db₀ : Db)
    (chain : List Nat) (s : Fill) : Prop where
  nodup : chain.Nodup
  numbers : ∀ p ∈ chain, 1 < p ∧ p ≤ pagerMaxPgno
  fresh : ∀ p ∈ chain, p ∉ used
  holds : alloc.Holds s.db (used ∪ chain.toFinset)
  mapHolds : MapHolds bt s.db (used ∪ chain.toFinset)
  mapFits : MapFits bt s.db chain
  kept : ∀ p ∈ used, s.db.page p = db₀.page p

/-- So many bytes are stored, with these overflow pages. -/
structure Filling (bt : BtShared) (alloc : Allocator bt) (used : Finset Nat) (db₀ : Db)
    (info : CellInfo) (cell₀ : Nat → UInt8) (content payload : List UInt8) (i : Nat)
    (chain : List Nat) (s : Fill) : Prop extends Progress bt info content payload i chain s,
    Laid bt info cell₀ payload i chain s, Owned bt alloc used db₀ chain s

namespace Filling

variable {bt : BtShared} {alloc : Allocator bt} {used : Finset Nat} {db₀ : Db} {info : CellInfo}
  {cell₀ : Nat → UInt8} {content payload : List UInt8} {i j : Nat} {chain : List Nat} {s : Fill}

section

variable (filling : Filling bt alloc used db₀ info cell₀ content payload i chain s)

include filling

theorem spot_add {m : Nat}
    (inside : m < s.spaceLeft) :
    fillSpots bt info chain (i + m) = (s.pPayload.1, s.pPayload.2 + m) := by
  have space := filling.space
  have dest := filling.dest (by omega)
  rw [dest]
  rcases eq_or_ne chain [] with rfl | some_page
  · rw [length_nil] at space
    rw [fillSpots, place_first (by omega), place_first (by omega)]
    exact Prod.ext rfl (Nat.add_assoc _ _ _).symm
  · have onLast := filling.onLast some_page
    have pos := length_pos_iff.mpr some_page
    have count : chain.length = chain.length - 1 + 1 := by omega
    rw [count, Nat.succ_mul] at space
    have member : chain.length - 1 < (chain.map some).length := by
      rw [length_map]
      omega
    obtain ⟨j, rfl⟩ := Nat.exists_eq_add_of_le onLast
    rw [fillSpots, Nat.add_assoc, place_chain member (by omega), place_chain member (by omega)]
    exact Prod.ext rfl (Nat.add_assoc _ _ _).symm

theorem injOn :
    Set.InjOn (fillSpots bt info chain) (Set.Iio (info.nLocal + chain.length * bt.ovflSize)) := by
  have injective : Set.InjOn (fillSpots bt info chain)
      (Set.Iio (info.nLocal + (chain.map some).length * bt.ovflSize)) :=
    place_injOn bt.ovflSize_pos (filling.nodup.map (some_injective _)) (by simp)
  rwa [length_map] at injective

omit filling in
theorem spots_cases (bt : BtShared) (info : CellInfo) (chain : List Nat)
    (inside : j < info.nLocal + chain.length * bt.ovflSize) :
    (∃ _ : j < info.nLocal, fillSpots bt info chain j = (none, info.nHeader + j)) ∨
    ∃ p ∈ chain, ∃ m < bt.ovflSize, fillSpots bt info chain j = (some p, 4 + m) := by
  have cases : (∃ _ : j < info.nLocal, fillSpots bt info chain j = (none, info.nHeader + j)) ∨
      ∃ p ∈ chain.map some, ∃ m < bt.ovflSize, fillSpots bt info chain j = (p, 4 + m) :=
    place_page bt.ovflSize_pos (by rwa [length_map])
  rcases cases with onCell | ⟨p, member, onPage⟩
  · exact .inl onCell
  · obtain ⟨q, listed, rfl⟩ := mem_map.mp member
    exact .inr ⟨q, listed, onPage⟩

omit filling in
theorem off_spots (bt : BtShared) {info : CellInfo} {chain : List Nat} (spot : Option Nat × Nat)
    (onCell : spot.1 = none → spot.2 < info.nHeader ∨ info.nHeader + info.nLocal ≤ spot.2)
    (onPage : spot.1 ≠ none → spot.2 < 4) (inside : j < info.nLocal + chain.length * bt.ovflSize) :
    spot ≠ fillSpots bt info chain j := by
  rintro rfl
  rcases spots_cases bt info chain inside with ⟨less, here⟩ | ⟨p, -, m, -, here⟩
  · rw [here] at onCell
    have := onCell rfl
    omega
  · rw [here] at onPage
    have := onPage (some_ne_none p)
    omega

omit filling in
theorem count_le (s : Fill) : s.count ≤ s.nPayload ∧ s.count ≤ s.spaceLeft := by
  unfold Fill.count
  dsimp only
  split <;> omega

omit filling in
theorem count_pos (some_byte : 0 < s.nPayload) (some_space : 0 < s.spaceLeft) : 0 < s.count := by
  unfold Fill.count
  dsimp only
  split
  · rename_i more
    have := length_pos_iff.mpr more
    omega
  · omega

theorem next_bytes (sized : Sized bt info content payload) :
    (if s.pSrc ≠ [] then s.pSrc.take s.count else replicate s.count 0) =
      (payload.drop i).take s.count := by
  obtain ⟨nZero, whole⟩ := sized.whole
  have left := filling.left
  have most := (count_le s).1
  rw [filling.source]
  split
  · rename_i more
    have inside : i < content.length := by
      by_contra behind
      exact more (drop_eq_nil_of_le (Nat.not_lt.mp behind))
    have some_source : s.count ≤ (content.drop i).length := by
      rw [Fill.count, if_pos (by rw [filling.source]; exact more), filling.source]
      exact Nat.min_le_right _ _
    rw [whole, drop_append_of_le_length inside.le, take_append_of_le_length some_source]
  · rename_i none_left
    have behind : content.length ≤ i := drop_eq_nil_iff.mp (not_not.mp none_left)
    rw [whole, length_append, length_replicate] at left
    rw [whole, drop_append, drop_eq_nil_of_le behind, nil_append,
      drop_replicate, take_replicate, Nat.min_eq_left (by omega)]

theorem copy_progress :
    Progress bt info content payload (i + s.count) chain s.copy := by
  obtain ⟨most, fits⟩ := count_le s
  have left := filling.left
  have space := filling.space
  refine ⟨?_, ?_, ?_, fun some_page => ?_, fun more => ?_, ?_, ?_⟩
  · simp only [copy, memcpy_rest]
    omega
  · simp only [copy, memcpy_rest]
    rw [filling.source, drop_drop]
  · simp only [copy, memcpy_rest]
    omega
  · have := filling.onLast some_page
    omega
  · simp only [copy, memcpy_rest] at more
    simp only [copy, memcpy_rest]
    exact (filling.spot_add (by omega)).symm
  · simp only [copy, memcpy_rest]
    exact filling.prior
  · simp only [copy, memcpy_rest]
    exact filling.last

section

variable (sized : Sized bt info content payload)

include sized

theorem copy_overwritten : Overwritten s.byte s.copy.byte (fillSpots bt info chain) i
      ((payload.drop i).take s.count) := by
  have most := (count_le s).2
  have length : ((payload.drop i).take s.count).length ≤ s.count := length_take_le _ _
  rw [← filling.next_bytes sized] at length ⊢
  exact overwritten_memcpy fun k inside => filling.spot_add (by omega)

theorem copy_laid (some_byte : 0 < s.nPayload) :
    Laid bt info cell₀ payload (i + s.count) chain s.copy := by
  obtain ⟨most, fits⟩ := count_le s
  have left := filling.left
  have space := filling.space
  have written := filling.copy_overwritten sized
  have length : ((payload.drop i).take s.count).length = s.count := by
    rw [length_take, length_drop]
    omega
  -- the bytes of the header and of the links
  have off (spot : Option Nat × Nat)
      (onCell : spot.1 = none → spot.2 < info.nHeader ∨ info.nHeader + info.nLocal ≤ spot.2)
      (onPage : spot.1 ≠ none → spot.2 < 4) : s.copy.byte spot = s.byte spot := by
    refine written.kept spot fun k inside => off_spots bt spot onCell onPage ?_
    omega
  refine ⟨?_, fun p head => ?_, fun k inside => ?_, fun k inside => ?_⟩
  · have before : (payload.take i).length = i := by
      rw [length_take]
      omega
    rw [take_add]
    refine stores_append.mpr ⟨fun k inside => ?_, ?_⟩
    · rw [before] at inside
      have kept := written.kept_loc filling.injOn (i := 0 + k) (by omega) (by omega)
        (.inl (by omega))
      exact kept.trans (filling.stores k (by rw [before]; exact inside))
    · rw [before, Nat.zero_add]
      exact written.stores
  · have some_page : chain ≠ [] := by
      rintro rfl
      simp at head
    have onLast := filling.onLast some_page
    have overflow := sized.overflow (by omega)
    rw [← filling.first p head]
    refine get4byte_congr fun k _ => off (none, info.iOverflow + k) (fun _ => .inr ?_)
      fun other => absurd rfl other
    omega
  · rw [← filling.links k inside]
    refine get4byte_congr fun j less => off (some chain[k], 0 + j) (fun none => ?_) fun _ => ?_
    · simp at none
    · omega
  · rw [← filling.header k inside]
    exact off (none, k) (fun _ => .inl inside) fun other => absurd rfl other

end

theorem copy_owned
    (some_space : 0 < s.spaceLeft) : Owned bt alloc used db₀ chain s.copy := by
  have space := filling.space
  have page : ∀ p ∉ chain, s.pPayload.1 ≠ some p := by
    intro p outside same
    rcases spots_cases bt info chain (by omega : i < info.nLocal + chain.length * bt.ovflSize)
      with ⟨_, here⟩ | ⟨q, member, _, _, here⟩
    · rw [filling.dest some_space, here] at same
      simp at same
    · rw [filling.dest some_space, here] at same
      obtain rfl := some_inj.mp same
      exact outside member
  refine ⟨filling.nodup, filling.numbers, filling.fresh, ?_, ?_, ?_, fun p member => ?_⟩
  · refine alloc.keeps filling.holds (memcpy_db _ _ _).1 fun p outside => ⟨?_, ?_⟩
    · refine s.memcpy_page_other s.pPayload _ (page p fun member => outside ?_)
      exact Finset.mem_union_right _ (List.mem_toFinset.mpr member)
    · exact congrFun (memcpy_db _ _ _).2 p
  · have mapHolds := filling.mapHolds
    unfold MapHolds at mapHolds ⊢
    simp only [copy, memcpy_db]
    exact mapHolds
  · have mapFits := filling.mapFits
    unfold MapFits at mapFits ⊢
    simp only [copy, memcpy_db]
    exact mapFits
  · rw [← filling.kept p member]
    exact s.memcpy_page_other s.pPayload _ (page p fun listed => filling.fresh p listed member)

theorem copy (sized : Sized bt info content payload)
    (some_byte : 0 < s.nPayload) (some_space : 0 < s.spaceLeft) :
    Filling bt alloc used db₀ info cell₀ content payload (i + s.count) chain s.copy :=
  ⟨filling.copy_progress, filling.copy_laid sized some_byte, filling.copy_owned some_space⟩

theorem last_cases :
    (chain = [] ∧ s.pgnoOvfl = 0) ∨ ∃ front p, chain = front ++ [p] ∧ s.pgnoOvfl = p ∧
      1 < p ∧ p ≤ 2147483647 := by
  have last := filling.last
  rcases eq_nil_or_concat' chain with rfl | ⟨front, p, rfl⟩
  · exact .inl ⟨rfl, last⟩
  · rw [getLast?_append, getLast?_singleton, some_or] at last
    exact .inr ⟨front, p, rfl, last, filling.numbers p (by simp)⟩

theorem exists_nearby :
    ∃ nearby, s.nearby bt = some nearby := by
  rw [nearby]
  split
  · have small : s.pgnoOvfl ≤ 2147483647 := by
      rcases filling.last_cases with ⟨-, zero⟩ | ⟨-, p, -, eq, -, small⟩ <;> omega
    have next : add32 s.pgnoOvfl 1 = s.pgnoOvfl + 1 := Nat.mod_eq_of_lt (by omega)
    obtain ⟨found, eq, -⟩ := skipForward_spec bt (n := s.pgnoOvfl + 1) (by omega) (by omega)
    exact ⟨found, by rw [next, eq]⟩
  · exact ⟨_, rfl⟩

section

variable {pgno : Nat} {db : Db}

/-- The new page has its entry in the pointer map, if there is a map. -/
structure Entered (bt : BtShared) (s : Fill) (db : Db) (pgno : Nat) (db' : Db) : Prop where
  nPage : db'.nPage = db.nPage
  page : db'.page = db.page
  others : ∀ g ≠ pgno, db'.ptrmap g = db.ptrmap g
  own : bt.autoVacuum = true → db'.ptrmap pgno =
    (if s.pgnoOvfl ≠ 0 then ptrmapOverflow2 else ptrmapOverflow1, s.pgnoOvfl)

omit filling in
theorem exists_enter (granted : Granted bt s.db (used ∪ chain.toFinset) pgno db) :
    ∃ db', s.enter bt db pgno = some db' ∧ Entered bt s db pgno db' := by
  have number : 1 < pgno ∧ pgno ≤ 2147483647 := granted.number
  rw [enter]
  split
  · rename_i auto
    have lower := PageCount.BtShared.ptrmapPageno_lt (by omega) (by omega) (granted.ordinary auto)
    rw [BtShared.ptrmapPut, if_neg (by omega)]
    exact ⟨_, rfl, rfl, rfl, fun g other => Function.update_of_ne other _ _,
      fun _ => Function.update_self _ _ _⟩
  · rename_i notAuto
    exact ⟨db, rfl, rfl, rfl, fun _ _ => rfl, fun auto => absurd auto notAuto⟩

variable {db' : Db}

section

variable (granted : Granted bt s.db (used ∪ chain.toFinset) pgno db)
  (entered : Entered bt s db pgno db')

include granted entered

theorem mapHolds_enter : MapHolds bt db' (used ∪ (chain ++ [pgno]).toFinset) := by
  intro auto g behind inside ordinary
  rw [entered.nPage] at inside
  rcases eq_or_ne g pgno with rfl | other
  · rw [entered.own auto]
    dsimp only
    rcases filling.last_cases with ⟨-, zero⟩ | ⟨front, p, rfl, eq, positive, -⟩
    · rw [if_neg (not_not.mpr zero)]
      exact ⟨by decide, by decide, fun same => absurd same (by decide)⟩
    · rw [if_pos (by omega)]
      refine ⟨by decide, by decide, fun _ => ?_⟩
      rw [eq]
      exact Finset.mem_union_right _ (by simp)
  · obtain ⟨before, same⟩ := granted.entries auto g other inside ordinary
    obtain ⟨low, high, parent⟩ := filling.mapHolds auto g behind before ordinary
    rw [entered.others g other, same]
    refine ⟨low, high, fun second => ?_⟩
    have member := parent second
    rw [Finset.mem_union, List.mem_toFinset] at member ⊢
    exact member.imp_right fun listed => mem_append_left _ listed

theorem mapFits_enter : MapFits bt db' (chain ++ [pgno]) := by
  intro auto g behind inside ordinary
  obtain ⟨low, high, -⟩ :=
    filling.mapHolds_enter granted entered auto g behind inside ordinary
  refine ⟨low, high, fun k listed entry => ?_⟩
  rw [entered.nPage] at inside
  rw [length_append, length_singleton] at listed
  have unused := granted.unused
  rw [Finset.mem_union, List.mem_toFinset, not_or] at unused
  rcases eq_or_ne g pgno with rfl | other
  · rw [entered.own auto] at entry
    obtain ⟨type, parent⟩ := Prod.mk.inj entry
    rcases filling.last_cases with ⟨-, zero⟩ | ⟨front, p, rfl, eq, positive, -⟩
    · rw [if_neg (not_not.mpr zero)] at type
      cases type
    · -- the page before the new one is the last of the chain so far
      have nodup : (front ++ [p] ++ [g]).Nodup := by
        rw [nodup_append]
        refine ⟨filling.nodup, nodup_singleton g, fun a member b single => ?_⟩
        obtain rfl := mem_singleton.mp single
        rintro rfl
        exact unused.2 member
      have place : (front ++ [p] ++ [g])[front.length]? = some p := by simp
      have place' : (front ++ [p] ++ [g])[k]? = some p := by
        rw [getElem?_eq_getElem (by simpa using listed), ← parent, eq]
      have inside : front.length < (front ++ [p] ++ [g]).length := by simp
      have same : front.length = k :=
        (getElem?_inj inside nodup).mp (place.trans place'.symm)
      rw [← same]
      simp
  · obtain ⟨before, same⟩ := granted.entries auto g other inside ordinary
    rw [entered.others g other, same] at entry
    rcases Nat.lt_or_ge k chain.length with less | new
    · rw [getElem_append_left less] at entry
      obtain ⟨-, -, next⟩ := filling.mapFits auto g behind before ordinary
      have next := next k less entry
      have more : k + 1 < chain.length := by
        by_contra last
        rw [getD_eq_default _ _ (by omega)] at next
        omega
      rw [getD_append _ _ _ _ more]
      exact next
    · obtain rfl : k = chain.length := by omega
      rw [getElem_concat_length rfl] at entry
      obtain ⟨-, -, parent⟩ := filling.mapHolds auto g behind before ordinary
      rw [entry] at parent
      have member := parent rfl
      rw [Finset.mem_union, List.mem_toFinset] at member
      exact absurd member (not_or.mpr unused)

end

omit filling in
theorem link_byte {spot : Option Nat × Nat} (prior : ∀ k < 4, spot ≠ (s.pPrior.1, s.pPrior.2 + k))
    (other : spot.1 ≠ some pgno) :
    (s.link bt db' pgno).byte spot = ({ s with db := db' } : Fill).byte spot := by
  have first : Overwritten ({ s with db := db' } : Fill).byte
      (({ s with db := db' } : Fill).memcpy s.pPrior (sqlite3Put4byte pgno)).byte
      (fun k => (s.pPrior.1, s.pPrior.2 + k)) 0 (sqlite3Put4byte pgno) :=
    overwritten_memcpy fun k _ => by rw [Nat.zero_add]
  have second : Overwritten
      (({ s with db := db' } : Fill).memcpy s.pPrior (sqlite3Put4byte pgno)).byte
      ((({ s with db := db' } : Fill).memcpy s.pPrior (sqlite3Put4byte pgno)).memcpy
        (some pgno, 0) (sqlite3Put4byte 0)).byte
      (fun k => (some pgno, k)) 0 (sqlite3Put4byte 0) :=
    overwritten_memcpy fun k _ => rfl
  refine (second.kept spot fun k _ same => other ?_).trans
    (first.kept spot fun k less => ?_)
  · rw [same]
  · rw [Nat.zero_add]
    exact prior k less

theorem link_prior (db' : Db)
    (granted : Granted bt s.db (used ∪ chain.toFinset) pgno db) :
    (chain = [] → get4byte (s.link bt db' pgno).cell info.iOverflow = pgno) ∧
    ∀ front p, chain = front ++ [p] → get4byte ((s.link bt db' pgno).db.page p) 0 = pgno := by
  have number : 1 < pgno ∧ pgno ≤ 2147483647 := granted.number
  have unused := granted.unused
  rw [Finset.mem_union, not_or] at unused
  have prior := filling.prior
  refine ⟨?_, ?_⟩
  · rintro rfl
    have spot : s.pPrior = (none, info.iOverflow) := prior
    have cell : (s.link bt db' pgno).cell =
        memcpy s.cell info.iOverflow (sqlite3Put4byte pgno) := by
      rw [link, spot]
      rfl
    rw [cell, get4byte_memcpy (by omega)]
  · rintro front p rfl
    have spot : s.pPrior = (some p, 0) := by
      rw [prior, linkSpot, getLast?_append]
      rfl
    have other : p ≠ pgno := by
      rintro rfl
      exact unused.2 (by simp)
    have page : (s.link bt db' pgno).db.page p =
        memcpy (db'.page p) 0 (sqlite3Put4byte pgno) := by
      rw [link, spot]
      exact ((db'.memcpy p 0 (sqlite3Put4byte pgno)).page_memcpy_other other 0 _).trans
        (db'.page_memcpy_same p 0 _)
    rw [page, get4byte_memcpy (by omega)]

theorem prior_cases :
    (chain = [] ∧ s.pPrior = (none, info.iOverflow)) ∨
    ∃ front p, chain = front ++ [p] ∧ s.pPrior = (some p, 0) := by
  have prior := filling.prior
  rcases eq_nil_or_concat' chain with rfl | ⟨front, p, rfl⟩
  · exact .inl ⟨rfl, prior⟩
  · rw [linkSpot, getLast?_append] at prior
    exact .inr ⟨front, p, rfl, prior⟩

omit filling in
theorem link_page {p : Nat} (other : p ≠ pgno) (notPrior : s.pPrior.1 ≠ some p) :
    (s.link bt db' pgno).db.page p = db'.page p := by
  refine (memcpy_page_other _ (some pgno, 0) _ ?_).trans
    (memcpy_page_other _ s.pPrior _ notPrior)
  exact fun same => other (some_inj.mp same).symm

theorem link_progress
    (none_left : s.spaceLeft = 0) :
    Progress bt info content payload i (chain ++ [pgno]) (s.link bt db' pgno) := by
  have space := filling.space
  have length : (chain ++ [pgno]).length = chain.length + 1 := by simp
  refine ⟨?_, ?_, ?_, fun _ => ?_, fun _ => ?_, ?_, ?_⟩
  · simpa [link] using filling.left
  · simpa [link] using filling.source
  · change bt.ovflSize + i = _
    rw [length, Nat.succ_mul]
    omega
  · rw [length, Nat.add_sub_cancel]
    omega
  · have number : i = info.nLocal + chain.length * bt.ovflSize + 0 := by omega
    have member : chain.length < ((chain ++ [pgno]).map some).length := by simp
    change (some pgno, 4) = _
    rw [fillSpots, number, place_chain member bt.ovflSize_pos]
    simp
  · rw [linkSpot, getLast?_append]
    rfl
  · rw [getLast?_append]
    rfl

omit filling in
theorem link_old (granted : Granted bt s.db (used ∪ chain.toFinset) pgno db)
    (entered : Entered bt s db pgno db') (spot : Option Nat × Nat)
    (off : ∀ k < 4, spot ≠ (s.pPrior.1, s.pPrior.2 + k))
    (listed : ∀ p, spot.1 = some p → p ∈ chain) : (s.link bt db' pgno).byte spot = s.byte spot := by
  have unused := granted.unused
  rw [Finset.mem_union, List.mem_toFinset, not_or] at unused
  rw [link_byte off fun same => unused.2 (listed pgno same)]
  obtain ⟨_ | p, j⟩ := spot
  · rfl
  · change db'.page p j = s.db.page p j
    rw [entered.page, granted.pages p
      (Finset.mem_union_right _ (List.mem_toFinset.mpr (listed p rfl)))]

section

variable (sized : Sized bt info content payload)
  (some_byte : 0 < s.nPayload) (none_left : s.spaceLeft = 0)
  (granted : Granted bt s.db (used ∪ chain.toFinset) pgno db) (entered : Entered bt s db pgno db')

include sized some_byte none_left granted entered

theorem link_stores : Stores (s.link bt db' pgno).byte (fillSpots bt info (chain ++ [pgno])) 0
      (payload.take i) := by
  have left := filling.left
  have space := filling.space
  have overflow := sized.overflow (by omega)
  intro k inside
  have small : k < i := by
    rw [length_take] at inside
    omega
  have inside' : k < info.nLocal + chain.length * bt.ovflSize := by omega
  have same_spot : fillSpots bt info (chain ++ [pgno]) k = fillSpots bt info chain k := by
    rw [fillSpots, map_append]
    exact place_append bt.ovflSize_pos _ (by rwa [length_map])
  have stored := filling.stores k inside
  rw [Nat.zero_add] at stored ⊢
  rw [same_spot, ← stored]
  refine link_old granted entered _ (fun j less same => ?_) fun p onPage => ?_
  · refine off_spots bt (s.pPrior.1, s.pPrior.2 + j) (fun onCell => .inr ?_) (fun onPage => ?_)
      inside' same.symm
    · rcases filling.prior_cases with ⟨-, spot⟩ | ⟨-, p, -, spot⟩
      · rw [spot]
        omega
      · simp [spot] at onCell
    · rcases filling.prior_cases with ⟨-, spot⟩ | ⟨-, p, -, spot⟩
      · simp [spot] at onPage
      · rw [spot]
        omega
  · rcases spots_cases bt info chain inside' with ⟨_, here⟩ | ⟨q, member, _, _, here⟩
    · simp [here] at onPage
    · rw [here] at onPage
      exact some_inj.mp onPage ▸ member

theorem link_laid : Laid bt info cell₀ payload i (chain ++ [pgno]) (s.link bt db' pgno) := by
  have left := filling.left
  have space := filling.space
  have overflow := sized.overflow (by omega)
  obtain ⟨toFirst, toLast⟩ := filling.link_prior db' granted
  refine ⟨filling.link_stores sized some_byte none_left granted entered, fun p head => ?_,
    fun k inside => ?_, fun k inside => ?_⟩
  · rcases filling.prior_cases with ⟨rfl, -⟩ | ⟨front, q, rfl, spot⟩
    · obtain rfl := some_inj.mp head
      exact toFirst rfl
    · have head' : p ∈ (front ++ [q]).head? := by
        rwa [head?_append_of_ne_nil _ (by simp)] at head
      rw [← filling.first p head']
      refine get4byte_congr fun k _ => link_old granted entered (none, info.iOverflow + k)
        (fun j _ same => ?_) fun r onPage => ?_
      · simp [spot] at same
      · simp at onPage
  · rw [length_append, length_singleton] at inside
    rcases Nat.lt_or_ge (k + 1) chain.length with less | new
    · rw [get_eq_getElem, getElem_append_left (Nat.lt_of_succ_lt less),
        getElem_append_left less, ← filling.links k less]
      refine get4byte_congr fun j _ => link_old granted entered (some chain[k], 0 + j)
        (fun m _ same => ?_) fun r onPage => ?_
      · rcases filling.prior_cases with ⟨rfl, -⟩ | ⟨front, q, rfl, spot⟩
        · simp at less
        · rw [length_append, length_singleton] at less
          rw [spot, getElem_append_left (by omega)] at same
          have page : front[k] = q := some_inj.mp (Prod.mk.inj same).1
          exact (disjoint_of_nodup_append filling.nodup) (page ▸ getElem_mem _)
            (mem_singleton_self q)
      · exact some_inj.mp onPage ▸ getElem_mem _
    · rcases filling.prior_cases with ⟨rfl, -⟩ | ⟨front, q, rfl, -⟩
      · simp at inside
      · rw [length_append, length_singleton] at inside new
        obtain rfl : k = front.length := by omega
        simpa using toLast front q rfl
  · rw [← filling.header k inside]
    refine link_old granted entered (none, k) (fun j _ same => ?_) fun r onPage => ?_
    · rcases filling.prior_cases with ⟨-, spot⟩ | ⟨-, q, -, spot⟩
      · rw [spot] at same
        have := (Prod.mk.inj same).2
        omega
      · simp [spot] at same
    · simp at onPage

end

theorem link_owned
    (granted : Granted bt s.db (used ∪ chain.toFinset) pgno db)
    (holds : alloc.Holds db (insert pgno (used ∪ chain.toFinset)))
    (entered : Entered bt s db pgno db') :
    Owned bt alloc used db₀ (chain ++ [pgno]) (s.link bt db' pgno) := by
  have unused := granted.unused
  rw [Finset.mem_union, List.mem_toFinset, not_or] at unused
  have all_used : used ∪ (chain ++ [pgno]).toFinset = insert pgno (used ∪ chain.toFinset) := by
    ext p
    simp only [Finset.mem_union, List.mem_toFinset, mem_append, mem_singleton, Finset.mem_insert]
    tauto
  have nPage : (s.link bt db' pgno).db.nPage = db'.nPage := by simp [link]
  have ptrmap : (s.link bt db' pgno).db.ptrmap = db'.ptrmap := by simp [link]
  have page {p : Nat} (other : p ≠ pgno) (outside : p ∉ chain) :
      (s.link bt db' pgno).db.page p = db.page p := by
    rw [link_page other, entered.page]
    rcases filling.prior_cases with ⟨-, spot⟩ | ⟨front, q, rfl, spot⟩
    · simp [spot]
    · rw [spot]
      intro same
      obtain rfl := some_inj.mp same
      exact outside (by simp)
  refine ⟨?_, fun p member => ?_, fun p member => ?_, ?_, ?_, ?_, fun p member => ?_⟩
  · rw [nodup_append]
    refine ⟨filling.nodup, nodup_singleton pgno, fun a member b single => ?_⟩
    obtain rfl := mem_singleton.mp single
    rintro rfl
    exact unused.2 member
  · rcases mem_append.mp member with before | new
    · exact filling.numbers p before
    · obtain rfl := mem_singleton.mp new
      exact granted.number
  · rcases mem_append.mp member with before | new
    · exact filling.fresh p before
    · obtain rfl := mem_singleton.mp new
      exact unused.1
  · rw [all_used]
    refine alloc.keeps holds (nPage.trans entered.nPage) fun p outside => ?_
    rw [Finset.mem_insert, Finset.mem_union, List.mem_toFinset] at outside
    refine ⟨page (fun same => outside (.inl same)) fun listed => outside (.inr (.inr listed)), ?_⟩
    rw [ptrmap, entered.others p fun same => outside (.inl same)]
  · have mapHolds := filling.mapHolds_enter granted entered
    unfold MapHolds at mapHolds ⊢
    rw [nPage, ptrmap]
    exact mapHolds
  · have mapFits := filling.mapFits_enter granted entered
    unfold MapFits at mapFits ⊢
    rw [nPage, ptrmap]
    exact mapFits
  · rw [← filling.kept p member, ← granted.pages p (Finset.mem_union_left _ member)]
    refine page ?_ fun listed => filling.fresh p listed member
    rintro rfl
    exact unused.1 member

end

theorem addPage (sized : Sized bt info content payload)
    (some_byte : 0 < s.nPayload) (none_left : s.spaceLeft = 0) :
    (∃ nearby, s.nearby bt = some nearby ∧ alloc.allocate s.db nearby = none ∧
      s.addPage bt alloc.allocate = none) ∨
    ∃ pgno s', s.addPage bt alloc.allocate = some s' ∧ s'.nPayload = s.nPayload ∧
      0 < s'.spaceLeft ∧
      Filling bt alloc used db₀ info cell₀ content payload i (chain ++ [pgno]) s' := by
  obtain ⟨nearby, hint⟩ := filling.exists_nearby
  rw [Fill.addPage, hint, bind_some]
  cases call : alloc.allocate s.db nearby with
  | none => exact .inl ⟨nearby, rfl, call, rfl⟩
  | some given =>
    obtain ⟨pgno, db⟩ := given
    obtain ⟨granted, holds⟩ := alloc.grants filling.holds call
    obtain ⟨db', enter, entered⟩ := exists_enter granted
    refine .inr ⟨pgno, s.link bt db' pgno, ?_, ?_, bt.ovflSize_pos, ?_⟩
    · rw [bind_some]
      dsimp only
      rw [enter, map_some]
    · simp [link]
    · exact ⟨filling.link_progress none_left,
        filling.link_laid sized some_byte none_left granted entered,
        filling.link_owned granted holds entered⟩

theorem spaceLeft_le
    (some_page : chain ≠ []) : s.spaceLeft ≤ bt.ovflSize := by
  have space := filling.space
  have onLast := filling.onLast some_page
  have pos := length_pos_iff.mpr some_page
  have count : chain.length = chain.length - 1 + 1 := by omega
  rw [count, Nat.succ_mul] at space
  omega

section

variable (sized : Sized bt info content payload)

include sized

theorem copy_round (some_byte : 0 < s.nPayload) (some_space : 0 < s.spaceLeft) :
    Filling bt alloc used db₀ info cell₀ content payload (i + s.count) chain s.copy ∧
      s.copy.nPayload < s.nPayload ∧ (chain ≠ [] → s.copy.spaceLeft < bt.ovflSize) := by
  have pos := count_pos some_byte some_space
  refine ⟨filling.copy sized some_byte some_space, ?_, fun some_page => ?_⟩
  · simp only [Fill.copy, Fill.memcpy_rest]
    omega
  · have bound := filling.spaceLeft_le some_page
    simp only [Fill.copy, Fill.memcpy_rest]
    omega

theorem loop {rounds : Nat} (enough : s.nPayload ≤ rounds)
    (used_last : chain ≠ [] → s.spaceLeft < bt.ovflSize) :
    (∃ db nearby, s.Asks bt alloc.allocate db nearby ∧ alloc.allocate db nearby = none ∧
      loop bt alloc.allocate rounds s = none) ∨
    ∃ s' chain', loop bt alloc.allocate rounds s = some s' ∧
      Filling bt alloc used db₀ info cell₀ content payload payload.length chain' s' ∧
      (chain' ≠ [] → s'.spaceLeft < bt.ovflSize) := by
  induction rounds generalizing s i chain with
  | zero =>
    have done : i = payload.length := by
      have left := filling.left
      omega
    rw [loop, if_pos (by omega)]
    exact .inr ⟨s, chain, rfl, done ▸ filling, used_last⟩
  | succ rounds ih =>
    rw [loop]
    split
    · have done : i = payload.length := by
        have left := filling.left
        omega
      exact .inr ⟨s, chain, rfl, done ▸ filling, used_last⟩
    · rename_i some_byte
      split
      · rename_i full
        rcases filling.addPage sized (by omega) full with ⟨nearby, hint, failed, none⟩ |
          ⟨pgno, s', added, same, some_space, filling'⟩
        · refine .inl ⟨s.db, nearby, .here some_byte full hint, failed, ?_⟩
          rw [none, bind_none]
        · obtain ⟨copied, less, used_last'⟩ :=
            filling'.copy_round sized (by omega) some_space
          rw [added, bind_some]
          exact (ih copied (by omega) used_last').imp_left fun ⟨db, nearby, asks, failed⟩ =>
            ⟨db, nearby, .later some_byte ((if_pos full).trans added) asks, failed⟩
      · rename_i room
        obtain ⟨copied, less, used_last'⟩ :=
          filling.copy_round sized (by omega) (by omega)
        rw [bind_some]
        exact (ih copied (by omega) used_last').imp_left fun ⟨db, nearby, asks, failed⟩ =>
          ⟨db, nearby, .later some_byte (if_neg room) asks, failed⟩

end

end

section

variable (filling : Filling bt alloc used db₀ info cell₀ content payload payload.length chain s)
  (used_last : chain ≠ [] → s.spaceLeft < bt.ovflSize)

include filling used_last

theorem beyond_page (some_page : chain ≠ []) : info.nLocal < payload.length := by
  have space := filling.space
  have less := used_last some_page
  have pos := length_pos_iff.mpr some_page
  have one_page := Nat.le_mul_of_pos_left bt.ovflSize pos
  omega

theorem length_chain :
    chain.length = (payload.length - info.nLocal + bt.ovflSize - 1) / bt.ovflSize := by
  have space := filling.space
  have pos := bt.ovflSize_pos
  refine (Nat.div_eq_of_lt_le ?_ ?_).symm
  · rcases eq_or_ne chain [] with rfl | some_page
    · simp
    · have := used_last some_page
      omega
  · rw [Nat.succ_mul]
    omega

end

end Filling

end SeSqlite.Btree.Payload
