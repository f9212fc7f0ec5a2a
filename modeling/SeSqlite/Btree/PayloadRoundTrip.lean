/- source: src/btree.c
   digest: After fillInCell every part of a payload reads back as its key or data and zeros, and a
   write changes that part only, in every run of accesses. -/
import SeSqlite.Btree.PayloadAllocator

set_option autoImplicit false
set_option relaxedAutoImplicit false

namespace SeSqlite.Btree.Payload

open Lib.Scatter Varint List Function Option

variable {bt : BtShared} {page : MemPage} {nKey : Int} {nData nZero : Nat} {db db' : Db}
  {info : CellInfo} {chain : List Nat}

section

private theorem i64_u64 (low : -2 ^ 63 ≤ nKey) (high : nKey < 2 ^ 63) : i64 (u64 nKey) = nKey := by
  rw [i64, u64]
  split <;> omega

private theorem u64_lt (nKey : Int) : u64 nKey < 2 ^ 64 := by
  rw [u64]
  omega

private theorem at_memcpy (mem : Nat → UInt8) (offset : Nat) (first second : List UInt8) :
    Varint.At (fun i => memcpy mem offset (first ++ second) (offset + i)) 0 first ∧
    Varint.At (fun i => memcpy mem offset (first ++ second) (offset + (first.length + i))) 0
      second := by
  have length : (first ++ second).length = first.length + second.length := length_append
  refine ⟨fun k inside => ?_, fun k inside => ?_⟩
  · dsimp only
    rw [Nat.zero_add, memcpy_inside (by omega), getElem_append_left inside]
  · dsimp only
    rw [memcpy_inside (by omega)]
    simp

private theorem parse_header_data (intKey : page.intKey = true) (data : page.hasData = true)
    (low : -2 ^ 63 ≤ nKey) (high : nKey < 2 ^ 63) (small : nData + nZero < 2 ^ 31)
    (pCell : Nat → UInt8) :
    btreeParseCellPtr bt page (memcpy pCell page.childPtrSize (header page nKey nData nZero)) =
      page.cellInfo bt nKey (nData + nZero) (nData + nZero)
        (page.childPtrSize + (header page nKey nData nZero).length) := by
  have bytes : header page nKey nData nZero =
      sqlite3PutVarint (nData + nZero) ++ sqlite3PutVarint (u64 nKey) := by
    rw [header, if_pos data, putVarint32_eq]
  obtain ⟨first, second⟩ := at_memcpy pCell 0 (sqlite3PutVarint (nData + nZero))
    (sqlite3PutVarint (u64 nKey))
  simp only [Nat.zero_add] at first second
  rw [parse_data intKey data, bytes, childPtrSize_of_data data,
    getVarint32_putVarint (by omega) first]
  dsimp only
  rw [getVarint_putVarint (u64_lt nKey) second]
  rw [i64_u64 low high, length_append, Nat.zero_add]

private theorem parse_header_key (intKey : page.intKey = true) (data : page.hasData = false)
    (low : -2 ^ 63 ≤ nKey) (high : nKey < 2 ^ 63) (pCell : Nat → UInt8) :
    btreeParseCellPtr bt page (memcpy pCell page.childPtrSize (header page nKey nData nZero)) =
      page.cellInfo bt nKey 0 0
        (page.childPtrSize + (header page nKey nData nZero).length) := by
  have bytes : header page nKey nData nZero = [] ++ sqlite3PutVarint (u64 nKey) := by
    rw [header, data, if_neg (by decide)]
  obtain ⟨-, second⟩ := at_memcpy pCell page.childPtrSize [] (sqlite3PutVarint (u64 nKey))
  simp only [length_nil, Nat.zero_add] at second
  rw [parse_key intKey data, bytes, getVarint_putVarint (u64_lt nKey) second]
  dsimp only
  rw [i64_u64 low high, nil_append]

private theorem parse_header_index (index : page.intKey = false) {length : Nat}
    (nKey_eq : nKey = length) (small : length < 2 ^ 31) (pCell : Nat → UInt8) :
    btreeParseCellPtr bt page (memcpy pCell page.childPtrSize (header page nKey nData nZero)) =
      page.cellInfo bt nKey 0 length
        (page.childPtrSize + (header page nKey nData nZero).length) := by
  have data : page.hasData = false := by rw [MemPage.hasData, index, Bool.false_and]
  have bits : u64 nKey = length := by
    rw [u64]
    omega
  have bytes : header page nKey nData nZero = [] ++ sqlite3PutVarint length := by
    rw [header, data, if_neg (by decide), bits]
  obtain ⟨-, second⟩ := at_memcpy pCell page.childPtrSize [] (sqlite3PutVarint length)
  simp only [length_nil, Nat.zero_add] at second
  rw [parse_index index, bytes, getVarint32_putVarint (by omega) second]
  rw [nKey_eq, nil_append]

/-- The key or the data that a cell is filled from. -/
def content (page : MemPage) (pKey pData : List UInt8) : List UInt8 :=
  if page.intKey then (if page.hasData then pData else []) else pKey

/-- The payload of a cell: an entry of an index is its key, a row is its data and zeros. -/
def payload (page : MemPage) (pKey pData : List UInt8) (nZero : Nat) : List UInt8 :=
  content page pKey pData ++ if page.hasData then replicate nZero 0 else []

/-- Arguments of `fillInCell` of the sizes that its types have. -/
structure Sound (page : MemPage) (pKey : List UInt8) (nKey : Int) (pData : List UInt8)
    (nZero : Nat) : Prop where
  row : page.intKey = true → -2 ^ 63 ≤ nKey ∧ nKey < 2 ^ 63 ∧ pData.length + nZero < 2 ^ 31
  entry : page.intKey = false → nKey = pKey.length ∧ pKey.length < 2 ^ 31

/-- A cell, wherever it is, and its overflow pages. -/
structure Whole (bt : BtShared) (page : MemPage) (cell : Nat → UInt8) (db : Db) (info : CellInfo)
    (chain : List Nat) (payload : List UInt8) : Prop where
  parsed : btreeParseCellPtr bt page cell = info
  length : info.nPayload = payload.length
  small : payload.length < 2 ^ 31
  nodup : chain.Nodup
  numbers : ∀ p ∈ chain, 1 < p ∧ p ≤ pagerMaxPgno
  pages : chain.length = nOvfl bt page payload.length
  first : ∀ p ∈ chain.head?, get4byte cell (info.nHeader + info.nLocal) = p
  links : ∀ k (inside : k + 1 < chain.length), get4byte (db.page chain[k]) 0 = chain[k + 1]
  stores : Stores (cellByte cell db) (fillSpots bt info chain) 0 payload

/-- The cell is on a page, and its overflow pages are kept. -/
structure Placed (bt : BtShared) (page : MemPage) (cell : Nat → UInt8) (nSize : Nat) (db : Db)
    (chain : List Nat) (db' : Db) (pgno pc : Nat) : Prop where
  fits : pc + nSize ≤ bt.usableSize
  bytes : ∀ k, page.childPtrSize ≤ k → k < nSize → db'.page pgno (pc + k) = cell k
  apart : pgno ∉ chain
  pages : ∀ p ∈ chain, ∀ k < bt.usableSize, db'.page p k = db.page p k
  map : MapFits bt db' chain

variable {cell : Nat → UInt8} {payload : List UInt8} {pgno pc : Nat}

section

variable (whole : Whole bt page cell db info chain payload)

include whole

private theorem Whole.sizes :
    ∃ nKey nData, info = page.cellInfo bt nKey nData payload.length info.nHeader := by
  obtain ⟨nKey, nData, nPayload, n, parse, -⟩ := parse_eq bt page cell
  rw [whole.parsed] at parse
  subst parse
  have length := whole.length
  subst length
  exact ⟨nKey, nData, rfl⟩

/-- The size of a cell covers its header and its part of the payload, and the link to the first
overflow page if there is one. -/
theorem Whole.nSize : info.nHeader + info.nLocal ≤ info.nSize ∧
    (chain ≠ [] → info.nHeader + info.nLocal + 4 ≤ info.nSize) := by
  obtain ⟨nKey, nData, sizes⟩ := whole.sizes
  have pages := whole.pages
  generalize info.nHeader = n at sizes
  subst sizes
  dsimp only [MemPage.cellInfo]
  split
  · rename_i small
    rw [page.nLocal_of_small bt small]
    refine ⟨by omega, fun some_page => absurd ?_ some_page⟩
    have pos := bt.ovflSize_pos
    rw [nOvfl, page.nLocal_of_small bt small, Nat.sub_self, Nat.div_eq_of_lt (by omega)] at pages
    exact eq_nil_of_length_eq_zero pages
  · exact ⟨by omega, fun _ => by omega⟩

omit whole in
private theorem spots_both (bt : BtShared) (pgno pc : Nat) (info : CellInfo) (chain : List Nat)
    {i : Nat} (inside : i < info.nLocal + chain.length * bt.ovflSize) :
    (i < info.nLocal ∧ spots bt pgno pc info chain i = (pgno, pc + info.nHeader + i) ∧
      fillSpots bt info chain i = (none, info.nHeader + i)) ∨
    ∃ p ∈ chain, ∃ m < bt.ovflSize, spots bt pgno pc info chain i = (p, 4 + m) ∧
      fillSpots bt info chain i = (some p, 4 + m) := by
  rcases Nat.lt_or_ge i info.nLocal with onPage | behind
  · exact .inl ⟨onPage, place_first onPage, place_first onPage⟩
  · obtain ⟨k, m, listed, small, rfl⟩ := exists_chain bt.ovflSize_pos behind inside
    refine .inr ⟨chain[k], getElem_mem listed, m, small, place_chain listed small, ?_⟩
    have listed' : k < (chain.map some).length := by rwa [length_map]
    rw [fillSpots, place_chain listed' small, getElem_map]

private theorem Whole.stored (placed : Placed bt page cell info.nSize db chain db' pgno pc) :
    Stored bt page db' pgno pc info chain payload := by
  obtain ⟨covers, link⟩ := whole.nSize
  have fits := placed.fits
  have low := bt.low
  have behind : page.childPtrSize ≤ info.nHeader := by
    rw [← whole.parsed]
    exact childPtrSize_le_nHeader bt page cell
  have room : payload.length ≤ info.nLocal + chain.length * bt.ovflSize := by
    obtain ⟨nKey, nData, sizes⟩ := whole.sizes
    rw [whole.pages, sizes]
    exact nOvfl_room bt page payload.length
  refine ⟨?_, whole.length, whole.small, by omega, whole.nodup, placed.apart, whole.numbers,
    whole.pages, fun p head => ?_, fun k inside => ?_, placed.map, fun k inside => ?_⟩
  · rw [← whole.parsed]
    refine parse_congr fun k pointer header => placed.bytes k pointer ?_
    rw [whole.parsed] at header
    omega
  · have some_page : chain ≠ [] := by
      rintro rfl
      simp at head
    have := link some_page
    rw [← whole.first p head, Nat.add_assoc]
    refine get4byte_congr fun j less => ?_
    rw [Nat.add_assoc]
    exact placed.bytes _ (by omega) (by omega)
  · rw [← whole.links k inside]
    exact get4byte_congr fun j less => placed.pages _ (getElem_mem _) _ (by omega)
  · rw [← whole.stores k inside, Nat.zero_add]
    rcases spots_both bt pgno pc info chain (inside.trans_le room) with
      ⟨onPage, here, there⟩ | ⟨p, listed, m, small, here, there⟩
    · rw [here, there]
      rw [Nat.add_assoc]
      exact placed.bytes _ (by omega) (by omega)
    · rw [here, there]
      refine placed.pages p listed _ ?_
      rw [BtShared.ovflSize] at small
      omega

end

private theorem Stored.whole (stored : Stored bt page db pgno pc info chain payload) :
    Whole bt page (fun k => db.page pgno (pc + k)) db info chain payload := by
  refine ⟨stored.parsed, stored.length, stored.small, stored.nodup, stored.numbers, stored.pages,
    fun p head => ?_, stored.links, fun k inside => ?_⟩
  · rw [← stored.first p head]
    exact get4byte_congr fun j _ => congrArg (db.page pgno) (by omega)
  · rw [← stored.stores k inside, Nat.zero_add]
    rcases spots_both bt pgno pc info chain (inside.trans_le stored.room) with
      ⟨onPage, here, there⟩ | ⟨p, listed, m, small, here, there⟩
    · rw [here, there, Db.byte]
      dsimp only [cellByte]
      rw [Nat.add_assoc]
    · rw [here, there]
      rfl

end

section

variable {alloc : Allocator bt} {used : Finset Nat} {pKey pData : List UInt8}

section

variable (sound : Sound page pKey nKey pData nZero)

include sound

private theorem parse_header (bt : BtShared) (pCell : Nat → UInt8) : ∃ nData, btreeParseCellPtr bt
    page
      (memcpy pCell page.childPtrSize (header page nKey pData.length nZero)) =
    page.cellInfo bt nKey nData (payload page pKey pData nZero).length
      (page.childPtrSize + (header page nKey pData.length nZero).length) := by
  cases intKey : page.intKey with
  | true =>
    obtain ⟨low, high, small⟩ := sound.row intKey
    cases data : page.hasData with
    | true =>
      refine ⟨pData.length + nZero, ?_⟩
      have length : (payload page pKey pData nZero).length = pData.length + nZero := by
        simp [payload, content, intKey, data]
      rw [parse_header_data intKey data low high small, length]
    | false =>
      refine ⟨0, ?_⟩
      have length : (payload page pKey pData nZero).length = 0 := by
        simp [payload, content, intKey, data]
      rw [parse_header_key intKey data low high, length]
  | false =>
    obtain ⟨nKey_eq, small⟩ := sound.entry intKey
    have data : page.hasData = false := by rw [MemPage.hasData, intKey, Bool.false_and]
    refine ⟨0, ?_⟩
    have length : (payload page pKey pData nZero).length = pKey.length := by
      simp [payload, content, intKey, data]
    rw [parse_header_index intKey nKey_eq small, length]

private theorem length_payload_lt : (payload page pKey pData nZero).length < 2 ^ 31 := by
  cases intKey : page.intKey with
  | true =>
    obtain ⟨-, -, small⟩ := sound.row intKey
    cases data : page.hasData <;> simp [payload, content, intKey, data]
    omega
  | false =>
    obtain ⟨-, small⟩ := sound.entry intKey
    have data : page.hasData = false := by rw [MemPage.hasData, intKey, Bool.false_and]
    simpa [payload, content, intKey, data] using small

omit sound in
private theorem sized_cellInfo (bt : BtShared) (page : MemPage) (pKey : List UInt8) (nKey : Int)
    (pData : List UInt8) (nZero nData n : Nat) :
    Sized bt (page.cellInfo bt nKey nData (payload page pKey pData nZero).length n)
      (content page pKey pData) (payload page pKey pData nZero) := by
  refine ⟨?_, page.nLocal_le bt _, fun large => ?_⟩
  · rw [payload]
    split
    · exact ⟨nZero, rfl⟩
    · exact ⟨0, rfl⟩
  · dsimp only [MemPage.cellInfo] at large ⊢
    rw [if_neg, Nat.add_comm]
    intro small
    rw [page.nLocal_of_small bt small] at large
    omega

omit sound in
private theorem filling_start (holds : alloc.Holds db used) (map : MapHolds bt db used)
    (page : MemPage) (pKey : List UInt8) (nKey : Int) (pData : List UInt8) (nZero nData n : Nat)
    (cell : Nat → UInt8) :
    Filling bt alloc used db (page.cellInfo bt nKey nData (payload page pKey pData nZero).length n)
      cell (content page pKey pData) (payload page pKey pData nZero) 0 []
      { db := db
        cell := cell
        pSrc := content page pKey pData
        nPayload := (payload page pKey pData nZero).length
        spaceLeft := page.nLocal bt (payload page pKey pData nZero).length
        pgnoOvfl := 0
        pPrior := (none, (page.cellInfo bt nKey nData
          (payload page pKey pData nZero).length n).iOverflow)
        pPayload := (none, n) } := by
  have none_yet : used ∪ ([] : List Nat).toFinset = used := by simp
  refine ⟨⟨rfl, rfl, ?_, fun some_page => absurd rfl some_page, fun some_space => ?_, rfl, rfl⟩,
    ⟨?_, ?_, ?_, fun _ _ => rfl⟩, ⟨nodup_nil, ?_, ?_, ?_, ?_, ?_, fun _ _ => rfl⟩⟩
  · dsimp only [MemPage.cellInfo]
    rw [length_nil, Nat.zero_mul]
  · exact (place_first some_space).symm
  · exact stores_nil
  · exact fun p head => absurd head (by simp)
  · exact fun k inside => absurd inside (by simp)
  · exact fun p member => absurd member not_mem_nil
  · exact fun p member => absurd member not_mem_nil
  · rw [none_yet]
    exact holds
  · rw [none_yet]
    exact map
  · intro auto g behind inside ordinary
    obtain ⟨low, high, -⟩ := map auto g behind inside ordinary
    exact ⟨low, high, fun k listed => absurd listed (by simp)⟩

private theorem nPayload_eq : (if page.intKey then
    (if page.hasData then pData.length + nZero else 0)
      else (if page.hasData then pData.length + nZero else 0) + nKey.toNat) =
    (payload page pKey pData nZero).length := by
  cases intKey : page.intKey with
  | true => cases data : page.hasData <;> simp [payload, content, intKey, data]
  | false =>
    obtain ⟨nKey_eq, -⟩ := sound.entry intKey
    have data : page.hasData = false := by rw [MemPage.hasData, intKey, Bool.false_and]
    simp [payload, content, intKey, data, nKey_eq]

private theorem fillInCell_spec (holds : alloc.Holds db used) (map : MapHolds bt db used)
    (pCell : Nat → UInt8) : (∃ db' nearby,
      (Fill.start bt db page pCell pKey nKey pData nZero).Asks bt alloc.allocate db' nearby ∧
      alloc.allocate db' nearby = none ∧
      fillInCell bt alloc.allocate db page pCell pKey nKey pData nZero = none) ∨
    ∃ db' cell info chain,
      fillInCell bt alloc.allocate db page pCell pKey nKey pData nZero =
        some (db', cell, info.nSize) ∧
      Whole bt page cell db' info chain (payload page pKey pData nZero) ∧
      info.nKey = nKey ∧ (∀ p ∈ chain, p ∉ used) ∧ (∀ p ∈ used, db'.page p = db.page p) ∧
      MapHolds bt db' (used ∪ chain.toFinset) ∧ MapFits bt db' chain := by
  obtain ⟨nData, parsed⟩ := parse_header sound bt pCell
  have sizes := nPayload_eq sound
  have fits : ¬ (page.intKey = false ∧ nKey > 0x7fffffff) := by
    rintro ⟨index, large⟩
    obtain ⟨nKey_eq, small⟩ := sound.entry index
    omega
  have start := filling_start holds map page pKey nKey pData nZero nData
    (page.childPtrSize + (header page nKey pData.length nZero).length)
    (memcpy pCell page.childPtrSize (header page nKey pData.length nZero))
  have sized := sized_cellInfo bt page pKey nKey pData nZero nData
    (page.childPtrSize + (header page nKey pData.length nZero).length)
  have small := length_payload_lt sound
  rw [fillInCell, if_neg fits]
  dsimp only [Fill.start]
  rw [parsed, sizes, ← content]
  dsimp only [MemPage.cellInfo] at start sized ⊢
  rcases start.loop sized le_rfl (fun some_page => absurd rfl some_page) with
    ⟨db', nearby, asks, failed, none⟩ | ⟨s, chain, done, filling, used_last⟩
  · refine .inl ⟨db', nearby, asks, failed, ?_⟩
    rw [none, map_none]
  · refine .inr ⟨s.db, s.cell, page.cellInfo bt nKey nData (payload page pKey pData nZero).length
      (page.childPtrSize + (header page nKey pData.length nZero).length), chain, ?_,
      ⟨?_, rfl, small, filling.nodup, filling.numbers, ?_, fun p head => ?_, filling.links,
        ?_⟩, rfl,
      filling.fresh, filling.kept, filling.mapHolds, filling.mapFits⟩
    · rw [done]
      rfl
    · rw [← parsed]
      refine parse_congr fun k _ inside => filling.header k ?_
      rwa [parsed] at inside
    · exact filling.length_chain used_last
    · have some_page : chain ≠ [] := by
        rintro rfl
        simp at head
      have link := filling.first p head
      rw [sized.overflow (filling.beyond_page used_last some_page)] at link
      exact link
    · have stores := filling.stores
      rwa [take_length] at stores

end

/-- A cell on its page, and the caches of the cursors that are on it. -/
structure Session where
  db : Db
  pgno : Nat
  pc : Nat
  aOverflow : Nat → Option (List Nat)

namespace Session

def cursor (t : Session) (page : MemPage) (cur : Nat) (isIncrblobHandle : Bool) : BtCursor where
  pgno := t.pgno
  page := page
  pc := t.pc
  isIncrblobHandle := isIncrblobHandle
  aOverflow := t.aOverflow cur

def after (t : Session) (cur : Nat) (db : Db) (aOverflow : Option (List Nat)) : Session where
  db := db
  pgno := t.pgno
  pc := t.pc
  aOverflow := update t.aOverflow cur aOverflow

end Session

/-- Any calls of `accessPayload` by any cursors, with the writes among them listed. In between the
cell may move to another place, a cursor may lose its cache, and whatever is not of the cell and its
overflow pages may change. -/
inductive Reaches (bt : BtShared) (page : MemPage) (nSize nPayload : Nat) (chain : List Nat)
    (start : Session) : List (Nat × List UInt8) → Session → Prop where
  | start : Reaches bt page nSize nPayload chain start [] start
  | read {writes : List (Nat × List UInt8)} {t : Session} {cur offset : Nat} {blob : Bool}
      {pBuf bytes : List UInt8} {db : Db} {aOverflow : Option (List Nat)}
      (before : Reaches bt page nSize nPayload chain start writes t)
      (inside : offset + pBuf.length ≤ nPayload)
      (call : accessPayload bt t.db (t.cursor page cur blob) offset pBuf false =
        some (db, aOverflow, bytes)) :
      Reaches bt page nSize nPayload chain start writes (t.after cur db aOverflow)
  | write {writes : List (Nat × List UInt8)} {t : Session} {cur offset : Nat} {blob : Bool}
      {pBuf bytes : List UInt8} {db : Db} {aOverflow : Option (List Nat)}
      (before : Reaches bt page nSize nPayload chain start writes t)
      (inside : offset + pBuf.length ≤ nPayload)
      (call : accessPayload bt t.db (t.cursor page cur blob) offset pBuf true =
        some (db, aOverflow, bytes)) :
      Reaches bt page nSize nPayload chain start (writes ++ [(offset, pBuf)])
        (t.after cur db aOverflow)
  | others {writes : List (Nat × List UInt8)} {t : Session} {db : Db} {pgno pc : Nat}
      (before : Reaches bt page nSize nPayload chain start writes t)
      (placed : Placed bt page (fun k => t.db.page t.pgno (t.pc + k)) nSize t.db chain db pgno pc) :
      Reaches bt page nSize nPayload chain start writes ⟨db, pgno, pc, t.aOverflow⟩
  | forget {writes : List (Nat × List UInt8)} {t : Session}
      (before : Reaches bt page nSize nPayload chain start writes t) (cur : Nat) :
      Reaches bt page nSize nPayload chain start writes (t.after cur t.db none)

/-- A payload after writes to parts of it. -/
def rewritten (payload : List UInt8) (writes : List (Nat × List UInt8)) : List UInt8 :=
  writes.foldl (fun bytes w => splice bytes w.1 w.2) payload

private theorem rewritten_concat (payload : List UInt8) (writes : List (Nat × List UInt8))
    (offset : Nat) (bytes : List UInt8) : rewritten payload (writes ++ [(offset, bytes)]) =
      splice (rewritten payload writes) offset bytes := by
  rw [rewritten, foldl_append]
  rfl

variable {payload : List UInt8} {start t : Session} {writes : List (Nat × List UInt8)}

structure Session.Keeps (t : Session) (bt : BtShared) (page : MemPage) (info : CellInfo)
    (chain : List Nat) (payload : List UInt8) : Prop where
  stored : Stored bt page t.db t.pgno t.pc info chain payload
  caches : ∀ cur, CacheFits chain (t.aOverflow cur)

private theorem Session.Keeps.after (keeps : t.Keeps bt page info chain payload) {db : Db}
    {cur : Nat} {aOverflow : Option (List Nat)} {now : List UInt8}
    (stored : Stored bt page db t.pgno t.pc info chain now) (fits : CacheFits chain aOverflow) :
    (t.after cur db aOverflow).Keeps bt page info chain now := by
  refine ⟨stored, fun c => ?_⟩
  change CacheFits chain (update t.aOverflow cur aOverflow c)
  rcases eq_or_ne c cur with rfl | other
  · rw [update_self]
    exact fits
  · rw [update_of_ne other]
    exact keeps.caches c

section

variable {offset : Nat} {pBuf : List UInt8} (keeps : t.Keeps bt page info chain payload) (cur : Nat)
  (blob : Bool) (inside : offset + pBuf.length ≤ payload.length)

include keeps cur blob inside

private theorem Session.Keeps.read :
    ∃ aOverflow, accessPayload bt t.db (t.cursor page cur blob) offset pBuf false =
      some (t.db, aOverflow, (payload.drop offset).take pBuf.length) ∧
      CacheFits chain aOverflow := by
  have stored : Stored bt (t.cursor page cur blob).page t.db (t.cursor page cur blob).pgno
      (t.cursor page cur blob).pc info chain payload := keeps.stored
  obtain ⟨db', aOverflow, bytes, call, length, moved, fits⟩ :=
    accessPayload_spec false stored (keeps.caches cur) inside
  refine ⟨aOverflow, ?_, fits⟩
  have bytes_eq := moved.bytes_eq
  rw [length, stored.stores.gather inside] at bytes_eq
  rw [call, moved.read rfl, bytes_eq]

private theorem Session.Keeps.write :
    ∃ db aOverflow, accessPayload bt t.db (t.cursor page cur blob) offset pBuf true =
      some (db, aOverflow, pBuf) ∧ CacheFits chain aOverflow ∧
      Overwritten t.db.byte db.byte (spots bt t.pgno t.pc info chain) offset pBuf ∧
      db.nPage = t.db.nPage ∧ db.ptrmap = t.db.ptrmap := by
  have stored : Stored bt (t.cursor page cur blob).page t.db (t.cursor page cur blob).pgno
      (t.cursor page cur blob).pc info chain payload := keeps.stored
  obtain ⟨db', aOverflow, bytes, call, length, moved, fits⟩ :=
    accessPayload_spec true stored (keeps.caches cur) inside
  have bytes_eq := moved.write rfl
  rw [length, take_length] at bytes_eq
  subst bytes_eq
  exact ⟨db', aOverflow, call, fits, moved.written, moved.same⟩

end

private theorem Reaches.keeps (reaches : Reaches bt page info.nSize payload.length chain start
    writes t)
    (first : start.Keeps bt page info chain payload) :
    t.Keeps bt page info chain (rewritten payload writes) ∧
      (rewritten payload writes).length = payload.length := by
  induction reaches with
  | start => exact ⟨first, rfl⟩
  | @read writes t cur offset blob pBuf bytes db aOverflow before inside call ih =>
    obtain ⟨keeps, length⟩ := ih
    rw [← length] at inside
    obtain ⟨cache, result, fits⟩ := keeps.read cur blob inside
    have same := some_inj.mp (result.symm.trans call)
    obtain ⟨rfl, rfl, -⟩ := same
    exact ⟨keeps.after keeps.stored fits, length⟩
  | @write writes t cur offset blob pBuf bytes db aOverflow before inside call ih =>
    obtain ⟨keeps, length⟩ := ih
    rw [← length] at inside
    obtain ⟨db', cache, result, fits, written, same⟩ := keeps.write cur blob inside
    obtain ⟨rfl, rfl, rfl⟩ : db' = db ∧ cache = aOverflow ∧ pBuf = bytes := by
      simpa using result.symm.trans call
    rw [rewritten_concat]
    refine ⟨keeps.after (keeps.stored.overwritten written (by omega) same) fits, ?_⟩
    rw [length_splice (by omega), length]
  | @others writes t db pgno pc before placed ih =>
    obtain ⟨keeps, length⟩ := ih
    exact ⟨⟨keeps.stored.whole.stored placed, keeps.caches⟩, length⟩
  | @forget writes t before cur ih =>
    obtain ⟨keeps, length⟩ := ih
    exact ⟨keeps.after keeps.stored fun pages member => absurd member (by simp), length⟩

end

def smallPages : BtShared where
  usableSize := 512
  low := PageCount.small_page_low
  high := PageCount.small_page_high
  pendingBytePage := 2 ^ 21 + 1
  autoVacuum := true

def threePages : Db := ⟨3, fun _ _ => 0, fun _ => (1, 0)⟩

/-- An entry of an index with 120 bytes, on a leaf that keeps 39 of them. -/
def longKey : Option (Db × (Nat → UInt8) × Nat) :=
  fillInCell smallPages (freeListAllocator smallPages false 1000).allocate threePages ⟨true, false⟩
    (fun _ => 0) (replicate 120 7) 120 [] 0

private theorem longKey_size : longKey.map (fun filled => filled.2.2) = some 44 := by decide +kernel

/-- The third page with a cell at offset 300. -/
def onThird (db : Db) (cell : Nat → UInt8) : Db where
  nPage := db.nPage
  page := update db.page 3 fun k => cell (k - 300)
  ptrmap := db.ptrmap

private theorem placed_onThird {db : Db} {cell : Nat → UInt8} {chain : List Nat} (apart : 3 ∉ chain)
    (fits : MapFits smallPages db chain) :
    Placed smallPages ⟨true, false⟩ cell 44 db chain (onThird db cell) 3 300 := by
  refine ⟨by decide, fun k _ _ => ?_, apart, fun p listed k _ => ?_, fits⟩
  · simp [onThird]
  · have other : p ≠ 3 := fun same => apart (same ▸ listed)
    simp [onThird, update_of_ne other]

end SeSqlite.Btree.Payload
