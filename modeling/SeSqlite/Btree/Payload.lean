/- source: src/btree.c
   digest: The payload of a cell, on its page and on a chain of overflow pages: how it is stored and
   how a part of it is read or written. -/
import Mathlib.Data.Finset.Insert
import SeSqlite.Btree.PageCount
import SeSqlite.Bytes
import SeSqlite.Varint

set_option autoImplicit false
set_option relaxedAutoImplicit false

namespace SeSqlite.Btree.Payload

open Btree.PageCount Bytes Varint

def ptrmapOverflow1 : Nat := 3
def ptrmapOverflow2 : Nat := 4

def memcpy (mem : Nat → UInt8) (offset : Nat) (bytes : List UInt8) : Nat → UInt8 := fun i =>
  if offset ≤ i ∧ i < offset + bytes.length then bytes.getD (i - offset) 0 else mem i

def get4byte (mem : Nat → UInt8) (offset : Nat) : Nat :=
  sqlite3Get4byte [mem offset, mem (offset + 1), mem (offset + 2), mem (offset + 3)]

structure BtShared extends PageCount.BtShared where
  autoVacuum : Bool

/-- The bytes of the pages, and the entries of the pointer map by page. -/
structure Db where
  nPage : Nat
  page : Nat → Nat → UInt8
  ptrmap : Nat → Nat × Nat

namespace Db

def memcpy (db : Db) (pgno offset : Nat) (bytes : List UInt8) : Db :=
  { db with page := Function.update db.page pgno (Payload.memcpy (db.page pgno) offset bytes) }

def setEntry (db : Db) (key eType parent : Nat) : Db :=
  { db with ptrmap := Function.update db.ptrmap key (eType, parent) }

end Db

namespace BtShared

variable (bt : BtShared)

def maxLocal : Nat := (bt.usableSize - 12) * 64 / 255 - 23

def minLocal : Nat := (bt.usableSize - 12) * 32 / 255 - 23

def maxLeaf : Nat := bt.usableSize - 35

def minLeaf : Nat := (bt.usableSize - 12) * 32 / 255 - 23

def ovflSize : Nat := bt.usableSize - 4

/-- An entry would lie before its map page: an error. -/
def ptrmapPut (db : Db) (key eType parent : Nat) : Option Db :=
  if key = 0 ∨ key ≤ bt.ptrmapPageno key then none else some (db.setEntry key eType parent)

def ptrmapGet (db : Db) (key : Nat) : Option (Nat × Nat) :=
  if key ≤ bt.ptrmapPageno key then none
  else if (db.ptrmap key).1 < 1 ∨ (db.ptrmap key).1 > 5 then none
  else some (db.ptrmap key)

/-- The loops over the pages of the pointer map and the page of the pending byte, for so many
rounds. -/
def skipForward : (rounds : Nat) → (pgno : Nat) → Option Nat
  | 0, _ => none
  | rounds + 1, pgno =>
    if bt.isPtrmapPage pgno ∨ pgno = bt.pendingBytePage then skipForward rounds (add32 pgno 1)
    else some pgno

end BtShared

/-- The flags of a page as `decodeFlags` sets them. -/
structure MemPage where
  leaf : Bool
  intKey : Bool

namespace MemPage

variable (page : MemPage)

def hasData : Bool := page.intKey && page.leaf

def childPtrSize : Nat := if page.leaf then 0 else 4

def maxLocal (bt : BtShared) : Nat := if page.intKey then bt.maxLeaf else bt.maxLocal

def minLocal (bt : BtShared) : Nat := if page.intKey then bt.minLeaf else bt.minLocal

end MemPage

structure CellInfo where
  nKey : Int
  nData : Nat
  nPayload : Nat
  nHeader : Nat
  nLocal : Nat
  iOverflow : Nat
  nSize : Nat

def i64 (bits : Nat) : Int := if bits < 2 ^ 63 then bits else bits - 2 ^ 64

/-- `*(u64*)&nKey` -/
def u64 (nKey : Int) : Nat := (nKey % 2 ^ 64).toNat

def MemPage.nLocal (page : MemPage) (bt : BtShared) (nPayload : Nat) : Nat :=
  if nPayload ≤ page.maxLocal bt then nPayload
  else
    let surplus := page.minLocal bt + (nPayload - page.minLocal bt) % (bt.usableSize - 4)
    if surplus ≤ page.maxLocal bt then surplus else page.minLocal bt

def MemPage.cellInfo (page : MemPage) (bt : BtShared) (nKey : Int) (nData nPayload n : Nat) :
    CellInfo where
  nKey := nKey
  nData := nData
  nPayload := nPayload
  nHeader := n
  nLocal := page.nLocal bt nPayload
  iOverflow := if nPayload ≤ page.maxLocal bt then 0 else page.nLocal bt nPayload + n
  nSize :=
    if nPayload ≤ page.maxLocal bt then max 4 (n + nPayload)
    else page.nLocal bt nPayload + n + 4

def btreeParseCellPtr (bt : BtShared) (page : MemPage) (pCell : Nat → UInt8) : CellInfo :=
  if page.intKey then
    let (nPayload, n) := if page.hasData then getVarint32 pCell else (0, page.childPtrSize)
    let (key, more) := sqlite3GetVarint fun i => pCell (n + i)
    page.cellInfo bt (i64 key) nPayload nPayload (n + more)
  else
    let n := page.childPtrSize
    let (nPayload, more) := getVarint32 fun i => pCell (n + i)
    page.cellInfo bt nPayload 0 nPayload (n + more)

/-- The variables of the loop of `fillInCell`. A pointer is into the buffer of the cell, or into a
page. -/
structure Fill where
  db : Db
  cell : Nat → UInt8
  pSrc : List UInt8
  nPayload : Nat
  spaceLeft : Nat
  pgnoOvfl : Nat
  pPrior : Option Nat × Nat
  pPayload : Option Nat × Nat

namespace Fill

def memcpy (s : Fill) (dest : Option Nat × Nat) (bytes : List UInt8) : Fill :=
  match dest with
  | (none, i) => { s with cell := Payload.memcpy s.cell i bytes }
  | (some pgno, i) => { s with db := s.db.memcpy pgno i bytes }

def nearby (s : Fill) (bt : BtShared) : Option Nat :=
  if bt.autoVacuum then bt.skipForward 3 (add32 s.pgnoOvfl 1) else some s.pgnoOvfl

/-- The entry of the new page in the pointer map. -/
def enter (s : Fill) (bt : BtShared) (db : Db) (pgno : Nat) : Option Db :=
  if bt.autoVacuum then
    bt.ptrmapPut db pgno (if s.pgnoOvfl ≠ 0 then ptrmapOverflow2 else ptrmapOverflow1) s.pgnoOvfl
  else some db

def link (s : Fill) (bt : BtShared) (db : Db) (pgno : Nat) : Fill :=
  let s := { s with db := db }.memcpy s.pPrior (sqlite3Put4byte pgno)
  let s := s.memcpy (some pgno, 0) (sqlite3Put4byte 0)
  { s with
    pgnoOvfl := pgno
    pPrior := (some pgno, 0)
    pPayload := (some pgno, 4)
    spaceLeft := bt.usableSize - 4 }

def addPage (s : Fill) (bt : BtShared) (allocate : Db → Nat → Option (Nat × Db)) : Option Fill :=
  (s.nearby bt).bind fun nearby =>
    (allocate s.db nearby).bind fun (pgno, db) =>
      (s.enter bt db pgno).map fun db => s.link bt db pgno

def count (s : Fill) : Nat :=
  let n := min s.nPayload s.spaceLeft
  if s.pSrc ≠ [] then min n s.pSrc.length else n

/-- Bytes of the source, and zeros behind its end. By then `nData` is zero for all kinds of pages,
so that the source ends with the key or the data. -/
def copy (s : Fill) : Fill :=
  let n := s.count
  let s := s.memcpy s.pPayload (if s.pSrc ≠ [] then s.pSrc.take n else List.replicate n 0)
  { s with
    nPayload := s.nPayload - n
    pPayload := (s.pPayload.1, s.pPayload.2 + n)
    pSrc := s.pSrc.drop n
    spaceLeft := s.spaceLeft - n }

def loop (bt : BtShared) (allocate : Db → Nat → Option (Nat × Db)) :
    (rounds : Nat) → Fill → Option Fill
  | 0, s => if s.nPayload = 0 then some s else none
  | rounds + 1, s =>
    if s.nPayload = 0 then some s
    else
      (if s.spaceLeft = 0 then s.addPage bt allocate else some s).bind fun s =>
        loop bt allocate rounds s.copy

end Fill

/-- The header of a cell, behind the pointer to a child. -/
def header (page : MemPage) (nKey : Int) (nData nZero : Nat) : List UInt8 :=
  (if page.hasData then putVarint32 (nData + nZero) else []) ++ sqlite3PutVarint (u64 nKey)

/-- The cell with its header, before the loop. -/
def Fill.start (bt : BtShared) (db : Db) (page : MemPage) (pCell : Nat → UInt8) (pKey : List UInt8)
    (nKey : Int) (pData : List UInt8) (nZero : Nat) : Fill :=
  let bytes := header page nKey pData.length nZero
  let cell := Payload.memcpy pCell page.childPtrSize bytes
  let info := btreeParseCellPtr bt page cell
  let nPayload := if page.hasData then pData.length + nZero else 0
  { db := db
    cell := cell
    pSrc := if page.intKey then (if page.hasData then pData else []) else pKey
    nPayload := if page.intKey then nPayload else nPayload + nKey.toNat
    spaceLeft := info.nLocal
    pgnoOvfl := 0
    pPrior := (none, info.iOverflow)
    pPayload := (none, page.childPtrSize + bytes.length) }

/-- A run of the loop asks for a page of a database near another. -/
inductive Fill.Asks (bt : BtShared) (allocate : Db → Nat → Option (Nat × Db)) :
    Fill → Db → Nat → Prop
  | here {s : Fill} {nearby : Nat} (some_byte : s.nPayload ≠ 0) (full : s.spaceLeft = 0)
      (hint : s.nearby bt = some nearby) : Asks bt allocate s s.db nearby
  | later {s s' : Fill} {db : Db} {nearby : Nat} (some_byte : s.nPayload ≠ 0)
      (round : (if s.spaceLeft = 0 then s.addPage bt allocate else some s) = some s')
      (asks : Asks bt allocate s'.copy db nearby) : Asks bt allocate s db nearby

def fillInCell (bt : BtShared) (allocate : Db → Nat → Option (Nat × Db)) (db : Db) (page : MemPage)
    (pCell : Nat → UInt8) (pKey : List UInt8) (nKey : Int) (pData : List UInt8) (nZero : Nat) :
    Option (Db × (Nat → UInt8) × Nat) :=
  if page.intKey = false ∧ nKey > 0x7fffffff then none
  else
    let s := Fill.start bt db page pCell pKey nKey pData nZero
    (Fill.loop bt allocate s.nPayload s).map fun s' =>
      (s'.db, s'.cell, (btreeParseCellPtr bt page s.cell).nSize)

def getOverflowPage (bt : BtShared) (db : Db) (ovfl : Nat) : Option Nat :=
  if bt.autoVacuum then
    (bt.skipForward 3 (add32 ovfl 1)).bind fun iGuess =>
      if iGuess ≤ db.nPage then
        (bt.ptrmapGet db iGuess).bind fun (eType, pgno) =>
          if eType = ptrmapOverflow2 ∧ pgno = ovfl then some iGuess
          else some (get4byte (db.page ovfl) 0)
      else some (get4byte (db.page ovfl) 0)
  else some (get4byte (db.page ovfl) 0)

/-- What `pBuf` holds afterwards comes second. -/
def copyPayload (db : Db) (pgno offset : Nat) (pBuf : List UInt8) (nByte : Nat) (eOp : Bool) :
    Db × List UInt8 :=
  if eOp then (db.memcpy pgno offset (pBuf.take nByte), pBuf.take nByte)
  else (db, (List.range nByte).map fun k => db.page pgno (offset + k))

/-- The variables of the loop of `accessPayload`: `pBuf` is the buffer from the pointer on, and
`done` what is before it. -/
structure Access where
  db : Db
  aOverflow : Option (List Nat)
  iIdx : Nat
  offset : Nat
  nextPage : Nat
  pBuf : List UInt8
  done : List UInt8

namespace Access

def amt (s : Access) : Nat := s.pBuf.length

/-- A place of the cache behind its end is an error here. -/
def cached (aOverflow : Option (List Nat)) (i : Nat) : Option Nat :=
  match aOverflow with
  | none => some 0
  | some pages => pages[i]?

/-- The cache with the page that is looked at. -/
def remember (s : Access) : Option (Option (List Nat)) :=
  match s.aOverflow with
  | none => some none
  | some pages => if s.iIdx < pages.length then some (some (pages.set s.iIdx s.nextPage)) else none

/-- The page has nothing of the range; only the next one is looked for. -/
def pass (s : Access) (bt : BtShared) : Option Access :=
  (cached s.aOverflow (s.iIdx + 1)).bind fun known =>
    (if known ≠ 0 then some known else getOverflowPage bt s.db s.nextPage).map fun next =>
      { s with iIdx := s.iIdx + 1, offset := s.offset - bt.ovflSize, nextPage := next }

def move (s : Access) (bt : BtShared) (eOp : Bool) : Access :=
  let a := min s.amt (bt.ovflSize - s.offset)
  let next := get4byte (s.db.page s.nextPage) 0
  let (db, bytes) := copyPayload s.db s.nextPage (s.offset + 4) s.pBuf a eOp
  { db := db
    aOverflow := s.aOverflow
    iIdx := s.iIdx + 1
    offset := 0
    nextPage := next
    pBuf := s.pBuf.drop a
    done := s.done ++ bytes }

def body (s : Access) (bt : BtShared) (eOp : Bool) : Option Access :=
  s.remember.bind fun aOverflow =>
    let s := { s with aOverflow := aOverflow }
    if s.offset ≥ bt.ovflSize then s.pass bt else some (s.move bt eOp)

def loop (bt : BtShared) (eOp : Bool) : (rounds : Nat) → Access → Option Access
  | 0, s => some s
  | rounds + 1, s =>
    if s.amt > 0 ∧ s.nextPage ≠ 0 then (s.body bt eOp).bind (loop bt eOp rounds) else some s

end Access

/-- The entry that a cursor is on: the cell at an offset of a page. -/
structure BtCursor where
  pgno : Nat
  page : MemPage
  pc : Nat
  isIncrblobHandle : Bool
  aOverflow : Option (List Nat)

/-- The part of the range on the page of the cell. -/
def accessLocal (db : Db) (pgno aPayload nLocal offset : Nat) (pBuf : List UInt8) (eOp : Bool) :
    Db × Nat × List UInt8 × List UInt8 :=
  if offset < nLocal then
    let a := min pBuf.length (nLocal - offset)
    let (db, bytes) := copyPayload db pgno (aPayload + offset) pBuf a eOp
    (db, 0, pBuf.drop a, bytes)
  else (db, offset - nLocal, pBuf, [])

/-- The cache is allocated for an incremental blob handle. -/
def allocateCache (cur : BtCursor) (bt : BtShared) (info : CellInfo) : Option (List Nat) :=
  if cur.isIncrblobHandle ∧ cur.aOverflow = none then
    some (List.replicate ((info.nPayload - info.nLocal + bt.ovflSize - 1) / bt.ovflSize) 0)
  else cur.aOverflow

/-- The loop starts at the page of the range if the cache has that page. -/
def enterChain (bt : BtShared) (s : Access) : Option Access :=
  (Access.cached s.aOverflow (s.offset / bt.ovflSize)).map fun known =>
    if known ≠ 0 then
      { s with
        iIdx := s.offset / bt.ovflSize
        nextPage := known
        offset := s.offset % bt.ovflSize }
    else s

/-- The buffer gives the amount; it comes back with the pages and the cursor's cache. -/
def accessPayload (bt : BtShared) (db : Db) (cur : BtCursor) (offset : Nat) (pBuf : List UInt8)
    (eOp : Bool) : Option (Db × Option (List Nat) × List UInt8) :=
  let info := btreeParseCellPtr bt cur.page fun i => db.page cur.pgno (cur.pc + i)
  let aPayload := cur.pc + info.nHeader
  let nKey := if cur.page.intKey then 0 else info.nKey.toNat
  if add32 offset pBuf.length > add32 nKey info.nData ∨
      aPayload + info.nLocal > bt.usableSize then none
  else
    let (db, offset, rest, done) :=
      accessLocal db cur.pgno aPayload info.nLocal offset pBuf eOp
    if rest.length > 0 then
      let s : Access :=
        { db := db
          aOverflow := allocateCache cur bt info
          iIdx := 0
          offset := offset
          nextPage := get4byte (db.page cur.pgno) (aPayload + info.nLocal)
          pBuf := rest
          done := done }
      ((enterChain bt s).bind fun s => s.loop bt eOp (s.offset + s.amt)).bind fun s =>
        if s.amt > 0 then none else some (s.db, s.aOverflow, s.done)
    else some (db, cur.aOverflow, done)

end SeSqlite.Btree.Payload
