/- source: src/btree.c
   digest: The space of a b-tree page: its cells, freeblocks and fragments, and how cells come and
   go. -/
import SeSqlite.Btree.Payload

set_option autoImplicit false
set_option relaxedAutoImplicit false

namespace SeSqlite.Btree.PageSpace

open Btree.Payload Bytes Varint

abbrev Data := Nat → UInt8

def get2byte (data : Data) (addr : Nat) : Nat :=
  (data addr).toNat * 2 ^ 8 + (data (addr + 1)).toNat

def put2byte (data : Data) (addr v : Nat) : Data :=
  memcpy data addr [UInt8.ofNat (v / 2 ^ 8), UInt8.ofNat v]

/-- `(((int)get2byte(X))-1)&0xffff)+1` -/
def get2byteNotZero (data : Data) (addr : Nat) : Nat :=
  (get2byte data addr + (2 ^ 16 - 1)) % 2 ^ 16 + 1

def putByte (data : Data) (addr v : Nat) : Data := memcpy data addr [UInt8.ofNat v]

def slice (data : Data) (addr n : Nat) : List UInt8 := (List.range n).map fun k => data (addr + k)

/-- A page of a kind, with its header at an offset; page 1 has it at 100. -/
structure Shape where
  bt : Payload.BtShared
  pageSize : Nat
  whole : bt.usableSize ≤ pageSize
  page : MemPage
  hdr : Nat
  offset : hdr = 0 ∨ hdr = 100
  secureDelete : Bool

namespace Shape

variable (sh : Shape)

def usableSize : Nat := sh.bt.usableSize

def cellOffset : Nat := if sh.page.leaf then sh.hdr + 8 else sh.hdr + 12

def mxCell : Nat := (sh.pageSize - 8) / 6

def flags : Nat := (if sh.page.intKey then 5 else 2) + if sh.page.leaf then 8 else 0

end Shape

/-- What `MemPage` keeps about a page beside its bytes. -/
structure Page where
  data : Data
  nCell : Nat
  nFree : Nat
  nOverflow : Nat

/-- The key is skipped; its nine bytes at most. -/
def skipKey (p : Data) : (rounds : Nat) → (i : Nat) → Nat
  | 0, i => i
  | rounds + 1, i => if (p i).toNat ≥ 2 ^ 7 ∧ i + 1 < 9 then skipKey p rounds (i + 1) else i + 1

def cellSizePtr (bt : Payload.BtShared) (page : MemPage) (pCell : Data) : Nat :=
  let n := page.childPtrSize
  let (nSize, n) :=
    if page.intKey then
      let (nSize, n) :=
        if page.hasData then
          let (nSize, more) := getVarint32 fun i => pCell (n + i)
          (nSize, n + more)
        else (0, n)
      (nSize, n + skipKey (fun i => pCell (n + i)) 9 0)
    else
      let (nSize, more) := getVarint32 fun i => pCell (n + i)
      (nSize, n + more)
  let nSize :=
    if nSize > page.maxLocal bt then
      let size := page.minLocal bt + (nSize - page.minLocal bt) % (bt.usableSize - 4)
      (if size > page.maxLocal bt then page.minLocal bt else size) + 4
    else nSize
  max 4 (nSize + n)

section

variable (sh : Shape)

/-- The loop of `defragmentPage`, with so many cells left. -/
def defragmentLoop (temp : Data) (iCellFirst : Nat) : (left : Nat) → (i cbrk : Nat) → Data →
    Option (Nat × Data)
  | 0, _, cbrk, data => some (cbrk, data)
  | left + 1, i, cbrk, data =>
    let pAddr := sh.cellOffset + i * 2
    let pc := get2byte data pAddr
    if pc < iCellFirst ∨ pc > sh.usableSize - 4 then none
    else
      let size := cellSizePtr sh.bt sh.page fun k => temp (pc + k)
      if cbrk < iCellFirst + size ∨ pc + size > sh.usableSize then none
      else
        let cbrk := cbrk - size
        let data := memcpy data cbrk (slice temp pc size)
        defragmentLoop temp iCellFirst left (i + 1) cbrk (put2byte data pAddr cbrk)

/-- What else is in the pager's temp space is not looked at. -/
def defragmentPage (p : Page) : Option Page :=
  let cbrk := get2byte p.data (sh.hdr + 5)
  let temp : Data := fun k => if cbrk ≤ k ∧ k < sh.usableSize then p.data k else 0
  let iCellFirst := sh.cellOffset + 2 * p.nCell
  (defragmentLoop sh temp iCellFirst p.nCell 0 sh.usableSize p.data).bind fun (cbrk, data) =>
    let data := put2byte data (sh.hdr + 5) cbrk
    let data := putByte (putByte (putByte data (sh.hdr + 1) 0) (sh.hdr + 2) 0) (sh.hdr + 7) 0
    let data := memcpy data iCellFirst (List.replicate (cbrk - iCellFirst) 0)
    if cbrk - iCellFirst ≠ p.nFree then none else some { p with data := data }

/-- The loop over the freeblocks for one that is big enough, for so many rounds. Without one the
result is `some none`. -/
def searchSlot (data : Data) (nByte nFrag : Nat) : (rounds : Nat) → (addr : Nat) →
    Option (Option (Nat × Data))
  | 0, _ => none
  | rounds + 1, addr =>
    let pc := get2byte data addr
    if pc = 0 then some none
    else if pc > sh.usableSize - 4 ∨ pc < addr + 4 then none
    else
      let size := get2byte data (pc + 2)
      if size ≥ nByte then
        let x := size - nByte
        if x < 4 then
          let data := memcpy data addr (slice data pc 2)
          some (some (pc + x, putByte data (sh.hdr + 7) (nFrag + x)))
        else if size + pc > sh.usableSize then none
        else some (some (pc + x, put2byte data (pc + 2) x))
      else searchSlot data nByte nFrag rounds pc

def takeGap (p : Page) (nByte : Nat) : Nat × Page :=
  let top := get2byteNotZero p.data (sh.hdr + 5) - nByte
  (top, { p with data := put2byte p.data (sh.hdr + 5) top })

/-- The gap is made big enough, if it is not. -/
def fromGap (p : Page) (nByte : Nat) : Option (Nat × Page) :=
  let gap := sh.cellOffset + 2 * p.nCell
  if gap + 2 + nByte > get2byteNotZero p.data (sh.hdr + 5) then
    (defragmentPage sh p).map fun p => takeGap sh p nByte
  else some (takeGap sh p nByte)

def allocateSpace (p : Page) (nByte : Nat) : Option (Nat × Page) :=
  let nFrag := (p.data (sh.hdr + 7)).toNat
  let gap := sh.cellOffset + 2 * p.nCell
  let top := get2byteNotZero p.data (sh.hdr + 5)
  if gap > top then none
  else if nFrag ≥ 60 then (defragmentPage sh p).bind fun p => fromGap sh p nByte
  else if gap + 2 ≤ top then
    (searchSlot sh p.data nByte nFrag sh.usableSize (sh.hdr + 1)).bind fun found =>
      match found with
      | some (idx, data) => some (idx, { p with data := data })
      | none => fromGap sh p nByte
  else fromGap sh p nByte

/-- The loop over the freeblocks for the place of a new one, for so many rounds. -/
def findPlace (data : Data) (start : Nat) : (rounds : Nat) → (addr : Nat) → Option (Nat × Nat)
  | 0, _ => none
  | rounds + 1, addr =>
    let pbegin := get2byte data addr
    if pbegin < start ∧ pbegin > 0 then
      if pbegin < addr + 4 then none else findPlace data start rounds pbegin
    else some (addr, pbegin)

/-- The loop that joins freeblocks next to each other, for so many rounds. -/
def coalesceLoop : (rounds : Nat) → (addr : Nat) → Data → Option Data
  | 0, _, _ => none
  | rounds + 1, addr, data =>
    let pbegin := get2byte data addr
    if pbegin = 0 then some data
    else
      let pnext := get2byte data pbegin
      let psize := get2byte data (pbegin + 2)
      if pbegin + psize + 3 ≥ pnext ∧ pnext > 0 then
        let frag := pnext - (pbegin + psize)
        if pnext < pbegin + psize ∨ frag > (data (sh.hdr + 7)).toNat then none
        else
          let data := putByte data (sh.hdr + 7) ((data (sh.hdr + 7)).toNat - frag)
          let data := put2byte data pbegin (get2byte data pnext)
          let x := pnext + get2byte data (pnext + 2) - pbegin
          coalesceLoop rounds addr (put2byte data (pbegin + 2) x)
      else coalesceLoop rounds pbegin data

/-- A freeblock at the start of the content area goes to the gap. -/
def absorbFirst (data : Data) : Data :=
  if data (sh.hdr + 1) = data (sh.hdr + 5) ∧ data (sh.hdr + 2) = data (sh.hdr + 6) then
    let pbegin := get2byte data (sh.hdr + 1)
    let data := memcpy data (sh.hdr + 1) (slice data pbegin 2)
    let top := get2byte data (sh.hdr + 5) + get2byte data (pbegin + 2)
    put2byte data (sh.hdr + 5) top
  else data

def freeSpace (p : Page) (start size : Nat) : Option Page :=
  let data := if sh.secureDelete then memcpy p.data start (List.replicate size 0) else p.data
  (findPlace data start sh.usableSize (sh.hdr + 1)).bind fun (addr, pbegin) =>
    if pbegin > sh.usableSize - 4 then none
    else
      let data := put2byte data addr start
      let data := put2byte data start pbegin
      let data := put2byte data (start + 2) size
      (coalesceLoop sh (2 * sh.usableSize) (sh.hdr + 1) data).map fun data =>
        { p with data := absorbFirst sh data, nFree := p.nFree + size }

def zeroPage (data : Data) : Page :=
  let data :=
    if sh.secureDelete then memcpy data sh.hdr (List.replicate (sh.usableSize - sh.hdr) 0) else data
  let data := putByte data sh.hdr sh.flags
  let data := memcpy data (sh.hdr + 1) (List.replicate 4 0)
  let data := putByte data (sh.hdr + 7) 0
  { data := put2byte data (sh.hdr + 5) sh.usableSize
    nCell := 0
    nFree := sh.usableSize - sh.cellOffset
    nOverflow := 0 }

def dropCell (p : Page) (idx sz : Nat) : Option Page :=
  let ptr := sh.cellOffset + 2 * idx
  let pc := get2byte p.data ptr
  if pc < get2byte p.data (sh.hdr + 5) ∨ pc + sz > sh.usableSize then none
  else
    (freeSpace sh p pc sz).map fun p =>
      let nCell := p.nCell - 1
      let data := memcpy p.data ptr (slice p.data (ptr + 2) (2 * (nCell - idx)))
      { p with
        data := put2byte data (sh.hdr + 3) nCell
        nCell := nCell
        nFree := p.nFree + 2 }

/-- The text of a cell, with the number of a child in front of it if there is one. -/
def cellText (pCell : Data) (sz iChild : Nat) : List UInt8 :=
  if iChild ≠ 0 then sqlite3Put4byte iChild ++ slice pCell 4 (sz - 4) else slice pCell 0 sz

/-- A cell that does not fit is kept apart, and the page stays as it is. -/
def insertCell (p : Page) (i : Nat) (pCell : Data) (sz iChild : Nat) : Option Page :=
  if p.nOverflow ≠ 0 ∨ sz + 2 > p.nFree then some { p with nOverflow := p.nOverflow + 1 }
  else
    let last := sh.cellOffset + 2 * p.nCell
    let ins := sh.cellOffset + 2 * i
    (allocateSpace sh p sz).map fun (idx, p) =>
      let data := memcpy p.data idx (cellText pCell sz iChild)
      let data := memcpy data (ins + 2) (slice data ins (last - ins))
      let data := put2byte data ins idx
      { p with
        data := put2byte data (sh.hdr + 3) (p.nCell + 1)
        nCell := p.nCell + 1
        nFree := p.nFree - (2 + sz) }

def decodeFlags (flagByte : Nat) : Option MemPage :=
  let leaf := flagByte / 8
  let rest := flagByte - 8 * (flagByte / 8 % 2)
  if rest = 5 then some ⟨leaf = 1, true⟩
  else if rest = 2 then some ⟨leaf = 1, false⟩
  else none

variable (sh : Shape)

/-- The loop over the freeblocks that adds up their sizes, for so many rounds. -/
def sumFree (data : Data) (iCellFirst : Nat) : (rounds : Nat) → (pc nFree : Nat) → Option Nat
  | 0, _, _ => none
  | rounds + 1, pc, nFree =>
    if pc = 0 then some nFree
    else if pc < iCellFirst ∨ pc > sh.usableSize - 4 then none
    else
      let next := get2byte data pc
      let size := get2byte data (pc + 2)
      if (next > 0 ∧ next ≤ pc + size + 3) ∨ pc + size > sh.usableSize then none
      else sumFree data iCellFirst rounds next (nFree + size)

/-- The kind of the page, and what is kept about it. -/
def btreeInitPage (data : Data) : Option (MemPage × Page) :=
  (decodeFlags (data sh.hdr).toNat).bind fun page =>
    let cellOffset := if page.leaf then sh.hdr + 8 else sh.hdr + 12
    let top := get2byteNotZero data (sh.hdr + 5)
    let nCell := get2byte data (sh.hdr + 3)
    if nCell > sh.mxCell then none
    else
      let iCellFirst := cellOffset + 2 * nCell
      (sumFree sh data iCellFirst sh.usableSize (get2byte data (sh.hdr + 1))
        ((data (sh.hdr + 7)).toNat + top)).bind fun nFree =>
        if nFree > sh.usableSize then none
        else
          some (page,
            { data := data
              nCell := nCell
              nFree := nFree - iCellFirst
              nOverflow := 0 })

end

end SeSqlite.Btree.PageSpace
