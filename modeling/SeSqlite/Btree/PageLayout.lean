/- source: src/btree.c
   digest: What the bytes of a page say: cells, freeblocks, fragments and the gap, which together
   are the whole page. -/
import SeSqlite.Btree.PageSpace
import SeSqlite.Btree.PayloadLayout
import SeSqlite.Lib.Stretches

set_option autoImplicit false
set_option relaxedAutoImplicit false

namespace SeSqlite.Btree.PageSpace

open Btree.Payload Lib.Stretches Varint List

section

variable {data data' : Data} {addr addr' v i : Nat}

theorem get2byte_congr (first : data' addr' = data addr)
    (second : data' (addr' + 1) = data (addr + 1)) : get2byte data' addr' = get2byte data addr := by
  rw [get2byte, get2byte, first, second]

theorem get2byte_lt (data : Data) (addr : Nat) : get2byte data addr < 2 ^ 16 := by
  have first := (data addr).toNat_lt
  have second := (data (addr + 1)).toNat_lt
  rw [get2byte]
  omega

theorem put2byte_other (outside : i < addr ∨ addr + 2 ≤ i) : put2byte data addr v i = data i :=
  memcpy_outside outside

theorem putByte_other (outside : i ≠ addr) : putByte data addr v i = data i :=
  memcpy_outside (by rw [length_singleton]; omega)

theorem putByte_same (small : v < 2 ^ 8) : (putByte data addr v addr).toNat = v := by
  have stored : putByte data addr v (addr + 0) = UInt8.ofNat v := memcpy_inside Nat.one_pos
  rw [Nat.add_zero] at stored
  rw [stored, UInt8.toNat_ofNat']
  omega

theorem get2byte_put2byte (data : Data) (addr v : Nat) :
    get2byte (put2byte data addr v) addr = v % 2 ^ 16 := by
  have first : put2byte data addr v (addr + 0) = UInt8.ofNat (v / 2 ^ 8) :=
    memcpy_inside Nat.two_pos
  have second : put2byte data addr v (addr + 1) = UInt8.ofNat v :=
    memcpy_inside (by decide : 1 < 2)
  rw [Nat.add_zero] at first
  rw [get2byte, first, second, UInt8.toNat_ofNat', UInt8.toNat_ofNat']
  omega

theorem get2byte_put2byte_of_lt (small : v < 2 ^ 16) :
    get2byte (put2byte data addr v) addr = v := by
  rw [get2byte_put2byte, Nat.mod_eq_of_lt small]

theorem get2byte_put2byte_other (apart : addr' + 2 ≤ addr ∨ addr + 2 ≤ addr') :
    get2byte (put2byte data addr v) addr' = get2byte data addr' :=
  get2byte_congr (put2byte_other (by omega)) (put2byte_other (by omega))

theorem get2byte_putByte_other (apart : addr' + 2 ≤ addr ∨ addr < addr') :
    get2byte (putByte data addr v) addr' = get2byte data addr' :=
  get2byte_congr (putByte_other (by omega)) (putByte_other (by omega))

theorem get2byte_memcpy_other {bytes : List UInt8}
    (apart : addr' + 2 ≤ addr ∨ addr + bytes.length ≤ addr') :
    get2byte (memcpy data addr bytes) addr' = get2byte data addr' :=
  get2byte_congr (memcpy_outside (by omega)) (memcpy_outside (by omega))

theorem get2byteNotZero_put2byte (pos : 0 < v) (small : v ≤ 2 ^ 16) :
    get2byteNotZero (put2byte data addr v) addr = v := by
  rw [get2byteNotZero, get2byte_put2byte]
  omega

theorem get2byteNotZero_congr (same : get2byte data' addr = get2byte data addr) :
    get2byteNotZero data' addr = get2byteNotZero data addr := by
  rw [get2byteNotZero, get2byteNotZero, same]

@[simp] theorem length_slice (data : Data) (addr n : Nat) : (slice data addr n).length = n := by
  simp [slice]

theorem getElem_slice {n k : Nat} (inside : k < (slice data addr n).length) :
    (slice data addr n)[k] = data (addr + k) := by
  simp [slice]

theorem memcpy_slice {n k : Nat} {source : Data} (inside : k < n) :
    memcpy data addr (slice source addr' n) (addr + k) = source (addr' + k) := by
  rw [memcpy_inside (by rwa [length_slice]), getElem_slice]

end

section

variable {bt : Payload.BtShared} {page : MemPage}

theorem getFrom_length {p : Data} {rounds i : Nat} (v : Nat) (place : i + rounds = 8) :
    (getFrom p rounds i v).2 = skipKey p (rounds + 1) i := by
  induction rounds generalizing i v with
  | zero =>
    rw [getFrom, skipKey, if_neg (by omega)]
  | succ rounds ih =>
    rw [getFrom, skipKey]
    by_cases high : (p i).toNat < 2 ^ 7
    · rw [if_pos high, if_neg (by omega)]
    · rw [if_neg high, if_pos ⟨by omega, by omega⟩]
      exact ih _ (by omega)

theorem cellSizePtr_eq (pCell : Data) :
    cellSizePtr bt page pCell = (btreeParseCellPtr bt page pCell).nSize := by
  have key (q : Data) : skipKey q 9 0 = (sqlite3GetVarint q).2 := (getFrom_length 0 rfl).symm
  have size (nPayload n : Nat) : max 4 ((if nPayload > page.maxLocal bt then
      (if page.minLocal bt + (nPayload - page.minLocal bt) % (bt.usableSize - 4) >
        page.maxLocal bt then page.minLocal bt
      else page.minLocal bt + (nPayload - page.minLocal bt) % (bt.usableSize - 4)) + 4
      else nPayload) + n) = (page.cellInfo bt 0 0 nPayload n).nSize := by
    dsimp only [MemPage.cellInfo, MemPage.nLocal]
    rcases Nat.lt_or_ge (page.maxLocal bt) nPayload with large | small
    · rw [if_pos large, if_neg large.not_ge, if_neg large.not_ge]
      split <;> split <;> omega
    · rw [if_neg small.not_gt, if_pos small]
      omega
  cases intKey : page.intKey with
  | true =>
    cases data : page.hasData with
    | true =>
      rw [parse_data intKey data, cellSizePtr]
      simp only [intKey, data, childPtrSize_of_data data, Nat.zero_add, key]
      exact size _ _
    | false =>
      rw [parse_key intKey data, cellSizePtr]
      simp only [intKey, data, key]
      exact size _ _
  | false =>
    rw [parse_index intKey, cellSizePtr]
    simp only [intKey]
    exact size _ _

theorem four_le_cellSizePtr (pCell : Data) : 4 ≤ cellSizePtr bt page pCell :=
  Nat.le_max_left _ _

theorem cellSizePtr_congr {pCell pCell' : Data}
    (same : ∀ k, page.childPtrSize ≤ k → k < cellSizePtr bt page pCell → pCell' k = pCell k) :
    cellSizePtr bt page pCell' = cellSizePtr bt page pCell := by
  rw [cellSizePtr_eq, cellSizePtr_eq] at *
  rw [parse_congr]
  intro k pointer header
  refine same k pointer (header.trans_le ?_)
  obtain ⟨nKey, nData, nPayload, n, parse, -⟩ := parse_eq bt page pCell
  rw [parse]
  dsimp only [MemPage.cellInfo]
  split <;> omega

end

section

/-- The freeblocks that the link at an address leads to. -/
def FreeChain (data : Data) : (addr : Nat) → List Stretch → Prop
  | addr, [] => get2byte data addr = 0
  | addr, b :: rest =>
    get2byte data addr = b.1 ∧ get2byte data (b.1 + 2) = b.2 ∧ FreeChain data b.1 rest

theorem FreeChain.congr {data data' : Data} {addr addr' : Nat} {free : List Stretch}
    (chain : FreeChain data addr free) (link : get2byte data' addr' = get2byte data addr)
    (same : ∀ b ∈ free, ∀ k < 4, data' (b.1 + k) = data (b.1 + k)) :
    FreeChain data' addr' free := by
  induction free generalizing addr addr' with
  | nil => exact link.trans chain
  | cons b rest ih =>
    obtain ⟨first, size, behind⟩ := chain
    have here := same b mem_cons_self
    refine ⟨link.trans first, ?_, ih behind ?_ fun c member =>
      same c (mem_cons_of_mem b member)⟩
    · rw [← size]
      exact get2byte_congr (here 2 (by decide)) (here 3 (by decide))
    · exact get2byte_congr (here 0 (by decide)) (here 1 (by decide))

abbrev Cell := Nat × List UInt8

def Cell.stretch (c : Cell) : Stretch := (c.1, c.2.length)

def stretches (cells : List Cell) : List Stretch := cells.map Cell.stretch

def Sized (sh : Shape) (text : List UInt8) : Prop :=
  cellSizePtr sh.bt sh.page (fun k => text.getD k 0) = text.length

variable (sh : Shape) (data : Data)

def top : Nat := get2byteNotZero data (sh.hdr + 5)

def nFrag : Nat := (data (sh.hdr + 7)).toNat

/-- The content area: cells, freeblocks, and stretches that are held for other use. None overlap,
and what is left over is the fragments. -/
structure Content (lo : Nat) (cells : List Cell) (free held : List Stretch) : Prop where
  texts : ∀ c ∈ cells, ∀ k (inside : k < c.2.length), data (c.1 + k) = c.2[k]
  sized : ∀ c ∈ cells, Sized sh c.2
  chain : FreeChain data (sh.hdr + 1) free
  blocks : ∀ b ∈ free, 4 ≤ b.2
  before : free.Pairwise (Before 3)
  apart : (held ++ stretches cells ++ free).Pairwise Apart
  inside : ∀ a ∈ held ++ stretches cells ++ free, Inside (top sh data) sh.usableSize a
  header : sh.hdr + 8 ≤ lo
  bounds : lo ≤ top sh data ∧ top sh data ≤ sh.usableSize
  filled : total (held ++ stretches cells ++ free) + nFrag sh data = sh.usableSize - top sh data
  frag : nFrag sh data ≤ 62

/-- The header and the pointers to the cells. -/
structure Pointers (cells : List Cell) : Prop where
  flags : (data sh.hdr).toNat = sh.flags
  stored : get2byte data (sh.hdr + 3) = cells.length
  pointers : ∀ i (inside : i < cells.length),
    get2byte data (sh.cellOffset + 2 * i) = cells[i].1

def gap (cells : List Cell) : Nat := sh.cellOffset + 2 * cells.length

structure Tiled (p : Page) (cells : List Cell) (free : List Stretch) : Prop where
  nCell : p.nCell = cells.length
  nOverflow : p.nOverflow = 0
  pointers : Pointers sh p.data cells
  content : Content sh p.data (gap sh cells) cells free []
  nFree : p.nFree + gap sh cells = top sh p.data + total free + nFrag sh p.data

end

section

variable {sh : Shape} {data data' : Data} {lo : Nat} {cells : List Cell} {free held : List Stretch}

theorem cellOffset_bounds (sh : Shape) :
    sh.hdr + 8 ≤ sh.cellOffset ∧ sh.cellOffset ≤ sh.hdr + 12 ∧ sh.hdr ≤ 100 := by
  have offset := sh.offset
  rw [Shape.cellOffset]
  split <;> omega

theorem usable_bounds (sh : Shape) : 480 ≤ sh.usableSize ∧ sh.usableSize ≤ 65536 :=
  ⟨sh.bt.low, sh.bt.high⟩

theorem stretch_mem {c : Cell} (member : c ∈ cells) : c.stretch ∈ stretches cells :=
  mem_map_of_mem member

namespace Content

theorem frame (content : Content sh data lo cells free held) (links : get2byte data' (sh.hdr + 1) =
      get2byte data (sh.hdr + 1)) (start : get2byte data' (sh.hdr + 5) = get2byte data (sh.hdr + 5))
    (frags : data' (sh.hdr + 7) = data (sh.hdr + 7))
    (area : ∀ i, top sh data ≤ i → i < sh.usableSize → data' i = data i) {lo' : Nat}
    (header : sh.hdr + 8 ≤ lo') (below : lo' ≤ top sh data) :
    Content sh data' lo' cells free held := by
  have same_top : top sh data' = top sh data := get2byteNotZero_congr start
  have same_frag : nFrag sh data' = nFrag sh data := by rw [nFrag, nFrag, frags]
  refine ⟨fun c member k less => ?_, content.sized, ?_, content.blocks, content.before,
    content.apart, ?_, header, ?_, ?_, ?_⟩
  · obtain ⟨low, high⟩ := content.inside c.stretch (by simp [stretch_mem member])
    rw [← content.texts c member k less]
    dsimp only [Cell.stretch] at low high
    exact area _ (by omega) (by omega)
  · refine content.chain.congr links fun b member k less => ?_
    obtain ⟨low, high⟩ := content.inside b (by simp [member])
    have size := content.blocks b member
    exact area _ (by omega) (by omega)
  · rw [same_top]
    exact content.inside
  · rw [same_top]
    exact ⟨below, content.bounds.2⟩
  · rw [same_top, same_frag]
    exact content.filled
  · rw [same_frag]
    exact content.frag

end Content

theorem Pointers.frame (pointers : Pointers sh data cells) (flags : data' sh.hdr = data sh.hdr)
    (count : get2byte data' (sh.hdr + 3) = get2byte data (sh.hdr + 3))
    (array : ∀ i, sh.cellOffset ≤ i → i < gap sh cells → data' i = data i) :
    Pointers sh data' cells := by
  refine ⟨?_, count.trans pointers.stored, fun i inside => ?_⟩
  · rw [flags]
    exact pointers.flags
  · rw [← pointers.pointers i inside]
    rw [gap] at array
    exact get2byte_congr (array _ (by omega) (by omega)) (array _ (by omega) (by omega))

end

section

variable {sh : Shape} {data : Data} {free : List Stretch}

theorem sumFree_spec {first addr rounds : Nat} (acc : Nat) (chain : FreeChain data addr free)
    (blocks : ∀ b ∈ free, 4 ≤ b.2) (before : free.Pairwise (Before 3))
    (inside : ∀ b ∈ free, Inside first sh.usableSize b) (pos : 0 < first)
    (enough : free.length < rounds) :
    sumFree sh data first rounds (get2byte data addr) acc = some (acc + total free) := by
  induction free generalizing addr rounds acc with
  | nil =>
    obtain ⟨rounds, rfl⟩ := Nat.exists_eq_succ_of_ne_zero enough.ne'
    have last : get2byte data addr = 0 := chain
    rw [sumFree, if_pos last, total, map_nil, sum_nil, Nat.add_zero]
  | cons b rest ih =>
    obtain ⟨rounds, rfl⟩ := Nat.exists_eq_succ_of_ne_zero (Nat.ne_of_gt (Nat.zero_lt_of_lt enough))
    obtain ⟨here, size, behind⟩ := chain
    obtain ⟨low, high⟩ := inside b mem_cons_self
    have four := blocks b mem_cons_self
    obtain ⟨after, later⟩ := pairwise_cons.mp before
    have next : ¬ (get2byte data b.1 > 0 ∧ get2byte data b.1 ≤ b.1 + b.2 + 3) := by
      cases rest with
      | nil =>
        have last : get2byte data b.1 = 0 := behind
        omega
      | cons c others =>
        have link : get2byte data b.1 = c.1 := behind.1
        have gap := after c mem_cons_self
        rw [Before] at gap
        omega
    rw [sumFree, here, if_neg (by omega), if_neg (by omega)]
    rw [size, if_neg (by omega),
      ih _ behind (fun c member => blocks c (mem_cons_of_mem b member)) later
        (fun c member => inside c (mem_cons_of_mem b member))
        (by rw [length_cons] at enough; omega),
      total_cons, Nat.add_assoc]

theorem decodeFlags_flags (sh : Shape) : decodeFlags sh.flags = some sh.page := by
  rw [Shape.flags]
  generalize sh.page = page
  obtain ⟨leaf, intKey⟩ := page
  cases leaf <;> cases intKey <;> rfl

variable {p : Page} {cells : List Cell}

theorem four_le_length {text : List UInt8} (sized : Sized sh text) : 4 ≤ text.length := by
  rw [← sized]
  exact four_le_cellSizePtr _

theorem total_cells (sized : ∀ c ∈ cells, Sized sh c.2) :
    4 * cells.length ≤ total (stretches cells) := by
  induction cells with
  | nil => exact Nat.le_refl 0
  | cons c cells ih =>
    have first := four_le_length (sized c mem_cons_self)
    have others := ih fun d member => sized d (mem_cons_of_mem c member)
    simp only [stretches, map_cons, total_cons, Cell.stretch, length_cons] at others ⊢
    omega

namespace Tiled

variable (tiled : Tiled sh p cells free)

include tiled

theorem filled :
    total (stretches cells) + total free + nFrag sh p.data + top sh p.data = sh.usableSize := by
  have filled := tiled.content.filled
  have bounds := tiled.content.bounds
  rw [nil_append, total_append] at filled
  omega

theorem nCell_le : cells.length ≤ sh.mxCell := by
  have cells_total := total_cells tiled.content.sized
  have filled := tiled.filled
  have bounds := tiled.content.bounds
  have offset := cellOffset_bounds sh
  have whole : sh.usableSize ≤ sh.pageSize := sh.whole
  rw [gap] at bounds
  rw [Shape.mxCell]
  omega

theorem btreeInitPage_eq : btreeInitPage sh p.data = some (sh.page, p) := by
  have filled := tiled.filled
  have bounds := tiled.content.bounds
  have offset := cellOffset_bounds sh
  have nFree := tiled.nFree
  have free_inside : ∀ b ∈ free, Inside (gap sh cells) sh.usableSize b := by
    intro b member
    obtain ⟨low, high⟩ := tiled.content.inside b (by simp [member])
    exact ⟨by omega, high⟩
  have enough : free.length < sh.usableSize := by
    have count := length_le_total fun b member =>
      Nat.lt_of_lt_of_le (by decide : 0 < 4) (tiled.content.blocks b member)
    rw [gap] at bounds
    omega
  have sum := sumFree_spec ((p.data (sh.hdr + 7)).toNat + get2byteNotZero p.data (sh.hdr + 5))
    tiled.content.chain tiled.content.blocks tiled.content.before free_inside
    (by rw [gap]; omega) enough
  have cellOffset : (if sh.page.leaf then sh.hdr + 8 else sh.hdr + 12) = sh.cellOffset := rfl
  rw [top] at filled nFree
  rw [nFrag] at filled nFree
  rw [btreeInitPage, tiled.pointers.flags, decodeFlags_flags, Option.bind_some]
  dsimp only
  rw [tiled.pointers.stored, if_neg tiled.nCell_le.not_gt, cellOffset, ← gap, sum,
    Option.bind_some, if_neg (by omega)]
  obtain ⟨data, nCell, nFree', nOverflow⟩ := p
  have count : nCell = cells.length := tiled.nCell
  have none_over : nOverflow = 0 := tiled.nOverflow
  dsimp only at nFree ⊢
  simp only [Option.some.injEq, Prod.mk.injEq, Page.mk.injEq, true_and]
  omega

theorem fragments :
    (Finset.Ico (top sh p.data) sh.usableSize \ covered (stretches cells ++ free)).card =
      nFrag sh p.data := by
  have card := card_free tiled.content.apart tiled.content.inside
  have filled := tiled.content.filled
  rw [nil_append] at card filled
  omega

end Tiled

end

end SeSqlite.Btree.PageSpace
