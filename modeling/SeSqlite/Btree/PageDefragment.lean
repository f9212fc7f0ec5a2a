/- source: src/btree.c
   digest: Defragmenting a page moves its cells to the end, with their texts, and leaves one gap. -/
import SeSqlite.Btree.PageLayout

set_option autoImplicit false
set_option relaxedAutoImplicit false

namespace SeSqlite.Btree.PageSpace

open Btree.Payload Lib.Stretches List

def packed : (cbrk : Nat) → List Cell → List Cell
  | _, [] => []
  | cbrk, c :: cells => (cbrk - c.2.length, c.2) :: packed (cbrk - c.2.length) cells

theorem packed_texts (cbrk : Nat) (cells : List Cell) :
    (packed cbrk cells).map Prod.snd = cells.map Prod.snd := by
  induction cells generalizing cbrk with
  | nil => rfl
  | cons c cells ih => rw [packed, map_cons, map_cons, ih]

theorem length_packed (cbrk : Nat) (cells : List Cell) :
    (packed cbrk cells).length = cells.length := by
  have lengths := congrArg List.length (packed_texts cbrk cells)
  simpa using lengths

theorem total_stretches (cells : List Cell) :
    total (stretches cells) = ((cells.map Prod.snd).map List.length).sum := by
  rw [total, stretches, map_map, map_map]
  rfl

theorem total_packed (cbrk : Nat) (cells : List Cell) :
    total (stretches (packed cbrk cells)) = total (stretches cells) := by
  rw [total_stretches, total_stretches, packed_texts]

theorem total_stretches_cons (c : Cell) (cells : List Cell) :
    total (stretches (c :: cells)) = c.2.length + total (stretches cells) := total_cons _ _

variable {cells : List Cell}

theorem packed_inside {cbrk : Nat} (room : total (stretches cells) ≤ cbrk) :
    ∀ c ∈ packed cbrk cells, cbrk - total (stretches cells) ≤ c.1 ∧ c.1 + c.2.length ≤ cbrk := by
  induction cells generalizing cbrk with
  | nil => exact fun c member => absurd member not_mem_nil
  | cons first cells ih =>
    rw [total_stretches_cons] at room ⊢
    intro c member
    rcases mem_cons.mp member with rfl | later
    · dsimp only
      omega
    · have := ih (by omega) c later
      omega

theorem packed_apart {cbrk : Nat} (room : total (stretches cells) ≤ cbrk) :
    (stretches (packed cbrk cells)).Pairwise Apart := by
  induction cells generalizing cbrk with
  | nil => exact List.Pairwise.nil
  | cons first cells ih =>
    rw [total_stretches_cons] at room
    refine pairwise_cons.mpr ⟨fun a member => ?_, ih (by omega)⟩
    obtain ⟨c, listed, rfl⟩ := mem_map.mp member
    have := packed_inside (by omega : total (stretches cells) ≤ cbrk - first.2.length) c listed
    rw [Apart]
    dsimp only [Cell.stretch]
    omega

section

variable {sh : Shape} {temp data : Data} {lo i cbrk : Nat} {cells : List Cell} {text : List UInt8}

/-- The cells that are left have their pointers, and their texts are in the temp space. -/
structure Pending (sh : Shape) (temp data : Data) (lo i cbrk : Nat) (cells : List Cell) :
    Prop where
  pointers : ∀ j (inside : j < cells.length),
    get2byte data (sh.cellOffset + 2 * (i + j)) = cells[j].1
  texts : ∀ c ∈ cells, ∀ k (inside : k < c.2.length), temp (c.1 + k) = c.2[k]
  sized : ∀ c ∈ cells, Sized sh c.2
  inside : ∀ c ∈ cells, lo ≤ c.1 ∧ c.1 + c.2.length ≤ sh.usableSize
  room : lo + total (stretches cells) ≤ cbrk
  array : sh.cellOffset + 2 * (i + cells.length) ≤ lo
  most : cbrk ≤ sh.usableSize

structure Moved (sh : Shape) (data data' : Data) (i cbrk : Nat) (cells : List Cell) : Prop where
  pointers : ∀ j (inside : j < (packed cbrk cells).length),
    get2byte data' (sh.cellOffset + 2 * (i + j)) = (packed cbrk cells)[j].1
  texts : ∀ c ∈ packed cbrk cells, ∀ k (inside : k < c.2.length), data' (c.1 + k) = c.2[k]
  kept : ∀ k, (k < sh.cellOffset + 2 * i ∨ sh.cellOffset + 2 * (i + cells.length) ≤ k) →
    (k < cbrk - total (stretches cells) ∨ cbrk ≤ k) → data' k = data k

theorem cellSizePtr_of_text {p : Data} (sized : Sized sh text)
    (same : ∀ k (inside : k < text.length), p k = text[k]) :
    cellSizePtr sh.bt sh.page p = text.length := by
  rw [← sized]
  refine cellSizePtr_congr fun k _ inside => ?_
  rw [sized] at inside
  rw [same k inside, getD_eq_getElem _ _ inside]

def moveCell (sh : Shape) (data : Data) (i cbrk : Nat) (text : List UInt8) : Data :=
  put2byte (memcpy data (cbrk - text.length) text) (sh.cellOffset + i * 2) (cbrk - text.length)

theorem moveCell_other {k : Nat}
    (pointer : k < sh.cellOffset + 2 * i ∨ sh.cellOffset + 2 * (i + 1) ≤ k)
    (outside : k < cbrk - text.length ∨ cbrk - text.length + text.length ≤ k) :
    moveCell sh data i cbrk text k = data k := by
  rw [moveCell, put2byte_other (by omega), memcpy_outside outside]

theorem slice_temp {c : Cell} (texts : ∀ k (inside : k < c.2.length), temp (c.1 + k) = c.2[k]) :
    slice temp c.1 c.2.length = c.2 := by
  refine ext_getElem (length_slice _ _ _) fun k inside inside' => ?_
  rw [getElem_slice, texts k inside']

section

variable {c : Cell} (pending : Pending sh temp data lo i cbrk (c :: cells))

include pending

theorem defragmentLoop_cons : defragmentLoop sh temp lo (c :: cells).length i cbrk data =
      defragmentLoop sh temp lo cells.length (i + 1) (cbrk - c.2.length)
        (moveCell sh data i cbrk c.2) := by
  have pointer := pending.pointers 0 (Nat.succ_pos _)
  have texts := pending.texts c mem_cons_self
  have sized := pending.sized c mem_cons_self
  obtain ⟨low, high⟩ := pending.inside c mem_cons_self
  have four := four_le_length sized
  have room := pending.room
  rw [total_stretches_cons] at room
  have place : sh.cellOffset + 2 * (i + 0) = sh.cellOffset + i * 2 := by omega
  rw [place, getElem_cons_zero] at pointer
  rw [length_cons, defragmentLoop]
  rw [pointer, if_neg (by omega), cellSizePtr_of_text sized texts, if_neg (by omega),
    slice_temp texts]
  rfl

theorem Pending.next :
    Pending sh temp (moveCell sh data i cbrk c.2) lo (i + 1) (cbrk - c.2.length) cells := by
  have room := pending.room
  have array := pending.array
  have most := pending.most
  rw [total_stretches_cons] at room
  rw [length_cons] at array
  refine ⟨fun j inside => ?_, fun d member => pending.texts d (mem_cons_of_mem c member),
    fun d member => pending.sized d (mem_cons_of_mem c member),
    fun d member => pending.inside d (mem_cons_of_mem c member), by omega, by omega, by omega⟩
  have old := pending.pointers (j + 1) (Nat.succ_lt_succ inside)
  have place : i + (j + 1) = i + 1 + j := by omega
  rw [place, getElem_cons_succ] at old
  rw [← old]
  exact get2byte_congr (moveCell_other (by omega) (by omega))
    (moveCell_other (by omega) (by omega))

theorem Moved.cons {data' : Data}
    (moved : Moved sh (moveCell sh data i cbrk c.2) data' (i + 1) (cbrk - c.2.length) cells) :
    Moved sh data data' i cbrk (c :: cells) := by
  have room := pending.room
  have array := pending.array
  have most := pending.most
  have usable := usable_bounds sh
  have four := four_le_length (pending.sized c mem_cons_self)
  rw [total_stretches_cons] at room
  rw [length_cons] at array
  -- the pointer of the cell and its text are not touched again
  have kept {k : Nat} (pointer : k < sh.cellOffset + 2 * (i + 1) ∨ lo ≤ k)
      (text : k < lo ∨ cbrk - c.2.length ≤ k) : data' k = moveCell sh data i cbrk c.2 k :=
    moved.kept k (by omega) (by omega)
  refine ⟨fun j inside => ?_, fun d member k inside => ?_, fun k pointer text => ?_⟩
  · cases j with
    | zero =>
      have here : get2byte (moveCell sh data i cbrk c.2) (sh.cellOffset + i * 2) =
          cbrk - c.2.length := get2byte_put2byte_of_lt (by omega)
      have place : sh.cellOffset + 2 * (i + 0) = sh.cellOffset + i * 2 := by omega
      rw [place]
      refine Eq.trans ?_ here
      exact get2byte_congr (kept (by omega) (by omega)) (kept (by omega) (by omega))
    | succ j =>
      have place : i + (j + 1) = i + 1 + j := by omega
      rw [place]
      exact moved.pointers j (Nat.lt_of_succ_lt_succ inside)
  · rcases mem_cons.mp member with rfl | later
    · rw [kept (by omega) (by omega), moveCell, put2byte_other (by omega), memcpy_inside inside]
    · exact moved.texts d later k inside
  · rw [total_stretches_cons] at text
    rw [length_cons] at pointer
    rw [moved.kept k (by omega) (by omega), moveCell_other (by omega) (by omega)]

end

theorem defragmentLoop_spec (pending : Pending sh temp data lo i cbrk cells) :
    ∃ data', defragmentLoop sh temp lo cells.length i cbrk data =
      some (cbrk - total (stretches cells), data') ∧ Moved sh data data' i cbrk cells := by
  induction cells generalizing data i cbrk with
  | nil =>
    refine ⟨data, rfl, fun j inside => absurd inside (Nat.not_lt_zero j),
      fun d member => absurd member not_mem_nil, fun _ _ _ => rfl⟩
  | cons c cells ih =>
    obtain ⟨data', call, moved⟩ := ih pending.next
    refine ⟨data', ?_, moved.cons pending⟩
    rw [defragmentLoop_cons pending, call, total_stretches_cons, Nat.sub_add_eq]

variable {p : Page} {free : List Stretch}

theorem get2byte_le_top (sh : Shape) (data : Data) : get2byte data (sh.hdr + 5) ≤ top sh data := by
  have small := get2byte_lt data (sh.hdr + 5)
  rw [top, get2byteNotZero]
  omega

/-- The bytes that `defragmentPage` leaves, from those after its loop. -/
def cleared (sh : Shape) (data : Data) (lo cbrk : Nat) : Data :=
  memcpy (putByte (putByte (putByte (put2byte data (sh.hdr + 5) cbrk) (sh.hdr + 1) 0)
    (sh.hdr + 2) 0) (sh.hdr + 7) 0) lo (replicate (cbrk - lo) 0)

section

variable (data : Data) {lo cbrk : Nat} (header : sh.hdr + 8 ≤ lo) (room : lo ≤ cbrk)
  (most : cbrk ≤ sh.usableSize)

include header in
theorem cleared_header {k : Nat} (other : k < sh.hdr + 1 ∨ (sh.hdr + 3 ≤ k ∧ k < sh.hdr + 5) ∨
    (sh.hdr + 8 ≤ k ∧ k < lo)) : cleared sh data lo cbrk k = data k := by
  rw [cleared, memcpy_outside (by omega), putByte_other (by omega), putByte_other (by omega),
    putByte_other (by omega), put2byte_other (by omega)]

include header room in
theorem cleared_content {k : Nat} (inside : cbrk ≤ k) : cleared sh data lo cbrk k = data k := by
  rw [cleared, memcpy_outside (by rw [length_replicate]; omega), putByte_other (by omega),
    putByte_other (by omega), putByte_other (by omega), put2byte_other (by omega)]

include header room most in
theorem cleared_top : top sh (cleared sh data lo cbrk) = cbrk := by
  have usable := usable_bounds sh
  rw [top, cleared, get2byteNotZero, get2byte_memcpy_other (by omega),
    get2byte_putByte_other (by omega), get2byte_putByte_other (by omega),
    get2byte_putByte_other (by omega), ← get2byteNotZero, get2byteNotZero_put2byte (by omega)
    (by omega)]

include header in
theorem cleared_nFrag : nFrag sh (cleared sh data lo cbrk) = 0 := by
  rw [nFrag, cleared, memcpy_outside (by omega), putByte_same (by decide)]

include header in
theorem cleared_chain : FreeChain (cleared sh data lo cbrk) (sh.hdr + 1) [] := by
  have first : (cleared sh data lo cbrk (sh.hdr + 1)).toNat = 0 := by
    rw [cleared, memcpy_outside (by omega), putByte_other (by omega), putByte_other (by omega),
      putByte_same (by decide)]
  have second : (cleared sh data lo cbrk (sh.hdr + 1 + 1)).toNat = 0 := by
    rw [cleared, memcpy_outside (by omega), putByte_other (by omega), putByte_same (by decide)]
  rw [FreeChain, get2byte, first, second, Nat.zero_mul]

end

theorem Tiled.pending (tiled : Tiled sh p cells free) :
    Pending sh (fun k => if get2byte p.data (sh.hdr + 5) ≤ k ∧ k < sh.usableSize then p.data k
      else 0) p.data (gap sh cells) 0 sh.usableSize cells := by
  have start := get2byte_le_top sh p.data
  have filled := tiled.filled
  have bounds := tiled.content.bounds
  have inside {c : Cell} (member : c ∈ cells) :
      top sh p.data ≤ c.1 ∧ c.1 + c.2.length ≤ sh.usableSize :=
    tiled.content.inside c.stretch (by simp [stretch_mem member])
  refine ⟨fun j less => ?_, fun c member k less => ?_, tiled.content.sized, fun c member => ?_,
    by omega, by rw [gap]; omega, le_rfl⟩
  · rw [Nat.zero_add]
    exact tiled.pointers.pointers j less
  · obtain ⟨low, high⟩ := inside member
    rw [if_pos ⟨by omega, by omega⟩]
    exact tiled.content.texts c member k less
  · obtain ⟨low, high⟩ := inside member
    exact ⟨by omega, high⟩

theorem gap_packed (sh : Shape) (cbrk : Nat) (cells : List Cell) :
    gap sh (packed cbrk cells) = gap sh cells := by
  rw [gap, gap, length_packed]

theorem tiled_cleared (tiled : Tiled sh p cells free) {data : Data}
    (moved : Moved sh p.data data 0 sh.usableSize cells) :
    Tiled sh ⟨cleared sh data (gap sh cells) (sh.usableSize - total (stretches cells)), p.nCell,
      p.nFree, p.nOverflow⟩ (packed sh.usableSize cells) [] := by
  have filled := tiled.filled
  have header := tiled.content.header
  have nFree := tiled.nFree
  have offset := cellOffset_bounds sh
  have room : gap sh cells ≤ sh.usableSize - total (stretches cells) := by omega
  have whole : sh.usableSize - total (stretches cells) ≤ sh.usableSize := Nat.sub_le _ _
  have new_top := cleared_top data header room whole
  have no_frag : nFrag sh (cleared sh data (gap sh cells)
      (sh.usableSize - total (stretches cells))) = 0 := cleared_nFrag data header
  have array : gap sh cells = sh.cellOffset + 2 * cells.length := rfl
  have packed_in := packed_inside (by omega : total (stretches cells) ≤ sh.usableSize)
  refine ⟨?_, tiled.nOverflow, ⟨?_, ?_, fun i inside => ?_⟩,
    ⟨fun c member k inside => ?_, fun c member => ?_, cleared_chain data header,
      fun b member => absurd member not_mem_nil, List.Pairwise.nil, ?_, fun a member => ?_, ?_,
      ?_, ?_, ?_⟩, ?_⟩
  · rw [length_packed]
    exact tiled.nCell
  · dsimp only
    rw [cleared_header data header (by omega), moved.kept _ (by omega) (by omega)]
    exact tiled.pointers.flags
  · have stored := tiled.pointers.stored
    rw [length_packed, ← stored]
    exact get2byte_congr
      ((cleared_header data header (by omega)).trans (moved.kept _ (by omega) (by omega)))
      ((cleared_header data header (by omega)).trans (moved.kept _ (by omega) (by omega)))
  · have pointer := moved.pointers i inside
    rw [length_packed] at inside
    rw [Nat.zero_add] at pointer
    rw [← pointer]
    exact get2byte_congr (cleared_header data header (by omega))
      (cleared_header data header (by omega))
  · have low := (packed_in c member).1
    rw [← moved.texts c member k inside]
    exact cleared_content data header room (by omega)
  · have listed := mem_map_of_mem (f := Prod.snd) member
    rw [packed_texts] at listed
    obtain ⟨d, old, same⟩ := mem_map.mp listed
    rw [← same]
    exact tiled.content.sized d old
  · rw [append_nil]
    exact packed_apart (by omega)
  · rw [nil_append, append_nil] at member
    obtain ⟨c, listed, rfl⟩ := mem_map.mp member
    rw [new_top]
    exact packed_in c listed
  · rw [gap_packed]
    exact header
  · rw [new_top, gap_packed]
    exact ⟨room, whole⟩
  · rw [new_top, no_frag, append_nil, nil_append, total_packed]
    omega
  · rw [no_frag]
    decide
  · dsimp only
    rw [new_top, no_frag, gap_packed, Lib.Stretches.total_nil]
    omega

theorem defragmentPage_spec (tiled : Tiled sh p cells free) :
    ∃ p' cells', defragmentPage sh p = some p' ∧ Tiled sh p' cells' [] ∧
      cells'.map Prod.snd = cells.map Prod.snd ∧ p'.nFree = p.nFree ∧ p'.nCell = p.nCell ∧
      nFrag sh p'.data = 0 := by
  obtain ⟨data, call, moved⟩ := defragmentLoop_spec tiled.pending
  have filled := tiled.filled
  have nFree := tiled.nFree
  have array : gap sh cells = sh.cellOffset + 2 * cells.length := rfl
  refine ⟨_, packed sh.usableSize cells, ?_, tiled_cleared tiled moved, packed_texts _ _, rfl, rfl,
    cleared_nFrag data tiled.content.header⟩
  rw [defragmentPage]
  rw [tiled.nCell, ← array, call, Option.bind_some]
  dsimp only
  rw [if_neg (by omega)]
  rfl

end

end SeSqlite.Btree.PageSpace
