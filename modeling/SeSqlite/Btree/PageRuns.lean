/- source: src/btree.c
   digest: Cells come and go on a page, from an empty one on, and the accounts of its space are
   exact throughout; a cell stored in more bytes than its header says spoils them. -/
import SeSqlite.Btree.PageFree
import SeSqlite.Lib.Runs

set_option autoImplicit false
set_option relaxedAutoImplicit false

namespace SeSqlite.Btree.PageSpace

open Btree.Payload Lib.Stretches Lib.Runs List Option

section

variable {sh : Shape} {p : Page} {cells : List Cell} {free : List Stretch}

theorem length_eq_of_texts {cells' : List Cell} (texts : cells'.map Prod.snd = cells.map Prod.snd) :
    cells'.length = cells.length := by
  simpa using congrArg List.length texts

theorem Tiled.nFree_cells (tiled : Tiled sh p cells free) :
    p.nFree + gap sh cells + total (stretches cells) = sh.usableSize := by
  have filled := tiled.filled
  have nFree := tiled.nFree
  omega

theorem Tiled.of_content (nCell : p.nCell = cells.length) (nOverflow : p.nOverflow = 0)
    (pointers : Pointers sh p.data cells) (content : Content sh p.data (gap sh cells) cells free [])
    (nFree : p.nFree + gap sh cells + total (stretches cells) = sh.usableSize) :
    Tiled sh p cells free := by
  have filled := content.filled
  have bounds := content.bounds
  simp only [nil_append, total_append] at filled
  exact ⟨nCell, nOverflow, pointers, content, by omega⟩

end

variable {pCell : Data} {iChild : Nat}

section

variable {sh : Shape} {p p' : Page} {cells : List Cell} {free : List Stretch} {idx i sz : Nat}

variable {data : Data} {lo : Nat}

theorem Content.settle {data : Data} {text : List UInt8}
    (content : Content sh data lo cells free [(idx, text.length)]) (sized : Sized sh text)
    (written : ∀ k (inside : k < text.length), data (idx + k) = text[k])
    (place : i ≤ cells.length) :
    Content sh data lo (cells.insertIdx i (idx, text)) free [] := by
  have cells_perm := perm_insertIdx (idx, text) cells place
  have perm : ([(idx, text.length)] ++ stretches cells ++ free).Perm
      (stretches (cells.insertIdx i (idx, text)) ++ free) :=
    ((cells_perm.map Cell.stretch).append_right free).symm
  have among {c : Cell} (member : c ∈ cells.insertIdx i (idx, text)) :
      c = (idx, text) ∨ c ∈ cells := mem_cons.mp (cells_perm.mem_iff.mp member)
  refine ⟨fun c member => ?_, fun c member => ?_, content.chain, content.blocks, content.before,
    (apart_perm perm).mp content.apart, fun a member => content.inside a (perm.mem_iff.mpr member),
    content.header, content.bounds, ?_, content.frag⟩
  · rcases among member with rfl | old
    · exact written
    · exact content.texts c old
  · rcases among member with rfl | old
    · exact sized
    · exact content.sized c old
  · rw [nil_append, ← total_perm perm]
    exact content.filled

def pointed (sh : Shape) (data : Data) (nCell i idx : Nat) : Data :=
  let ins := sh.cellOffset + 2 * i
  put2byte (put2byte (memcpy data (ins + 2)
    (slice data ins (sh.cellOffset + 2 * nCell - ins))) ins idx) (sh.hdr + 3) (nCell + 1)

theorem pointed_other {nCell k : Nat} (place : i ≤ nCell) (count : k < sh.hdr + 3 ∨ sh.hdr + 5 ≤ k)
    (array : k < sh.cellOffset ∨ sh.cellOffset + 2 * nCell + 2 ≤ k) :
    pointed sh data nCell i idx k = data k := by
  rw [pointed, put2byte_other (by omega), put2byte_other (by omega),
    memcpy_outside (by rw [length_slice]; omega)]

theorem Pointers.insert {c : Cell} (pointers : Pointers sh data cells) (place : i ≤ cells.length)
    (small : c.1 < 2 ^ 16) (few : cells.length + 1 < 2 ^ 16) :
    Pointers sh (pointed sh data cells.length i c.1) (cells.insertIdx i c) := by
  have offset := cellOffset_bounds sh
  refine ⟨?_, ?_, fun j inside => ?_⟩
  · rw [pointed_other place (by omega) (by omega)]
    exact pointers.flags
  · rw [pointed, get2byte_put2byte_of_lt few, length_insertIdx_of_le_length place]
  · rw [length_insertIdx_of_le_length place] at inside
    rw [pointed, get2byte_put2byte_other (by omega), getElem_insertIdx]
    split
    · rw [get2byte_put2byte_other (by omega), get2byte_memcpy_other (by omega)]
      exact pointers.pointers j (by omega)
    · split
      · rename_i here
        rw [here, get2byte_put2byte_of_lt small]
      · obtain ⟨j, rfl⟩ := Nat.exists_eq_succ_of_ne_zero (by omega : j ≠ 0)
        have moved {b : Nat} (byte : b < 2) :
            memcpy data (sh.cellOffset + 2 * i + 2)
              (slice data (sh.cellOffset + 2 * i)
                (sh.cellOffset + 2 * cells.length - (sh.cellOffset + 2 * i)))
              (sh.cellOffset + 2 * (j + 1) + b) = data (sh.cellOffset + 2 * j + b) := by
          have at_ : sh.cellOffset + 2 * (j + 1) + b =
            sh.cellOffset + 2 * i + 2 + (2 * (j - i) + b) := by omega
          have from_ : sh.cellOffset + 2 * j + b =
            sh.cellOffset + 2 * i + (2 * (j - i) + b) := by omega
          rw [at_, from_]
          exact memcpy_slice (by omega)
        rw [get2byte_put2byte_other (by omega)]
        exact (get2byte_congr (moved (b := 0) (by decide)) (moved (b := 1) (by decide))).trans
          (pointers.pointers j (by omega))

theorem length_cellText (four : 4 ≤ sz) : (cellText pCell sz iChild).length = sz := by
  rw [cellText]
  split
  · rw [length_append, length_slice, SeSqlite.Bytes.length_put4byte]
    omega
  · exact length_slice pCell 0 sz

theorem Tiled.insertCell (tiled : Tiled sh p cells free) (place : i ≤ cells.length) (four : 4 ≤ sz)
    (fits : sz + 2 ≤ p.nFree) (sized : Sized sh (cellText pCell sz iChild)) :
    ∃ p' cells' free', insertCell sh p i pCell sz iChild = some p' ∧ Tiled sh p' cells' free' ∧
      cells'.map Prod.snd = (cells.map Prod.snd).insertIdx i (cellText pCell sz iChild) := by
  have usable := usable_bounds sh
  have offset := cellOffset_bounds sh
  have space := tiled.nFree_cells
  obtain ⟨idx, p₁, cells₁, free₁, call, allotted, texts⟩ := tiled.allocateSpace fits
  have length := length_eq_of_texts texts
  have nCell := tiled.nCell
  have array : gap sh cells₁ = sh.cellOffset + 2 * cells.length := by rw [gap, length]
  obtain ⟨same, pointers, content⟩ := allotted
  have bounds := content.bounds
  obtain ⟨low, high⟩ := content.inside (idx, sz) (by simp)
  generalize textEq : cellText pCell sz iChild = text at sized ⊢
  have size : text.length = sz := by
    rw [← textEq]
    exact length_cellText four
  rw [← size] at content
  -- the text is written into the stretch held for it
  have off (k : Nat) (outside : k < idx ∨ idx + text.length ≤ k) :
      memcpy p₁.data idx text k = p₁.data k := memcpy_outside outside
  have stored : Content sh (memcpy p₁.data idx text) (gap sh cells₁ + 2)
      (cells₁.insertIdx i (idx, text)) free₁ [] :=
    (content.overwrite off).settle sized (fun k inside => memcpy_inside inside) (by omega)
  have written :=
    pointers.frame (off _ (by omega)) (get2byte_congr (off _ (by omega)) (off _ (by omega)))
      fun k above below => off k (by omega)
  have same_top : top sh (memcpy p₁.data idx text) = top sh p₁.data :=
    get2byteNotZero_congr (get2byte_congr (off _ (by omega)) (off _ (by omega)))
  have new_array : gap sh (cells₁.insertIdx i (idx, text)) = gap sh cells₁ + 2 := by
    rw [gap, length_insertIdx_of_le_length (by omega)]
    omega
  have new_total : total (stretches (cells₁.insertIdx i (idx, text))) =
      sz + total (stretches cells) := by
    have perm := perm_insertIdx (idx, text) cells₁ (by omega : i ≤ cells₁.length)
    rw [← size, stretches, total_perm (perm.map Cell.stretch), map_cons, total_stretches cells,
      ← texts, ← total_stretches]
    rfl
  have old_array : gap sh cells = sh.cellOffset + 2 * cells.length := rfl
  have inserted := @Pointers.insert sh cells₁ i _ (idx, text) written (by omega)
    (by dsimp only; omega) (by omega)
  rw [length, ← nCell] at inserted
  have kept {k : Nat} (count : k < sh.hdr + 3 ∨ sh.hdr + 5 ≤ k)
      (array : k < sh.cellOffset ∨ sh.cellOffset + 2 * p.nCell + 2 ≤ k) :
      pointed sh (memcpy p₁.data idx text) p.nCell i idx k = memcpy p₁.data idx text k :=
    pointed_other (by omega) count array
  refine ⟨⟨pointed sh (memcpy p₁.data idx text) p.nCell i idx, p.nCell + 1,
    p.nFree - (2 + sz), 0⟩, cells₁.insertIdx i (idx, text), free₁, ?_,
    Tiled.of_content ?_ rfl inserted (stored.frame ?_ ?_ ?_ ?_ ?_ ?_) ?_, ?_⟩
  · rw [PageSpace.insertCell, if_neg (by have := tiled.nOverflow; omega), call, map_some]
    dsimp only
    rw [textEq, same.1, same.2.1, same.2.2, tiled.nOverflow]
    rfl
  · dsimp only
    rw [length_insertIdx_of_le_length (by omega)]
    omega
  · exact get2byte_congr (kept (by omega) (by omega)) (kept (by omega) (by omega))
  · exact get2byte_congr (kept (by omega) (by omega)) (kept (by omega) (by omega))
  · exact kept (by omega) (by omega)
  · intro k above below
    exact kept (by omega) (by omega)
  · omega
  · omega
  · dsimp only
    omega
  · rw [map_insertIdx, texts]

variable {p : Page} {idx : Nat}

theorem Content.unsettle (content : Content sh data lo cells free [])
    (inside : idx < cells.length) :
    Content sh data lo (cells.eraseIdx idx) free [cells[idx].stretch] := by
  have cells_perm := getElem_cons_eraseIdx_perm inside
  have perm : ([cells[idx].stretch] ++ stretches (cells.eraseIdx idx) ++ free).Perm
      (stretches cells ++ free) := (cells_perm.map Cell.stretch).append_right free
  have old {c : Cell} (member : c ∈ cells.eraseIdx idx) : c ∈ cells :=
    mem_of_mem_eraseIdx member
  refine ⟨fun c member => content.texts c (old member),
    fun c member => content.sized c (old member), content.chain, content.blocks,
    content.before, (apart_perm perm).mpr content.apart,
    fun a member => content.inside a (perm.mem_iff.mp member), content.header, content.bounds, ?_,
    content.frag⟩
  rw [total_perm perm]
  exact content.filled

def unpointed (sh : Shape) (data : Data) (nCell idx : Nat) : Data :=
  let ptr := sh.cellOffset + 2 * idx
  put2byte (memcpy data ptr (slice data (ptr + 2) (2 * (nCell - 1 - idx)))) (sh.hdr + 3) (nCell - 1)

theorem unpointed_other {nCell k : Nat} (place : idx < nCell)
    (count : k < sh.hdr + 3 ∨ sh.hdr + 5 ≤ k)
    (array : k < sh.cellOffset ∨ sh.cellOffset + 2 * nCell ≤ k) :
    unpointed sh data nCell idx k = data k := by
  rw [unpointed, put2byte_other (by omega), memcpy_outside (by rw [length_slice]; omega)]

theorem Pointers.erase (pointers : Pointers sh data cells) (place : idx < cells.length)
    (few : cells.length < 2 ^ 16) :
    Pointers sh (unpointed sh data cells.length idx) (cells.eraseIdx idx) := by
  have offset := cellOffset_bounds sh
  refine ⟨?_, ?_, fun j inside => ?_⟩
  · rw [unpointed_other place (by omega) (by omega)]
    exact pointers.flags
  · rw [unpointed, get2byte_put2byte_of_lt (by omega), length_eraseIdx_of_lt place]
  · rw [length_eraseIdx_of_lt place] at inside
    rw [unpointed, get2byte_put2byte_other (by omega), getElem_eraseIdx]
    split
    · rw [get2byte_memcpy_other (by omega)]
      exact pointers.pointers j (by omega)
    · have moved {b : Nat} (byte : b < 2) :
          memcpy data (sh.cellOffset + 2 * idx)
            (slice data (sh.cellOffset + 2 * idx + 2) (2 * (cells.length - 1 - idx)))
            (sh.cellOffset + 2 * j + b) = data (sh.cellOffset + 2 * (j + 1) + b) := by
        have at_ : sh.cellOffset + 2 * j + b =
          sh.cellOffset + 2 * idx + (2 * (j - idx) + b) := by omega
        have from_ : sh.cellOffset + 2 * (j + 1) + b =
          sh.cellOffset + 2 * idx + 2 + (2 * (j - idx) + b) := by omega
        rw [at_, from_]
        exact memcpy_slice (by omega)
      exact (get2byte_congr (moved (b := 0) (by decide)) (moved (b := 1) (by decide))).trans
        (pointers.pointers (j + 1) (by omega))

theorem Tiled.cellSizePtr_eq (tiled : Tiled sh p cells free) (inside : idx < cells.length) :
    (cellSizePtr sh.bt sh.page fun k => p.data (get2byte p.data (sh.cellOffset + 2 * idx) + k)) =
      cells[idx].2.length := by
  have member := getElem_mem inside
  rw [tiled.pointers.pointers idx inside]
  exact cellSizePtr_of_text (tiled.content.sized _ member) fun k less =>
    tiled.content.texts _ member k less

theorem Tiled.dropCell (tiled : Tiled sh p cells free) (inside : idx < cells.length) :
    ∃ p' free', dropCell sh p idx cells[idx].2.length = some p' ∧
      Tiled sh p' (cells.eraseIdx idx) free' := by
  have usable := usable_bounds sh
  have offset := cellOffset_bounds sh
  have space := tiled.nFree_cells
  have nCell := tiled.nCell
  have array : gap sh cells = sh.cellOffset + 2 * cells.length := rfl
  have raw := get2byte_le_top sh p.data
  have member := getElem_mem inside
  have pointer := tiled.pointers.pointers idx inside
  have held := tiled.content.unsettle inside
  have cells_perm := (getElem_cons_eraseIdx_perm inside).map Cell.stretch
  generalize cells[idx] = c at member pointer held cells_perm ⊢
  obtain ⟨low, high⟩ := tiled.content.inside c.stretch (by simp [stretch_mem member])
  dsimp only [Cell.stretch] at low high
  have four := four_le_length (tiled.content.sized c member)
  obtain ⟨data', free', call, released⟩ := Content.freeSpace held four
  have old_total : total (stretches cells) = c.2.length + total (stretches (cells.eraseIdx idx)) :=
    (total_perm cells_perm).symm.trans (total_cons _ _)
  have new_array : gap sh (cells.eraseIdx idx) + 2 = gap sh cells := by
    rw [gap, length_eraseIdx_of_lt inside]
    omega
  have bounds := released.content.bounds
  have pointers : Pointers sh data' cells := tiled.pointers.frame released.header.1
    released.header.2 fun k above below => released.below k (by omega) below
  have erased := pointers.erase inside (by omega)
  rw [← nCell] at erased
  have kept {k : Nat} (count : k < sh.hdr + 3 ∨ sh.hdr + 5 ≤ k)
      (off : k < sh.cellOffset ∨ sh.cellOffset + 2 * p.nCell ≤ k) :
      unpointed sh data' p.nCell idx k = data' k := unpointed_other (by omega) count off
  refine ⟨⟨unpointed sh data' p.nCell idx, p.nCell - 1, p.nFree + c.2.length + 2, 0⟩, free', ?_,
    Tiled.of_content ?_ rfl erased (released.content.frame ?_ ?_ ?_ ?_ ?_ ?_) ?_⟩
  · rw [PageSpace.dropCell]
    rw [pointer, if_neg (by omega), call, tiled.nOverflow]
    rfl
  · rw [length_eraseIdx_of_lt inside, nCell]
  · exact get2byte_congr (kept (by omega) (by omega)) (kept (by omega) (by omega))
  · exact get2byte_congr (kept (by omega) (by omega)) (kept (by omega) (by omega))
  · exact kept (by omega) (by omega)
  · intro k above below
    exact kept (by omega) (by omega)
  · omega
  · omega
  · dsimp only
    omega

theorem zeroPage_tiled (sh : Shape) (before : Data) : Tiled sh (zeroPage sh before) [] [] := by
  have usable := usable_bounds sh
  have offset := cellOffset_bounds sh
  rw [zeroPage]
  generalize (if sh.secureDelete then
    memcpy before sh.hdr (replicate (sh.usableSize - sh.hdr) 0) else before) = cleared
  generalize written : put2byte (putByte (memcpy (putByte cleared sh.hdr sh.flags) (sh.hdr + 1)
    (replicate 4 0)) (sh.hdr + 7) 0) (sh.hdr + 5) sh.usableSize = data
  have zeros {k : Nat} (inside : k < 4) : (data (sh.hdr + 1 + k)).toNat = 0 := by
    rw [← written, put2byte_other (by omega), putByte_other (by omega),
      memcpy_inside (by rwa [length_replicate]), getElem_replicate]
    rfl
  have two_zeros {k : Nat} (inside : k < 3) : get2byte data (sh.hdr + 1 + k) = 0 := by
    rw [get2byte, zeros (by omega), Nat.add_assoc, zeros (by omega), Nat.zero_mul]
  have flags : (data sh.hdr).toNat = sh.flags := by
    have small : sh.flags < 2 ^ 8 := by
      rw [Shape.flags]
      split <;> split <;> decide
    rw [← written, put2byte_other (by omega), putByte_other (by omega),
      memcpy_outside (by omega), putByte_same small]
  have no_frag : nFrag sh data = 0 := by
    rw [nFrag, ← written, put2byte_other (by omega), putByte_same (by decide)]
  have at_end : top sh data = sh.usableSize := by
    rw [top, ← written, get2byteNotZero_put2byte (by omega) (by omega)]
  have array : gap sh [] = sh.cellOffset := rfl
  have stored := two_zeros (k := 2) (by decide)
  have chain := two_zeros (k := 0) (by decide)
  refine Tiled.of_content rfl rfl ⟨flags, stored, fun i inside => ?_⟩
    ⟨fun c member => ?_, fun c member => ?_, chain, fun b member => ?_,
      List.Pairwise.nil, List.Pairwise.nil, fun a member => ?_, ?_, ?_, ?_, ?_⟩ ?_
  · exact absurd inside (Nat.not_lt_zero i)
  · exact absurd member not_mem_nil
  · exact absurd member not_mem_nil
  · exact absurd member not_mem_nil
  · exact absurd member not_mem_nil
  · omega
  · dsimp only
    omega
  · rw [no_frag, at_end, Nat.sub_self]
    rfl
  · dsimp only
    omega
  · have none_total : total (stretches []) = 0 := rfl
    dsimp only
    omega

/-- A call on a page. The size that `dropCell` is given is always that of the cell. -/
inductive Op where
  | insert (i : Nat) (pCell : Data) (sz iChild : Nat)
  | drop (idx : Nat)

/-- A page, or none after a report that it is corrupt, and the texts its cells should have. -/
structure State where
  page : Option Page
  texts : List (List UInt8)

variable (sh : Shape)

def step (s : State) : Op → State
  | .insert i pCell sz iChild =>
    { page := s.page.bind fun p => insertCell sh p i pCell sz iChild
      texts := s.texts.insertIdx i (cellText pCell sz iChild) }
  | .drop idx =>
    { page := s.page.bind fun p => dropCell sh p idx (cellSizePtr sh.bt sh.page fun k =>
        p.data (get2byte p.data (sh.cellOffset + 2 * idx) + k))
      texts := s.texts.eraseIdx idx }

/-- The page of a state has room for the call, or the cell that it drops. -/
def Fits (s : State) : Op → Prop
  | .insert i _ sz _ =>
    match s.page with
    | some p => i ≤ p.nCell ∧ 4 ≤ sz ∧ sz + 2 ≤ p.nFree
    | none => False
  | .drop idx =>
    match s.page with
    | some p => idx < p.nCell
    | none => False

instance : ∀ (s : State) (op : Op), Decidable (Fits s op)
  | ⟨some p, _⟩, .insert i _ sz _ =>
    inferInstanceAs (Decidable (i ≤ p.nCell ∧ 4 ≤ sz ∧ sz + 2 ≤ p.nFree))
  | ⟨some p, _⟩, .drop idx => inferInstanceAs (Decidable (idx < p.nCell))
  | ⟨none, _⟩, .insert _ _ _ _ => inferInstanceAs (Decidable False)
  | ⟨none, _⟩, .drop _ => inferInstanceAs (Decidable False)

/-- What `insertCell` asserts about the size of the cell. -/
def Op.Asserted : Op → Prop
  | .insert _ pCell sz iChild => sz = cellSizePtr sh.bt sh.page pCell ∨ (sz = 8 ∧ 0 < iChild)
  | .drop _ => True

instance : ∀ op : Op, Decidable (op.Asserted sh)
  | .insert _ pCell sz iChild =>
    inferInstanceAs (Decidable (sz = cellSizePtr sh.bt sh.page pCell ∨ (sz = 8 ∧ 0 < iChild)))
  | .drop _ => inferInstanceAs (Decidable True)

/-- The cell has the size that its header says once it is on the page. -/
def Op.Sized : Op → Prop
  | .insert _ pCell sz iChild => PageSpace.Sized sh (cellText pCell sz iChild)
  | .drop _ => True

structure Exact (p : Page) (texts : List (List UInt8)) (cells : List Cell) (free : List Stretch) :
    Prop where
  texts : cells.map Prod.snd = texts
  pointers : ∀ i (inside : i < cells.length),
    get2byte p.data (sh.cellOffset + 2 * i) = cells[i].1
  bytes : ∀ c ∈ cells, ∀ k (inside : k < c.2.length), p.data (c.1 + k) = c.2[k]
  chain : FreeChain p.data (sh.hdr + 1) free
  apart : (stretches cells ++ free).Pairwise Apart
  inside : ∀ a ∈ stretches cells ++ free, Inside (top sh p.data) sh.usableSize a
  array : gap sh cells ≤ top sh p.data
  fragments : (Finset.Ico (top sh p.data) sh.usableSize \ covered (stretches cells ++ free)).card =
    nFrag sh p.data
  few : nFrag sh p.data ≤ 62
  before : free.Pairwise (Before 3)
  recomputed : btreeInitPage sh p.data = some (sh.page, p)

variable {sh}

theorem Tiled.exact {p : Page} {cells : List Cell} {free : List Stretch}
    (tiled : Tiled sh p cells free) : Exact sh p (cells.map Prod.snd) cells free where
  texts := rfl
  pointers := tiled.pointers.pointers
  bytes := tiled.content.texts
  chain := tiled.content.chain
  apart := tiled.content.apart
  inside := tiled.content.inside
  array := tiled.content.bounds.1
  fragments := tiled.fragments
  few := tiled.content.frag
  before := tiled.content.before
  recomputed := tiled.btreeInitPage_eq

/-- The state of a page whose cells have the right texts. -/
def Sound (sh : Shape) (s : State) : Prop :=
  ∃ p cells free, s.page = some p ∧ cells.map Prod.snd = s.texts ∧ Tiled sh p cells free

theorem sound_step (s : State) (op : Op) (sound : Sound sh s) (call : Fits s op ∧ op.Sized sh) :
    Sound sh (step sh s op) := by
  obtain ⟨p, cells, free, page, texts, tiled⟩ := sound
  obtain ⟨fits, sized⟩ := call
  cases op with
  | insert i pCell sz iChild =>
    simp only [Fits, page] at fits
    obtain ⟨place, four, room⟩ := fits
    have inside : i ≤ cells.length := by rwa [← tiled.nCell]
    obtain ⟨p', cells', free', result, tiled', texts'⟩ := tiled.insertCell inside four room sized
    refine ⟨p', cells', free', ?_, ?_, tiled'⟩
    · rw [step, page, bind_some, result]
    · rw [texts', texts]
      rfl
  | drop idx =>
    simp only [Fits, page] at fits
    have inside : idx < cells.length := by rwa [← tiled.nCell]
    obtain ⟨p', free', result, tiled'⟩ := tiled.dropCell inside
    refine ⟨p', cells.eraseIdx idx, free', ?_, ?_, tiled'⟩
    · rw [step, page, bind_some, tiled.cellSizePtr_eq inside, result]
    · rw [← eraseIdx_map, texts]
      rfl

theorem sized_of_asserted {i sz : Nat} (size : sz = cellSizePtr sh.bt sh.page pCell)
    (child : iChild = 0 ∨ sh.page.leaf = false) : (Op.insert i pCell sz iChild).Sized sh := by
  have four : 4 ≤ sz := by
    rw [size]
    exact four_le_cellSizePtr pCell
  rw [Op.Sized, PageSpace.Sized, length_cellText four, size]
  refine cellSizePtr_congr fun k skipped inside => ?_
  rw [← size] at inside ⊢
  have range : k < (cellText pCell sz iChild).length := by rwa [length_cellText four]
  rw [getD_eq_getElem _ _ range]
  by_cases none : iChild = 0
  · have whole : cellText pCell sz iChild = slice pCell 0 sz := if_neg (not_not_intro none)
    simp [whole, getElem_slice]
  · have interior : sh.page.leaf = false := child.resolve_left none
    have pointer : sh.page.childPtrSize = 4 := by rw [MemPage.childPtrSize, interior]; rfl
    have parts : cellText pCell sz iChild =
      SeSqlite.Bytes.sqlite3Put4byte iChild ++ slice pCell 4 (sz - 4) := if_pos none
    rw [pointer] at skipped
    simp only [parts]
    rw [getElem_append_right (by rwa [SeSqlite.Bytes.length_put4byte]), getElem_slice,
      SeSqlite.Bytes.length_put4byte, Nat.add_sub_cancel' skipped]

/-- From an empty page on, as long as cells fit and have the size that their headers say, no call
finds the page corrupt and its space is exactly accounted for in every state. -/
theorem page_space_exact (sh : Shape) (before : Data) (run : List Op)
    (guarded : Along (step sh) (fun s op => Fits s op ∧ op.Sized sh)
      ⟨some (zeroPage sh before), []⟩ run) :
    Visits (step sh) (fun s => ∃ p cells free, s.page = some p ∧ Exact sh p s.texts cells free)
      ⟨some (zeroPage sh before), []⟩ run := by
  refine visits_of_invariant (I := Sound sh) (fun s sound => ?_) sound_step ?_ guarded
  · obtain ⟨p, cells, free, page, texts, tiled⟩ := sound
    rw [← texts]
    exact ⟨p, cells, free, page, tiled.exact⟩
  · exact ⟨zeroPage sh before, [], [], rfl, rfl, zeroPage_tiled sh before⟩

def interior : Shape where
  bt :=
    { usableSize := 512
      low := PageCount.small_page_low
      high := PageCount.small_page_high
      pendingBytePage := 2 ^ 21 + 1
      autoVacuum := false }
  pageSize := 512
  whole := Nat.le_refl 512
  page := ⟨false, false⟩
  hdr := 0
  offset := .inl rfl
  secureDelete := false

/-- A cell with this payload size in front of a payload of zeros, behind a child number. -/
def indexCell (size : List UInt8) : Data := memcpy (fun _ => 0) 4 size

theorem page_space_exact_interior :
    Visits (step interior) (fun s => ∃ p cells free, s.page = some p ∧
        Exact interior p s.texts cells free)
      ⟨some (zeroPage interior fun _ => 0), []⟩
      [.insert 0 (indexCell [102]) 107 5, .insert 1 (indexCell [3]) 8 6, .drop 0] := by
  have fits : Along (step interior) Fits ⟨some (zeroPage interior fun _ => 0), []⟩
      [.insert 0 (indexCell [102]) 107 5, .insert 1 (indexCell [3]) 8 6, .drop 0] := by
    decide +kernel
  have sized {i sz iChild : Nat} {pCell : Data}
      (size : sz = cellSizePtr interior.bt interior.page pCell) :
      (Op.insert i pCell sz iChild).Sized interior := sized_of_asserted size (.inr rfl)
  obtain ⟨first, second, third, -⟩ := fits
  exact page_space_exact interior _ _ ⟨⟨first, sized (by decide +kernel)⟩,
    ⟨second, sized (by decide +kernel)⟩, ⟨third, trivial⟩, trivial⟩

/-- The record of the integer 0 alone, whose leaf cell of three bytes counts as four. -/
def zeroKey : Data := indexCell [2, 2, 8]

/-- A run that begins with that cell as `sqlite3BtreeDelete` moves it up from a leaf, in eight bytes
where its header says seven. -/
def movedUp : List Op :=
  [.insert 0 zeroKey 8 5, .insert 1 (indexCell [102]) 107 5, .insert 2 (indexCell [102]) 107 5,
    .insert 3 (indexCell [102]) 107 5, .insert 4 (indexCell [102]) 107 5, .drop 1,
    .insert 1 (indexCell [132, 98]) 112 5]

/-- Every call fits and meets what `insertCell` asserts, and the last finds the page corrupt. -/
theorem page_space_movedUp :
    cellSizePtr interior.bt ⟨true, false⟩ (fun k => zeroKey (4 + k)) + 4 = 8 ∧
    Along (step interior) (fun s op => Fits s op ∧ op.Asserted interior)
      ⟨some (zeroPage interior fun _ => 0), []⟩ movedUp ∧
    ¬ Visits (step interior) (fun s => ∃ p cells free, s.page = some p ∧
        Exact interior p s.texts cells free)
      ⟨some (zeroPage interior fun _ => 0), []⟩ movedUp := by
  refine ⟨by decide +kernel, by decide +kernel, fun visits => ?_⟩
  obtain ⟨-, -, -, -, -, -, -, p, cells, free, page, -⟩ := visits
  have corrupt : (movedUp.foldl (step interior)
      ⟨some (zeroPage interior fun _ => 0), []⟩).page.isNone := by
    decide +kernel
  have present := congrArg Option.isNone page
  rw [isNone_some] at present
  exact absurd (corrupt.symm.trans present) (by decide)

end

end SeSqlite.Btree.PageSpace
