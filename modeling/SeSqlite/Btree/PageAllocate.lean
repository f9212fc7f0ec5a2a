/- source: src/btree.c
   digest: Space is taken from the first freeblock that is big enough, or from the gap. -/
import SeSqlite.Btree.PageDefragment

set_option autoImplicit false
set_option relaxedAutoImplicit false

namespace SeSqlite.Btree.PageSpace

open Btree.Payload Lib.Stretches List

section

variable {sh : Shape} {data data' : Data} {addr nByte frag : Nat} {free : List Stretch}
  {b : Stretch}

/-- A link, and freeblocks behind it in order. -/
structure Walk (sh : Shape) (data : Data) (addr : Nat) (free : List Stretch) : Prop where
  chain : FreeChain data addr free
  blocks : ∀ b ∈ free, 4 ≤ b.2
  ordered : Ordered free
  inside : ∀ b ∈ free, Inside (sh.hdr + 8) sh.usableSize b
  behind : ∀ b ∈ free, addr + 4 ≤ b.1
  link : addr + 2 ≤ sh.hdr + 7 ∨ sh.hdr + 8 ≤ addr

theorem Walk.tail (walk : Walk sh data addr (b :: free)) : Walk sh data b.1 free := by
  obtain ⟨after, later⟩ := pairwise_cons.mp walk.ordered
  have four := walk.blocks b mem_cons_self
  refine ⟨walk.chain.2.2, fun c member => walk.blocks c (mem_cons_of_mem b member), later,
    fun c member => walk.inside c (mem_cons_of_mem b member), fun c member => ?_,
    .inr (walk.inside b mem_cons_self).1⟩
  have := after c member
  omega

/-- Only links and heads of freeblocks, and the count of fragments, are changed. -/
def OnlyLinks (sh : Shape) (data data' : Data) (addr : Nat) (free : List Stretch) : Prop :=
  ∀ k, k ≠ sh.hdr + 7 → (k < addr ∨ addr + 2 ≤ k) → (∀ c ∈ free, k < c.1 ∨ c.1 + 4 ≤ k) →
    data' k = data k

variable {free' : List Stretch}

theorem Walk.cons {changed : List Stretch} (walk : Walk sh data addr (b :: free))
    (after : ∀ c ∈ changed, b.1 + b.2 ≤ c.1) (chain : FreeChain data' b.1 free')
    (only : OnlyLinks sh data data' b.1 changed) :
    FreeChain data' addr (b :: free') ∧ OnlyLinks sh data data' addr (b :: changed) := by
  obtain ⟨here, size, -⟩ := walk.chain
  have four := walk.blocks b mem_cons_self
  have behind := walk.behind b mem_cons_self
  have link := walk.link
  obtain ⟨low, -⟩ := walk.inside b mem_cons_self
  have kept {k : Nat} (notFrag : k ≠ sh.hdr + 7) (off : k < b.1 ∨ b.1 + 2 ≤ k)
      (before : k < b.1 + b.2) : data' k = data k := by
    refine only k notFrag off fun c member => .inl ?_
    have := after c member
    omega
  refine ⟨⟨?_, ?_, chain⟩, fun k notFrag off others => ?_⟩
  · rw [← here]
    exact get2byte_congr (kept (by omega) (by omega) (by omega))
      (kept (by omega) (by omega) (by omega))
  · rw [← size]
    exact get2byte_congr (kept (by omega) (by omega) (by omega))
      (kept (by omega) (by omega) (by omega))
  · have head := others b mem_cons_self
    exact only k notFrag (by omega) fun c member => others c (mem_cons_of_mem b member)

/-- The freeblock that the search has found, and what is left of it. -/
inductive Taken (nByte : Nat) (free free' : List Stretch) (b : Stretch) (more : Nat) : Prop where
  | whole (pre post : List Stretch) (at_ : free = pre ++ b :: post) (new : free' = pre ++ post)
      (small : b.2 - nByte < 4) (fragment : more = b.2 - nByte)
  | part (pre post : List Stretch) (at_ : free = pre ++ b :: post)
      (new : free' = pre ++ (b.1, b.2 - nByte) :: post) (large : 4 ≤ b.2 - nByte)
      (fragment : more = 0)

/-- The search gives the end of a freeblock. -/
structure Found (sh : Shape) (data data' : Data) (addr nByte : Nat) (free free' : List Stretch)
    (idx : Nat) : Prop where
  block : ∃ b more, nByte ≤ b.2 ∧ idx = b.1 + (b.2 - nByte) ∧ Taken nByte free free' b more ∧
    nFrag sh data' = nFrag sh data + more
  chain : FreeChain data' addr free'
  only : OnlyLinks sh data data' addr free

theorem Taken.cons {c : Stretch} {more : Nat} (taken : Taken nByte free free' b more) :
    Taken nByte (c :: free) (c :: free') b more := by
  cases taken with
  | whole pre post at_ new small fragment =>
    exact .whole (c :: pre) post (by rw [at_]; rfl) (by rw [new]; rfl) small fragment
  | part pre post at_ new large fragment =>
    exact .part (c :: pre) post (by rw [at_]; rfl) (by rw [new]; rfl) large fragment

section

variable {b : Stretch} (walk : Walk sh data addr (b :: free))

include walk

theorem Found.cons {idx : Nat} (found : Found sh data data' b.1 nByte free free' idx) :
    Found sh data data' addr nByte (b :: free) (b :: free') idx := by
  obtain ⟨chain, only⟩ := walk.cons (pairwise_cons.mp walk.ordered).1 found.chain found.only
  obtain ⟨c, more, enough, place, taken, frags⟩ := found.block
  exact ⟨⟨c, more, enough, place, taken.cons, frags⟩, chain, only⟩

theorem found_whole (enough : nByte ≤ b.2) (small : b.2 - nByte < 4) (few : nFrag sh data < 60) :
    Found sh data (putByte (memcpy data addr (slice data b.1 2)) (sh.hdr + 7)
      (nFrag sh data + (b.2 - nByte))) addr nByte (b :: free) free (b.1 + (b.2 - nByte)) := by
  have link := walk.link
  have rest := walk.tail
  have behind := walk.behind b mem_cons_self
  obtain ⟨low, -⟩ := walk.inside b mem_cons_self
  have length : (slice data b.1 2).length = 2 := length_slice _ _ _
  refine ⟨⟨b, b.2 - nByte, enough, rfl, .whole [] free rfl rfl small rfl, ?_⟩, ?_,
    fun k notFrag off _ => ?_⟩
  · exact putByte_same (by omega)
  · refine rest.chain.congr ?_ fun c member k less => ?_
    · rw [get2byte_putByte_other (by omega)]
      have first : memcpy data addr (slice data b.1 2) (addr + 0) = data (b.1 + 0) :=
        memcpy_slice (by decide)
      have second : memcpy data addr (slice data b.1 2) (addr + 1) = data (b.1 + 1) :=
        memcpy_slice (by decide)
      exact get2byte_congr first second
    · have far := rest.behind c member
      rw [putByte_other (by omega), memcpy_outside (by omega)]
  · rw [putByte_other notFrag, memcpy_outside (by omega)]

theorem found_part (enough : nByte ≤ b.2) (large : 4 ≤ b.2 - nByte) :
    Found sh data (put2byte data (b.1 + 2) (b.2 - nByte)) addr nByte (b :: free)
      ((b.1, b.2 - nByte) :: free) (b.1 + (b.2 - nByte)) := by
  have rest := walk.tail
  have behind := walk.behind b mem_cons_self
  have usable := usable_bounds sh
  obtain ⟨low, high⟩ := walk.inside b mem_cons_self
  refine ⟨⟨b, 0, enough, rfl, .part [] free rfl rfl large rfl, ?_⟩, ⟨?_, ?_, ?_⟩,
    fun k _ _ others => ?_⟩
  · rw [nFrag, put2byte_other (by omega)]
    rfl
  · rw [get2byte_put2byte_other (by omega)]
    exact walk.chain.1
  · exact get2byte_put2byte_of_lt (by omega)
  · refine rest.chain.congr (get2byte_put2byte_other (by dsimp only; omega))
      fun c member k less => ?_
    have far := rest.behind c member
    exact put2byte_other (by omega)
  · have head := others b mem_cons_self
    exact put2byte_other (by omega)

end

theorem searchSlot_spec {rounds : Nat} (walk : Walk sh data addr free) (few : nFrag sh data < 60)
    (enough : free.length < rounds) :
    searchSlot sh data nByte (nFrag sh data) rounds addr = some none ∨
    ∃ idx data' free',
      searchSlot sh data nByte (nFrag sh data) rounds addr = some (some (idx, data')) ∧
      Found sh data data' addr nByte free free' idx := by
  induction free generalizing addr rounds with
  | nil =>
    obtain ⟨rounds, rfl⟩ := Nat.exists_eq_succ_of_ne_zero enough.ne'
    have last : get2byte data addr = 0 := walk.chain
    exact .inl (by rw [searchSlot, if_pos last])
  | cons b free ih =>
    obtain ⟨rounds, rfl⟩ :=
      Nat.exists_eq_succ_of_ne_zero (Nat.ne_of_gt (Nat.zero_lt_of_lt enough))
    obtain ⟨here, size, -⟩ := walk.chain
    obtain ⟨low, high⟩ := walk.inside b mem_cons_self
    have four := walk.blocks b mem_cons_self
    have behind := walk.behind b mem_cons_self
    rw [searchSlot, here, if_neg (by omega), if_neg (by omega)]
    dsimp only
    rw [size]
    split
    · rename_i big
      split
      · rename_i small
        exact .inr ⟨_, _, free, rfl, found_whole walk big small few⟩
      · rw [if_neg (by omega)]
        exact .inr ⟨_, _, _, rfl, found_part walk big (by omega)⟩
    · have fewer : free.length < rounds := Nat.lt_of_succ_lt_succ enough
      rcases ih walk.tail fewer with none | ⟨idx, data', free', found, result⟩
      · exact .inl none
      · exact .inr ⟨idx, data', b :: free', found, result.cons walk⟩

end

namespace Taken

variable {nByte more lo hi : Nat} {b : Stretch} {free free' others : List Stretch}

section

variable (taken : Taken nByte free free' b more)

include taken

theorem mem : b ∈ free := by
  cases taken with
  | whole pre post at_ => simp [at_]
  | part pre post at_ => simp [at_]

theorem total_eq (enough : nByte ≤ b.2) : total free' + nByte + more = total free := by
  cases taken with
  | whole pre post at_ new small fragment =>
    simp only [at_, new, total_append, total_cons]
    omega
  | part pre post at_ new large fragment =>
    simp only [at_, new, total_append, total_cons]
    omega

theorem blocks (four : ∀ c ∈ free, 4 ≤ c.2) : ∀ c ∈ free', 4 ≤ c.2 := by
  intro c member
  cases taken with
  | whole pre post at_ new small fragment =>
    rw [new, mem_append] at member
    exact four c (by rw [at_]; simp; tauto)
  | part pre post at_ new large fragment =>
    rw [new, mem_append, mem_cons] at member
    rcases member with before | rfl | behind
    · exact four c (by simp [at_, before])
    · exact large
    · exact four c (by simp [at_, behind])

theorem before (order : free.Pairwise (Before 3)) : free'.Pairwise (Before 3) := by
  cases taken with
  | whole pre post at_ new small fragment =>
    rw [at_] at order
    rw [new]
    exact order.sublist ((List.Sublist.refl pre).append (sublist_cons_self b post))
  | part pre post at_ new large fragment =>
    rw [at_, pairwise_append, pairwise_cons] at order
    obtain ⟨front, ⟨next, rest⟩, across⟩ := order
    rw [new, pairwise_append, pairwise_cons]
    refine ⟨front, ⟨fun c member => ?_, rest⟩, fun a member c listed => ?_⟩
    · have := next c member
      rw [Before] at this ⊢
      omega
    · rcases mem_cons.mp listed with rfl | behind
      · exact across a member b mem_cons_self
      · exact across a member c (mem_cons_of_mem b behind)

theorem apart (enough : nByte ≤ b.2) (all : (others ++ free).Pairwise Apart) :
    ((b.1 + (b.2 - nByte), nByte) :: (others ++ free')).Pairwise Apart := by
  cases taken with
  | whole pre post at_ new small fragment =>
    have perm : (others ++ free).Perm (b :: (others ++ free')) := by
      rw [at_, new, ← append_assoc, ← append_assoc]
      exact perm_middle
    obtain ⟨first, rest⟩ := pairwise_cons.mp ((apart_perm perm).mp all)
    refine pairwise_cons.mpr ⟨fun c member => (first c member).part ?_ ?_, rest⟩
    · omega
    · omega
  | part pre post at_ new large fragment =>
    have perm : (others ++ free).Perm (b :: (others ++ (pre ++ post))) := by
      rw [at_, ← append_assoc, ← append_assoc]
      exact perm_middle
    have perm' : ((b.1, b.2 - nByte) :: (others ++ (pre ++ post))).Perm (others ++ free') := by
      rw [new, ← append_assoc, ← append_assoc]
      exact perm_middle.symm
    obtain ⟨first, rest⟩ := pairwise_cons.mp ((apart_perm perm).mp all)
    have left : ((b.1, b.2 - nByte) :: (others ++ (pre ++ post))).Pairwise Apart := by
      refine pairwise_cons.mpr ⟨fun c member => (first c member).part le_rfl ?_, rest⟩
      omega
    refine pairwise_cons.mpr ⟨fun c member => ?_, (apart_perm perm').mp left⟩
    rcases mem_cons.mp (perm'.mem_iff.mpr member) with rfl | old
    · right
      exact le_rfl
    · refine (first c old).part ?_ ?_
      · omega
      · omega

theorem inside (enough : nByte ≤ b.2) (all : ∀ a ∈ others ++ free, Inside lo hi a) :
    ∀ a ∈ (b.1 + (b.2 - nByte), nByte) :: (others ++ free'), Inside lo hi a := by
  intro a member
  obtain ⟨low, high⟩ := all b (mem_append_right _ taken.mem)
  rcases mem_cons.mp member with rfl | rest
  · exact ⟨by dsimp only; omega, by dsimp only; omega⟩
  · rcases mem_append.mp rest with other | block
    · exact all a (mem_append_left _ other)
    · cases taken with
      | whole pre post at_ new small fragment =>
        rw [new, mem_append] at block
        exact all a (by rw [at_]; simp; tauto)
      | part pre post at_ new large fragment =>
        rw [new, mem_append, mem_cons] at block
        rcases block with before | rfl | behind
        · exact all a (by simp [at_, before])
        · exact ⟨low, by dsimp only; omega⟩
        · exact all a (by simp [at_, behind])

end

end Taken

section

variable {sh : Shape} {p : Page} {cells : List Cell} {free free' : List Stretch} {nByte idx : Nat}

variable {data : Data} {held : List Stretch} {lo : Nat}

theorem Content.walk {data : Data} (content : Content sh data lo cells free held) :
    Walk sh data (sh.hdr + 1) free := by
  have bounds := content.bounds
  have header := content.header
  have inside {b : Stretch} (member : b ∈ free) : top sh data ≤ b.1 ∧ b.1 + b.2 ≤ sh.usableSize :=
    content.inside b (by simp [member])
  refine ⟨content.chain, content.blocks, ordered_of_before content.before, fun b member => ?_,
    fun b member => ?_, .inl (by omega)⟩
  · obtain ⟨low, high⟩ := inside member
    exact ⟨by omega, high⟩
  · obtain ⟨low, high⟩ := inside member
    omega

theorem Content.few_blocks (content : Content sh data lo cells free held) :
    free.length + 8 ≤ sh.usableSize := by
  have filled := content.filled
  have bounds := content.bounds
  have header := content.header
  have count := Lib.Stretches.length_le_total fun b member =>
    Nat.lt_of_lt_of_le (by decide : 0 < 4) (content.blocks b member)
  simp only [total_append] at filled
  omega

structure Allotted (sh : Shape) (p p' : Page) (idx nByte : Nat) (cells : List Cell)
    (free : List Stretch) : Prop where
  same : p'.nCell = p.nCell ∧ p'.nFree = p.nFree ∧ p'.nOverflow = p.nOverflow
  pointers : Pointers sh p'.data cells
  content : Content sh p'.data (gap sh cells + 2) cells free [(idx, nByte)]

variable (tiled : Tiled sh p cells free)

include tiled

theorem Tiled.takeGap (room : gap sh cells + 2 + nByte ≤ top sh p.data) :
    Allotted sh p (takeGap sh p nByte).2 (takeGap sh p nByte).1 nByte cells free := by
  have usable := usable_bounds sh
  have offset := cellOffset_bounds sh
  have filled := tiled.filled
  have array : gap sh cells = sh.cellOffset + 2 * cells.length := rfl
  -- the bytes change in the header alone
  have kept {k : Nat} (other : k < sh.hdr + 5 ∨ sh.hdr + 7 ≤ k) :
      (PageSpace.takeGap sh p nByte).2.data k = p.data k := put2byte_other (by omega)
  have new_top : top sh (PageSpace.takeGap sh p nByte).2.data = top sh p.data - nByte :=
    get2byteNotZero_put2byte (by rw [← top]; omega) (by rw [← top]; omega)
  have same_frag : nFrag sh (PageSpace.takeGap sh p nByte).2.data = nFrag sh p.data := by
    rw [nFrag, kept (by omega), nFrag]
  have idx : (PageSpace.takeGap sh p nByte).1 = top sh p.data - nByte := rfl
  refine ⟨⟨rfl, rfl, rfl⟩, tiled.pointers.frame (kept (by omega)) ?_ fun i low _ => kept (by omega),
    ⟨fun c member k inside => ?_, tiled.content.sized, ?_, tiled.content.blocks,
      tiled.content.before, ?_, fun a member => ?_, by omega, ?_, ?_, ?_⟩⟩
  · exact get2byte_congr (kept (by omega)) (kept (by omega))
  · obtain ⟨low, high⟩ := tiled.content.inside c.stretch (by simp [stretch_mem member])
    dsimp only [Cell.stretch] at low
    rw [kept (by omega)]
    exact tiled.content.texts c member k inside
  · refine tiled.content.chain.congr (get2byte_congr (kept (by omega)) (kept (by omega)))
      fun b member k _ => ?_
    obtain ⟨low, -⟩ := tiled.content.inside b (by simp [member])
    exact kept (by omega)
  · refine pairwise_cons.mpr ⟨fun a member => .inl ?_, tiled.content.apart⟩
    obtain ⟨low, -⟩ := tiled.content.inside a member
    omega
  · rw [new_top]
    rcases mem_cons.mp member with rfl | others
    · exact ⟨le_rfl, by dsimp only; omega⟩
    · obtain ⟨low, high⟩ := tiled.content.inside a others
      exact ⟨by omega, high⟩
  · omega
  · simp only [cons_append, nil_append, total_cons, total_append]
    omega
  · rw [same_frag]
    exact tiled.content.frag

theorem Tiled.found (found : Found sh p.data data (sh.hdr + 1) nByte free free' idx)
    (room : gap sh cells + 2 ≤ top sh p.data) (few : nFrag sh p.data < 60) :
    Allotted sh p { p with data := data } idx nByte cells free' := by
  have offset := cellOffset_bounds sh
  have filled := tiled.filled
  have array : gap sh cells = sh.cellOffset + 2 * cells.length := rfl
  obtain ⟨b, more, enough, rfl, taken, frags⟩ := found.block
  have small : more < 4 := by
    cases taken with
    | whole pre post at_ new small fragment => omega
    | part pre post at_ new large fragment => omega
  -- what is not of the freeblocks
  have kept {k : Nat} (other : k < sh.hdr + 1 ∨ (sh.hdr + 3 ≤ k ∧ k ≠ sh.hdr + 7))
      (off : ∀ c ∈ free, k < c.1 ∨ c.1 + 4 ≤ k) : data k = p.data k :=
    found.only k (by omega) (by omega) off
  have low_bytes {k : Nat} (below : k < top sh p.data) : ∀ c ∈ free, k < c.1 ∨ c.1 + 4 ≤ k := by
    intro c member
    obtain ⟨low, -⟩ := tiled.content.inside c (by simp [member])
    omega
  have same_top : top sh data = top sh p.data :=
    get2byteNotZero_congr (get2byte_congr (kept (by omega) (low_bytes (by omega)))
      (kept (by omega) (low_bytes (by omega))))
  have all := tiled.content.apart
  have all_inside := tiled.content.inside
  refine ⟨⟨rfl, rfl, rfl⟩, ?_, ⟨fun c member k inside => ?_, tiled.content.sized, found.chain,
    taken.blocks tiled.content.blocks, taken.before tiled.content.before, ?_, ?_, by omega, ?_, ?_,
    ?_⟩⟩
  · exact tiled.pointers.frame (kept (by omega) (low_bytes (by omega)))
      (get2byte_congr (kept (by omega) (low_bytes (by omega)))
        (kept (by omega) (low_bytes (by omega))))
      fun i low high => kept (by omega) (low_bytes (by omega))
  · obtain ⟨low, high⟩ := all_inside c.stretch (by simp [stretch_mem member])
    rw [← tiled.content.texts c member k inside]
    dsimp only [Cell.stretch] at low
    refine kept (by omega) fun d listed => ?_
    have apart := (pairwise_append.mp all).2.2 c.stretch (stretch_mem member) d listed
    have four := tiled.content.blocks d listed
    rw [Apart] at apart
    dsimp only [Cell.stretch] at apart
    omega
  · exact taken.apart enough all
  · rw [same_top]
    exact taken.inside enough all_inside
  · rw [same_top]
    omega
  · have total_free := taken.total_eq enough
    simp only [cons_append, nil_append, total_cons, total_append]
    omega
  · rw [frags]
    omega

theorem Tiled.fromGap (fits : nByte + 2 ≤ p.nFree) :
    ∃ idx p' cells' free', fromGap sh p nByte = some (idx, p') ∧
      Allotted sh p p' idx nByte cells' free' ∧ cells'.map Prod.snd = cells.map Prod.snd := by
  have array : gap sh cells = sh.cellOffset + 2 * p.nCell := by rw [tiled.nCell, gap]
  rw [PageSpace.fromGap, ← array]
  split
  · obtain ⟨p', cells', call, tiled', texts, nFree, nCell, no_frag⟩ := defragmentPage_spec tiled
    have room : gap sh cells' + 2 + nByte ≤ top sh p'.data := by
      have free_space := tiled'.nFree
      rw [Lib.Stretches.total_nil] at free_space
      omega
    obtain ⟨same, pointers, content⟩ := tiled'.takeGap room
    refine ⟨_, _, cells', [], ?_, ⟨⟨?_, ?_, ?_⟩, pointers, content⟩, texts⟩
    · rw [call, Option.map_some]
    · exact same.1.trans nCell
    · exact same.2.1.trans nFree
    · exact same.2.2.trans (tiled'.nOverflow.trans tiled.nOverflow.symm)
  · rename_i enough
    have room := Nat.not_lt.mp enough
    exact ⟨_, _, cells, free, rfl, tiled.takeGap room, rfl⟩

theorem Tiled.allocateSpace (fits : nByte + 2 ≤ p.nFree) :
    ∃ idx p' cells' free', allocateSpace sh p nByte = some (idx, p') ∧
      Allotted sh p p' idx nByte cells' free' ∧ cells'.map Prod.snd = cells.map Prod.snd := by
  have bounds := tiled.content.bounds
  have array : gap sh cells = sh.cellOffset + 2 * p.nCell := by rw [tiled.nCell, gap]
  have start : get2byteNotZero p.data (sh.hdr + 5) = top sh p.data := rfl
  have frag : (p.data (sh.hdr + 7)).toNat = nFrag sh p.data := rfl
  rw [PageSpace.allocateSpace, ← array, frag, if_neg (by omega)]
  split
  · obtain ⟨p₁, cells₁, call, tiled₁, texts₁, nFree, nCell, -⟩ := defragmentPage_spec tiled
    have fits₁ : nByte + 2 ≤ p₁.nFree := by omega
    obtain ⟨idx, p', cells', free', call', allotted, texts'⟩ := tiled₁.fromGap fits₁
    refine ⟨idx, p', cells', free', ?_, ⟨⟨?_, ?_, ?_⟩, allotted.pointers, allotted.content⟩,
      texts'.trans texts₁⟩
    · rw [call, Option.bind_some, call']
    · exact allotted.same.1.trans nCell
    · exact allotted.same.2.1.trans nFree
    · exact allotted.same.2.2.trans (tiled₁.nOverflow.trans tiled.nOverflow.symm)
  · split
    · rename_i few room
      have search := @searchSlot_spec sh p.data (sh.hdr + 1) nByte free sh.usableSize
        tiled.content.walk (Nat.not_le.mp few) (by have := tiled.content.few_blocks; omega)
      rcases search with none | ⟨idx, data, free', call, found⟩
      · rw [none]
        exact tiled.fromGap fits
      · rw [call]
        exact ⟨idx, _, cells, free', rfl, tiled.found found room (Nat.not_le.mp few), rfl⟩
    · exact tiled.fromGap fits

end

end SeSqlite.Btree.PageSpace
