/- source: src/btree.c
   digest: A stretch given back is put among the freeblocks, and those next to each other are
   joined; a freeblock at the start of the content area goes to the gap. -/
import SeSqlite.Btree.PageAllocate

set_option autoImplicit false
set_option relaxedAutoImplicit false

namespace SeSqlite.Btree.PageSpace

open Btree.Payload Lib.Stretches List

variable {rounds : Nat}

section

variable {sh : Shape} {data data' : Data} {addr start size k : Nat} {free : List Stretch}

/-- The page after a freeblock has been put between a link and what it led to. -/
def linked (data : Data) (addr pbegin start size : Nat) : Data :=
  put2byte (put2byte (put2byte data addr start) start pbegin) (start + 2) size

theorem linked_other {pbegin : Nat} (link : k < addr ∨ addr + 2 ≤ k)
    (off : k < start ∨ start + 4 ≤ k) : linked data addr pbegin start size k = data k := by
  rw [linked, put2byte_other (by omega), put2byte_other (by omega), put2byte_other link]

theorem linked_chain (walk : Walk sh data addr free) (behind : addr + 4 ≤ start)
    (fits : start + size ≤ sh.usableSize) (four : 4 ≤ size)
    (before : ∀ b ∈ free, start + size ≤ b.1) :
    FreeChain (linked data addr (get2byte data addr) start size) addr ((start, size) :: free) := by
  have usable := usable_bounds sh
  refine ⟨?_, ?_, walk.chain.congr ?_ fun b member k less => ?_⟩
  · rw [linked, get2byte_put2byte_other (by omega), get2byte_put2byte_other (by omega),
      get2byte_put2byte_of_lt (by omega)]
  · exact get2byte_put2byte_of_lt (by omega)
  · rw [linked, get2byte_put2byte_other (by omega), get2byte_put2byte_of_lt (get2byte_lt data addr)]
  · have far := before b member
    exact linked_other (by omega) (by omega)

theorem findPlace_spec (walk : Walk sh data addr free) (behind : addr + 4 ≤ start)
    (place : Inside (sh.hdr + 8) sh.usableSize (start, size)) (four : 4 ≤ size)
    (apart : ∀ b ∈ free, Apart (start, size) b) (enough : free.length < rounds) :
    ∃ addr' pbegin pre post, findPlace data start rounds addr = some (addr', pbegin) ∧
      free = pre ++ post ∧ pbegin ≤ sh.usableSize - 4 ∧ (∀ b ∈ pre, b.1 + b.2 ≤ start) ∧
      (∀ b ∈ post, start + size ≤ b.1) ∧
      FreeChain (linked data addr' pbegin start size) addr (pre ++ (start, size) :: post) ∧
      OnlyLinks sh data (linked data addr' pbegin start size) addr ((start, size) :: free) ∧
      nFrag sh (linked data addr' pbegin start size) = nFrag sh data := by
  obtain ⟨low, high⟩ := place
  have frags (pbegin : Nat) {addr : Nat} (link : addr + 2 ≤ sh.hdr + 7 ∨ sh.hdr + 8 ≤ addr) :
      nFrag sh (linked data addr pbegin start size) = nFrag sh data := by
    rw [nFrag, linked_other (by omega) (by omega)]
    rfl
  induction free generalizing addr rounds with
  | nil =>
    obtain ⟨rounds, rfl⟩ := Nat.exists_eq_succ_of_ne_zero enough.ne'
    have last : get2byte data addr = 0 := walk.chain
    have none_before : ∀ b ∈ ([] : List Stretch), start + size ≤ b.1 :=
      fun b member => absurd member not_mem_nil
    have chain := linked_chain walk behind high four none_before
    rw [last] at chain
    refine ⟨addr, 0, [], [], ?_, rfl, Nat.zero_le _, fun b member => absurd member not_mem_nil,
      none_before, chain, fun k _ link off => ?_, frags 0 walk.link⟩
    · rw [findPlace, last, if_neg (by omega)]
    · exact linked_other link (off (start, size) mem_cons_self)
  | cons b free ih =>
    obtain ⟨rounds, rfl⟩ := Nat.exists_eq_succ_of_ne_zero (Nat.ne_of_gt (Nat.zero_lt_of_lt enough))
    obtain ⟨here, -, -⟩ := walk.chain
    obtain ⟨after, -⟩ := pairwise_cons.mp walk.ordered
    have size_b := walk.blocks b mem_cons_self
    have gap := walk.behind b mem_cons_self
    obtain ⟨low_b, high_b⟩ := walk.inside b mem_cons_self
    have first := apart b mem_cons_self
    rw [Apart] at first
    by_cases earlier : b.1 < start
    · -- the stretch is behind this freeblock
      have next := ih walk.tail (by omega)
        (fun c member => apart c (mem_cons_of_mem b member)) (Nat.lt_of_succ_lt_succ enough)
      obtain ⟨addr', pbegin, pre, post, call, split, bound, lower, upper, chain, only, frag⟩ := next
      have further : ∀ c ∈ (start, size) :: free, b.1 + b.2 ≤ c.1 := by
        intro c member
        rcases mem_cons.mp member with rfl | later
        · omega
        · exact after c later
      have keeps := walk.cons further chain only
      refine ⟨addr', pbegin, b :: pre, post, ?_, by rw [split, cons_append], bound,
        fun c member => ?_, upper, keeps.1, fun k notFrag link off => ?_, frag⟩
      · rw [findPlace, here, if_pos (by omega), if_neg (by omega), call]
      · rcases mem_cons.mp member with rfl | later
        · omega
        · exact lower c later
      · refine keeps.2 k notFrag link fun c member => off c ?_
        exact (List.Perm.swap _ _ _).mem_iff.mp member
    · have all_before : ∀ c ∈ b :: free, start + size ≤ c.1 := by
        intro c member
        rcases mem_cons.mp member with rfl | later
        · omega
        · have := after c later
          omega
      have chain := linked_chain walk behind high four all_before
      rw [here] at chain
      refine ⟨addr, b.1, [], b :: free, ?_, rfl, by omega,
        fun c member => absurd member not_mem_nil, all_before, chain, fun k _ link off => ?_,
        frags b.1 walk.link⟩
      · rw [findPlace, here, if_neg (by omega)]
      · exact linked_other link (off (start, size) mem_cons_self)

variable {data : Data} {addr : Nat} {cur next : Stretch} {rest : List Stretch}

/-- The page after a freeblock has taken in the next one. -/
def joined (sh : Shape) (data : Data) (cur next : Stretch) : Data :=
  put2byte
    (put2byte (putByte data (sh.hdr + 7) (nFrag sh data - (next.1 - (cur.1 + cur.2)))) cur.1
      (get2byte data next.1))
    (cur.1 + 2) (next.1 + next.2 - cur.1)

theorem joined_other (notFrag : k ≠ sh.hdr + 7) (off : k < cur.1 ∨ cur.1 + 4 ≤ k) :
    joined sh data cur next k = data k := by
  rw [joined, put2byte_other (by omega), put2byte_other (by omega), putByte_other notFrag]

section

variable (walk : Walk sh data addr (cur :: next :: rest))

include walk

theorem Walk.merge :
    Walk sh (joined sh data cur next) addr ((cur.1, next.1 + next.2 - cur.1) :: rest) := by
  have usable := usable_bounds sh
  obtain ⟨here, -, -, -, chain⟩ := walk.chain
  obtain ⟨first, -⟩ := pairwise_cons.mp walk.ordered
  obtain ⟨second, -⟩ := pairwise_cons.mp walk.ordered.tail
  have step := first next mem_cons_self
  have four_next := walk.blocks next (mem_cons_of_mem _ mem_cons_self)
  have gap := walk.behind cur mem_cons_self
  obtain ⟨low, -⟩ := walk.inside cur mem_cons_self
  obtain ⟨-, high⟩ := walk.inside next (mem_cons_of_mem _ mem_cons_self)
  have link := walk.link
  have later {c : Stretch} (member : c ∈ rest) : c ∈ cur :: next :: rest :=
    mem_cons_of_mem _ (mem_cons_of_mem _ member)
  refine ⟨⟨?_, ?_, chain.congr ?_ fun b member k less => ?_⟩, fun b member => ?_,
    walk.ordered.merge.1, fun b member => ?_, fun b member => ?_, link⟩
  · rw [← here]
    exact get2byte_congr (joined_other (by omega) (by omega)) (joined_other (by omega) (by omega))
  · exact get2byte_put2byte_of_lt (by omega)
  · rw [joined, get2byte_put2byte_other (by omega),
      get2byte_put2byte_of_lt (get2byte_lt data next.1)]
  · have far := second b member
    exact joined_other (by omega) (by omega)
  · rcases mem_cons.mp member with rfl | listed
    · omega
    · exact walk.blocks b (later listed)
  · rcases mem_cons.mp member with rfl | listed
    · exact ⟨low, by dsimp only; omega⟩
    · exact walk.inside b (later listed)
  · rcases mem_cons.mp member with rfl | listed
    · exact gap
    · exact walk.behind b (later listed)

theorem nFrag_joined :
    nFrag sh (joined sh data cur next) = nFrag sh data - (next.1 - (cur.1 + cur.2)) := by
  obtain ⟨low, -⟩ := walk.inside cur mem_cons_self
  have byte : nFrag sh data < 2 ^ 8 := (data (sh.hdr + 7)).toNat_lt
  rw [nFrag, joined, put2byte_other (by omega), put2byte_other (by omega), putByte_same (by omega)]

theorem coalesceLoop_merge (near : next.1 ≤ cur.1 + cur.2 + 3)
    (enough : next.1 - (cur.1 + cur.2) ≤ nFrag sh data) : coalesceLoop sh (rounds + 1) addr data =
      coalesceLoop sh rounds addr (joined sh data cur next) := by
  obtain ⟨here, size, onward, size', -⟩ := walk.chain
  obtain ⟨low, -⟩ := walk.inside cur mem_cons_self
  obtain ⟨first, -⟩ := pairwise_cons.mp walk.ordered
  have step := first next mem_cons_self
  have frag : (data (sh.hdr + 7)).toNat = nFrag sh data := rfl
  rw [coalesceLoop, here, if_neg (by omega)]
  dsimp only
  rw [onward, size, if_pos (by omega), if_neg (by omega), get2byte_putByte_other (by omega),
    get2byte_put2byte_other (by omega), get2byte_putByte_other (by omega), size']
  rfl

end

theorem coalesceLoop_pass (walk : Walk sh data addr (cur :: rest))
    (far : ∀ b ∈ rest, ¬ b.1 ≤ cur.1 + cur.2 + 3) :
    coalesceLoop sh (rounds + 1) addr data = coalesceLoop sh rounds cur.1 data := by
  obtain ⟨here, size, chain⟩ := walk.chain
  obtain ⟨low, -⟩ := walk.inside cur mem_cons_self
  have stop : ¬ (cur.1 + cur.2 + 3 ≥ get2byte data cur.1 ∧ get2byte data cur.1 > 0) := by
    cases rest with
    | nil =>
      have last : get2byte data cur.1 = 0 := chain
      omega
    | cons b others =>
      have link := chain.1
      have := far b mem_cons_self
      omega
  rw [coalesceLoop, here, if_neg (by omega)]
  rw [size, if_neg stop]

theorem coalesceLoop_spec (walk : Walk sh data addr (cur :: rest))
    (budget : total (coalesce 3 cur rest) ≤ total (cur :: rest) + nFrag sh data)
    (enough : rest.length + 1 < rounds) : ∃ data', coalesceLoop sh rounds addr data = some data' ∧
      FreeChain data' addr (coalesce 3 cur rest) ∧ OnlyLinks sh data data' addr (cur :: rest) ∧
      nFrag sh data' + total (coalesce 3 cur rest) = nFrag sh data + total (cur :: rest) := by
  induction rest generalizing addr data cur rounds with
  | nil =>
    obtain ⟨rounds, rfl⟩ := Nat.exists_eq_succ_of_ne_zero (Nat.ne_of_gt (Nat.zero_lt_of_lt enough))
    obtain ⟨rounds, rfl⟩ :=
      Nat.exists_eq_succ_of_ne_zero (Nat.ne_of_gt (Nat.lt_of_succ_lt_succ enough))
    have last : get2byte data cur.1 = 0 := walk.chain.2.2
    refine ⟨data, ?_, walk.chain, fun k _ _ _ => rfl, rfl⟩
    rw [coalesceLoop_pass walk fun b member => absurd member not_mem_nil, coalesceLoop,
      if_pos last]
  | cons next rest ih =>
    obtain ⟨rounds, rfl⟩ := Nat.exists_eq_succ_of_ne_zero (Nat.ne_of_gt (Nat.zero_lt_of_lt enough))
    obtain ⟨first, -⟩ := pairwise_cons.mp walk.ordered
    have step := first next mem_cons_self
    have fuel := Nat.lt_of_succ_lt_succ enough
    rw [coalesce] at budget ⊢
    split at budget
    · rename_i near
      rw [if_pos near]
      have grows := Lib.Stretches.total_le_coalesce (d := 3) walk.merge.ordered
      simp only [total_cons] at budget grows
      have frag := nFrag_joined walk
      obtain ⟨data', call, chain, only, count⟩ := ih walk.merge (by
        rw [total_cons]
        omega) fuel
      refine ⟨data', ?_, chain, fun k notFrag link off => ?_, ?_⟩
      · rw [coalesceLoop_merge walk near (by omega), call]
      · have head := off cur mem_cons_self
        rw [only k notFrag link fun c member => ?_, joined_other notFrag head]
        rcases mem_cons.mp member with rfl | listed
        · exact head
        · exact off c (mem_cons_of_mem _ (mem_cons_of_mem _ listed))
      · simp only [total_cons] at count ⊢
        omega
    · rename_i distant
      rw [if_neg distant]
      simp only [total_cons] at budget
      obtain ⟨second, -⟩ := pairwise_cons.mp walk.ordered.tail
      obtain ⟨data', call, chain, only, count⟩ := ih walk.tail (by rw [total_cons]; omega) fuel
      obtain ⟨chain', only'⟩ := walk.cons first chain only
      refine ⟨data', ?_, chain', only', ?_⟩
      · rw [coalesceLoop_pass walk fun b member => ?_, call]
        rcases mem_cons.mp member with rfl | listed
        · exact distant
        · have := second b listed
          omega
      · simp only [total_cons] at count ⊢
        omega

variable {lo start size : Nat} {cells : List Cell}

section

variable (content : Content sh data lo cells free [(start, size)])

include content

theorem Content.overwrite (off : ∀ k, k < start ∨ start + size ≤ k → data' k = data k) :
    Content sh data' lo cells free [(start, size)] := by
  have header := content.header
  have bounds := content.bounds
  obtain ⟨low, high⟩ := content.inside (start, size) (by simp)
  obtain ⟨apart, -⟩ := pairwise_cons.mp content.apart
  have same_top : top sh data' = top sh data :=
    get2byteNotZero_congr (get2byte_congr (off _ (by omega)) (off _ (by omega)))
  have same_frag : nFrag sh data' = nFrag sh data := by
    rw [nFrag, off _ (by omega)]
    rfl
  refine ⟨fun c member k less => ?_, content.sized, ?_, content.blocks, content.before,
    content.apart, ?_, header, ?_, ?_, ?_⟩
  · rw [← content.texts c member k less]
    have clear := apart c.stretch (by simp [stretch_mem member])
    rw [Apart] at clear
    dsimp only [Cell.stretch] at clear
    exact off _ (by omega)
  · refine content.chain.congr (get2byte_congr (off _ (by omega)) (off _ (by omega)))
      fun b member k less => ?_
    have clear := apart b (by simp [member])
    have four := content.blocks b member
    rw [Apart] at clear
    exact off _ (by omega)
  · rw [same_top]
    exact content.inside
  · rw [same_top]
    exact bounds
  · rw [same_top, same_frag]
    exact content.filled
  · rw [same_frag]
    exact content.frag

/-- What a stretch given back changes. -/
structure Released (sh : Shape) (data data' : Data) (lo size : Nat) (cells : List Cell)
    (free free' : List Stretch) : Prop where
  content : Content sh data' lo cells free' []
  space : top sh data' + total free' + nFrag sh data' =
    top sh data + total free + nFrag sh data + size
  header : data' sh.hdr = data sh.hdr ∧ get2byte data' (sh.hdr + 3) = get2byte data (sh.hdr + 3)
  below : ∀ k, sh.hdr + 8 ≤ k → k < lo → data' k = data k

theorem Content.insert (four : 4 ≤ size) : ∃ addr pbegin cur rest,
      findPlace data start sh.usableSize (sh.hdr + 1) = some (addr, pbegin) ∧
      pbegin ≤ sh.usableSize - 4 ∧ (cur :: rest).Perm ((start, size) :: free) ∧
      Walk sh (linked data addr pbegin start size) (sh.hdr + 1) (cur :: rest) ∧
      OnlyLinks sh data (linked data addr pbegin start size) (sh.hdr + 1) ((start, size) :: free) ∧
      nFrag sh (linked data addr pbegin start size) = nFrag sh data := by
  have bounds := content.bounds
  have header := content.header
  have few := content.few_blocks
  obtain ⟨low, high⟩ := content.inside (start, size) (by simp)
  obtain ⟨apart, -⟩ := pairwise_cons.mp content.apart
  obtain ⟨addr, pbegin, pre, post, call, split, bound, lower, upper, chain, only, frag⟩ :=
    findPlace_spec content.walk (by omega) ⟨by dsimp only; omega, high⟩ four
      (fun b member => apart b (by simp [member])) (by omega : free.length < sh.usableSize)
  obtain ⟨cur, rest, list⟩ : ∃ cur rest, pre ++ (start, size) :: post = cur :: rest :=
    exists_cons_of_ne_nil (by simp)
  have perm : (cur :: rest).Perm ((start, size) :: free) := by
    rw [← list, split]
    exact perm_middle
  have among {b : Stretch} (member : b ∈ cur :: rest) : b = (start, size) ∨ b ∈ free :=
    mem_cons.mp (perm.mem_iff.mp member)
  have ordered : Ordered (cur :: rest) := by
    have order := content.walk.ordered
    rw [split] at order
    obtain ⟨front, back, across⟩ := pairwise_append.mp order
    rw [← list]
    refine pairwise_append.mpr ⟨front, pairwise_cons.mpr ⟨upper, back⟩, ?_⟩
    intro a member b listed
    rcases mem_cons.mp listed with rfl | later
    · exact lower a member
    · exact across a member b later
  rw [list] at chain
  refine ⟨addr, pbegin, cur, rest, call, bound, perm, ⟨chain, fun b member => ?_, ordered,
    fun b member => ?_, fun b member => ?_, .inl (by omega)⟩, only, frag⟩
  · rcases among member with rfl | old
    · exact four
    · exact content.blocks b old
  · rcases among member with rfl | old
    · exact ⟨by dsimp only; omega, high⟩
    · exact content.walk.inside b old
  · rcases among member with rfl | old
    · omega
    · exact content.walk.behind b old

variable {rest : List Stretch}

theorem Content.coalesced {cur : Stretch} (perm : (cur :: rest).Perm ((start, size) :: free))
    (ordered : Ordered (cur :: rest)) : (stretches cells ++ coalesce 3 cur rest).Pairwise Apart ∧
    (∀ a ∈ stretches cells ++ coalesce 3 cur rest, Inside (top sh data) sh.usableSize a) ∧
    total (coalesce 3 cur rest) ≤ total (cur :: rest) + nFrag sh data := by
  have old {b : Stretch} (member : b ∈ cur :: rest) :
      b ∈ [(start, size)] ++ stretches cells ++ free := by
    rcases mem_cons.mp (perm.mem_iff.mp member) with rfl | listed
    · simp
    · simp [listed]
  have clear {c b : Stretch} (cell : c ∈ stretches cells) (member : b ∈ cur :: rest) :
      Apart c b := by
    obtain ⟨first, others⟩ := pairwise_cons.mp content.apart
    rcases mem_cons.mp (perm.mem_iff.mp member) with rfl | listed
    · exact (first c (mem_append_left _ cell)).symm
    · exact (pairwise_append.mp others).2.2 c cell b listed
  have apart : (stretches cells ++ coalesce 3 cur rest).Pairwise Apart := by
    obtain ⟨-, others⟩ := pairwise_cons.mp content.apart
    refine pairwise_append.mpr ⟨(pairwise_append.mp others).1,
      (coalesce_before ordered).imp before_apart, fun c cell => ?_⟩
    obtain ⟨text, listed, rfl⟩ := mem_map.mp cell
    exact coalesce_apart ordered (four_le_length (content.sized text listed))
      fun b member => clear cell member
  have inside : ∀ a ∈ stretches cells ++ coalesce 3 cur rest,
      Inside (top sh data) sh.usableSize a := by
    intro a member
    rcases mem_append.mp member with cell | block
    · exact content.inside a (by simp [cell])
    · exact coalesce_inside ordered (fun b listed => content.inside b (old listed)) a block
  refine ⟨apart, inside, ?_⟩
  have room := total_le apart inside
  have filled := content.filled
  rw [total_perm perm]
  simp only [total_append, total_cons, cons_append, nil_append] at room filled ⊢
  omega

theorem Content.join (four : 4 ≤ size) : ∃ addr pbegin data' free',
      findPlace data start sh.usableSize (sh.hdr + 1) = some (addr, pbegin) ∧
      pbegin ≤ sh.usableSize - 4 ∧
      coalesceLoop sh (2 * sh.usableSize) (sh.hdr + 1) (linked data addr pbegin start size) =
        some data' ∧
      free' ≠ [] ∧ Released sh data data' lo size cells free free' := by
  have bounds := content.bounds
  have header := content.header
  have few := content.few_blocks
  obtain ⟨low, high⟩ := content.inside (start, size) (by simp)
  obtain ⟨addr, pbegin, cur, rest, place, bound, perm, walk, only, frag⟩ := content.insert four
  obtain ⟨apart, inside, budget⟩ := content.coalesced perm walk.ordered
  have count : rest.length = free.length := by simpa using perm.length_eq
  obtain ⟨data', call, chain, only', frags⟩ :=
    coalesceLoop_spec walk (by rw [frag]; exact budget)
      (by omega : rest.length + 1 < 2 * sh.usableSize)
  rw [total_perm perm, total_cons] at frags
  -- only links and heads of freeblocks, old and new, have changed
  have kept {k : Nat} (other : k < sh.hdr + 1 ∨ (sh.hdr + 3 ≤ k ∧ k ≠ sh.hdr + 7))
      (off : ∀ c ∈ (start, size) :: free, k < c.1 ∨ c.1 + 4 ≤ k) : data' k = data k := by
    rw [only' k (by omega) (by omega) fun c member => off c (perm.mem_iff.mp member),
      only k (by omega) (by omega) off]
  have low_bytes {k : Nat} (below : k < top sh data) :
      ∀ c ∈ (start, size) :: free, k < c.1 ∨ c.1 + 4 ≤ k := by
    intro c member
    rcases mem_cons.mp member with rfl | listed
    · omega
    · obtain ⟨first, -⟩ := content.inside c (by simp [listed])
      omega
  have same_top : top sh data' = top sh data :=
    get2byteNotZero_congr (get2byte_congr (kept (by omega) (low_bytes (by omega)))
      (kept (by omega) (low_bytes (by omega))))
  have grows := Lib.Stretches.total_le_coalesce (d := 3) walk.ordered
  rw [total_perm perm, total_cons] at grows
  refine ⟨addr, pbegin, data', coalesce 3 cur rest, place, bound, call, ?_,
    ⟨⟨fun c member k less => ?_, content.sized, chain, ?_, coalesce_before walk.ordered, apart, ?_,
      header, ?_, ?_, ?_⟩, ?_, ⟨?_, ?_⟩, fun k above below => ?_⟩⟩
  · obtain ⟨first, others, head⟩ := @Lib.Stretches.coalesce_head 3 cur rest
    rw [head]
    exact cons_ne_nil _ _
  · have cell := stretch_mem member
    obtain ⟨first, others⟩ := pairwise_cons.mp content.apart
    obtain ⟨begin_, -⟩ := content.inside c.stretch (by simp [cell])
    rw [← content.texts c member k less]
    dsimp only [Cell.stretch] at begin_
    refine kept (by omega) fun d listed => ?_
    rcases mem_cons.mp listed with rfl | block
    · have clear := first c.stretch (mem_append_left _ cell)
      rw [Apart] at clear
      dsimp only [Cell.stretch] at clear ⊢
      omega
    · have clear := (pairwise_append.mp others).2.2 c.stretch cell d block
      have size_d := content.blocks d block
      rw [Apart] at clear
      dsimp only [Cell.stretch] at clear
      omega
  · refine coalesce_forall walk.ordered (fun a b first second step near => ?_) walk.blocks
    omega
  · rw [same_top]
    exact inside
  · rw [same_top]
    exact bounds
  · have filled := content.filled
    simp only [total_append, total_cons, cons_append] at filled ⊢
    omega
  · have most := content.frag
    omega
  · omega
  · exact kept (by omega) (low_bytes (by omega))
  · exact get2byte_congr (kept (by omega) (low_bytes (by omega)))
      (kept (by omega) (low_bytes (by omega)))
  · exact kept (by omega) (low_bytes (by omega))

end

/-- The page after its first freeblock has gone to the gap. -/
def absorbed (sh : Shape) (data : Data) (b : Stretch) : Data :=
  put2byte (memcpy data (sh.hdr + 1) (slice data b.1 2)) (sh.hdr + 5) (b.1 + b.2)

variable {b : Stretch}

theorem absorbed_other
    (other : k < sh.hdr + 1 ∨ (sh.hdr + 3 ≤ k ∧ k < sh.hdr + 5) ∨ sh.hdr + 7 ≤ k) :
    absorbed sh data b k = data k := by
  rw [absorbed, put2byte_other (by omega), memcpy_outside (by rw [length_slice]; omega)]

theorem absorbFirst_eq (chain : FreeChain data (sh.hdr + 1) (b :: rest))
    (raw : get2byte data (sh.hdr + 5) = b.1) (place : sh.hdr + 8 ≤ b.1)
    (first : data (sh.hdr + 1) = data (sh.hdr + 5) ∧ data (sh.hdr + 2) = data (sh.hdr + 6)) :
    absorbFirst sh data = absorbed sh data b := by
  obtain ⟨here, size, -⟩ := chain
  have two := length_slice data b.1 2
  rw [absorbFirst, if_pos first, here]
  dsimp only
  rw [get2byte_memcpy_other (by omega), get2byte_memcpy_other (by omega), raw, size]
  rfl

theorem Content.absorbed (content : Content sh data lo cells (b :: rest) [])
    (start : top sh data = b.1) :
    Released sh data (absorbed sh data b) lo 0 cells (b :: rest) rest := by
  have bounds := content.bounds
  have header := content.header
  have usable := usable_bounds sh
  obtain ⟨low, high⟩ := content.inside b (by simp)
  obtain ⟨after, order⟩ := pairwise_cons.mp content.before
  have new_top : top sh (PageSpace.absorbed sh data b) = b.1 + b.2 :=
    get2byteNotZero_put2byte (by omega) (by omega)
  have frags : nFrag sh (PageSpace.absorbed sh data b) = nFrag sh data := by
    rw [nFrag, absorbed_other (by omega)]
    rfl
  have link : get2byte (PageSpace.absorbed sh data b) (sh.hdr + 1) = get2byte data b.1 := by
    rw [PageSpace.absorbed, get2byte_put2byte_other (by omega)]
    exact get2byte_congr (memcpy_slice (k := 0) (by decide)) (memcpy_slice (k := 1) (by decide))
  have perm : (stretches cells ++ b :: rest).Perm (b :: (stretches cells ++ rest)) :=
    perm_middle
  obtain ⟨clear, apart⟩ := pairwise_cons.mp ((apart_perm perm).mp content.apart)
  refine ⟨⟨fun c member k less => ?_, content.sized, ?_, fun c member => ?_, order, apart,
    fun a member => ?_, header, ?_, ?_, ?_⟩, ?_, ⟨?_, ?_⟩, fun k above below => ?_⟩
  · obtain ⟨begin_, -⟩ := content.inside c.stretch (by simp [stretch_mem member])
    rw [← content.texts c member k less]
    dsimp only [Cell.stretch] at begin_
    exact absorbed_other (by omega)
  · refine content.chain.2.2.congr link fun c member k less => ?_
    have behind := after c member
    rw [Before] at behind
    exact absorbed_other (by omega)
  · exact content.blocks c (mem_cons_of_mem b member)
  · have listed := perm.mem_iff.mpr (mem_cons_of_mem b member)
    obtain ⟨begin_, end_⟩ := content.inside a listed
    refine ⟨?_, end_⟩
    have split := clear a member
    have some_byte : 4 ≤ a.2 := by
      rcases mem_append.mp member with cell | block
      · obtain ⟨text, known, rfl⟩ := mem_map.mp cell
        exact four_le_length (content.sized text known)
      · exact content.blocks a (mem_cons_of_mem b block)
    rw [Apart] at split
    omega
  · omega
  · have filled := content.filled
    simp only [total_append, total_cons] at filled ⊢
    omega
  · rw [frags]
    exact content.frag
  · rw [total_cons]
    omega
  · exact absorbed_other (by omega)
  · exact get2byte_congr (absorbed_other (by omega)) (absorbed_other (by omega))
  · exact absorbed_other (by omega)

theorem Content.absorbFirst (content : Content sh data lo cells free []) (some_block : free ≠ []) :
    ∃ free', Released sh data (absorbFirst sh data) lo 0 cells free free' := by
  by_cases first : data (sh.hdr + 1) = data (sh.hdr + 5) ∧ data (sh.hdr + 2) = data (sh.hdr + 6)
  · have header := content.header
    have bounds := content.bounds
    obtain ⟨b, rest, list⟩ := exists_cons_of_ne_nil some_block
    rw [list] at content ⊢
    obtain ⟨low, high⟩ := content.inside b (by simp)
    have here := content.chain.1
    have below := get2byte_lt data (sh.hdr + 1)
    have raw : get2byte data (sh.hdr + 5) = b.1 := by
      rw [← here]
      exact get2byte_congr first.1.symm first.2.symm
    have start : top sh data = b.1 := by
      have not_zero : top sh data = (get2byte data (sh.hdr + 5) + (2 ^ 16 - 1)) % 2 ^ 16 + 1 := rfl
      omega
    rw [absorbFirst_eq content.chain raw (by omega) first]
    exact ⟨rest, content.absorbed start⟩
  · rw [PageSpace.absorbFirst, if_neg first]
    exact ⟨free, content, (Nat.add_zero _).symm, ⟨rfl, rfl⟩, fun k _ _ => rfl⟩

theorem Released.trans {data₁ data₂ : Data} {free₁ free₂ : List Stretch} {size' : Nat}
    (first : Released sh data data₁ lo size cells free free₁)
    (second : Released sh data₁ data₂ lo size' cells free₁ free₂) :
    Released sh data data₂ lo (size + size') cells free free₂ := by
  have space := first.space
  have space' := second.space
  refine ⟨second.content, by omega, ⟨second.header.1.trans first.header.1,
    second.header.2.trans first.header.2⟩, fun k above below => ?_⟩
  rw [second.below k above below, first.below k above below]

theorem Content.freeSpace {p : Page} (content : Content sh p.data lo cells free [(start, size)])
    (four : 4 ≤ size) :
    ∃ data' free', freeSpace sh p start size = some ⟨data', p.nCell, p.nFree + size, p.nOverflow⟩ ∧
      Released sh p.data data' lo size cells free free' := by
  have bounds := content.bounds
  have header := content.header
  obtain ⟨low, -⟩ := content.inside (start, size) (by simp)
  have cleared : ∃ data, data = (if sh.secureDelete then
      memcpy p.data start (replicate size 0) else p.data) ∧
      ∀ k, k < start ∨ start + size ≤ k → data k = p.data k := by
    refine ⟨_, rfl, fun k off => ?_⟩
    split
    · exact memcpy_outside (by rwa [length_replicate])
    · rfl
  obtain ⟨data, same, off⟩ := cleared
  obtain ⟨addr, pbegin, data₁, free₁, place, bound, call, some_block, released⟩ :=
    (content.overwrite off).join four
  obtain ⟨free₂, absorbed⟩ := released.content.absorbFirst some_block
  obtain ⟨content', space, kept, below⟩ := released.trans absorbed
  refine ⟨PageSpace.absorbFirst sh data₁, free₂, ?_, content', ?_, ?_, fun k above less => ?_⟩
  · rw [PageSpace.freeSpace]
    rw [← same, place, Option.bind_some]
    dsimp only
    rw [if_neg (by omega)]
    change Option.map _ (coalesceLoop sh _ _ (linked data addr pbegin start size)) = _
    rw [call, Option.map_some]
  · have same_top : top sh data = top sh p.data :=
      get2byteNotZero_congr (get2byte_congr (off _ (by omega)) (off _ (by omega)))
    have same_frag : nFrag sh data = nFrag sh p.data := by
      rw [nFrag, off _ (by omega)]
      rfl
    rw [space, same_top, same_frag, Nat.add_zero]
  · rw [kept.1, kept.2, off _ (by omega)]
    exact ⟨rfl, get2byte_congr (off _ (by omega)) (off _ (by omega))⟩
  · rw [below k above less, off k (by omega)]

end

end SeSqlite.Btree.PageSpace
