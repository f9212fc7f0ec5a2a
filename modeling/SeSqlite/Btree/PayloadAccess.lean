/- source: src/btree.c
   digest: A read or a write of a part of a stored payload moves exactly the bytes of that part. -/
import SeSqlite.Btree.PayloadLayout

set_option autoImplicit false
set_option relaxedAutoImplicit false

namespace SeSqlite.Btree.Payload

open Btree.PageCount Lib.Scatter List Option

/-- No entry of the pointer map leads from a page of the chain to another page than the next. -/
def MapFits (bt : BtShared) (db : Db) (chain : List Nat) : Prop :=
  bt.autoVacuum = true → ∀ g, 1 < g → g ≤ db.nPage → bt.ordinary g = true →
    1 ≤ (db.ptrmap g).1 ∧ (db.ptrmap g).1 ≤ 5 ∧
    ∀ k (inside : k < chain.length), db.ptrmap g = (ptrmapOverflow2, chain[k]) →
      chain.getD (k + 1) 0 = g

def spots (bt : BtShared) (pgno pc : Nat) (info : CellInfo) (chain : List Nat) : Nat → Nat × Nat :=
  place pgno (pc + info.nHeader) info.nLocal 4 bt.ovflSize chain

/-- A cell at an offset of a page, and its overflow pages, with this payload. -/
structure Stored (bt : BtShared) (page : MemPage) (db : Db) (pgno pc : Nat) (info : CellInfo)
    (chain : List Nat) (payload : List UInt8) : Prop where
  parsed : btreeParseCellPtr bt page (fun i => db.page pgno (pc + i)) = info
  length : info.nPayload = payload.length
  small : payload.length < 2 ^ 31
  inside : pc + info.nHeader + info.nLocal ≤ bt.usableSize
  nodup : chain.Nodup
  apart : pgno ∉ chain
  numbers : ∀ p ∈ chain, 1 < p ∧ p ≤ pagerMaxPgno
  pages : chain.length = nOvfl bt page payload.length
  first : ∀ p ∈ chain.head?, get4byte (db.page pgno) (pc + info.nHeader + info.nLocal) = p
  links : ∀ k (inside : k + 1 < chain.length), get4byte (db.page chain[k]) 0 = chain[k + 1]
  map : MapFits bt db chain
  stores : Stores db.byte (spots bt pgno pc info chain) 0 payload

/-- What a cache of overflow pages may hold. -/
def CacheFits (chain : List Nat) (aOverflow : Option (List Nat)) : Prop :=
  ∀ pages ∈ aOverflow, pages.length = chain.length ∧
    ∀ i (inside : i < chain.length), pages[i]? = some 0 ∨ pages[i]? = some chain[i]

variable {bt : BtShared} {page : MemPage} {db db' : Db} {pgno pc : Nat} {info : CellInfo}
  {chain : List Nat} {payload : List UInt8}

namespace Stored

section

variable {i k : Nat} (stored : Stored bt page db pgno pc info chain payload)

include stored

theorem sizes : info.nLocal = page.nLocal bt payload.length ∧
    (if page.intKey then 0 else info.nKey.toNat) + info.nData = payload.length := by
  obtain ⟨nKey, nData, nPayload, n, parse, total⟩ :=
    parse_eq bt page fun i => db.page pgno (pc + i)
  rw [stored.parsed] at parse
  subst parse
  have length := stored.length
  subst length
  exact ⟨rfl, total⟩

theorem room : payload.length ≤ info.nLocal + chain.length * bt.ovflSize := by
  rw [stored.sizes.1, stored.pages]
  exact nOvfl_room bt page payload.length

theorem injOn : Set.InjOn (spots bt pgno pc info chain) (Set.Iio payload.length) :=
  (place_injOn bt.ovflSize_pos stored.nodup stored.apart).mono
    (Set.Iio_subset_Iio stored.room)

theorem spots_cases (inside : i < payload.length) :
    (∃ _ : i < info.nLocal, spots bt pgno pc info chain i = (pgno, pc + info.nHeader + i)) ∨
    ∃ p ∈ chain, ∃ j < bt.ovflSize, spots bt pgno pc info chain i = (p, 4 + j) :=
  place_page bt.ovflSize_pos (inside.trans_le stored.room)

/-- Bytes off the payload: elsewhere on the page of the cell, at the head of an overflow page or on
another page. -/
theorem off_payload {spot : Nat × Nat}
    (onPage : spot.1 = pgno → spot.2 < pc + info.nHeader ∨ pc + info.nHeader + info.nLocal ≤ spot.2)
    (onChain : spot.1 ∈ chain → spot.2 < 4) (inside : i < payload.length) :
    spot ≠ spots bt pgno pc info chain i := by
  rintro rfl
  rcases stored.spots_cases inside with ⟨less, here⟩ | ⟨p, member, j, -, here⟩
  · rw [here] at onPage
    omega
  · rw [here] at onChain
    have := onChain member
    omega

theorem overwritten {pos : Nat} {bytes : List UInt8}
    (written : Overwritten db.byte db'.byte (spots bt pgno pc info chain) pos bytes)
    (inside : pos + bytes.length ≤ payload.length)
    (same : db'.nPage = db.nPage ∧ db'.ptrmap = db.ptrmap) :
    Stored bt page db' pgno pc info chain (splice payload pos bytes) := by
  have kept (spot : Nat × Nat) (onPage : spot.1 = pgno → spot.2 < pc + info.nHeader ∨
      pc + info.nHeader + info.nLocal ≤ spot.2) (onChain : spot.1 ∈ chain → spot.2 < 4) :
      db'.byte spot = db.byte spot :=
    written.kept spot fun k less => stored.off_payload onPage onChain (by omega)
  have onCell {i : Nat} (off : i < pc + info.nHeader ∨ pc + info.nHeader + info.nLocal ≤ i) :
      db'.page pgno i = db.page pgno i :=
    kept (pgno, i) (fun _ => off) fun member => absurd member stored.apart
  have length := length_splice inside
  refine ⟨?_, ?_, ?_, stored.inside, stored.nodup, stored.apart, stored.numbers, ?_, ?_, ?_, ?_,
    ?_⟩
  · rw [← stored.parsed]
    refine parse_congr fun k _ header => onCell (.inl ?_)
    rw [stored.parsed] at header
    omega
  · rw [length, stored.length]
  · rw [length]
    exact stored.small
  · rw [length, stored.pages]
  · intro p head
    rw [← stored.first p head]
    exact get4byte_congr fun k _ => onCell (.inr (by omega))
  · intro k less
    rw [← stored.links k less]
    refine get4byte_congr fun j small => ?_
    refine kept (chain[k], 0 + j) (fun onPage => ?_) fun _ => ?_
    · exact absurd (getElem_mem _) (onPage ▸ stored.apart)
    · omega
  · rw [MapFits, same.1, same.2]
    exact stored.map
  · exact stored.stores.overwritten written stored.injOn inside

theorem getD_pos (inside : k < chain.length) : 1 < chain[k] ∧ chain[k] ≤ pagerMaxPgno :=
  stored.numbers _ (getElem_mem inside)

theorem getOverflowPage_eq (inside : k + 1 < chain.length) :
    getOverflowPage bt db chain[k] = some chain[k + 1] := by
  have number : 1 < chain[k] ∧ chain[k] ≤ 2147483647 := stored.getD_pos (by omega)
  have link := stored.links k inside
  rw [getOverflowPage]
  split
  · rename_i auto
    have next : add32 chain[k] 1 = chain[k] + 1 := by
      rw [add32, Nat.mod_eq_of_lt (by omega)]
    obtain ⟨guess, found, behind, near, ordinary, -⟩ :=
      skipForward_spec bt (n := chain[k] + 1) (by omega) (by omega)
    rw [next, found, bind_some]
    split
    · rename_i in_file
      have lower := Nat.not_le.mpr (PageCount.BtShared.ptrmapPageno_lt (by omega) (by omega)
        ordinary)
      obtain ⟨low, high, next_only⟩ := stored.map auto guess (by omega) in_file ordinary
      rw [BtShared.ptrmapGet, if_neg lower, if_neg (by omega), bind_some]
      dsimp only
      split
      · rename_i entry
        have next_page := next_only k (by omega) (Prod.ext entry.1 entry.2)
        rw [getD_eq_getElem _ _ inside] at next_page
        rw [next_page]
      · rw [link]
    · rw [link]
  · rw [link]

end

end Stored

section

variable {eOp : Bool} {loc : Nat → Nat × Nat} {db db' db'' : Db} {pos : Nat}
  {pBuf bytes more : List UInt8}

/-- These bytes went from the buffer to the places from a position on, or from there to it. -/
structure Moved (eOp : Bool) (loc : Nat → Nat × Nat) (db db' : Db) (pos : Nat)
    (pBuf bytes : List UInt8) : Prop where
  written : Overwritten db.byte db'.byte loc pos bytes
  same : db'.nPage = db.nPage ∧ db'.ptrmap = db.ptrmap
  read : eOp = false → db' = db
  write : eOp = true → bytes = pBuf.take bytes.length

theorem moved_nil : Moved eOp loc db db pos pBuf [] :=
  ⟨overwritten_nil, ⟨rfl, rfl⟩, fun _ => rfl, fun _ => rfl⟩

theorem Moved.trans {bound : Nat} (first : Moved eOp loc db db' pos pBuf bytes)
    (second : Moved eOp loc db' db'' (pos + bytes.length) (pBuf.drop bytes.length) more)
    (apart : Set.InjOn loc (Set.Iio bound)) (inside : pos + bytes.length + more.length ≤ bound) :
    Moved eOp loc db db'' pos pBuf (bytes ++ more) where
  written := first.written.trans second.written apart inside
  same := ⟨second.same.1.trans first.same.1, second.same.2.trans first.same.2⟩
  read := fun reading => (second.read reading).trans (first.read reading)
  write := fun writing => by
    rw [length_append, take_add, ← first.write writing, ← second.write writing]

theorem Moved.bytes_eq (moved : Moved false loc db db' pos pBuf bytes) :
    bytes = gather db.byte loc pos bytes.length := by
  have stores := moved.written.stores
  rw [moved.read rfl] at stores
  exact stores.gather_eq.symm

theorem moved_copyPayload (eOp : Bool) (db : Db) {pgno offset nByte : Nat}
    (consecutive : ∀ k < nByte, loc (pos + k) = (pgno, offset + k)) (enough : nByte ≤ pBuf.length) :
    Moved eOp loc db (copyPayload db pgno offset pBuf nByte eOp).1 pos pBuf
      (copyPayload db pgno offset pBuf nByte eOp).2 ∧
    (copyPayload db pgno offset pBuf nByte eOp).2.length = nByte := by
  cases eOp with
  | true =>
    have length : (pBuf.take nByte).length = nByte := by
      rw [length_take]
      omega
    refine ⟨⟨Db.overwritten_memcpy ?_, ⟨rfl, rfl⟩, fun reading => absurd reading (by decide),
      fun _ => ?_⟩, length⟩
    · rw [length]
      exact consecutive
    · change pBuf.take nByte = pBuf.take (pBuf.take nByte).length
      rw [length]
  | false =>
    have bytes : (copyPayload db pgno offset pBuf nByte false).2 =
        gather db.byte loc pos nByte := by
      refine map_congr_left fun k inside => ?_
      rw [consecutive k (mem_range.mp inside)]
      rfl
    rw [bytes]
    exact ⟨⟨⟨stores_gather, fun _ _ => rfl⟩, ⟨rfl, rfl⟩, fun _ => rfl,
      fun writing => absurd writing (by decide)⟩, length_gather⟩

variable {s : Access}

variable {aOverflow : Option (List Nat)} {i : Nat}

theorem CacheFits.set (fits : CacheFits chain aOverflow) (inside : i < chain.length) :
    CacheFits chain (aOverflow.map fun pages => pages.set i chain[i]) := by
  intro pages member
  rw [mem_def, map_eq_some_iff] at member
  obtain ⟨before, cache, rfl⟩ := member
  obtain ⟨length, entries⟩ := fits before cache
  refine ⟨by rw [length_set, length], fun j less => ?_⟩
  rcases eq_or_ne i j with rfl | other
  · exact .inr (getElem?_set_self (by omega))
  · rw [getElem?_set_ne other]
    exact entries j less

theorem CacheFits.cached (fits : CacheFits chain aOverflow) (inside : i < chain.length) :
    Access.cached aOverflow i = some 0 ∨ Access.cached aOverflow i = some chain[i] := by
  cases aOverflow with
  | none => exact .inl rfl
  | some pages => exact (fits pages rfl).2 i inside

/-- The loop is at a page of the chain, and the next byte of the range is so far behind the start of
that page. -/
structure Walking (bt : BtShared) (page : MemPage) (pgno pc : Nat) (info : CellInfo)
    (chain : List Nat) (payload : List UInt8) (pos : Nat) (s : Access) : Prop where
  stored : Stored bt page s.db pgno pc info chain payload
  cache : CacheFits chain s.aOverflow
  room : pos + s.amt ≤ payload.length
  here : 0 < s.amt → pos = info.nLocal + s.iIdx * bt.ovflSize + s.offset
  next : 0 < s.amt → s.nextPage = chain.getD s.iIdx 0

namespace Walking

section

variable (walking : Walking bt page pgno pc info chain payload pos s)

include walking

variable (some_byte : 0 < s.amt)

include some_byte

theorem idx_lt : s.iIdx < chain.length := by
  have here := walking.here some_byte
  have room := walking.room
  have most := walking.stored.room
  by_contra behind
  have := Nat.mul_le_mul_right bt.ovflSize (Nat.not_lt.mp behind)
  omega

theorem nextPage_eq (inside : s.iIdx < chain.length) : s.nextPage = chain[s.iIdx] := by
  rw [walking.next some_byte, getD_eq_getElem _ _ inside]

theorem remember : ∃ aOverflow, s.remember = some aOverflow ∧
    CacheFits chain aOverflow := by
  have inside := walking.idx_lt some_byte
  have fits := walking.cache.set inside
  rw [Access.remember, walking.nextPage_eq some_byte inside]
  cases cache : s.aOverflow with
  | none => exact ⟨none, rfl, fun pages member => absurd member (by simp)⟩
  | some pages =>
    have length := (walking.cache pages cache).1
    rw [cache] at fits
    exact ⟨some (pages.set s.iIdx chain[s.iIdx]), if_pos (by omega), fits⟩

omit some_byte in
theorem withCache (fits : CacheFits chain aOverflow) :
    Walking bt page pgno pc info chain payload pos { s with aOverflow := aOverflow } :=
  ⟨walking.stored, fits, walking.room, walking.here, walking.next⟩

theorem pass (before : bt.ovflSize ≤ s.offset) : ∃ next, s.pass bt = some { s with
        iIdx := s.iIdx + 1
        offset := s.offset - bt.ovflSize
        nextPage := next } ∧
      Walking bt page pgno pc info chain payload pos { s with
        iIdx := s.iIdx + 1
        offset := s.offset - bt.ovflSize
        nextPage := next } := by
  have inside := walking.idx_lt some_byte
  have here := walking.here some_byte
  have room := walking.room
  have most := walking.stored.room
  have more : s.iIdx + 1 < chain.length := by
    by_contra last
    have count : chain.length = s.iIdx + 1 := by omega
    rw [count, Nat.succ_mul] at most
    omega
  refine ⟨chain[s.iIdx + 1], ?_, ⟨walking.stored, walking.cache, walking.room, fun _ => ?_,
    fun _ => ?_⟩⟩
  · have positive : chain[s.iIdx + 1] ≠ 0 := by
      have := walking.stored.getD_pos more
      omega
    have found := walking.stored.getOverflowPage_eq more
    rw [← walking.nextPage_eq some_byte inside] at found
    rw [Access.pass]
    rcases walking.cache.cached more with unknown | known
    · rw [unknown, bind_some, if_neg (by simp), found, map_some]
    · rw [known, bind_some, if_pos positive, map_some]
  · change pos = info.nLocal + (s.iIdx + 1) * bt.ovflSize + (s.offset - bt.ovflSize)
    rw [Nat.succ_mul]
    omega
  · exact (getD_eq_getElem _ _ more).symm

theorem move (reached : s.offset < bt.ovflSize) (eOp : Bool) :
    ∃ bytes, Moved eOp (spots bt pgno pc info chain) s.db (s.move bt eOp).db pos s.pBuf bytes ∧
      bytes.length = min s.amt (bt.ovflSize - s.offset) ∧
      (s.move bt eOp).pBuf = s.pBuf.drop bytes.length ∧
      (s.move bt eOp).done = s.done ++ bytes ∧
      Walking bt page pgno pc info chain (splice payload pos bytes) (pos + bytes.length)
        (s.move bt eOp) := by
  have inside := walking.idx_lt some_byte
  have here := walking.here some_byte
  have room := walking.room
  have current := walking.nextPage_eq some_byte inside
  have enough : min s.amt (bt.ovflSize - s.offset) ≤ s.pBuf.length := Nat.min_le_left _ _
  have consecutive : ∀ k < min s.amt (bt.ovflSize - s.offset),
      spots bt pgno pc info chain (pos + k) = (s.nextPage, s.offset + 4 + k) := by
    intro k less
    have number : pos + k = info.nLocal + s.iIdx * bt.ovflSize + (s.offset + k) := by omega
    rw [spots, number, place_chain inside (by omega), current]
    have offset : 4 + (s.offset + k) = s.offset + 4 + k := by omega
    rw [offset]
  obtain ⟨moved, length⟩ := moved_copyPayload eOp s.db consecutive enough
  refine ⟨_, moved, length, ?_, rfl, ?_⟩
  · rw [length]
    rfl
  · have fits : pos + min s.amt (bt.ovflSize - s.offset) ≤ payload.length := by omega
    have left : (s.move bt eOp).amt = s.amt - min s.amt (bt.ovflSize - s.offset) :=
      length_drop
    refine ⟨walking.stored.overwritten moved.written (by rw [length]; exact fits) moved.same,
      walking.cache, ?_, fun still => ?_, fun still => ?_⟩
    · rw [length_splice (by rw [length]; exact fits)]
      omega
    · change _ = info.nLocal + (s.iIdx + 1) * bt.ovflSize + 0
      rw [Nat.succ_mul]
      omega
    · have most := walking.stored.room
      have more : s.iIdx + 1 < chain.length := by
        by_contra last
        have count : chain.length = s.iIdx + 1 := by omega
        rw [count, Nat.succ_mul] at most
        omega
      change get4byte (s.db.page s.nextPage) 0 = chain.getD (s.iIdx + 1) 0
      rw [current, walking.stored.links _ more, getD_eq_getElem _ _ more]

theorem nextPage_ne : s.nextPage ≠ 0 := by
  have inside := walking.idx_lt some_byte
  have number := walking.stored.getD_pos inside
  rw [walking.nextPage_eq some_byte inside]
  omega

end

theorem loop (eOp : Bool) {rounds : Nat}
    (walking : Walking bt page pgno pc info chain payload pos s)
    (enough : s.offset + s.amt ≤ rounds) :
    ∃ s' bytes, Access.loop bt eOp rounds s = some s' ∧ s'.pBuf = [] ∧
      s'.done = s.done ++ bytes ∧ bytes.length = s.amt ∧
      Moved eOp (spots bt pgno pc info chain) s.db s'.db pos s.pBuf bytes ∧
      CacheFits chain s'.aOverflow := by
  induction rounds generalizing s pos payload with
  | zero =>
    have empty : s.pBuf = [] := eq_nil_of_length_eq_zero (by rw [← Access.amt]; omega)
    have amt : s.amt = 0 := by omega
    exact ⟨s, [], rfl, empty, (append_nil _).symm, amt.symm, moved_nil, walking.cache⟩
  | succ rounds ih =>
    rcases Nat.eq_zero_or_pos s.amt with amt | some_byte
    · have empty : s.pBuf = [] := eq_nil_of_length_eq_zero amt
      rw [Access.loop, if_neg (by omega)]
      exact ⟨s, [], rfl, empty, (append_nil _).symm, amt.symm, moved_nil, walking.cache⟩
    · obtain ⟨aOverflow, remembered, fits⟩ := walking.remember some_byte
      have walking' := walking.withCache fits
      rw [Access.loop, if_pos ⟨some_byte, walking.nextPage_ne some_byte⟩, Access.body, remembered,
        bind_some]
      dsimp only
      split
      · rename_i before
        obtain ⟨next, passed, there⟩ := walking'.pass some_byte before
        have pos_size := bt.ovflSize_pos
        rw [passed]
        refine ih there ?_
        change s.offset - bt.ovflSize + s.amt ≤ rounds
        omega
      · rename_i reached
        obtain ⟨bytes, moved, length, rest, done, there⟩ :=
          walking'.move some_byte (Nat.lt_of_not_le reached) eOp
        have room := walking.room
        have length' : bytes.length = min s.amt (bt.ovflSize - s.offset) := length
        have offset : (({ s with aOverflow := aOverflow } : Access).move bt eOp).offset = 0 := rfl
        generalize ({ s with aOverflow := aOverflow } : Access).move bt eOp = t
          at moved rest done there offset ⊢
        have amt : t.amt = s.amt - bytes.length := by
          rw [Access.amt, rest, length_drop]
          rfl
        obtain ⟨s', more, result, empty, done', length'', moved', fits'⟩ := ih there (by omega)
        refine ⟨s', bytes ++ more, result, empty, ?_, ?_, ?_, fits'⟩
        · rw [done', done, append_assoc]
        · rw [length_append]
          omega
        · rw [rest] at moved'
          exact moved.trans moved' walking.stored.injOn (by omega)

theorem enterChain (walking : Walking bt page pgno pc info chain payload pos s)
    (some_byte : 0 < s.amt) (start : s.iIdx = 0) :
    ∃ s', Payload.enterChain bt s = some s' ∧ s'.db = s.db ∧ s'.pBuf = s.pBuf ∧
      s'.done = s.done ∧ Walking bt page pgno pc info chain payload pos s' := by
  have pos_size := bt.ovflSize_pos
  have here := walking.here some_byte
  have room := walking.room
  have most := walking.stored.room
  have division := Nat.div_add_mod' s.offset bt.ovflSize
  rw [start, Nat.zero_mul] at here
  have inside : s.offset / bt.ovflSize < chain.length := by
    rw [Nat.div_lt_iff_lt_mul pos_size]
    omega
  rw [Payload.enterChain]
  rcases walking.cache.cached inside with unknown | known
  · rw [unknown, map_some]
    exact ⟨s, rfl, rfl, rfl, rfl, walking⟩
  · have number := walking.stored.getD_pos inside
    rw [known, map_some, if_pos (by omega)]
    refine ⟨_, rfl, rfl, rfl, rfl, walking.stored, walking.cache, room, fun _ => ?_, fun _ => ?_⟩
    · change pos = info.nLocal + s.offset / bt.ovflSize * bt.ovflSize + s.offset % bt.ovflSize
      omega
    · exact (getD_eq_getElem _ _ inside).symm

end Walking

variable {db : Db} {cur : BtCursor} {payload pBuf : List UInt8} {offset : Nat}

theorem cacheFits_allocateCache (stored : Stored bt cur.page db cur.pgno cur.pc info chain payload)
    (fits : CacheFits chain cur.aOverflow) : CacheFits chain (allocateCache cur bt info) := by
  rw [allocateCache]
  split
  · intro pages member
    obtain rfl := some_inj.mp member
    have length : (info.nPayload - info.nLocal + bt.ovflSize - 1) / bt.ovflSize =
        chain.length := by
      rw [stored.pages, nOvfl, stored.length, stored.sizes.1]
    rw [length]
    refine ⟨length_replicate, fun i inside => .inl ?_⟩
    rw [getElem?_replicate, if_pos inside]
  · exact fits

theorem accessLocal_spec (bt : BtShared) (db : Db) (cur : BtCursor) (info : CellInfo)
    (chain : List Nat) (offset : Nat) (pBuf : List UInt8) (eOp : Bool) : ∃ db' offset' rest bytes,
      accessLocal db cur.pgno (cur.pc + info.nHeader) info.nLocal offset pBuf eOp =
        (db', offset', rest, bytes) ∧
      Moved eOp (spots bt cur.pgno cur.pc info chain) db db' offset pBuf bytes ∧
      bytes.length ≤ pBuf.length ∧ rest = pBuf.drop bytes.length ∧
      (0 < rest.length → offset + bytes.length = info.nLocal + offset') := by
  rw [accessLocal]
  split
  · have consecutive : ∀ k < min pBuf.length (info.nLocal - offset),
        spots bt cur.pgno cur.pc info chain (offset + k) =
          (cur.pgno, cur.pc + info.nHeader + offset + k) := by
      intro k less
      rw [spots, place_first (by omega), Nat.add_assoc (cur.pc + info.nHeader)]
    obtain ⟨moved, length⟩ := moved_copyPayload eOp db consecutive (Nat.min_le_left _ _)
    dsimp only
    generalize copyPayload db cur.pgno (cur.pc + info.nHeader + offset) pBuf
      (min pBuf.length (info.nLocal - offset)) eOp = copied at moved length ⊢
    obtain ⟨db', bytes⟩ := copied
    dsimp only at moved length ⊢
    rw [← length]
    refine ⟨db', 0, _, bytes, rfl, moved, by omega, rfl, fun still => ?_⟩
    rw [length_drop] at still
    omega
  · refine ⟨db, _, pBuf, [], rfl, moved_nil, Nat.zero_le _, rfl, fun _ => ?_⟩
    rw [length_nil]
    omega

theorem accessPayload_spec (eOp : Bool)
    (stored : Stored bt cur.page db cur.pgno cur.pc info chain payload)
    (fits : CacheFits chain cur.aOverflow) (inside : offset + pBuf.length ≤ payload.length) :
    ∃ db' aOverflow bytes,
      accessPayload bt db cur offset pBuf eOp = some (db', aOverflow, bytes) ∧
      bytes.length = pBuf.length ∧
      Moved eOp (spots bt cur.pgno cur.pc info chain) db db' offset pBuf bytes ∧
      CacheFits chain aOverflow := by
  have small := stored.small
  have total := stored.sizes.2
  have onPage := stored.inside
  have range : add32 offset pBuf.length = offset + pBuf.length := Nat.mod_eq_of_lt (by omega)
  have whole : add32 (if cur.page.intKey then 0 else info.nKey.toNat) info.nData =
      payload.length := by
    rw [add32, total]
    exact Nat.mod_eq_of_lt (by omega)
  obtain ⟨db₁, offset₁, rest, bytes, onCell, moved, most, rest_eq, place⟩ :=
    accessLocal_spec bt db cur info chain offset pBuf eOp
  unfold accessPayload
  rw [stored.parsed]
  dsimp only
  rw [if_neg (by omega), onCell]
  dsimp only
  have rest_length : rest.length = pBuf.length - bytes.length := by
    rw [rest_eq, length_drop]
  split
  · rename_i more
    have stored₁ := stored.overwritten moved.written (by omega) moved.same
    have whole₁ : (splice payload offset bytes).length = payload.length :=
      length_splice (by omega)
    -- the state with which the overflow pages are entered
    have walking : Walking bt cur.page cur.pgno cur.pc info chain (splice payload offset bytes)
        (offset + bytes.length)
        { db := db₁
          aOverflow := allocateCache cur bt info
          iIdx := 0
          offset := offset₁
          nextPage := get4byte (db₁.page cur.pgno) (cur.pc + info.nHeader + info.nLocal)
          pBuf := rest
          done := bytes } := by
      refine ⟨stored₁, cacheFits_allocateCache stored fits, ?_, fun _ => ?_, fun _ => ?_⟩
      · change offset + bytes.length + rest.length ≤ (splice payload offset bytes).length
        omega
      · change offset + bytes.length = info.nLocal + 0 * bt.ovflSize + offset₁
        omega
      · have some_page : chain ≠ [] := by
          rintro rfl
          have room := stored.room
          rw [length_nil] at room
          omega
        obtain ⟨p, others, rfl⟩ := exists_cons_of_ne_nil some_page
        exact stored₁.first p rfl
    obtain ⟨s, entered, same_db, same_buf, same_done, walking'⟩ := walking.enterChain more rfl
    obtain ⟨s', bytes', result, empty, done, length, moved', fits'⟩ :=
      walking'.loop eOp le_rfl
    rw [entered, bind_some, result, bind_some, if_neg (by simp [Access.amt, empty])]
    refine ⟨s'.db, s'.aOverflow, s'.done, rfl, ?_, ?_, fits'⟩
    · rw [done, same_done, length_append, length, Access.amt, same_buf]
      dsimp only
      omega
    · rw [same_db, same_buf] at moved'
      rw [done, same_done]
      rw [rest_eq] at moved'
      refine moved.trans moved' stored.injOn ?_
      rw [length, Access.amt, same_buf]
      dsimp only
      omega
  · exact ⟨db₁, cur.aOverflow, bytes, rfl, by omega, moved, fits⟩

end

end SeSqlite.Btree.Payload
