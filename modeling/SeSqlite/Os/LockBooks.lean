/- source: src/os_unix.c
   digest: The counters of one process and the locks it has, under every change of a level. -/
import Mathlib.Data.Finset.Card
import SeSqlite.Os.UnixLock

set_option autoImplicit false
set_option relaxedAutoImplicit false

namespace SeSqlite.Os.UnixLock

open Lib.RecordLocks Level

section

variable {a b : Level}

theorem Level.le_iff : a ≤ b ↔ a.number ≤ b.number := Iff.rfl

theorem Level.lt_iff : a < b ↔ a.number < b.number := Iff.rfl

theorem Level.number_inj (same : a.number = b.number) : a = b := by
  cases a <;> cases b <;> first | rfl | cases same

theorem Level.le_antisymm (le : a ≤ b) (ge : b ≤ a) : a = b :=
  number_inj (Nat.le_antisymm le ge)

theorem Level.le_trans {d : Level} (first : a ≤ b) (second : b ≤ d) : a ≤ d :=
  Nat.le_trans first second

theorem Level.none_le (a : Level) : none ≤ a := Nat.zero_le _

theorem Level.eq_none (small : ¬ shared ≤ a) : a = .none := by
  cases a <;> first | rfl | exact absurd (show number .shared ≤ _ by decide) small

theorem Level.shared_le (some : a ≠ .none) : shared ≤ a := by
  by_contra small
  exact some (eq_none small)

theorem Level.eq_exclusive (top : exclusive ≤ a) : a = .exclusive := by
  cases a <;> first | rfl | exact absurd top (by decide)

end

variable {H : Type} [DecidableEq H]

/-! What is true of one process. -/

/-- The counters of `pInode` agree with the files of the process. -/
structure Books (x : Proc H) : Prop where
  counted : ∃ S : Finset H, (∀ h, h ∈ S ↔ shared ≤ x.held h) ∧ S.card = x.nShared
  below : ∀ h, x.held h ≤ x.inodeLock
  reached : (∀ h, x.pc ≠ .dropAll h) → x.inodeLock ≠ .none → ∃ h, x.held h = x.inodeLock
  top : ∀ h, .reserved ≤ x.held h → x.held h = x.inodeLock
  single : ∀ h h', .reserved ≤ x.held h → .reserved ≤ x.held h' → h = h'
  alone : ∀ h h', x.held h = .exclusive → h' ≠ h → x.held h' = .none

/-- The system has the locks for what the files of the process hold. With `strict` no file goes
past `RESERVED_LOCK` without having it. -/
structure Locks (strict : Prop) (x : Proc H) : Prop where
  shared : ∀ h, .shared ≤ x.held h → x.os .sharedRange ≠ .unlocked
  reserved : ∀ h, x.held h = .reserved ∨ (strict ∧ .reserved ≤ x.held h) →
    x.os .reservedByte = .write ∨ x.bProcessLock = true
  pending : ∀ h, .pending ≤ x.held h → x.os .pendingByte = .write ∨ x.bProcessLock = true
  process : x.bProcessLock = true → x.os .sharedRange = .write

/-- What a process knows in the middle of a call. -/
def AtPc (strict : Prop) (x : Proc H) : Prop :=
  match x.pc with
  | .idle => True
  | .lockPending h l => (l = .shared ∧ x.inodeLock = .none) ∨
      (l = .exclusive ∧ .shared ≤ x.eFileLock h ∧ x.eFileLock h < .pending ∧
        x.eFileLock h = x.inodeLock ∧ (strict → .reserved ≤ x.eFileLock h))
  | .lockShared _ => x.inodeLock = .none ∧
      (x.os .pendingByte = .read ∨ x.bProcessLock = true)
  | .dropPending _ rc => x.inodeLock = .none ∧
      (x.os .pendingByte = .read ∨ x.bProcessLock = true) ∧
      (rc = .ok → x.os .sharedRange ≠ .unlocked)
  | .lockMain h l => x.eFileLock h = x.inodeLock ∧
      ((l = .reserved ∧ x.eFileLock h = .shared) ∨
        (l = .exclusive ∧ .shared ≤ x.eFileLock h ∧ x.eFileLock h ≤ .pending ∧ x.nShared ≤ 1 ∧
          (x.os .pendingByte = .write ∨ x.bProcessLock = true) ∧
          (strict → .reserved ≤ x.eFileLock h)))
  | .readLock h => .shared < x.eFileLock h
  | .dropReserved h l => .shared < x.eFileLock h ∧ (l = .none ∨ l = .shared)
  | .dropAll _ => ∀ h, x.held h = .none

/-- `viaProcess` says whether the process may come to have one lock for all of its files. -/
structure Sound (strict : Prop) (viaProcess : Bool) (x : Proc H) : Prop where
  kind : x.bProcessLock = true → viaProcess = true
  books : Books x
  locks : Locks strict x
  atPc : AtPc strict x

/-! The moves of a process, without the system. -/

section

variable {strict : Prop} {x y : Proc H} {h : H} {l : Level}

theorem held_eq (here : ∀ h, x.pc ≠ .dropAll h) (h : H) : x.held h = x.eFileLock h :=
  if_neg (here h)

theorem Books.move (books : Books x) (held : y.held = x.held) (nShared : y.nShared = x.nShared)
    (inodeLock : y.inodeLock = x.inodeLock) (here : ∀ h, x.pc ≠ .dropAll h) : Books y where
  counted := by rw [held, nShared]; exact books.counted
  below := by rw [held, inodeLock]; exact books.below
  reached := by
    rw [held, inodeLock]
    exact fun _ => books.reached here
  top := by rw [held, inodeLock]; exact books.top
  single := by rw [held]; exact books.single
  alone := by rw [held]; exact books.alone

theorem Locks.move (locks : Locks strict x) (held : y.held = x.held) (os : y.os = x.os)
    (process : y.bProcessLock = x.bProcessLock) : Locks strict y where
  shared := by rw [held, os]; exact locks.shared
  reserved := by rw [held, os, process]; exact locks.reserved
  pending := by rw [held, os, process]; exact locks.pending
  process := by rw [os, process]; exact locks.process

theorem locks_of_process (process : x.bProcessLock = true) (write : x.os .sharedRange = .write) :
    Locks strict x where
  shared := fun _ _ => by rw [write]; decide
  reserved := fun _ _ => .inr process
  pending := fun _ _ => .inr process
  process := fun _ => write

@[simp] theorem leave_held (rc : Rc) (h : H) : (x.leave rc).held h = x.eFileLock h :=
  if_neg (by simp [Proc.leave])

theorem reach_held (level : Level) (rc : Rc) (h' : H) :
    (x.reach h level rc).held h' = if h' = h then level else x.eFileLock h' := by
  rw [Proc.reach, leave_held]
  simp [Proc.setLevel, Function.update_apply]

theorem Books.first (books : Books x) (none : x.inodeLock = .none) (here : ∀ h, x.pc ≠ .dropAll h)
    (rc : Rc) {n : Nat} : Books ({ x with nLock := n, nShared := 1 }.reach h .shared rc) := by
  have free : ∀ h', x.eFileLock h' = .none := by
    intro h'
    have below := books.below h'
    rw [held_eq here, none] at below
    exact le_antisymm below (none_le _)
  have held : ∀ h', ({ x with nLock := n, nShared := 1 }.reach h .shared rc).held h' =
      if h' = h then .shared else .none := by
    intro h'
    rw [reach_held]
    simp [free]
  refine ⟨⟨{h}, fun h' => ?_, by simp [Proc.reach, Proc.leave, Proc.setLevel]⟩, fun h' => ?_,
    fun _ _ => ⟨h, ?_⟩, fun h' high => ?_, fun h' _ high => ?_, fun h' _ top => ?_⟩
  · rw [held]
    by_cases same : h' = h
    · simp [same, le_iff]
    · simp [same, le_iff, number]
  · rw [held]
    show _ ≤ shared
    split <;> decide
  · rw [held, if_pos rfl]
    rfl
  all_goals
    rw [held] at *
    split at * <;> simp_all [le_iff, number]

section

variable {h' : H} (books : Books x) (here : ∀ h, x.pc ≠ .dropAll h)

include books here

theorem Books.unique (top : x.eFileLock h = x.inodeLock) (other : h' ≠ h) :
    ¬ reserved ≤ x.eFileLock h' := by
  have old := held_eq here
  intro high
  refine other (books.single h' h (by rw [old]; exact high) ?_)
  have same := books.top h' (by rw [old]; exact high)
  rw [old] at same
  rw [old, top, ← same]
  exact high

theorem Books.climb (top : x.eFileLock h = x.inodeLock) (some : .shared ≤ x.eFileLock h)
    (up : x.eFileLock h ≤ l) (alone : l = .exclusive → x.nShared ≤ 1) (rc : Rc) :
    Books (x.reach h l rc) := by
  have held := reach_held (x := x) (h := h) l rc
  have old := held_eq here
  obtain ⟨S, member, card⟩ := books.counted
  have mine : h ∈ S := (member h).mpr (by rw [old]; exact some)
  have unique : ∀ h', h' ≠ h → ¬ reserved ≤ x.eFileLock h' :=
    fun h' other => books.unique here top other
  refine ⟨⟨S, fun h' => ?_, card⟩, fun h' => ?_, fun _ _ => ⟨h, ?_⟩, fun h' high => ?_,
    fun h' h'' high high' => ?_, fun h' h'' isTop other => ?_⟩
  · rw [held, member, old]
    split
    · rename_i same
      rw [same]
      exact iff_of_true some (le_trans some up)
    · rfl
  · rw [held]
    show _ ≤ l
    split
    · exact Nat.le_refl _
    · have below := books.below h'
      rw [old, ← top] at below
      exact le_trans below up
  · rw [held, if_pos rfl]
    rfl
  · rw [held] at high ⊢
    split at high
    · rename_i same
      rw [if_pos same]
      rfl
    · exact absurd high (unique h' ‹_›)
  · rw [held] at high high'
    split at high
    · split at high'
      · rename_i same same'
        rw [same, same']
      · exact absurd high' (unique h'' ‹_›)
    · exact absurd high (unique h' ‹_›)
  · rw [held] at isTop ⊢
    split at isTop
    · rename_i same
      rw [if_neg (same ▸ other)]
      refine eq_none fun some' => ?_
      have theirs : h'' ∈ S := (member h'').mpr (by rw [old]; exact some')
      have few : S.card ≤ 1 := by rw [card]; exact alone isTop
      exact other (Finset.card_le_one.mp few h'' theirs h' (same ▸ mine))
    · refine absurd ?_ (unique h' ‹_›)
      rw [isTop]
      decide

theorem Books.share (mine : x.eFileLock h = .none)
    (top : x.inodeLock = .shared ∨ x.inodeLock = .reserved) {n : Nat} (rc : Rc) :
    Books
      (({ x.setLevel h .shared with nShared := x.nShared + 1, nLock := n } : Proc H).leave rc) := by
  have old := held_eq here
  have held : ∀ h', (({ x.setLevel h .shared with
      nShared := x.nShared + 1, nLock := n } : Proc H).leave rc).held h' =
      if h' = h then .shared else x.eFileLock h' := by
    intro h'
    rw [leave_held]
    simp [Proc.setLevel, Function.update_apply]
  have high : shared ≤ x.inodeLock ∧ x.inodeLock < .pending := by
    rcases top with top | top <;> rw [top] <;> decide
  have noTop : ∀ h', x.eFileLock h' ≠ .exclusive := by
    intro h' isTop
    have below := books.below h'
    rw [old, isTop] at below
    have := high.2
    rw [lt_iff] at this
    rw [le_iff] at below
    simp only [number] at below this
    omega
  obtain ⟨S, member, card⟩ := books.counted
  have absent : h ∉ S := by
    rw [member, old, mine]
    decide
  refine ⟨⟨insert h S, fun h' => ?_, ?_⟩, fun h' => ?_, fun _ some => ?_, fun h' high => ?_,
    fun h' h'' high high' => ?_, fun h' h'' isTop other => ?_⟩
  · rw [held, Finset.mem_insert, member, old]
    split
    · rename_i same
      exact iff_of_true (.inl same) (Nat.le_refl _)
    · rename_i other
      exact or_iff_right other
  · rw [Finset.card_insert_of_notMem absent, card]
    rfl
  · rw [held]
    show _ ≤ x.inodeLock
    split
    · exact high.1
    · have below := books.below h'
      rw [old] at below
      exact below
  · obtain ⟨h', same⟩ := books.reached here some
    refine ⟨h', ?_⟩
    rw [old] at same
    have other : h' ≠ h := by
      rintro rfl
      exact some (same.symm.trans mine)
    rw [held, if_neg other]
    exact same
  · rw [held] at high ⊢
    split at high
    · exact absurd high (by decide)
    · rename_i other
      rw [if_neg other]
      have same := books.top h' (by rw [old]; exact high)
      rw [old] at same
      exact same
  · rw [held] at high high'
    split at high
    · exact absurd high (by decide)
    · split at high'
      · exact absurd high' (by decide)
      · exact books.single h' h'' (by rw [old]; exact high) (by rw [old]; exact high')
  · rw [held] at isTop
    split at isTop
    · cases isTop
    · exact absurd isTop (noTop h')

theorem Books.others (high : .shared < x.eFileLock h) (other : h' ≠ h) :
    x.eFileLock h' ≤ .shared := by
  have old := held_eq here
  by_contra above
  have reserved : ∀ {a : Level}, .shared < a → reserved ≤ a := fun less => less
  have high' : shared < x.eFileLock h' := Nat.lt_of_not_le above
  exact other (books.single h' h (by rw [old]; exact reserved high')
    (by rw [old]; exact reserved high))

theorem Books.lower (high : .shared < x.eFileLock h)
    (held : ∀ h', y.held h' = if h' = h then .shared else x.eFileLock h')
    (nShared : y.nShared = x.nShared) (inodeLock : y.inodeLock = .shared) : Books y := by
  have old := held_eq here
  have low : ∀ h', y.held h' ≤ .shared := by
    intro h'
    rw [held]
    split
    · exact Nat.le_refl _
    · exact books.others here high ‹_›
  have notHigh : ∀ h', ¬ reserved ≤ y.held h' := by
    intro h' reserved
    exact absurd (Nat.le_trans reserved (low h')) (by decide)
  obtain ⟨S, member, card⟩ := books.counted
  refine ⟨⟨S, fun h' => ?_, card.trans nShared.symm⟩, fun h' => ?_, fun _ _ => ⟨h, ?_⟩,
    fun h' reserved => absurd reserved (notHigh h'),
    fun h' _ reserved => absurd reserved (notHigh h'), fun h' _ isTop => ?_⟩
  · rw [held, member, old]
    split
    · rename_i same
      rw [same]
      exact iff_of_true (Nat.le_of_lt high) (Nat.le_refl _)
    · rfl
  · rw [inodeLock]
    exact low h'
  · rw [held, if_pos rfl, inodeLock]
  · refine absurd ?_ (notHigh h')
    rw [isTop]
    decide

theorem Books.lose (some : .shared ≤ x.eFileLock h)
    (held : ∀ h', y.held h' = if h' = h then .none else x.eFileLock h')
    (nShared : y.nShared = x.nShared - 1)
    (inode : (x.eFileLock h = .shared ∧ y.inodeLock = x.inodeLock) ∨ (.shared < x.eFileLock h ∧
      y.inodeLock = .shared)) (left : (∀ h, y.pc ≠ .dropAll h) → y.nShared ≠ 0) : Books y := by
  have old := held_eq here
  have fewer : ∀ h', y.held h' ≤ x.eFileLock h' := by
    intro h'
    rw [held]
    split
    · exact none_le _
    · exact Nat.le_refl _
  have same_of_high : ∀ h', .reserved ≤ y.held h' → y.held h' = x.eFileLock h' := by
    intro h' high
    rw [held] at high ⊢
    split at high
    · cases high
    · exact if_neg ‹_›
  have below : ∀ h', y.held h' ≤ y.inodeLock := by
    intro h'
    rcases inode with ⟨-, inode⟩ | ⟨high, inode⟩
    · rw [inode]
      refine le_trans (fewer h') ?_
      rw [← old]
      exact books.below h'
    · rw [inode, held]
      split
      · exact none_le _
      · exact books.others here high ‹_›
  obtain ⟨S, member, card⟩ := books.counted
  have mine : h ∈ S := (member h).mpr (by rw [old]; exact some)
  refine ⟨⟨S.erase h, fun h' => ?_, ?_⟩, below, fun idle _ => ?_, fun h' high => ?_,
    fun h' h'' high high' => ?_, fun h' h'' isTop other => ?_⟩
  · rw [held, Finset.mem_erase, member, old]
    split
    · rename_i same
      exact iff_of_false (fun both => both.1 same) (by decide)
    · rename_i other
      exact and_iff_right other
  · rw [Finset.card_erase_of_mem mine, card, nShared]
  · -- some file is left, and if it is not at the top another one is
    by_cases low : y.inodeLock = .shared
    · have nonempty : (S.erase h).card ≠ 0 := by
        rw [Finset.card_erase_of_mem mine, card, ← nShared]
        exact left idle
      obtain ⟨h', found⟩ := Finset.card_ne_zero.mp nonempty
      obtain ⟨other, inS⟩ := Finset.mem_erase.mp found
      have shared := (member h').mp inS
      rw [old] at shared
      have same : y.held h' = x.eFileLock h' := by rw [held, if_neg other]
      have small := below h'
      rw [low] at small
      rw [low]
      exact ⟨h', le_antisymm small (by rw [same]; exact shared)⟩
    · rcases inode with ⟨shared, inode⟩ | ⟨-, inode⟩
      · have notNone : x.inodeLock ≠ .none := by
          intro none
          have := books.below h
          rw [old, shared, none] at this
          cases this
        obtain ⟨h', top⟩ := books.reached here notNone
        rw [old] at top
        have other : h' ≠ h := by
          rintro rfl
          exact low (inode.trans (top.symm.trans shared))
        exact ⟨h', by rw [held, if_neg other, top, inode]⟩
      · exact absurd inode low
  · have same := same_of_high h' high
    rw [same] at high ⊢
    rcases inode with ⟨-, inode⟩ | ⟨top, -⟩
    · rw [inode, ← old]
      exact books.top h' (by rw [old]; exact high)
    · by_cases here' : h' = h
      · subst here'
        rw [held, if_pos rfl] at same
        rw [← same] at high
        cases high
      · exact absurd (Nat.le_trans high (books.others here top here')) (by decide)
  · rw [same_of_high h' high] at high
    rw [same_of_high h'' high'] at high'
    exact books.single h' h'' (by rw [old]; exact high) (by rw [old]; exact high')
  · have same := same_of_high h' (by rw [isTop]; decide)
    rw [same] at isTop
    have none := books.alone h' h'' (by rw [old]; exact isTop) other
    rw [old] at none
    have small := fewer h''
    rw [none] at small
    exact le_antisymm small (none_le _)

end

theorem Books.free (books : Books x) (none : ∀ h, x.held h = .none) (held : ∀ h, y.held h = .none)
    (nShared : y.nShared = x.nShared) (inodeLock : y.inodeLock = .none) : Books y := by
  obtain ⟨S, member, card⟩ := books.counted
  refine ⟨⟨S, fun h => ?_, card.trans nShared.symm⟩, fun h => ?_,
    fun _ some => absurd inodeLock some, fun h high => ?_, fun h _ high => ?_, fun h _ top => ?_⟩
  · rw [member, none, held]
  · rw [held, inodeLock]
    exact Nat.le_refl _
  all_goals
    simp_all [le_iff, number]

theorem Locks.fewer (locks : Locks strict x) (os : y.os = x.os)
    (process : y.bProcessLock = x.bProcessLock)
    (fewer : ∀ h, y.held h = x.held h ∨ y.held h = .none) : Locks strict y := by
  have same_of_some : ∀ h, y.held h ≠ .none → y.held h = x.held h :=
    fun h some => (fewer h).resolve_right some
  refine ⟨fun h some => ?_, fun h some => ?_, fun h some => ?_, by
    rw [os, process]; exact locks.process⟩
  · have same := same_of_some h fun none => absurd (none ▸ some) (by decide)
    rw [os]
    exact locks.shared h (same ▸ some)
  · have same := same_of_some h fun none => by
      rw [none] at some
      simp [le_iff, number] at some
    rw [os, process]
    exact locks.reserved h (same ▸ some)
  · have same := same_of_some h fun none => absurd (none ▸ some) (by decide)
    rw [os, process]
    exact locks.pending h (same ▸ some)

theorem Locks.low (low : ∀ h, ¬ Level.reserved ≤ x.held h)
    (shared : ∀ h, .shared ≤ x.held h → x.os .sharedRange ≠ .unlocked)
    (process : x.bProcessLock = true → x.os .sharedRange = .write) : Locks strict x := by
  refine ⟨shared, fun h some => ?_, fun h some => ?_, process⟩
  · rcases some with level | ⟨-, high⟩
    · refine absurd ?_ (low h)
      rw [level]
      exact Nat.le_refl _
    · exact absurd high (low h)
  · exact absurd (Nat.le_trans (by decide) some) (low h)

theorem Locks.raise (held : ∀ h', y.held h' = if h' = h then l else x.eFileLock h')
    (others : ∀ h', h' ≠ h → ¬ Level.reserved ≤ x.eFileLock h')
    (shared : y.os .sharedRange ≠ .unlocked)
    (reserved : l = .reserved ∨ strict → y.os .reservedByte = .write ∨ y.bProcessLock = true)
    (pending : .pending ≤ l → y.os .pendingByte = .write ∨ y.bProcessLock = true)
    (process : y.bProcessLock = true → y.os .sharedRange = .write) : Locks strict y := by
  refine ⟨fun _ _ => shared, fun h' some => ?_, fun h' some => ?_, process⟩
  · rw [held] at some
    split at some
    · exact reserved (some.imp_right And.left)
    · refine absurd ?_ (others h' ‹_›)
      rcases some with level | ⟨-, high⟩
      · rw [level]
        exact Nat.le_refl _
      · exact high
  · rw [held] at some
    split at some
    · exact pending some
    · exact absurd (Nat.le_trans (by decide) some) (others h' ‹_›)

end

end SeSqlite.Os.UnixLock
