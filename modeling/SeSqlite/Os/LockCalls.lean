/- source: src/os_unix.c
   digest: Every part of a call between two system calls keeps what is true of its process. -/
import SeSqlite.Os.LockBooks

set_option autoImplicit false
set_option relaxedAutoImplicit false

namespace SeSqlite.Os.UnixLock

open Lib.RecordLocks Function Proc Level

variable {H : Type} [DecidableEq H]

/-! The system answers. -/

section

variable {strict : Prop} {viaProcess : Bool} {x y : Proc H} {h : H} {l a : Level}
  {lock : Request Region} {outcome : Outcome}

/-- What `unixFileLock` can do to a process. -/
inductive Locked (viaProcess : Bool) (x : Proc H) (lock : Request Region) :
    Outcome → Proc H → Prop
  | refused {outcome : Outcome} (refused : outcome ≠ .granted) :
      Locked viaProcess x lock outcome x
  | process (via : viaProcess = true) (os : Region → Held) (n : Nat)
      (write : os .sharedRange = .write) :
      Locked viaProcess x lock .granted { x with os := os, bProcessLock := true, nLock := n }
  | direct (off : x.bProcessLock = false) :
      Locked viaProcess x lock .granted { x with os := lock.apply x.os }

omit [DecidableEq H] in
theorem unixFileLock_refused {flags : CtrlFlags} {asked : Request Region}
    (asks : x.systemLock flags lock = some asked) (refused : outcome ≠ .granted) :
    x.unixFileLock flags lock outcome = (outcome, x) := by
  unfold unixFileLock
  rw [asks]
  cases outcome with
  | granted => exact absurd rfl refused
  | conflict => rfl
  | error => rfl

theorem locked_unixFileLock (sound : Sound strict viaProcess x) {flags : CtrlFlags}
    (first : flags.excl = true → flags.rdonly = false → viaProcess = true)
    (writable : viaProcess = true → flags.rdonly = false) (lock : Request Region)
    (outcome : Outcome) : Locked viaProcess x lock (x.unixFileLock flags lock outcome).1
      (x.unixFileLock flags lock outcome).2 := by
  cases uses : x.usesProcessLock flags with
  | true =>
    cases held : x.bProcessLock with
    | true =>
      have eq : x.unixFileLock flags lock outcome = (.granted, x) := by
        simp [unixFileLock, systemLock, uses, held]
      have self : x = { x with os := x.os, bProcessLock := true, nLock := x.nLock } := by
        rw [← held]
      rw [eq]
      nth_rewrite 3 [self]
      exact .process (sound.kind held) x.os x.nLock (sound.locks.process held)
    | false =>
      have asks : x.systemLock flags lock = some ⟨.write, (· == .sharedRange)⟩ := by
        simp [systemLock, uses, held]
      by_cases refused : outcome = .granted
      · have eq : x.unixFileLock flags lock .granted = (.granted, { x with
            os := Request.apply ⟨.write, (· == .sharedRange)⟩ x.os
            bProcessLock := true
            nLock := x.nLock + 1 }) := by
          simp [unixFileLock, asks, uses]
        have via : viaProcess = true := by
          simp only [usesProcessLock, held, Bool.or_false, Bool.and_eq_true,
            Bool.not_eq_true'] at uses
          exact first uses.1 uses.2
        rw [refused, eq]
        exact .process via _ _ rfl
      · rw [unixFileLock_refused asks refused]
        exact .refused refused
  | false =>
    have off : x.bProcessLock = false := by
      by_contra held
      rw [Bool.not_eq_false] at held
      simp [usesProcessLock, held, writable (sound.kind held)] at uses
    have asks : x.systemLock flags lock = some lock := by
      simp [systemLock, uses]
    by_cases refused : outcome = .granted
    · have eq : x.unixFileLock flags lock .granted =
          (.granted, { x with os := lock.apply x.os }) := by
        simp [unixFileLock, asks, uses]
      rw [refused, eq]
      exact .direct off
    · rw [unixFileLock_refused asks refused]
      exact .refused refused

section

omit [DecidableEq H]

theorem Locked.same (locked : Locked viaProcess x lock outcome y) : y.eFileLock = x.eFileLock ∧
    y.nShared = x.nShared ∧ y.inodeLock = x.inodeLock ∧ y.pc = x.pc := by
  cases locked <;> exact ⟨rfl, rfl, rfl, rfl⟩

section

variable (locked : Locked viaProcess x lock .granted y)

include locked

theorem Locked.granted : (y.bProcessLock = true ∧ y.os .sharedRange = .write) ∨
      (x.bProcessLock = false ∧ y.bProcessLock = false ∧ y.os = lock.apply x.os) := by
  cases locked with
  | refused refused => exact absurd rfl refused
  | process via os n write => exact .inl ⟨rfl, write⟩
  | direct off => exact .inr ⟨off, off, rfl⟩

omit locked in
private theorem Locked.granted_or (locked : Locked viaProcess x lock outcome y) :
    outcome = .granted ∨ (y = x ∧ sqliteErrorFromPosixError outcome ≠ .ok) := by
  cases locked with
  | refused refused =>
    refine .inr ⟨rfl, ?_⟩
    cases outcome <;> first | exact absurd rfl refused | decide
  | process => exact .inl rfl
  | direct => exact .inl rfl

private theorem Locked.process_write : y.bProcessLock = true → y.os .sharedRange = .write := by
  intro process
  rcases locked.granted with ⟨-, write⟩ | ⟨-, off, -⟩
  · exact write
  · exact absurd (process.symm.trans off) (by decide)

private theorem Locked.shared_kept (other : lock.covers .sharedRange = false)
    (had : x.os .sharedRange ≠ .unlocked) : y.os .sharedRange ≠ .unlocked := by
  rcases locked.granted with ⟨-, write⟩ | ⟨-, -, os⟩
  · rw [write]
    decide
  · simpa [os, Request.apply, other] using had

end

private theorem Locked.kind (locked : Locked viaProcess x lock outcome y)
    (kind : x.bProcessLock = true → viaProcess = true) :
    y.bProcessLock = true → viaProcess = true := by
  cases locked with
  | refused refused => exact kind
  | process via os n write => exact fun _ => via
  | direct => exact kind

end

private theorem books_of_same (books : Books x) (here : ∀ h, x.pc ≠ .dropAll h)
    (here' : ∀ h, y.pc ≠ .dropAll h) (level : y.eFileLock = x.eFileLock)
    (nShared : y.nShared = x.nShared) (inodeLock : y.inodeLock = x.inodeLock) : Books y := by
  refine books.move ?_ nShared inodeLock here
  funext h
  rw [held_eq here, held_eq here', level]

private theorem held_move {pc : Pc H} (here : ∀ h, x.pc ≠ .dropAll h)
    (other : ∀ h, pc ≠ .dropAll h) : ({ x with pc := pc } : Proc H).held = x.held := by
  funext h
  rw [held_eq here]
  exact held_eq other h

private theorem Locked.answered (locked : Locked viaProcess x lock outcome y)
    (sound : Sound strict viaProcess x) (here : ∀ h, x.pc ≠ .dropAll h) :
    y.eFileLock = x.eFileLock ∧ y.nShared = x.nShared ∧ y.inodeLock = x.inodeLock ∧
      y.pc = x.pc ∧ (∀ h, y.pc ≠ .dropAll h) ∧ Books y ∧
      (y.bProcessLock = true → viaProcess = true) := by
  obtain ⟨level, nShared, inodeLock, samePc⟩ := locked.same
  have hereY : ∀ h, y.pc ≠ .dropAll h := by rw [samePc]; exact here
  exact ⟨level, nShared, inodeLock, samePc, hereY,
    books_of_same sound.books here hereY level nShared inodeLock, locked.kind sound.kind⟩

private theorem sound_leave (sound : Sound strict viaProcess x) (here : ∀ h, x.pc ≠ .dropAll h)
    (rc : Rc) : Sound strict viaProcess (x.leave rc) where
  kind := sound.kind
  books := books_of_same sound.books here (by simp [leave]) rfl rfl rfl
  locks := by
    refine sound.locks.move ?_ rfl rfl
    funext h
    rw [leave_held, held_eq here]
  atPc := trivial

private theorem locks_of_none (none : ∀ h, x.held h = .none)
    (process : x.bProcessLock = true → x.os .sharedRange = .write) : Locks strict x := by
  refine Locks.low (fun h high => ?_) (fun h some => ?_) process
  · rw [none] at high
    cases high
  · rw [none] at some
    cases some

private theorem all_none (books : Books x) (none : x.inodeLock = .none) (h : H) :
    x.held h = .none := by
  have below := books.below h
  rw [none] at below
  exact le_antisymm below (none_le _)

/-- `unixLock` goes on for a file that has at least `SHARED_LOCK` and, for `EXCLUSIVE_LOCK`, has
locked the pending byte. -/
private theorem sound_lockFurther (kind : x.bProcessLock = true → viaProcess = true)
    (books : Books x) (here : ∀ h, x.pc ≠ .dropAll h) (locks : Locks strict x)
    (top : x.eFileLock h = x.inodeLock)
    (target : (l = .reserved ∧ x.eFileLock h = .shared) ∨
      (l = .exclusive ∧ .shared ≤ x.eFileLock h ∧ x.eFileLock h ≤ .pending ∧
        (x.os .pendingByte = .write ∨ x.bProcessLock = true) ∧
        (strict → .reserved ≤ x.eFileLock h))) : Sound strict viaProcess (x.lockFurther h l) := by
  have old := held_eq here
  unfold lockFurther
  split
  · rename_i busy
    obtain ⟨rfl, -⟩ := busy
    obtain ⟨absurd', -⟩ | ⟨-, some, up, pending, strictly⟩ := target
    · cases absurd'
    · refine ⟨kind, books.climb here top some up (fun same => absurd same (by decide)) .busy, ?_,
        trivial⟩
      refine Locks.raise (reach_held _ _) (fun h' other => books.unique here top other) ?_ ?_
        (fun _ => pending) locks.process
      · exact locks.shared h (by rw [old]; exact some)
      · rintro (absurd' | strict')
        · cases absurd'
        · exact locks.reserved h (.inr ⟨strict', by rw [old]; exact strictly strict'⟩)
  · rename_i free
    refine ⟨kind, books_of_same books here (by simp) rfl rfl rfl,
      locks.move (held_move here (by simp)) rfl rfl,
      top, target.imp_right ?_⟩
    rintro ⟨exclusive, some, up, pending, strictly⟩
    refine ⟨exclusive, some, up, ?_, pending, strictly⟩
    show x.nShared ≤ 1
    by_contra many
    exact free ⟨exclusive, Nat.lt_of_not_le many⟩

section

variable (sound : Sound strict viaProcess x)

include sound

private theorem sound_lockPending (pc : x.pc = .lockPending h l)
    (locked : Locked viaProcess x ⟨if l = .shared then .read else .write,
      (· == .pendingByte)⟩ outcome y) : Sound strict viaProcess (y.resume outcome) := by
  have here : ∀ h, x.pc ≠ .dropAll h := by rw [pc]; simp
  have old := held_eq here
  obtain ⟨level, nShared, inodeLock, samePc, hereY, books, kind⟩ := locked.answered sound here
  have known := sound.atPc
  rw [AtPc, pc] at known
  unfold resume
  rw [samePc, pc]
  rcases locked.granted_or with rfl | ⟨same, rc⟩
  · simp only [sqliteErrorFromPosixError]
    rcases known with ⟨rfl, none⟩ | ⟨rfl, some, low, top, strictly⟩
    · have heldNext : ∀ h', ({ y with pc := .lockShared h } : Proc H).held h' = .none := by
        intro h'
        show y.eFileLock h' = .none
        rw [level, ← old]
        exact all_none sound.books none h'
      refine ⟨kind, books_of_same books hereY (by simp) rfl rfl rfl, ?_, inodeLock.trans none, ?_⟩
      · exact locks_of_none heldNext locked.process_write
      · rcases locked.granted with ⟨process, -⟩ | ⟨-, -, os⟩
        · exact .inr process
        · exact .inl (congrFun os .pendingByte)
    · have pending : y.os .pendingByte = .write ∨ y.bProcessLock = true := by
        rcases locked.granted with ⟨process, -⟩ | ⟨-, -, os⟩
        · exact .inr process
        · exact .inl (congrFun os .pendingByte)
      refine sound_lockFurther kind books hereY ?_ (by rw [level, inodeLock]; exact top)
        (.inr ⟨rfl, by rw [level]; exact some, by rw [level]; exact Nat.le_of_lt low, pending,
          by rw [level]; exact strictly⟩)
      rcases locked.granted with ⟨process, write⟩ | ⟨offX, off, os⟩
      · exact locks_of_process process write
      · have heldY : y.held = x.held := by
          funext h'
          rw [held_eq hereY, old, level]
        have sharedSame := congrFun os .sharedRange
        have reservedSame := congrFun os .reservedByte
        refine ⟨?_, ?_, fun _ _ => pending, locked.process_write⟩
        · rw [heldY, sharedSame]
          exact sound.locks.shared
        · rw [heldY, reservedSame, off, ← offX]
          exact sound.locks.reserved
  · simp only [if_pos rc]
    rw [same]
    exact sound_leave sound here _

private theorem sound_lockShared (pc : x.pc = .lockShared h)
    (locked : Locked viaProcess x ⟨.read, (· == .sharedRange)⟩ outcome y) :
    Sound strict viaProcess (y.resume outcome) := by
  have here : ∀ h, x.pc ≠ .dropAll h := by rw [pc]; simp
  have old := held_eq here
  obtain ⟨level, nShared, inodeLock, samePc, hereY, books, kind⟩ := locked.answered sound here
  obtain ⟨none, pending⟩ : x.inodeLock = .none ∧
      (x.os .pendingByte = .read ∨ x.bProcessLock = true) := by
    have known := sound.atPc
    rwa [AtPc, pc] at known
  have heldNext : ∀ rc h', ({ y with pc := .dropPending h rc } : Proc H).held h' = .none := by
    intro rc h'
    show y.eFileLock h' = .none
    rw [level, ← old]
    exact all_none sound.books none h'
  have free : (y.bProcessLock = true → y.os .sharedRange = .write) →
      ∀ rc, Locks strict ({ y with pc := .dropPending h rc } : Proc H) :=
    fun process rc => locks_of_none (heldNext rc) process
  unfold resume
  rw [samePc, pc]
  rcases locked.granted_or with rfl | ⟨same, rc⟩
  · refine ⟨kind, books_of_same books hereY (by simp) rfl rfl rfl, free locked.process_write _,
      inodeLock.trans none, ?_, fun _ => ?_⟩
    · rcases locked.granted with ⟨process, -⟩ | ⟨offX, -, os⟩
      · exact .inr process
      · left
        have same := congrFun os .pendingByte
        exact same.trans (pending.resolve_right (by simp [offX]))
    · show y.os .sharedRange ≠ .unlocked
      rcases locked.granted with ⟨-, write⟩ | ⟨-, -, os⟩
      · rw [write]
        decide
      · rw [os]
        simp [Request.apply]
  · subst same
    exact ⟨kind, books_of_same books hereY (by simp) rfl rfl rfl, free sound.locks.process _, none,
      pending,
      fun ok => absurd ok rc⟩

private theorem sound_dropPending {rcShared : Rc} (pc : x.pc = .dropPending h rcShared)
    (locked : Locked viaProcess x ⟨.unlocked, (· == .pendingByte)⟩ outcome y) :
    Sound strict viaProcess (y.resume outcome) := by
  have here : ∀ h, x.pc ≠ .dropAll h := by rw [pc]; simp
  have old := held_eq here
  rcases locked.granted_or with rfl | ⟨same, rc⟩
  rotate_left
  · rw [resume, same, pc]
    dsimp only
    rw [if_pos (by split <;> simp_all)]
    exact sound_leave sound here _
  obtain ⟨level, nShared, inodeLock, samePc, hereY, books, kind⟩ := locked.answered sound here
  obtain ⟨none, -, got⟩ : x.inodeLock = .none ∧
      (x.os .pendingByte = .read ∨ x.bProcessLock = true) ∧
      (rcShared = .ok → x.os .sharedRange ≠ .unlocked) := by
    have known := sound.atPc
    rwa [AtPc, pc] at known
  have free : ∀ h', y.eFileLock h' = .none := by
    intro h'
    rw [level, ← old]
    exact all_none sound.books none h'
  unfold resume
  rw [samePc, pc]
  simp only [sqliteErrorFromPosixError, ne_eq, not_true, and_false, if_false]
  split
  · refine ⟨kind, books_of_same books hereY (by simp [leave]) rfl rfl rfl, ?_, trivial⟩
    exact locks_of_none (fun h' => by rw [leave_held, free]) locked.process_write
  · rename_i ok
    rw [not_not] at ok
    have shared := locked.shared_kept rfl (got ok)
    refine ⟨kind, books.first (inodeLock.trans none) hereY .ok, ?_, trivial⟩
    refine Locks.low (fun h' high => ?_) (fun _ _ => shared) locked.process_write
    rw [reach_held] at high
    split at high
    · exact absurd high (by decide)
    · rw [show ({ y with nLock := y.nLock + 1, nShared := 1 } : Proc H).eFileLock h' = .none from
        free h'] at high
      cases high

private theorem sound_lockMain (pc : x.pc = .lockMain h l)
    (locked : Locked viaProcess x ⟨.write, (· == if l =
      .reserved then .reservedByte else .sharedRange)⟩ outcome y) :
    Sound strict viaProcess (y.resume outcome) := by
  have here : ∀ h, x.pc ≠ .dropAll h := by rw [pc]; simp
  have old := held_eq here
  obtain ⟨level, nShared, inodeLock, samePc, hereY, books, kind⟩ := locked.answered sound here
  have known := sound.atPc
  rw [AtPc, pc] at known
  obtain ⟨top, target⟩ := known
  have topY : y.eFileLock h = y.inodeLock := by rw [level, inodeLock]; exact top
  have others : ∀ h', h' ≠ h → ¬ reserved ≤ y.eFileLock h' :=
    fun h' other => books.unique hereY topY other
  have had : ∀ level, x.held h = level → .shared ≤ level → x.os .sharedRange ≠ .unlocked := by
    rintro _ rfl some
    exact sound.locks.shared h some
  unfold resume
  rw [samePc, pc]
  rcases locked.granted_or with rfl | ⟨same, rc⟩
  · rcases target with ⟨rfl, shared⟩ | ⟨rfl, some, up, few, pending, strictly⟩
    · refine ⟨kind, books.climb hereY topY (by rw [level, shared]; decide)
        (by rw [level, shared]; decide)
          (fun absurd' => absurd absurd' (by decide)) .ok, ?_, trivial⟩
      rcases locked.granted with ⟨process, write⟩ | ⟨offX, off, os⟩
      · exact locks_of_process process write
      · refine Locks.raise (reach_held _ _) others ?_ (fun _ => ?_)
          (fun absurd' => absurd absurd' (by decide)) locked.process_write
        · exact locked.shared_kept rfl (had .shared (by rw [old]; exact shared) (by decide))
        · exact .inl (congrFun os .reservedByte)
    · refine ⟨kind, books.climb hereY topY (by rw [level]; exact some) ?_
          (fun _ => by rw [nShared]; exact few) .ok, ?_, trivial⟩
      · rw [level]
        exact le_trans up (by decide)
      · rcases locked.granted with ⟨process, write⟩ | ⟨offX, off, os⟩
        · exact locks_of_process process write
        · have write : y.os .sharedRange = .write := congrFun os .sharedRange
          refine Locks.raise (reach_held _ _) others ?_ ?_ (fun _ => ?_) locked.process_write
          · show y.os .sharedRange ≠ .unlocked
            rw [write]
            decide
          · rintro (absurd' | strict')
            · cases absurd'
            · left
              have reserved := sound.locks.reserved h
                (.inr ⟨strict', by rw [old]; exact strictly strict'⟩)
              rw [offX] at reserved
              exact (congrFun os .reservedByte).trans (reserved.resolve_right (by decide))
          · left
            rw [offX] at pending
            exact (congrFun os .pendingByte).trans (pending.resolve_right (by decide))
  · simp only [if_neg rc]
    subst same
    rcases target with ⟨rfl, shared⟩ | ⟨rfl, some, up, few, pending, strictly⟩
    · exact sound_leave sound here _
    · refine ⟨kind, books.climb hereY topY some up (fun absurd' => absurd absurd' (by decide)) _,
        ?_, trivial⟩
      refine Locks.raise (reach_held _ _) others (had _ rfl (by rw [old]; exact some)) ?_
        (fun _ => pending) sound.locks.process
      rintro (absurd' | strict')
      · cases absurd'
      · exact sound.locks.reserved h (.inr ⟨strict', by rw [old]; exact strictly strict'⟩)

private theorem sound_readLock (pc : x.pc = .readLock h)
    (locked : Locked viaProcess x ⟨.read, (· == .sharedRange)⟩ outcome y) :
    Sound strict viaProcess (y.resume outcome) := by
  have here : ∀ h, x.pc ≠ .dropAll h := by rw [pc]; simp
  have old := held_eq here
  obtain ⟨level, nShared, inodeLock, samePc⟩ := locked.same
  have kind := locked.kind sound.kind
  have high : .shared < x.eFileLock h := by
    have known := sound.atPc
    rwa [AtPc, pc] at known
  unfold resume
  rw [samePc, pc]
  rcases locked.granted_or with rfl | ⟨same, rc⟩
  · simp only [sqliteErrorFromPosixError, ne_eq, not_true, if_false]
    have heldNext : ({ y with pc := .dropReserved h .shared } : Proc H).held = x.held := by
      funext h'
      rw [old]
      exact congrFun level h'
    refine ⟨kind, sound.books.move heldNext nShared inodeLock here, ?_, ?_, .inr rfl⟩
    · rcases locked.granted with ⟨process, write⟩ | ⟨offX, off, os⟩
      · exact locks_of_process process write
      · have reservedSame := congrFun os .reservedByte
        have pendingSame := congrFun os .pendingByte
        refine ⟨fun _ _ => ?_, ?_, ?_, locked.process_write⟩
        · show y.os .sharedRange ≠ .unlocked
          rw [os]
          simp [Request.apply]
        · rw [heldNext]
          show ∀ h, _ → y.os .reservedByte = .write ∨ y.bProcessLock = true
          rw [reservedSame, off, ← offX]
          exact sound.locks.reserved
        · rw [heldNext]
          show ∀ h, _ → y.os .pendingByte = .write ∨ y.bProcessLock = true
          rw [pendingSame, off, ← offX]
          exact sound.locks.pending
    · show .shared < y.eFileLock h
      rw [level]
      exact high
  · simp only [if_pos rc]
    rw [same]
    exact sound_leave sound here _

end

/-- The file gives up `SHARED_LOCK`, and what the process still has is not above it, or was not
touched. -/
private theorem sound_releaseShared (kind : y.bProcessLock = true → viaProcess = true)
    (books : Books x) (here : ∀ h, x.pc ≠ .dropAll h) (some : .shared ≤ x.eFileLock h)
    (level : y.eFileLock = x.eFileLock) (nShared : y.nShared = x.nShared)
    (inode : (x.eFileLock h = .shared ∧ y.inodeLock = x.inodeLock) ∨
      (.shared < x.eFileLock h ∧ y.inodeLock = .shared))
    (locks : ∀ z : Proc H, (∀ h', z.held h' = if h' = h then .none else x.eFileLock h') →
      z.os = y.os → z.bProcessLock = y.bProcessLock → Locks strict z) :
    Sound strict viaProcess (y.releaseShared h) := by
  unfold releaseShared
  dsimp only
  split
  · rename_i last
    have held : ∀ h', ({ y with nShared := y.nShared - 1, pc := .dropAll h } : Proc H).held h' =
        if h' = h then .none else x.eFileLock h' := by
      intro h'
      rw [← level]
      simp [held, Pc.dropAll.injEq, eq_comm]
    have booksNext : Books ({ y with nShared := y.nShared - 1, pc := .dropAll h } : Proc H) := by
      refine books.lose here some held ?_ inode ?_
      · show y.nShared - 1 = x.nShared - 1
        rw [nShared]
      · intro idle
        exact absurd rfl (idle h)
    refine ⟨kind, booksNext, locks _ held rfl rfl,
      fun h' => ?_⟩
    obtain ⟨S, member, card⟩ := booksNext.counted
    refine eq_none fun some' => ?_
    have found := (member h').mpr some'
    rw [Finset.card_eq_zero.mp (card.trans last)] at found
    exact absurd found (Finset.notMem_empty h')
  · rename_i more
    have held : ∀ h', (({ ({ y with nShared := y.nShared - 1 } : Proc H).setLevel h .none with
        nLock := y.nLock - 1 } : Proc H).leave .ok).held h' =
        if h' = h then .none else x.eFileLock h' := by
      intro h'
      rw [leave_held, ← level]
      simp [setLevel, update_apply]
    refine ⟨kind, books.lose here some held ?_ inode (fun _ => more), locks _ held rfl rfl, trivial⟩
    show y.nShared - 1 = x.nShared - 1
    rw [nShared]

private theorem sound_dropReserved (sound : Sound strict viaProcess x)
    (pc : x.pc = .dropReserved h l)
    (locked : Locked viaProcess x ⟨.unlocked, fun r => r == .pendingByte || r == .reservedByte⟩
      outcome y) : Sound strict viaProcess (y.resume outcome) := by
  have here : ∀ h, x.pc ≠ .dropAll h := by rw [pc]; simp
  have old := held_eq here
  rcases locked.granted_or with rfl | ⟨same, rc⟩
  rotate_left
  · rw [resume, same, pc]
    dsimp only
    rw [if_pos rc]
    exact sound_leave sound here _
  obtain ⟨level, nShared, inodeLock, samePc⟩ := locked.same
  have kind := locked.kind sound.kind
  obtain ⟨high, target⟩ : .shared < x.eFileLock h ∧ (l = .none ∨ l = .shared) := by
    have known := sound.atPc
    rwa [AtPc, pc] at known
  have some : .shared ≤ x.eFileLock h := Nat.le_of_lt high
  have shared := locked.shared_kept rfl (sound.locks.shared h (by rw [old]; exact some))
  have others : ∀ h', h' ≠ h → ¬ reserved ≤ x.eFileLock h' := by
    intro h' other reserved
    exact absurd (Nat.le_trans reserved (sound.books.others here high other)) (by decide)
  unfold resume
  rw [samePc, pc]
  simp only [ne_eq]
  rcases target with rfl | rfl
  · refine sound_releaseShared (y := { y with inodeLock := .shared }) kind sound.books
      here some level nShared (.inr ⟨high, rfl⟩) fun z held os process => ?_
    refine Locks.low (fun h' reserved => ?_) (fun _ _ => by rw [os]; exact shared)
      (by rw [os, process]; exact locked.process_write)
    rw [held] at reserved
    split at reserved
    · cases reserved
    · exact others h' ‹_› reserved
  · have held : ∀ h', ((({ y with inodeLock := .shared } : Proc H).setLevel h .shared).leave
        .ok).held h' = if h' = h then .shared else x.eFileLock h' := by
      intro h'
      rw [leave_held, ← level]
      simp [setLevel, update_apply]
    change Sound strict viaProcess
      ((({ y with inodeLock := .shared } : Proc H).setLevel h .shared).leave .ok)
    refine ⟨kind, sound.books.lower here high held nShared rfl, ?_, trivial⟩
    refine Locks.low (fun h' reserved => ?_) (fun _ _ => shared) locked.process_write
    rw [held] at reserved
    split at reserved
    · exact absurd reserved (by decide)
    · exact others h' ‹_› reserved

variable (sound : Sound strict viaProcess x)

include sound

private theorem sound_dropAll (pc : x.pc = .dropAll h)
    (locked : Locked viaProcess x ⟨.unlocked, fun _ => true⟩ outcome y) :
    Sound strict viaProcess (y.resume outcome) := by
  obtain ⟨level, nShared, inodeLock, samePc⟩ := locked.same
  have none : ∀ h, x.held h = .none := by
    have known := sound.atPc
    rwa [AtPc, pc] at known
  have held : ∀ h', (y.resume outcome).held h' = .none := by
    intro h'
    unfold resume
    rw [samePc, pc]
    rw [leave_held]
    simp only [setLevel, update_apply]
    split
    · rfl
    · rename_i other
      have free := none h'
      rw [held, pc, if_neg (by simpa using Ne.symm other), ← level] at free
      exact free
  have fields : (y.resume outcome).nShared = y.nShared ∧ (y.resume outcome).inodeLock = .none ∧
      (y.resume outcome).os = y.os ∧ (y.resume outcome).bProcessLock = y.bProcessLock ∧
      (y.resume outcome).pc = .idle := by
    unfold resume
    rw [samePc, pc]
    exact ⟨rfl, rfl, rfl, rfl, rfl⟩
  obtain ⟨count, inode, os, process, idle⟩ := fields
  refine ⟨by rw [process]; exact locked.kind sound.kind,
    sound.books.free none held (count.trans nShared) inode, ?_, by rw [AtPc, idle]; trivial⟩
  refine locks_of_none held ?_
  rw [os, process]
  rcases locked.granted_or with rfl | ⟨same, -⟩
  · exact locked.process_write
  · rw [same]
    exact sound.locks.process

theorem sound_resume (request : x.request = some (h, lock))
    (locked : Locked viaProcess x lock outcome y) : Sound strict viaProcess (y.resume outcome) := by
  cases pc : x.pc <;> rw [Proc.request, pc] at request <;> cases request
  case lockPending => exact sound_lockPending sound pc locked
  case lockShared => exact sound_lockShared sound pc locked
  case lockMain => exact sound_lockMain sound pc locked
  case readLock => exact sound_readLock sound pc locked
  case dropPending => exact sound_dropPending sound pc locked
  case dropReserved => exact sound_dropReserved sound pc locked
  case dropAll => exact sound_dropAll sound pc locked

/-! The beginning of a call. -/

omit sound in
private theorem requested_shared (requested : Requested a .shared) : a = .none := by
  cases a <;> first | rfl | exact requested.elim

omit sound in
private theorem requested_further (requested : Requested a l) (further : l ≠ .shared) :
    (l = .reserved ∧ a = .shared) ∨ (l = .exclusive ∧ .shared ≤ a ∧ a ≤ .pending) := by
  cases a <;> cases l <;>
    first | exact requested.elim | exact absurd rfl further | simp [le_iff, number]

theorem sound_unixLock (idle : x.pc = .idle) (requested : Requested (x.eFileLock h) l)
    (strictly : strict → ¬ (x.eFileLock h = .shared ∧ l = .exclusive)) :
    Sound strict viaProcess (x.unixLock h l) := by
  have here : ∀ h, x.pc ≠ .dropAll h := by rw [idle]; simp
  have old := held_eq here
  unfold unixLock
  split
  · exact sound_leave sound here _
  split
  · exact sound_leave sound here _
  rename_i free
  split
  · rename_i joins
    obtain ⟨rfl, top⟩ := joins
    have mine := requested_shared requested
    have notNone : x.inodeLock ≠ .none := by
      rcases top with top | top <;> rw [top] <;> decide
    obtain ⟨other, reached⟩ := sound.books.reached here notNone
    have shared : x.os .sharedRange ≠ .unlocked := by
      refine sound.locks.shared other ?_
      rw [reached]
      exact shared_le notNone
    have held : ∀ h', (({ x.setLevel h .shared with
        nShared := x.nShared + 1, nLock := x.nLock + 1 } : Proc H).leave .ok).held h' =
        if h' = h then .shared else x.held h' := by
      intro h'
      rw [leave_held, old]
      simp [setLevel, update_apply]
    refine ⟨sound.kind, sound.books.share here mine top .ok,
      ⟨fun _ _ => shared, fun h' some => ?_, fun h' some => ?_,
        sound.locks.process⟩, trivial⟩
    · rw [held] at some
      split at some
      · simp [le_iff, number] at some
      · exact sound.locks.reserved h' some
    · rw [held] at some
      split at some
      · exact absurd some (by decide)
      · exact sound.locks.pending h' some
  rename_i alone
  have same : l ≠ .shared → x.eFileLock h = x.inodeLock := by
    intro further
    by_contra differ
    refine free ⟨differ, .inr ?_⟩
    rcases requested_further requested further with ⟨rfl, -⟩ | ⟨rfl, -⟩ <;> decide
  split
  · rename_i first
    have locks : Locks strict ({ x with pc := .lockPending h l } : Proc H) :=
      sound.locks.move (held_move here (by simp)) rfl rfl
    have books : Books ({ x with pc := .lockPending h l } : Proc H) :=
      books_of_same sound.books here (by simp) rfl rfl rfl
    by_cases isShared : l = .shared
    · subst isShared
      have none : x.inodeLock = .none := by
        by_contra some
        cases level : x.inodeLock <;> rw [level] at free alone some <;>
          simp_all [le_iff, number]
      exact ⟨sound.kind, books, locks, .inl ⟨rfl, none⟩⟩
    · obtain ⟨exclusive, low⟩ := first.resolve_left isShared
      subst exclusive
      obtain ⟨absurd', -⟩ | ⟨-, some, -⟩ := requested_further requested isShared
      · cases absurd'
      have top := same isShared
      have notNone : x.inodeLock ≠ .none := by
        intro none
        rw [top, none] at some
        cases some
      refine ⟨sound.kind, books, locks,
        .inr ⟨rfl, some, low, top, fun strict' => ?_⟩⟩
      show reserved ≤ x.eFileLock h
      by_contra small
      refine strictly strict' ⟨?_, rfl⟩
      exact le_antisymm (Nat.le_of_lt_succ (Nat.lt_of_not_le small)) some
  · rename_i further
    have isFurther : l ≠ .shared := fun isShared => further (.inl isShared)
    have top := same isFurther
    have notNone : x.inodeLock ≠ .none := by
      intro none
      rw [← top] at none
      rw [none] at requested
      exact isFurther (by cases l <;> first | rfl | exact requested.elim)
    refine sound_lockFurther sound.kind sound.books here sound.locks top ?_
    refine (requested_further requested isFurther).imp_right ?_
    rintro ⟨exclusive, some, up⟩
    have high : .pending ≤ x.eFileLock h := by
      by_contra low
      exact further (.inr ⟨exclusive, Nat.lt_of_not_le low⟩)
    exact ⟨exclusive, some, up, sound.locks.pending h (by rw [old]; exact high),
      fun _ => le_trans (by decide) high⟩

theorem sound_posixUnlock (idle : x.pc = .idle) (target : l ≤ .shared) :
    Sound strict viaProcess (x.posixUnlock h l) := by
  have here : ∀ h, x.pc ≠ .dropAll h := by rw [idle]; simp
  have old := held_eq here
  unfold posixUnlock
  split
  · exact sound_leave sound here _
  rename_i above
  have some : .shared ≤ x.eFileLock h := by
    refine shared_le fun none => above ?_
    rw [none]
    exact none_le _
  split
  · rename_i high
    split
    · exact ⟨sound.kind, books_of_same sound.books here (by simp) rfl rfl rfl,
        sound.locks.move (held_move here (by simp)) rfl rfl, high⟩
    · rename_i other
      refine ⟨sound.kind, books_of_same sound.books here (by simp) rfl rfl rfl,
        sound.locks.move (held_move here (by simp)) rfl rfl, high, .inl ?_⟩
      cases l <;> first | rfl | exact absurd rfl other | exact absurd target (by decide)
  rename_i low
  have exact_level : x.eFileLock h = .shared := le_antisymm (Nat.le_of_not_lt low) some
  split
  · refine sound_releaseShared sound.kind sound.books here some rfl rfl
      (.inl ⟨exact_level, rfl⟩) fun z held os process => ?_
    refine sound.locks.fewer os process fun h' => ?_
    rw [held, old]
    split
    · exact .inr rfl
    · exact .inl rfl
  · rename_i isShared
    refine absurd ?_ above
    rw [exact_level]
    exact shared_le isShared

end

end SeSqlite.Os.UnixLock
