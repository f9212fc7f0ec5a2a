/- source: src/os_unix.c
   digest: What the locks of a database file exclude, over any number of files and processes. -/
import Mathlib.Data.Set.Card
import SeSqlite.Os.LockCalls

set_option autoImplicit false
set_option relaxedAutoImplicit false

namespace SeSqlite.Os.UnixLock

open Lib.RecordLocks Lib.Runs Level Proc

variable {H P : Type} [DecidableEq H] {strict : Prop} {viaProcess : Bool} {x y w : Proc H} {h : H}
  {lock : Request Region} {outcome : Outcome} {via : P → Bool} {s : P → Proc H} {p : P}

/-! What a move can do to others. -/

section

variable {h' : H} {l : Level} {flags : CtrlFlags}

private theorem lockFurther_os : (x.lockFurther h l).os = x.os := by
  unfold lockFurther
  split <;> rfl

private theorem unixLock_os : (x.unixLock h l).os = x.os := by
  unfold unixLock
  repeat' split
  any_goals rfl
  exact lockFurther_os

private theorem releaseShared_os : (x.releaseShared h).os = x.os := by
  unfold releaseShared
  dsimp only
  split <;> rfl

private theorem posixUnlock_os : (x.posixUnlock h l).os = x.os := by
  unfold posixUnlock
  repeat' split
  any_goals rfl
  exact releaseShared_os

private theorem resume_os : (x.resume outcome).os = x.os := by
  unfold resume
  dsimp only
  repeat' split
  any_goals rfl
  · exact lockFurther_os
  · exact releaseShared_os

omit [DecidableEq H] in
private theorem unixFileLock_os (x : Proc H) (flags : CtrlFlags) (lock : Request Region)
    (outcome : Outcome) : (x.unixFileLock flags lock outcome).2.os = x.os ∨
    ∃ asked, x.systemLock flags lock = some asked ∧ outcome = .granted ∧
      (x.unixFileLock flags lock outcome).2.os = asked.apply x.os := by
  cases asks : x.systemLock flags lock with
  | none =>
    left
    simp [unixFileLock, asks]
  | some asked =>
    by_cases granted : outcome = .granted
    · refine .inr ⟨asked, rfl, granted, ?_⟩
      subst granted
      simp only [unixFileLock, asks]
      split <;> rfl
    · left
      rw [unixFileLock_refused asks granted]

private theorem lockFurther_held (x : Proc H) (h : H) (l : Level) (h' : H) :
    (x.lockFurther h l).held h' = x.eFileLock h' ∨
      (h' = h ∧ (x.lockFurther h l).held h' = .pending) := by
  unfold lockFurther
  split
  · rw [reach_held]
    split
    · exact .inr ⟨‹_›, rfl⟩
    · exact .inl rfl
  · exact .inl rfl

/-- What `unixLock` gives without the system: to a file next to others, or to one that must wait for
others of its process. -/
theorem unixLock_held (idle : x.pc = .idle) (requested : Requested (x.eFileLock h) l) (h' : H) :
    (x.unixLock h l).held h' = x.held h' ∨
      (h' = h ∧ (x.unixLock h l).held h' = .shared ∧
        (x.inodeLock = .shared ∨ x.inodeLock = .reserved)) ∨
      (h' = h ∧ (x.unixLock h l).held h' = .pending ∧ .shared ≤ x.held h) := by
  have old := held_eq (x := x) (by rw [idle]; simp)
  rw [old, old]
  unfold unixLock
  split
  · exact .inl rfl
  split
  · exact .inl rfl
  split
  · rename_i joins
    rw [leave_held]
    simp only [setLevel, Function.update_apply]
    split
    · exact .inr (.inl ⟨‹_›, rfl, joins.2⟩)
    · exact .inl rfl
  split
  · exact .inl rfl
  · rename_i further
    refine (lockFurther_held x h l h').imp_right fun waits => .inr ⟨waits.1, waits.2, ?_⟩
    refine shared_le fun none => further (.inl ?_)
    rw [none] at requested
    cases l <;> first | rfl | exact requested.elim

private theorem releaseShared_held (x : Proc H) (h h' : H) :
    (x.releaseShared h).held h' = x.eFileLock h' ∨ (x.releaseShared h).held h' = .none := by
  unfold releaseShared
  dsimp only
  split
  · rw [held]
    split
    · exact .inr rfl
    · exact .inl rfl
  · rw [leave_held]
    simp only [setLevel, Function.update_apply]
    split
    · exact .inr rfl
    · exact .inl rfl

private theorem le_of_eq_or_none {a b : Level} (either : a = b ∨ a = .none) : a ≤ b := by
  rcases either with same | none
  · rw [same]
    exact Nat.le_refl _
  · rw [none]
    exact none_le _

private theorem posixUnlock_held (idle : x.pc = .idle) (h' : H) :
    (x.posixUnlock h l).held h' ≤ x.held h' := by
  rw [held_eq (x := x) (by rw [idle]; simp)]
  unfold posixUnlock
  split
  · exact Nat.le_refl _
  rename_i above
  split
  · split <;> rw [held_eq (by simp)] <;> exact Nat.le_refl _
  split
  · exact le_of_eq_or_none (releaseShared_held x h h')
  · rw [leave_held]
    simp only [setLevel, Function.update_apply]
    split
    · rename_i same
      rw [same]
      exact Nat.le_of_not_le above
    · exact Nat.le_refl _

/-- How a file gets a level at the end of a system call. -/
inductive Raise (x : Proc H) (outcome : Outcome) (h : H) : Level → Prop
  | shared (pc : x.pc = .dropPending h .ok) : Raise x outcome h .shared
  | pending (some : .shared ≤ x.held h) : Raise x outcome h .pending
  | main {l : Level} (pc : x.pc = .lockMain h l) (granted : outcome = .granted) :
      Raise x outcome h l

private theorem resume_held (sound : Sound strict viaProcess x)
    (same : y.eFileLock = x.eFileLock ∧ y.pc = x.pc) (outcome : Outcome) (h' : H) :
    (y.resume outcome).held h' ≤ x.held h' ∨
      Raise x outcome h' ((y.resume outcome).held h') := by
  obtain ⟨level, samePc⟩ := same
  have known := sound.atPc
  unfold AtPc at known
  unfold resume
  rw [samePc]
  by_cases closing : ∃ h, x.pc = .dropAll h
  · obtain ⟨h, pc⟩ := closing
    left
    rw [pc, leave_held, held, pc]
    simp only [setLevel, Function.update_apply]
    split
    · exact none_le _
    · rename_i other
      rw [if_neg (by simpa using Ne.symm other), level]
      exact Nat.le_refl _
  have here : ∀ h, x.pc ≠ .dropAll h := fun h pc => closing ⟨h, pc⟩
  have old : x.held h' = y.eFileLock h' := by rw [held_eq here, level]
  have stays {z : Proc H} (eq : z.held h' = y.eFileLock h') :
      z.held h' ≤ x.held h' ∨ Raise x outcome h' (z.held h') := by
    rw [eq, old]
    exact .inl (Nat.le_refl _)
  have reaches {z : Proc H} {h : H} {new : Level} {rc : Rc} (eq : z.eFileLock = y.eFileLock)
      (raise : h' = h → Raise x outcome h' new) :
      (z.reach h new rc).held h' ≤ x.held h' ∨
        Raise x outcome h' ((z.reach h new rc).held h') := by
    by_cases mine : h' = h
    · rw [reach_held, if_pos mine]
      exact .inr (raise mine)
    · refine stays ?_
      rw [reach_held, if_neg mine, eq]
  cases pc : x.pc with
  | idle => exact stays (held_eq (by rw [samePc, pc]; simp) h')
  | lockPending h l =>
    rw [pc] at known
    dsimp only
    split
    · exact stays (leave_held _ _)
    split
    · exact stays (held_eq (by simp) h')
    · rename_i further
      rcases lockFurther_held y h l h' with eq | ⟨rfl, eq⟩
      · exact stays eq
      · rw [eq]
        refine .inr (.pending ?_)
        rw [held_eq here]
        exact (known.resolve_left fun first => further first.1).2.1
  | lockShared h => exact stays (held_eq (by simp) h')
  | dropPending h rc =>
    dsimp only
    split
    · exact stays (leave_held _ _)
    split
    · exact stays (leave_held _ _)
    · rename_i ok
      refine reaches rfl ?_
      rintro rfl
      exact .shared (Decidable.not_not.mp ok ▸ pc)
  | lockMain h l =>
    rw [pc] at known
    dsimp only
    split
    · refine reaches rfl ?_
      rintro rfl
      exact .main pc (by cases outcome <;> simp_all [sqliteErrorFromPosixError])
    split
    · rename_i exclusive
      refine reaches rfl ?_
      rintro rfl
      refine .pending ?_
      rw [held_eq here]
      obtain ⟨reserved, -⟩ | ⟨-, some, -⟩ := known.2
      · rw [exclusive] at reserved
        cases reserved
      · exact some
    · exact stays (leave_held _ _)
  | readLock h =>
    dsimp only
    split
    · exact stays (leave_held _ _)
    · exact stays (held_eq (by simp) h')
  | dropReserved h l =>
    rw [pc] at known
    dsimp only
    split
    · exact stays (leave_held _ _)
    split
    · rw [old]
      exact .inl (le_of_eq_or_none (releaseShared_held { y with inodeLock := .shared } h h'))
    · rw [leave_held, old]
      simp only [setLevel, Function.update_apply]
      split
      · rename_i mine
        subst mine
        left
        rw [level]
        rcases known.2 with rfl | rfl
        · exact none_le _
        · exact Nat.le_of_lt known.1
      · exact .inl (Nat.le_refl _)
  | dropAll h => exact absurd pc (here h)

end

/-! All processes. -/

section

variable {asked : Request Region}

/-- What one process has keeps another one away. -/
structure Apart (x y : Proc H) : Prop where
  compatible : Compatible x.os y.os
  excludes : ∀ h, x.held h = .exclusive → y.os .sharedRange = .unlocked

private theorem Apart.quiet (apart : Apart x w) (os : y.os = x.os)
    (exclusive : ∀ h, y.held h = .exclusive → x.held h = .exclusive) : Apart y w where
  compatible := by rw [os]; exact apart.compatible
  excludes := fun h top => apart.excludes h (exclusive h top)

private theorem Apart.quiet_right (apart : Apart w x) (os : y.os = x.os) : Apart w y where
  compatible := by rw [os]; exact apart.compatible
  excludes := by rw [os]; exact apart.excludes

omit [DecidableEq H] in
private theorem reads_shared {pFile : H} (request : x.request = some (pFile, lock))
    (read : lock.type = .read) (covers : lock.covers .sharedRange = true) :
    x.pc = .lockShared pFile ∨ x.pc = .readLock pFile := by
  unfold Proc.request at request
  split at request
  case h_1 => cases request
  all_goals cases request
  all_goals simp_all

private theorem sharedRange_of_granted (sound : Sound strict viaProcess x) {viaOther : Bool}
    (other : Sound strict viaOther w) (apart : Apart w x) (top : w.held h = .exclusive)
    {flags : CtrlFlags} {pFile : H} (request : x.request = some (pFile, lock))
    (asks : x.systemLock flags lock = some asked) (grantable : asked.Grantable w.os) :
    asked.apply x.os .sharedRange = .unlocked := by
  have free := apart.excludes h top
  have taken := other.locks.shared h (by rw [top]; decide)
  unfold Request.apply
  split
  · rename_i covers
    have noClash := grantable .sharedRange covers
    cases type : asked.type with
    | unlocked => rfl
    | write =>
      rw [type] at noClash
      exact absurd (Held.write_clash noClash) taken
    | read =>
      -- a read lock is asked for by a process that has a lock already, or the pending byte
      rw [type] at noClash
      have direct : asked = lock := by
        unfold systemLock at asks
        split at asks
        · split at asks
          · cases asks
          · rw [← Option.some.inj asks] at type
            cases type
        · exact (Option.some.inj asks).symm
      subst direct
      exfalso
      have known := sound.atPc
      unfold AtPc at known
      rcases reads_shared request type covers with pc | pc <;> rw [pc] at known
      · rcases known.2 with read | process
        · rcases other.locks.pending h (by rw [top]; decide) with write | process
          · have clash := apart.compatible .pendingByte
            rw [read, write] at clash
            cases clash
          · rw [other.locks.process process] at noClash
            cases noClash
        · exact absurd ((sound.locks.process process).symm.trans free) (by decide)
      · refine sound.locks.shared pFile ?_ free
        rw [held_eq (by rw [pc]; simp)]
        exact Nat.le_of_lt known
  · exact free

/-- The processes that may use one lock for all of their files have no read-only ones. -/
structure Kinds (ctrlFlags : P → H → CtrlFlags) (via : P → Bool) : Prop where
  first : ∀ p h, (ctrlFlags p h).excl = true → (ctrlFlags p h).rdonly = false → via p = true
  writable : ∀ p h, via p = true → (ctrlFlags p h).rdonly = false

structure Safe (strict : Prop) (via : P → Bool) (s : P → Proc H) : Prop where
  each : ∀ p, Sound strict (via p) (s p)
  apart : ∀ p q, p ≠ q → Apart (s p) (s q)

/-- No file goes to `EXCLUSIVE_LOCK` without `RESERVED_LOCK`. -/
def ThroughReserved (s : P → Proc H) : Act P H → Prop
  | .lock p pFile eFileLock => ¬ ((s p).eFileLock pFile = .shared ∧ eFileLock = .exclusive)
  | _ => True

variable [DecidableEq P]

section

variable (safe : Safe strict via s)

include safe

private theorem Safe.update (sound : Sound strict (via p) y)
    (apart : ∀ q, q ≠ p → Apart y (s q) ∧ Apart (s q) y) :
    Safe strict via (Function.update s p y) := by
  refine ⟨fun q => ?_, fun q q' differ => ?_⟩
  · by_cases here : q = p
    · subst here
      rwa [Function.update_self]
    · rw [Function.update_of_ne here]
      exact safe.each q
  · by_cases here : q = p
    · subst here
      rw [Function.update_self, Function.update_of_ne differ.symm]
      exact (apart q' differ.symm).1
    · rw [Function.update_of_ne here]
      by_cases there : q' = p
      · subst there
        rw [Function.update_self]
        exact (apart q here).2
      · rw [Function.update_of_ne there]
        exact safe.apart q q' differ

private theorem Safe.begin (sound : Sound strict (via p) y) (os : y.os = (s p).os)
    (exclusive : ∀ h, y.held h = .exclusive → (s p).held h = .exclusive) :
    Safe strict via (Function.update s p y) :=
  safe.update sound fun q differ =>
    ⟨(safe.apart p q differ.symm).quiet os exclusive, (safe.apart q p differ).quiet_right os⟩

variable {ctrlFlags : P → H → CtrlFlags} (kinds : Kinds ctrlFlags via)

include kinds

private theorem safe_fcntl (allowed : Allowed ctrlFlags s (.fcntl p outcome)) :
    Safe strict via (step ctrlFlags s (.fcntl p outcome)) := by
  cases request : (s p).request with
  | none => simpa only [step, request] using safe
  | some asks =>
    obtain ⟨pFile, pLock⟩ := asks
    have eq : step ctrlFlags s (.fcntl p outcome) = Function.update s p
        (((s p).unixFileLock (ctrlFlags p pFile) pLock outcome).2.resume
          ((s p).unixFileLock (ctrlFlags p pFile) pLock outcome).1) := by
      simp [step, request]
    rw [eq]
    have sound := safe.each p
    have locked := locked_unixFileLock sound (kinds.first p pFile) (kinds.writable p pFile) pLock
      outcome
    have granted : ∀ asked, (s p).systemLock (ctrlFlags p pFile) pLock = some asked →
        (asked.type = .unlocked → outcome = .granted) ∧
          (outcome = .granted → ∀ q, q ≠ p → asked.Grantable (s q).os) := by
      intro asked reaches
      simpa only [Allowed, request, reaches] using allowed
    have os := unixFileLock_os (s p) (ctrlFlags p pFile) pLock outcome
    have soundNext := sound_resume sound request locked
    obtain ⟨level, -, -, samePc⟩ := locked.same
    generalize (s p).unixFileLock (ctrlFlags p pFile) pLock outcome = result at *
    obtain ⟨outcome', y⟩ := result
    refine safe.update soundNext fun q differ => ?_
    have apart := safe.apart p q differ.symm
    have apart' := safe.apart q p differ
    have compatible : Compatible y.os (s q).os := by
      rcases os with same | ⟨asked, reaches, given, new⟩
      · rw [same]
        exact apart.compatible
      · rw [new]
        exact apart.compatible.apply ((granted asked reaches).2 given q differ)
    refine ⟨⟨by rw [resume_os]; exact compatible, fun h top => ?_⟩,
      ⟨by rw [resume_os]; exact compatible.symm, fun h top => ?_⟩⟩
    · rcases resume_held sound ⟨level, samePc⟩ outcome' h with less | raise
      · rw [top] at less
        exact apart.excludes h (eq_exclusive less)
      · rw [top] at raise
        obtain ⟨pc, rfl⟩ : (s p).pc = .lockMain h .exclusive ∧ outcome' = .granted := by
          cases raise with
          | main pc granted => exact ⟨pc, granted⟩
        -- the write lock on the shared bytes was just granted
        have write : y.os .sharedRange = .write := by
          rcases locked.granted with ⟨-, write⟩ | ⟨-, -, new⟩
          · exact write
          · rw [Proc.request, pc] at request
            cases request
            exact congrFun new .sharedRange
        have noClash := compatible .sharedRange
        rw [write] at noClash
        exact Held.write_clash noClash
    · rw [resume_os]
      rcases os with same | ⟨asked, reaches, given, new⟩
      · rw [same]
        exact apart'.excludes h top
      · rw [new]
        exact sharedRange_of_granted sound (safe.each q) apart' top request reaches
          ((granted asked reaches).2 given q differ)

private theorem safe_step {a : Act P H} (allowed : Allowed ctrlFlags s a)
    (through : strict → ThroughReserved s a) : Safe strict via (step ctrlFlags s a) := by
  cases a with
  | lock p pFile eFileLock =>
    by_cases idle : (s p).pc = .idle
    · rw [step, if_pos idle]
      refine safe.begin (sound_unixLock (safe.each p) idle allowed through) unixLock_os
        fun h top => ?_
      rcases unixLock_held idle allowed h with same | ⟨-, shared, -⟩ | ⟨-, pending, -⟩
      · exact same.symm.trans top
      · exact absurd (shared.symm.trans top) (by decide)
      · exact absurd (pending.symm.trans top) (by decide)
    · rwa [step, if_neg idle]
  | unlock p pFile eFileLock =>
    by_cases idle : (s p).pc = .idle
    · rw [step, if_pos idle]
      refine safe.begin (sound_posixUnlock (safe.each p) idle allowed) posixUnlock_os
        fun h top => ?_
      have less := posixUnlock_held (h := pFile) (l := eFileLock) idle h
      rw [top] at less
      exact eq_exclusive less
    · rwa [step, if_neg idle]
  | fcntl p outcome => exact safe_fcntl safe kinds allowed

end

omit [DecidableEq P] in
private theorem safe_initial : Safe strict via (initial : P → Proc H) := by
  have held : ∀ (p : P) (h : H), ((initial : P → Proc H) p).held h = .none := by
    intro p h
    rfl
  refine ⟨fun p => ⟨fun on => absurd on (by simp [initial]), ?_, ?_, trivial⟩,
    fun p q _ => ⟨fun r => rfl, fun h top => rfl⟩⟩
  · refine ⟨⟨∅, fun h => ?_, rfl⟩, fun h => ?_, fun _ some => absurd rfl some, fun h high => ?_,
      fun h _ high => ?_, fun h _ top => ?_⟩
    · rw [held]
      exact iff_of_false (Finset.notMem_empty h) (by decide)
    · exact none_le _
    all_goals
      simp_all [le_iff, number]
  · refine Locks.low (fun h high => ?_) (fun h some => ?_) fun on => absurd on (by simp [initial])
    · cases high
    · cases some

end

/-! What is excluded. -/

section

variable {q : P}

/-- What the files of all processes hold in one state. A lock is known by its process and file. -/
structure Exclusion (s : P → Proc H) : Prop where
  reserved : ∀ p h q h', (s p).held h = .reserved → (s q).held h' = .reserved → (p, h) = (q, h')
  pending : ∀ p h q h', .pending ≤ (s p).held h → .pending ≤ (s q).held h' → (p, h) = (q, h')
  process : ∀ p h h', .reserved ≤ (s p).held h → .reserved ≤ (s p).held h' → h = h'
  exclusive : ∀ p h q h', (s p).held h = .exclusive → (q, h') ≠ (p, h) → (s q).held h' = .none
  nShared : ∀ p, (s p).pc = .idle →
    (s p).nShared = Set.ncard { h | .shared ≤ (s p).eFileLock h }
  eFileLock : ∀ p, (s p).pc = .idle → (∀ h, (s p).eFileLock h ≤ (s p).inodeLock) ∧
    ((s p).inodeLock = .none ∨ ∃ h, (s p).eFileLock h = (s p).inodeLock)

/-- At most one file has `RESERVED_LOCK` or more. -/
def OneWriter (s : P → Proc H) : Prop :=
  ∀ p h q h', .reserved ≤ (s p).held h → .reserved ≤ (s q).held h' → (p, h) = (q, h')

section

variable (safe : Safe strict via s)

include safe

private theorem process_alone (differ : p ≠ q) {h' : H} (some' : .shared ≤ (s q).held h') :
    (s p).bProcessLock = false := by
  by_contra process
  rw [Bool.not_eq_false] at process
  have write := (safe.each p).locks.process process
  have noClash := (safe.apart p q differ).compatible .sharedRange
  rw [write] at noClash
  exact (safe.each q).locks.shared h' some' (Held.write_clash noClash)

private theorem same_process {h h' : H} (r : Region) (some : .shared ≤ (s p).held h)
    (some' : .shared ≤ (s q).held h') (write : (s p).os r = .write ∨ (s p).bProcessLock = true)
    (write' : (s q).os r = .write ∨ (s q).bProcessLock = true) : p = q := by
  by_contra differ
  have off := process_alone safe differ some'
  have off' := process_alone safe (Ne.symm differ) some
  have noClash := (safe.apart p q differ).compatible r
  rw [write.resolve_right (by simp [off]), write'.resolve_right (by simp [off'])] at noClash
  cases noClash

private theorem exclusion_of_safe : Exclusion s := by
  refine ⟨fun p h q h' mine theirs => ?_, fun p h q h' mine theirs => ?_,
    fun p => (safe.each p).books.single, fun p h q h' top differ => ?_, fun p idle => ?_,
    fun p idle => ?_⟩
  · obtain rfl : p = q := same_process safe .reservedByte (by rw [mine]; decide)
      (by rw [theirs]; decide) ((safe.each p).locks.reserved h (.inl mine))
      ((safe.each q).locks.reserved h' (.inl theirs))
    rw [(safe.each p).books.single h h' (by rw [mine]; decide) (by rw [theirs]; decide)]
  · obtain rfl : p = q := same_process safe .pendingByte (le_trans (by decide) mine)
      (le_trans (by decide) theirs) ((safe.each p).locks.pending h mine)
      ((safe.each q).locks.pending h' theirs)
    rw [(safe.each p).books.single h h' (le_trans (by decide) mine)
      (le_trans (by decide) theirs)]
  · by_cases same : q = p
    · subst same
      refine (safe.each q).books.alone h h' top ?_
      rintro rfl
      exact differ rfl
    · refine eq_none fun some => ?_
      exact (safe.each q).locks.shared h' some ((safe.apart p q (Ne.symm same)).excludes h top)
  · obtain ⟨S, member, card⟩ := (safe.each p).books.counted
    have here : ∀ h, (s p).pc ≠ .dropAll h := by rw [idle]; simp
    have set : { h | shared ≤ (s p).eFileLock h } = (S : Set H) := by
      ext h
      rw [Set.mem_ofPred_eq, Finset.mem_coe, member, held_eq here]
    rw [set, Set.ncard_coe_finset, card]
  · have here : ∀ h, (s p).pc ≠ .dropAll h := by rw [idle]; simp
    have old := held_eq here
    refine ⟨fun h => ?_, ?_⟩
    · rw [← old]
      exact (safe.each p).books.below h
    · by_cases none : (s p).inodeLock = .none
      · exact .inl none
      · obtain ⟨h, reached⟩ := (safe.each p).books.reached here none
        exact .inr ⟨h, by rw [← old]; exact reached⟩

omit safe in
private theorem oneWriter_of_safe (safe : Safe True via s) : OneWriter s := by
  intro p h q h' mine theirs
  obtain rfl : p = q := same_process safe .reservedByte (le_trans (by decide) mine)
    (le_trans (by decide) theirs) ((safe.each p).locks.reserved h (.inr ⟨trivial, mine⟩))
    ((safe.each q).locks.reserved h' (.inr ⟨trivial, theirs⟩))
  rw [(safe.each p).books.single h h' mine theirs]

private theorem grants_joined (idle : (s p).pc = .idle)
    (joins : (s p).inodeLock = .shared ∨ (s p).inodeLock = .reserved) (q : P) (h' : H)
    (high : .pending ≤ (s q).held h') :
    q ≠ p ∧ (s q).held h' = .pending ∧ ∃ h'', .shared ≤ (s p).held h'' := by
  have notNone : (s p).inodeLock ≠ .none := by
    rcases joins with level | level <;> rw [level] <;> decide
  have low : (s p).inodeLock ≤ .reserved := by
    rcases joins with level | level <;> rw [level] <;> decide
  obtain ⟨other, reached⟩ := (safe.each p).books.reached (by rw [idle]; simp) notNone
  have shared : .shared ≤ (s p).held other := by
    rw [reached]
    exact shared_le notNone
  have differ : q ≠ p := by
    rintro rfl
    have below := le_trans ((safe.each q).books.below h') low
    exact absurd (le_trans high below) (by decide)
  refine ⟨differ, ?_, other, shared⟩
  by_contra notPending
  have top : (s q).held h' = .exclusive := by
    cases level : (s q).held h' <;> rw [level] at high notPending <;>
      first | rfl | exact absurd rfl notPending | exact absurd high (by decide)
  exact (safe.each p).locks.shared other shared ((safe.apart q p differ).excludes h' top)

private theorem grants_first {h : H} (pc : (s p).pc = .dropPending h .ok) (q : P) (h' : H) :
    ¬ .pending ≤ (s q).held h' := by
  intro high
  have some : .shared ≤ (s q).held h' := le_trans (by decide) high
  have known := (safe.each p).atPc
  rw [AtPc, pc] at known
  obtain ⟨none, pending, got⟩ := known
  have differ : q ≠ p := by
    rintro rfl
    have below := (safe.each q).books.below h'
    rw [none] at below
    exact absurd (le_trans some below) (by decide)
  have offP := process_alone safe differ.symm some
  have compatible := (safe.apart q p differ).compatible
  rcases (safe.each q).locks.pending h' high with write | process
  · have clash := compatible .pendingByte
    rw [write, pending.resolve_right (by simp [offP])] at clash
    cases clash
  · have clash := compatible .sharedRange
    rw [(safe.each q).locks.process process] at clash
    exact got rfl (Held.write_clash clash)

end

variable [DecidableEq P]

/-- A file that gets `SHARED_LOCK` meets no `EXCLUSIVE_LOCK`, and a `PENDING_LOCK` only of another
process, if its own process has `SHARED_LOCK` already. -/
def SharedGrants (ctrlFlags : P → H → CtrlFlags) (s : P → Proc H) (a : Act P H) : Prop :=
  ∀ p h, (s p).held h = .none → .shared ≤ (step ctrlFlags s a p).held h →
    ∀ q h', .pending ≤ (s q).held h' →
      q ≠ p ∧ (s q).held h' = .pending ∧ ∃ h'', .shared ≤ (s p).held h''

variable {ctrlFlags : P → H → CtrlFlags} {a : Act P H}

private theorem sharedGrants_of_safe (safe : Safe strict via s)
    (kinds : Kinds ctrlFlags via) (allowed : Allowed ctrlFlags s a) :
    SharedGrants ctrlFlags s a := by
  intro p h none some q h' high
  have still : ∀ {y : Proc H} {p' : P}, step ctrlFlags s a = Function.update s p' y →
      (p = p' → y.held h = .none → False) ∧ p = p' := by
    intro y p' eq
    have here : p = p' := by
      by_contra other
      rw [eq, Function.update_of_ne other, none] at some
      cases some
    refine ⟨fun _ free => ?_, here⟩
    rw [eq, here, Function.update_self, free] at some
    cases some
  have moves : step ctrlFlags s a ≠ s := by
    intro same
    rw [same, none] at some
    cases some
  cases a with
  | lock p' pFile eFileLock =>
    by_cases idle : (s p').pc = .idle
    · have eq : step ctrlFlags s (.lock p' pFile eFileLock) = _ := if_pos idle
      obtain ⟨raised, rfl⟩ := still eq
      rcases unixLock_held idle allowed h with same | ⟨rfl, -, joins⟩ | ⟨rfl, -, had⟩
      · exact (raised rfl (same.trans none)).elim
      · exact grants_joined safe idle joins q h' high
      · rw [none] at had
        cases had
    · exact absurd (if_neg idle) moves
  | unlock p' pFile eFileLock =>
    by_cases idle : (s p').pc = .idle
    · have eq : step ctrlFlags s (.unlock p' pFile eFileLock) = _ := if_pos idle
      obtain ⟨raised, rfl⟩ := still eq
      have less := posixUnlock_held (h := pFile) (l := eFileLock) idle h
      rw [none] at less
      exact (raised rfl (le_antisymm less (none_le _))).elim
    · exact absurd (if_neg idle) moves
  | fcntl p' outcome =>
    cases request : (s p').request with
    | none =>
      refine absurd ?_ moves
      simp [step, request]
    | some asks =>
      obtain ⟨pFile, pLock⟩ := asks
      have eq : step ctrlFlags s (.fcntl p' outcome) = Function.update s p'
          (((s p').unixFileLock (ctrlFlags p' pFile) pLock outcome).2.resume
            ((s p').unixFileLock (ctrlFlags p' pFile) pLock outcome).1) := by
        simp [step, request]
      obtain ⟨raised, rfl⟩ := still eq
      obtain ⟨level, -, -, samePc⟩ :=
        (locked_unixFileLock (safe.each p) (kinds.first p pFile) (kinds.writable p pFile) pLock
          outcome).same
      rcases resume_held (safe.each p) ⟨level, samePc⟩ _ h with less | raise
      · rw [none] at less
        exact (raised rfl (le_antisymm less (none_le _))).elim
      · generalize held _ h = new at raise
        cases raise with
        | shared pc => exact absurd high (grants_first safe pc q h')
        | pending had =>
          rw [none] at had
          cases had
        | main pc =>
          have known := (safe.each p).atPc
          rw [AtPc, pc] at known
          rw [held_eq (by rw [pc]; simp)] at none
          obtain ⟨-, level⟩ | ⟨-, had, -⟩ := known.2
          · exact absurd (level.symm.trans none) (by decide)
          · rw [none] at had
            cases had

omit [DecidableEq H] [DecidableEq P] in
private theorem exists_kinds (unmixed : Unmixed ctrlFlags) : ∃ via, Kinds ctrlFlags via := by
  classical
  refine ⟨fun p => decide (∀ h, (ctrlFlags p h).rdonly = false), fun p h excl writable => ?_,
    fun p h all => of_decide_eq_true all h⟩
  exact decide_eq_true fun h' => unmixed p h h' excl writable

/-- In every state of every run the locks exclude each other. At most one file has
`RESERVED_LOCK` or more if none passes by it on its way to `EXCLUSIVE_LOCK`. -/
theorem locks_exclude (ctrlFlags : P → H → CtrlFlags) (unmixed : Unmixed ctrlFlags)
    (run : List (Act P H)) (allowed : Along (step ctrlFlags) (Allowed ctrlFlags) initial run) :
    Visits (step ctrlFlags) Exclusion initial run ∧
      Along (step ctrlFlags) (SharedGrants ctrlFlags) initial run ∧
      (Along (step ctrlFlags) ThroughReserved initial run →
        Visits (step ctrlFlags) OneWriter initial run) := by
  obtain ⟨via, kinds⟩ := exists_kinds unmixed
  have keep : ∀ s a, Safe False via s → Allowed ctrlFlags s a →
      Safe False via (step ctrlFlags s a) :=
    fun s a safe allowed => safe_step safe kinds allowed False.elim
  refine ⟨?_, ?_, fun through => ?_⟩
  · exact visits_of_invariant (fun _ => exclusion_of_safe) keep safe_initial allowed
  · exact along_of_invariant keep (fun s a safe allowed => sharedGrants_of_safe safe kinds allowed)
      safe_initial allowed
  · have start : Safe True via (initial : P → Proc H) := safe_initial
    refine visits_of_invariant (fun _ => oneWriter_of_safe) (fun s a safe both => ?_) start
      (Along.and (step ctrlFlags) allowed through)
    exact safe_step safe kinds both.1 fun _ => both.2

def raceFlags : Bool → Bool → CtrlFlags := fun _ _ => ⟨false, false⟩

/-- The second process gets `RESERVED_LOCK`. The first one goes on to `EXCLUSIVE_LOCK` from
`SHARED_LOCK`, and has to wait for the other. -/
def race : List (Act Bool Bool) :=
  [.lock false false .shared, .fcntl false .granted, .fcntl false .granted, .fcntl false .granted,
    .lock true false .shared, .fcntl true .granted, .fcntl true .granted, .fcntl true .granted,
    .lock true false .reserved, .fcntl true .granted,
    .lock false false .exclusive, .fcntl false .granted, .fcntl false .conflict]

theorem locks_exclude_race : Visits (step raceFlags) Exclusion initial race ∧
    Along (step raceFlags) (SharedGrants raceFlags) initial race ∧
    (Along (step raceFlags) ThroughReserved initial race →
      Visits (step raceFlags) OneWriter initial race) :=
  locks_exclude raceFlags (fun _ _ _ _ _ => rfl) race (by decide)

/-- The first process has a file of `unix-excl` for reading and writing and a read-only one. -/
def mixedFlags : Bool → Bool → CtrlFlags
  | false, false => ⟨true, false⟩
  | false, true => ⟨true, true⟩
  | true, _ => ⟨false, false⟩

/-- The read-only file is the last to be unlocked and gives the lock of its process away. The other
one then goes up to `EXCLUSIVE_LOCK` without a system call. -/
def mixed : List (Act Bool Bool) :=
  [.lock false false .shared, .fcntl false .granted, .fcntl false .granted, .fcntl false .granted,
    .lock false true .shared, .unlock false false .none, .unlock false true .none,
    .fcntl false .granted,
    .lock false false .shared, .fcntl false .granted, .fcntl false .granted, .fcntl false .granted,
    .lock false false .reserved, .fcntl false .granted,
    .lock false false .exclusive, .fcntl false .granted, .fcntl false .granted,
    .lock true false .shared, .fcntl true .granted, .fcntl true .granted, .fcntl true .granted]

/-- Between the calls of the first run one file has `PENDING_LOCK` and one of the other process
`RESERVED_LOCK`; then another file of that process is given `SHARED_LOCK`. After the second run
`EXCLUSIVE_LOCK` stands beside `SHARED_LOCK`. -/
theorem locks_not_exclusive :
    (Along (step raceFlags) (Allowed raceFlags) initial (race ++ [.lock true true .shared]) ∧
      (race.foldl (step raceFlags) initial false).pc = .idle ∧
      (race.foldl (step raceFlags) initial true).pc = .idle ∧
      (race.foldl (step raceFlags) initial false).held false = .pending ∧
      (race.foldl (step raceFlags) initial true).held false = .reserved ∧
      (race.foldl (step raceFlags) initial true).held true = .none ∧
      ((race ++ [Act.lock true true .shared]).foldl (step raceFlags) initial true).held true =
        .shared) ∧
    Along (step mixedFlags) (Allowed mixedFlags) initial mixed ∧
      (mixed.foldl (step mixedFlags) initial false).pc = .idle ∧
      (mixed.foldl (step mixedFlags) initial true).pc = .idle ∧
      (mixed.foldl (step mixedFlags) initial false).held false = .exclusive ∧
      (mixed.foldl (step mixedFlags) initial true).held false = .shared := by
  decide +kernel

end

end SeSqlite.Os.UnixLock
