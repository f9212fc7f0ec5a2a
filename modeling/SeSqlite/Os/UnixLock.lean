/- source: src/os_unix.c
   digest: Locking a database file: the calls of the processes, cut at every system call. -/
import Mathlib.Data.Fintype.Basic
import SeSqlite.Lib.RecordLocks
import SeSqlite.Lib.Runs

set_option autoImplicit false
set_option relaxedAutoImplicit false

namespace SeSqlite.Os.UnixLock

open Lib.RecordLocks Function

inductive Level where
  | none
  | shared
  | reserved
  | pending
  | exclusive
  deriving DecidableEq

def Level.number : Level → Nat
  | .none => 0
  | .shared => 1
  | .reserved => 2
  | .pending => 3
  | .exclusive => 4

instance : LE Level := ⟨fun a b => a.number ≤ b.number⟩

instance : LT Level := ⟨fun a b => a.number < b.number⟩

instance (a b : Level) : Decidable (a ≤ b) := inferInstanceAs (Decidable (a.number ≤ b.number))

instance (a b : Level) : Decidable (a < b) := inferInstanceAs (Decidable (a.number < b.number))

/-- The bytes that are locked: `PENDING_BYTE`, `RESERVED_BYTE`, and the `SHARED_SIZE` bytes from
`SHARED_FIRST` on, which are always locked together. -/
inductive Region where
  | pendingByte
  | reservedByte
  | sharedRange
  deriving DecidableEq

instance : Fintype Region where
  elems := {.pendingByte, .reservedByte, .sharedRange}
  complete := by
    intro r
    cases r <;> decide

/-- The flags of a file that matter here, `UNIXFILE_EXCL` and `UNIXFILE_RDONLY`. -/
structure CtrlFlags where
  excl : Bool
  rdonly : Bool

inductive Rc where
  | ok
  | busy
  | ioerrLock
  | ioerrUnlock
  | ioerrRdlock
  deriving DecidableEq

/-- How `fcntl` ends: another owner may be in the way, or something else fails. -/
inductive Outcome where
  | granted
  | conflict
  | error
  deriving DecidableEq

/-- With `SQLITE_IOERR_LOCK` for what is not a conflict. -/
def sqliteErrorFromPosixError : Outcome → Rc
  | .granted => .ok
  | .conflict => .busy
  | .error => .ioerrLock

/-- Where a process is: in no call, or before a system call that `unixLock` (the first four) or
`posixUnlock` makes for a file. -/
inductive Pc (H : Type) where
  | idle
  | lockPending (pFile : H) (eFileLock : Level)
  | lockShared (pFile : H)
  | dropPending (pFile : H) (rc : Rc)
  | lockMain (pFile : H) (eFileLock : Level)
  | readLock (pFile : H)
  | dropReserved (pFile : H) (eFileLock : Level)
  | dropAll (pFile : H)
  deriving DecidableEq

/-- A process: the level of each of its files, the fields of `pInode`, its locks in the system,
and the result of its last call. -/
structure Proc (H : Type) where
  eFileLock : H → Level
  nShared : Nat
  inodeLock : Level
  nLock : Nat
  bProcessLock : Bool
  os : Region → Held
  pc : Pc H
  rc : Rc

variable {H : Type}

namespace Proc

/-- `unixFileLock` uses one lock of the whole process. -/
def usesProcessLock (x : Proc H) (flags : CtrlFlags) : Bool :=
  (flags.excl || x.bProcessLock) && !flags.rdonly

/-- The request of `unixFileLock` that reaches the system. -/
def systemLock (x : Proc H) (flags : CtrlFlags) (pLock : Request Region) :
    Option (Request Region) :=
  if x.usesProcessLock flags then
    if x.bProcessLock then none else some ⟨.write, (· == .sharedRange)⟩
  else some pLock

/-- `outcome` is that of the system call, if one is made. -/
def unixFileLock (x : Proc H) (flags : CtrlFlags) (pLock : Request Region) (outcome : Outcome) :
    Outcome × Proc H :=
  match x.systemLock flags pLock with
  | none => (.granted, x)
  | some lock =>
    match outcome with
    | .granted =>
      let x' := { x with os := lock.apply x.os }
      if x.usesProcessLock flags then
        (.granted, { x' with bProcessLock := true, nLock := x.nLock + 1 })
      else (.granted, x')
    | refused => (refused, x)

variable [DecidableEq H]

def setLevel (x : Proc H) (pFile : H) (level : Level) : Proc H :=
  { x with eFileLock := update x.eFileLock pFile level }

def leave (x : Proc H) (rc : Rc) : Proc H := { x with pc := .idle, rc := rc }

def reach (x : Proc H) (pFile : H) (level : Level) (rc : Rc) : Proc H :=
  { x.setLevel pFile level with inodeLock := level }.leave rc

/-- `unixLock` behind `PENDING_LOCK`, for `RESERVED_LOCK` or `EXCLUSIVE_LOCK`. -/
def lockFurther (x : Proc H) (pFile : H) (eFileLock : Level) : Proc H :=
  if eFileLock = .exclusive ∧ x.nShared > 1 then x.reach pFile .pending .busy
  else { x with pc := .lockMain pFile eFileLock }

/-- `unixLock` up to its first system call. -/
def unixLock (x : Proc H) (pFile : H) (eFileLock : Level) : Proc H :=
  if eFileLock ≤ x.eFileLock pFile then x.leave .ok
  else if x.eFileLock pFile ≠ x.inodeLock ∧ (.pending ≤ x.inodeLock ∨ .shared < eFileLock) then
    x.leave .busy
  else if eFileLock = .shared ∧ (x.inodeLock = .shared ∨ x.inodeLock = .reserved) then
    { x.setLevel pFile .shared with nShared := x.nShared + 1, nLock := x.nLock + 1 }.leave .ok
  else if eFileLock = .shared ∨ (eFileLock = .exclusive ∧ x.eFileLock pFile < .pending) then
    { x with pc := .lockPending pFile eFileLock }
  else x.lockFurther pFile eFileLock

/-- `posixUnlock` to `NO_LOCK`, behind the locks above `SHARED_LOCK`. -/
def releaseShared (x : Proc H) (pFile : H) : Proc H :=
  let x := { x with nShared := x.nShared - 1 }
  if x.nShared = 0 then { x with pc := .dropAll pFile }
  else { x.setLevel pFile .none with nLock := x.nLock - 1 }.leave .ok

/-- `posixUnlock` up to its first system call. -/
def posixUnlock (x : Proc H) (pFile : H) (eFileLock : Level) : Proc H :=
  if x.eFileLock pFile ≤ eFileLock then x.leave .ok
  else if .shared < x.eFileLock pFile then
    if eFileLock = .shared then { x with pc := .readLock pFile }
    else { x with pc := .dropReserved pFile eFileLock }
  else if eFileLock = .none then x.releaseShared pFile
  else (x.setLevel pFile eFileLock).leave .ok

def request (x : Proc H) : Option (H × Request Region) :=
  match x.pc with
  | .idle => none
  | .lockPending pFile eFileLock =>
    some (pFile, ⟨if eFileLock = .shared then .read else .write, (· == .pendingByte)⟩)
  | .lockShared pFile => some (pFile, ⟨.read, (· == .sharedRange)⟩)
  | .dropPending pFile _ => some (pFile, ⟨.unlocked, (· == .pendingByte)⟩)
  | .lockMain pFile eFileLock =>
    some (pFile,
      ⟨.write, (· == if eFileLock = .reserved then .reservedByte else .sharedRange)⟩)
  | .readLock pFile => some (pFile, ⟨.read, (· == .sharedRange)⟩)
  | .dropReserved pFile _ =>
    some (pFile, ⟨.unlocked, fun r => r == .pendingByte || r == .reservedByte⟩)
  | .dropAll pFile => some (pFile, ⟨.unlocked, fun _ => true⟩)

def resume (x : Proc H) (outcome : Outcome) : Proc H :=
  let rc := sqliteErrorFromPosixError outcome
  match x.pc with
  | .idle => x
  | .lockPending pFile eFileLock =>
    if rc ≠ .ok then x.leave rc
    else if eFileLock = .shared then { x with pc := .lockShared pFile }
    else x.lockFurther pFile eFileLock
  | .lockShared pFile => { x with pc := .dropPending pFile rc }
  | .dropPending pFile rcShared =>
    let rc := if rcShared = .ok ∧ rc ≠ .ok then .ioerrUnlock else rcShared
    if rc ≠ .ok then x.leave rc
    else { x with nLock := x.nLock + 1, nShared := 1 }.reach pFile .shared .ok
  | .lockMain pFile eFileLock =>
    if rc = .ok then x.reach pFile eFileLock .ok
    else if eFileLock = .exclusive then x.reach pFile .pending rc
    else x.leave rc
  | .readLock pFile =>
    if rc ≠ .ok then x.leave .ioerrRdlock else { x with pc := .dropReserved pFile .shared }
  | .dropReserved pFile eFileLock =>
    if rc ≠ .ok then x.leave .ioerrUnlock
    else
      let x := { x with inodeLock := .shared }
      if eFileLock = .none then x.releaseShared pFile
      else (x.setLevel pFile eFileLock).leave .ok
  | .dropAll pFile =>
    let rc := if rc = .ok then .ok else .ioerrUnlock
    { x.setLevel pFile .none with inodeLock := .none, nLock := x.nLock - 1 }.leave rc

/-- The level of a file; behind the last unlocking of a call of `posixUnlock` it is none, though the
field changes only at the end of the call. -/
def held (x : Proc H) (pFile : H) : Level :=
  if x.pc = .dropAll pFile then .none else x.eFileLock pFile

end Proc

/-! The processes together. -/

/-- A process begins a call, or its system call ends. -/
inductive Act (P H : Type) where
  | lock (p : P) (pFile : H) (eFileLock : Level)
  | unlock (p : P) (pFile : H) (eFileLock : Level)
  | fcntl (p : P) (outcome : Outcome)

variable {P : Type} [DecidableEq P] [DecidableEq H]

/-- The calls of one process come one after the other, its mutex sees to it. -/
def step (ctrlFlags : P → H → CtrlFlags) (s : P → Proc H) : Act P H → P → Proc H
  | .lock p pFile eFileLock =>
    if (s p).pc = .idle then update s p ((s p).unixLock pFile eFileLock) else s
  | .unlock p pFile eFileLock =>
    if (s p).pc = .idle then update s p ((s p).posixUnlock pFile eFileLock) else s
  | .fcntl p outcome =>
    match (s p).request with
    | none => s
    | some (pFile, pLock) =>
      let (outcome, x) := (s p).unixFileLock (ctrlFlags p pFile) pLock outcome
      update s p (x.resume outcome)

def Requested : Level → Level → Prop
  | .none, .shared | .shared, .reserved | .shared, .exclusive | .reserved, .exclusive
  | .pending, .exclusive => True
  | _, _ => False

instance : ∀ a b : Level, Decidable (Requested a b) := by
  intro a b
  cases a <;> cases b <;> unfold Requested <;> infer_instance

/-- What callers and the system do: a lock is granted only if no other process is in the way, and
may always be refused; unlocking succeeds. -/
def Allowed (ctrlFlags : P → H → CtrlFlags) (s : P → Proc H) : Act P H → Prop
  | .lock p pFile eFileLock => Requested ((s p).eFileLock pFile) eFileLock
  | .unlock _ _ eFileLock => eFileLock ≤ .shared
  | .fcntl p outcome =>
    match (s p).request with
    | none => True
    | some (pFile, pLock) =>
      match (s p).systemLock (ctrlFlags p pFile) pLock with
      | none => True
      | some lock => (lock.type = .unlocked → outcome = .granted) ∧
          (outcome = .granted → ∀ q, q ≠ p → lock.Grantable (s q).os)

instance [Fintype P] (ctrlFlags : P → H → CtrlFlags) (s : P → Proc H) (a : Act P H) :
    Decidable (Allowed ctrlFlags s a) := by
  cases a with
  | lock p pFile eFileLock => exact inferInstanceAs (Decidable (Requested _ _))
  | unlock p pFile eFileLock => exact inferInstanceAs (Decidable (_ ≤ _))
  | fcntl p outcome =>
    unfold Allowed Request.Grantable
    dsimp only
    split
    · infer_instance
    · split <;> infer_instance

def initial : P → Proc H :=
  fun _ => ⟨fun _ => .none, 0, .none, 0, false, fun _ => .unlocked, .idle, .ok⟩

/-- No process has a file open for reading and writing with `unix-excl` beside a read-only one:
the first relies on the one lock of the process, and unlocking the second gives it away. -/
def Unmixed (ctrlFlags : P → H → CtrlFlags) : Prop :=
  ∀ p h h', (ctrlFlags p h).excl = true → (ctrlFlags p h).rdonly = false →
    (ctrlFlags p h').rdonly = false

end SeSqlite.Os.UnixLock
