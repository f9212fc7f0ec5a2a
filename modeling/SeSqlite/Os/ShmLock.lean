/- source: src/os_unix.c
   digest: The locks of a wal-index: one lock of the system for each process, and the masks of the
   connections that share it. -/
import Mathlib.Data.List.Basic
import SeSqlite.Lib.Runs
import SeSqlite.Lib.SharedLocks

set_option autoImplicit false
set_option relaxedAutoImplicit false

namespace SeSqlite.Os.ShmLock

open Lib.RecordLocks Lib.SharedLocks Lib.Runs Function

variable {P C : Type} [DecidableEq P] [DecidableEq C]

section

/-- The connections of each process, in the list that starts at `pFirst`. -/
structure Connections (P C : Type) where
  process : C → P
  pFirst : P → List C
  listed : ∀ c, c ∈ pFirst (process c)
  own : ∀ q, ∀ c ∈ pFirst q, process c = q

/-- The masks of the connections, and what each process has locked in the file. -/
structure State (P C : Type) where
  sharedMask : C → BitVec 16
  exclMask : C → BitVec 16
  os : P → Nat → Held

def unixShmBase : Nat := (22 + 8) * 4

/-- What is asked for, by `SQLITE_SHM_LOCK` or `SQLITE_SHM_UNLOCK` and the kind of lock. -/
inductive Flags where
  | lockShared
  | lockExclusive
  | unlockShared
  | unlockExclusive
  deriving DecidableEq

inductive Code where
  | ok
  | busy
  deriving DecidableEq

def request (type : Held) (ofst n : Nat) : Request Nat :=
  ⟨type, fun r => decide (ofst ≤ r) && decide (r < ofst + n)⟩

def unixShmSystemLock (s : State P C) (q : P) (type : Held) (ofst n : Nat) (granted : Bool) :
    Code × State P C :=
  if granted then
    (.ok, { s with os := update s.os q ((request type ofst n).apply (s.os q)) })
  else (.busy, s)

def mask (ofst n : Nat) : BitVec 16 := 1 <<< (ofst + n) - 1 <<< ofst

/-- The loop of a shared request; `none` if a connection has an exclusive lock. -/
def scanShared (s : State P C) (mask : BitVec 16) : List C → BitVec 16 → Option (BitVec 16)
  | [], allShared => some allShared
  | pX :: rest, allShared =>
    if s.exclMask pX &&& mask ≠ 0 then none
    else scanShared s mask rest (allShared ||| s.sharedMask pX)

variable (conns : Connections P C)

def unixShmUnlock (s : State P C) (p : C) (ofst n : Nat) (granted : Bool) : Code × State P C :=
  let q := conns.process p
  let allMask := (conns.pFirst q).foldl
    (fun all pX => if pX = p then all else all ||| s.sharedMask pX) 0
  let (rc, s) :=
    if mask ofst n &&& allMask = 0 then
      unixShmSystemLock s q .unlocked (ofst + unixShmBase) n granted
    else (.ok, s)
  if rc = .ok then
    (rc, { s with
      sharedMask := update s.sharedMask p (s.sharedMask p &&& ~~~ mask ofst n)
      exclMask := update s.exclMask p (s.exclMask p &&& ~~~ mask ofst n) })
  else (rc, s)

/-- `granted` is the answer of the system, if it is asked. -/
def unixShmLock (s : State P C) (p : C) (ofst n : Nat) (flags : Flags) (granted : Bool) :
    Code × State P C :=
  let q := conns.process p
  match flags with
  | .unlockShared => unixShmUnlock conns s p ofst n granted
  | .unlockExclusive => unixShmUnlock conns s p ofst n granted
  | .lockShared =>
    match scanShared s (mask ofst n) (conns.pFirst q) 0 with
    | none => (.busy, s)
    | some allShared =>
      let (rc, s) :=
        if allShared &&& mask ofst n = 0 then
          unixShmSystemLock s q .read (ofst + unixShmBase) n granted
        else (.ok, s)
      if rc = .ok then
        (rc, { s with
          sharedMask := update s.sharedMask p (s.sharedMask p ||| mask ofst n) })
      else (rc, s)
  | .lockExclusive =>
    if (conns.pFirst q).any fun pX =>
        s.exclMask pX &&& mask ofst n ≠ 0 ∨ s.sharedMask pX &&& mask ofst n ≠ 0 then (.busy, s)
    else
      let (rc, s) := unixShmSystemLock s q .write (ofst + unixShmBase) n granted
      if rc = .ok then
        (rc, { s with
          exclMask := update s.exclMask p (s.exclMask p ||| mask ofst n) })
      else (rc, s)

def InCall (ofst n i : Nat) : Prop := ofst ≤ i ∧ i < ofst + n

instance (ofst n i : Nat) : Decidable (InCall ofst n i) := inferInstanceAs (Decidable (_ ∧ _))

variable {ofst n i : Nat}

private theorem getLsbD_mask (range : ofst + n ≤ 8) :
    (mask ofst n).getLsbD i = decide (InCall ofst n i) := by
  have all : ∀ ofst < 9, ∀ n < 9, ofst + n ≤ 8 → ∀ i < 16,
      (mask ofst n).getLsbD i = decide (InCall ofst n i) := by
    decide
  by_cases small : i < 16
  · exact all ofst (by omega) n (by omega) range i small
  · have outside : ¬ InCall ofst n i := fun inside => by
      have := inside.2
      omega
    rw [BitVec.getLsbD_of_ge _ _ (Nat.not_lt.mp small), decide_eq_false outside]

private theorem and_mask_eq_zero_iff (range : ofst + n ≤ 8) (x : BitVec 16) :
    x &&& mask ofst n = 0 ↔ ∀ i, InCall ofst n i → x.getLsbD i = false := by
  constructor
  · intro zero i inside
    have bit := congrArg (fun y : BitVec 16 => y.getLsbD i) zero
    simpa [getLsbD_mask range, inside] using bit
  · intro clear
    apply BitVec.eq_of_getLsbD_eq
    intro i _
    rw [BitVec.getLsbD_and, getLsbD_mask range]
    by_cases inside : InCall ofst n i
    · rw [clear i inside]
      simp
    · rw [decide_eq_false inside]
      simp

variable {s : State P C} {p : C} {i : Nat}

omit [DecidableEq P] in
private theorem getLsbD_allMask (list : List C) (all : BitVec 16) :
    (list.foldl (fun all pX => if pX = p then all else all ||| s.sharedMask pX) all).getLsbD i =
        true ↔
      all.getLsbD i = true ∨ ∃ c ∈ list, c ≠ p ∧ (s.sharedMask c).getLsbD i = true := by
  induction list generalizing all with
  | nil => simp
  | cons c list ih =>
    rw [List.foldl_cons, ih]
    by_cases here : c = p
    · simp [here]
    · simp [here, or_assoc]

omit [DecidableEq P] [DecidableEq C] in
private theorem scanShared_some {mask all result : BitVec 16} {list : List C}
    (scan : scanShared s mask list all = some result) :
    (∀ c ∈ list, s.exclMask c &&& mask = 0) ∧ ∀ i, result.getLsbD i = true ↔
      all.getLsbD i = true ∨ ∃ c ∈ list, (s.sharedMask c).getLsbD i = true := by
  induction list generalizing all with
  | nil =>
    obtain rfl : all = result := Option.some.inj scan
    simp
  | cons c list ih =>
    rw [scanShared] at scan
    split at scan
    · cases scan
    · rename_i clear
      obtain ⟨none_excl, bits⟩ := ih scan
      refine ⟨fun d member => ?_, fun i => ?_⟩
      · rcases List.mem_cons.mp member with rfl | later
        · exact not_not.mp clear
        · exact none_excl d later
      · rw [bits i]
        simp [or_assoc]

variable {conns : Connections P C}

/-- Every slot of the masks and of the file is a lock of its own. -/
def Sound (conns : Connections P C) (s : State P C) : Prop :=
  ∀ i, Slot conns.process (fun c => (s.sharedMask c).getLsbD i)
    (fun c => (s.exclMask c).getLsbD i) fun q => s.os q (i + unixShmBase)

omit [DecidableEq P] in
private theorem set_bits (range : ofst + n ≤ 8) (f : C → BitVec 16) (i : Nat) :
    (fun c => (update f p (f p ||| mask ofst n) c).getLsbD i) =
      if InCall ofst n i then update (fun c => (f c).getLsbD i) p true
      else fun c => (f c).getLsbD i := by
  funext c
  by_cases here : c = p
  · rw [here, update_self, BitVec.getLsbD_or, getLsbD_mask range]
    split
    · rename_i inside
      rw [update_self, decide_eq_true inside, Bool.or_true]
    · rename_i outside
      rw [decide_eq_false outside, Bool.or_false]
  · rw [update_of_ne here]
    split
    · rw [update_of_ne here]
    · rfl

omit [DecidableEq P] in
private theorem clear_bits (range : ofst + n ≤ 8) (f : C → BitVec 16) (i : Nat) :
    (fun c => (update f p (f p &&& ~~~ mask ofst n) c).getLsbD i) =
      if InCall ofst n i then update (fun c => (f c).getLsbD i) p false
      else fun c => (f c).getLsbD i := by
  funext c
  by_cases here : c = p
  · rw [here, update_self, BitVec.getLsbD_and, BitVec.getLsbD_not, getLsbD_mask range]
    split
    · rename_i inside
      rw [decide_eq_true inside]
      simp
    · rename_i outside
      rw [decide_eq_false outside]
      by_cases small : i < 16
      · simp [small]
      · have none : (f p).getLsbD i = false := BitVec.getLsbD_of_ge _ _ (Nat.not_lt.mp small)
        simp [none]
  · rw [update_of_ne here]
    split
    · rw [update_of_ne here]
    · rfl

omit [DecidableEq C] in
private theorem lock_slot (os : P → Nat → Held) (q : P) (type : Held) (ofst n i : Nat) :
    (fun r => update os q ((request type (ofst + unixShmBase) n).apply (os q)) r
        (i + unixShmBase)) =
      if InCall ofst n i then update (fun r => os r (i + unixShmBase)) q type
      else fun r => os r (i + unixShmBase) := by
  funext r
  by_cases here : r = q
  · have covers : (request type (ofst + unixShmBase) n).covers (i + unixShmBase) =
        decide (InCall ofst n i) := by
      rw [Bool.eq_iff_iff, decide_eq_true_eq]
      simp only [request, InCall, Bool.and_eq_true, decide_eq_true_eq]
      omega
    rw [here, update_self, Request.apply, covers]
    split
    · rename_i inside
      rw [if_pos (of_decide_eq_true inside), update_self]
      rfl
    · rename_i outside
      rw [if_neg (fun inside => outside (decide_eq_true inside))]
  · rw [update_of_ne here]
    split
    · rw [update_of_ne here]
    · rfl

/-- The system may grant the lock to the process of a connection. -/
def Grantable (conns : Connections P C) (s : State P C) (p : C) (type : Held) (ofst n : Nat) :
    Prop :=
  ∀ q, q ≠ conns.process p → (request type (ofst + unixShmBase) n).Grantable (s.os q)

omit [DecidableEq P] [DecidableEq C] in
private theorem Grantable.slot {type : Held} (grantable : Grantable conns s p type ofst n)
    (inside : InCall ofst n i) (q : P) (other : q ≠ conns.process p) :
    type.clash (s.os q (i + unixShmBase)) = false := by
  refine grantable q other _ ?_
  obtain ⟨low, high⟩ := inside
  simp only [request, Bool.and_eq_true, decide_eq_true_eq]
  omega

section

variable (sound : Sound conns s) (range : ofst + n ≤ 8)

include sound range

private theorem sound_share
    (free : ∀ c, conns.process c = conns.process p → s.exclMask c &&& mask ofst n = 0)
    (grantable : Grantable conns s p .read ofst n) : Sound conns
      { s with
        sharedMask := update s.sharedMask p (s.sharedMask p ||| mask ofst n)
        os := update s.os (conns.process p)
          ((request .read (ofst + unixShmBase) n).apply (s.os (conns.process p))) } := by
  intro i
  rw [set_bits range, lock_slot]
  split
  · rename_i inside
    exact (sound i).share
      (fun c own => (and_mask_eq_zero_iff range _).mp (free c own) i inside)
      (grantable.slot inside)
  · exact sound i

private theorem sound_share_more (one : n = 1)
    (free : ∀ c, conns.process c = conns.process p → s.exclMask c &&& mask ofst n = 0) {c : C}
    (own : conns.process c = conns.process p) (sharing : s.sharedMask c &&& mask ofst n ≠ 0) :
    Sound conns
      { s with
        sharedMask := update s.sharedMask p (s.sharedMask p ||| mask ofst n) } := by
  intro i
  rw [set_bits range]
  split
  · rename_i inside
    have bit : (s.sharedMask c).getLsbD i = true := by
      by_contra clear
      refine sharing ((and_mask_eq_zero_iff range _).mpr fun j within => ?_)
      obtain rfl : j = i := by
        obtain ⟨low, high⟩ := inside
        obtain ⟨low', high'⟩ := within
        omega
      exact Bool.eq_false_iff.mpr clear
    have kept := ((sound i).read _).mpr ⟨c, own, bit⟩
    have same := (sound i).share (p := p)
      (fun d own' => (and_mask_eq_zero_iff range _).mp (free d own') i inside) fun q other => by
        rw [← kept]
        exact (sound i).compatible _ q other.symm
    rwa [← kept, update_eq_self (conns.process p) fun q => s.os q (i + unixShmBase)] at same
  · exact sound i

private theorem sound_exclude
    (free : ∀ c, conns.process c = conns.process p → s.exclMask c &&& mask ofst n = 0 ∧
      s.sharedMask c &&& mask ofst n = 0)
    (grantable : Grantable conns s p .write ofst n) : Sound conns
      { s with
        exclMask := update s.exclMask p (s.exclMask p ||| mask ofst n)
        os := update s.os (conns.process p)
          ((request .write (ofst + unixShmBase) n).apply (s.os (conns.process p))) } := by
  intro i
  rw [set_bits range, lock_slot]
  split
  · rename_i inside
    refine (sound i).exclude (fun c own => ?_) (grantable.slot inside)
    obtain ⟨none_excl, none_shared⟩ := free c own
    exact ⟨(and_mask_eq_zero_iff range _).mp none_shared i inside,
      (and_mask_eq_zero_iff range _).mp none_excl i inside⟩
  · exact sound i

private theorem sound_release (holds : ∀ i, InCall ofst n i → (s.sharedMask p).getLsbD i = true ∨
      (s.exclMask p).getLsbD i = true)
    (last : ∀ i, InCall ofst n i → ∀ c, conns.process c = conns.process p → c ≠ p →
      (s.sharedMask c).getLsbD i = false) : Sound conns
      { s with
        sharedMask := update s.sharedMask p (s.sharedMask p &&& ~~~ mask ofst n)
        exclMask := update s.exclMask p (s.exclMask p &&& ~~~ mask ofst n)
        os := update s.os (conns.process p)
          ((request .unlocked (ofst + unixShmBase) n).apply (s.os (conns.process p))) } := by
  intro i
  rw [clear_bits range, clear_bits range, lock_slot]
  by_cases inside : InCall ofst n i
  · simp only [if_pos inside]
    exact (sound i).release (holds i inside) (last i inside)
  · simp only [if_neg inside]
    exact sound i

private theorem sound_unshare
    (others : ∀ i, InCall ofst n i → ∃ c, conns.process c = conns.process p ∧ c ≠ p ∧
      (s.sharedMask c).getLsbD i = true) : Sound conns
      { s with
        sharedMask := update s.sharedMask p (s.sharedMask p &&& ~~~ mask ofst n)
        exclMask := update s.exclMask p (s.exclMask p &&& ~~~ mask ofst n) } := by
  intro i
  rw [clear_bits range, clear_bits range]
  by_cases inside : InCall ofst n i
  · simp only [if_pos inside]
    obtain ⟨c, own, other, sharing⟩ := others i inside
    exact (sound i).unshare own other sharing
  · simp only [if_neg inside]
    exact sound i

end

/-- A call of `unixShmLock`, with the answer of the system if it is asked. -/
structure Call (C : Type) where
  p : C
  ofst : Nat
  n : Nat
  flags : Flags
  granted : Bool

def Flags.type : Flags → Held
  | .lockShared => .read
  | .lockExclusive => .write
  | .unlockShared => .unlocked
  | .unlockExclusive => .unlocked

/-- What the connections were told: the slots that a call granted and none has given back. -/
structure Grants (C : Type) where
  shared : C → Nat → Bool
  excl : C → Nat → Bool

/-- The slots of the call, for its connection. -/
def Call.set (call : Call C) (value : Bool) (f : C → Nat → Bool) : C → Nat → Bool :=
  update f call.p fun i => if InCall call.ofst call.n i then value else f call.p i

/-- What a connection knows from the code that its call returned. -/
def Grants.note (grants : Grants C) (call : Call C) : Code → Grants C
  | .busy => grants
  | .ok =>
    match call.flags with
    | .lockShared => { grants with shared := call.set true grants.shared }
    | .lockExclusive => { grants with excl := call.set true grants.excl }
    | .unlockShared => { grants with shared := call.set false grants.shared }
    | .unlockExclusive => { grants with excl := call.set false grants.excl }

variable (conns : Connections P C)

def Call.run (s : State P C) (call : Call C) : Code × State P C :=
  unixShmLock conns s call.p call.ofst call.n call.flags call.granted

/-- A call, beside the record of the answers that the connections got. -/
def step (r : State P C × Grants C) (call : Call C) : State P C × Grants C :=
  ((call.run conns r.1).2, r.2.note call (call.run conns r.1).1)

def Rules (grants : Grants C) (call : Call C) : Prop :=
  1 ≤ call.n ∧ call.ofst + call.n ≤ 8 ∧
  match call.flags with
  | .lockShared => call.n = 1
  | .lockExclusive => True
  | .unlockShared => call.n = 1 ∧ grants.shared call.p call.ofst = true
  | .unlockExclusive => ∀ i, InCall call.ofst call.n i → grants.excl call.p i = true

/-- The masks as a record of grants. -/
def State.masks (s : State P C) : Grants C :=
  ⟨fun c i => (s.sharedMask c).getLsbD i, fun c i => (s.exclMask c).getLsbD i⟩

/-- The system grants only what no other process stands against; it may always refuse. -/
def Posix (s : State P C) (call : Call C) : Prop :=
  call.granted = true → Grantable conns s call.p call.flags.type call.ofst call.n

variable {conns} {s : State P C}

private theorem sound_unlock {p : C} {ofst n : Nat} {granted : Bool} (sound : Sound conns s)
    (range : ofst + n ≤ 8) (holds : ∀ i, InCall ofst n i →
      (s.sharedMask p).getLsbD i = true ∨ (s.exclMask p).getLsbD i = true)
    (uniform : (∃ i, InCall ofst n i ∧ ∃ c, conns.process c = conns.process p ∧ c ≠ p ∧
        (s.sharedMask c).getLsbD i = true) →
      ∀ i, InCall ofst n i → ∃ c, conns.process c = conns.process p ∧ c ≠ p ∧
        (s.sharedMask c).getLsbD i = true) :
    Sound conns (unixShmUnlock conns s p ofst n granted).2 := by
  have bits (i : Nat) := getLsbD_allMask (s := s) (p := p) (i := i)
    (conns.pFirst (conns.process p)) 0
  rw [unixShmUnlock]
  generalize (conns.pFirst (conns.process p)).foldl
    (fun all pX => if pX = p then all else all ||| s.sharedMask pX) 0 = allMask at bits ⊢
  have sharer {i : Nat} : allMask.getLsbD i = true ↔
      ∃ c, conns.process c = conns.process p ∧ c ≠ p ∧ (s.sharedMask c).getLsbD i = true := by
    rw [bits i]
    constructor
    · rintro (none | ⟨c, member, other, sharing⟩)
      · simp at none
      · exact ⟨c, conns.own _ c member, other, sharing⟩
    · rintro ⟨c, own, other, sharing⟩
      exact .inr ⟨c, own ▸ conns.listed c, other, sharing⟩
  rw [BitVec.and_comm]
  by_cases free : allMask &&& mask ofst n = 0
  · have last : ∀ i, InCall ofst n i → ∀ c, conns.process c = conns.process p → c ≠ p →
        (s.sharedMask c).getLsbD i = false := by
      intro i inside c own other
      by_contra sharing
      have bit := sharer.mpr ⟨c, own, other, Bool.not_eq_false _ ▸ sharing⟩
      exact absurd (bit.symm.trans ((and_mask_eq_zero_iff range _).mp free i inside)) (by decide)
    rw [if_pos free]
    cases granted with
    | true => exact sound_release sound range holds last
    | false => exact sound
  · rw [if_neg free]
    have some_sharer : ∃ i, InCall ofst n i ∧ allMask.getLsbD i = true := by
      by_contra none
      refine free ((and_mask_eq_zero_iff range _).mpr fun i inside => ?_)
      exact Bool.eq_false_iff.mpr fun bit => none ⟨i, inside, bit⟩
    obtain ⟨i, inside, bit⟩ := some_sharer
    exact sound_unshare sound range (uniform ⟨i, inside, sharer.mp bit⟩)

private theorem sound_run (s : State P C) (call : Call C) (sound : Sound conns s)
    (allowed : Rules s.masks call ∧ Posix conns s call) : Sound conns (call.run conns s).2 := by
  obtain ⟨p, ofst, n, flags, granted⟩ := call
  obtain ⟨⟨some_slot, range, rule⟩, posix⟩ := allowed
  have together {i j : Nat} (one : n = 1) (inside : InCall ofst n i) (within : InCall ofst n j) :
      j = i := by
    obtain ⟨low, high⟩ := inside
    obtain ⟨low', high'⟩ := within
    omega
  cases flags with
  | lockShared =>
    rw [Call.run, unixShmLock]
    cases scan : scanShared s (mask ofst n) (conns.pFirst (conns.process p)) 0 with
    | none => exact sound
    | some allShared =>
      obtain ⟨none_excl, bits⟩ := scanShared_some scan
      have free (c : C) (own : conns.process c = conns.process p) :
          s.exclMask c &&& mask ofst n = 0 := none_excl c (own ▸ conns.listed c)
      dsimp only
      by_cases first : allShared &&& mask ofst n = 0
      · rw [if_pos first]
        cases granted with
        | true => exact sound_share sound range free (posix rfl)
        | false => exact sound
      · rw [if_neg first]
        have some_sharer : ∃ c ∈ conns.pFirst (conns.process p),
            s.sharedMask c &&& mask ofst n ≠ 0 := by
          by_contra none
          refine first ((and_mask_eq_zero_iff range _).mpr fun i inside => ?_)
          refine Bool.eq_false_iff.mpr fun bit => ?_
          rcases (bits i).mp bit with zero | ⟨c, member, sharing⟩
          · simp at zero
          · refine none ⟨c, member, fun clear => ?_⟩
            have off := (and_mask_eq_zero_iff range _).mp clear i inside
            exact absurd (sharing.symm.trans off) (by decide)
        obtain ⟨c, member, sharing⟩ := some_sharer
        exact sound_share_more sound range rule free (conns.own _ c member) sharing
  | lockExclusive =>
    rw [Call.run, unixShmLock]
    split
    · exact sound
    · rename_i none_holds
      have free (c : C) (own : conns.process c = conns.process p) :
          s.exclMask c &&& mask ofst n = 0 ∧ s.sharedMask c &&& mask ofst n = 0 := by
        have member := own ▸ conns.listed c
        simp only [List.any_eq_true, decide_eq_true_eq, not_exists, not_and, not_or, not_not]
          at none_holds
        exact none_holds c member
      cases granted with
      | true => exact sound_exclude sound range free (posix rfl)
      | false => exact sound
  | unlockShared =>
    obtain ⟨one, sharing⟩ := rule
    refine sound_unlock sound range (fun i inside => .inl ?_) fun ⟨i, inside, sharer⟩ j within => ?_
    · obtain rfl : ofst = i := together one inside ⟨le_rfl, by dsimp only at one; omega⟩
      exact sharing
    · rwa [together one inside within]
  | unlockExclusive =>
    refine sound_unlock sound range (fun i inside => .inr (rule i inside))
      fun ⟨i, inside, c, own, other, sharing⟩ => ?_
    have alone := (sound i).alone p c own.symm (rule i inside)
    exact absurd (sharing.symm.trans alone.1) (by decide)

section

variable {call : Call C} (range : call.ofst + call.n ≤ 8)

include range

omit [DecidableEq P] in
private theorem set_mask (f : C → BitVec 16) :
    (fun c i => (update f call.p (f call.p ||| mask call.ofst call.n) c).getLsbD i) =
      call.set true fun c i => (f c).getLsbD i := by
  funext c i
  rw [congrFun (set_bits range f i) c]
  by_cases here : c = call.p <;> split <;> simp_all [Call.set]

omit [DecidableEq P] in
private theorem clear_mask (f : C → BitVec 16) :
    (fun c i => (update f call.p (f call.p &&& ~~~ mask call.ofst call.n) c).getLsbD i) =
      call.set false fun c i => (f c).getLsbD i := by
  funext c i
  rw [congrFun (clear_bits range f i) c]
  by_cases here : c = call.p <;> split <;> simp_all [Call.set]

private theorem unlock_masks (conns : Connections P C) (s : State P C) :
    (unixShmUnlock conns s call.p call.ofst call.n call.granted) = (.busy, s) ∨
    (unixShmUnlock conns s call.p call.ofst call.n call.granted).1 = .ok ∧
      (unixShmUnlock conns s call.p call.ofst call.n call.granted).2.masks =
        ⟨call.set false s.masks.shared, call.set false s.masks.excl⟩ := by
  have cleared : ∀ os : P → Nat → Held, (State.masks ⟨
      update s.sharedMask call.p (s.sharedMask call.p &&& ~~~ mask call.ofst call.n),
      update s.exclMask call.p (s.exclMask call.p &&& ~~~ mask call.ofst call.n), os⟩ : Grants C) =
        ⟨call.set false s.masks.shared, call.set false s.masks.excl⟩ := by
    intro os
    rw [State.masks, clear_mask range, clear_mask range]
    rfl
  unfold unixShmUnlock
  dsimp only
  split
  · cases call.granted with
    | true => exact .inr ⟨rfl, cleared _⟩
    | false => exact .inl rfl
  · exact .inr ⟨rfl, cleared _⟩

omit range [DecidableEq P] in
private theorem set_false_self {f : C → Nat → Bool}
    (clear : ∀ i, InCall call.ofst call.n i → f call.p i = false) : call.set false f = f := by
  refine (congrArg (update f call.p) (funext fun i => ?_)).trans (update_eq_self call.p f)
  split
  · rename_i inside
    exact (clear i inside).symm
  · rfl

/-- By the codes that it got a connection holds what its masks say. -/
theorem note_masks (sound : Sound conns s) (rules : Rules s.masks call) :
    s.masks.note call (call.run conns s).1 = (call.run conns s).2.masks := by
  obtain ⟨p, ofst, n, flags, granted⟩ := call
  obtain ⟨-, -, rule⟩ := rules
  cases flags with
  | lockShared =>
    have marked : ∀ os : P → Nat → Held, (State.masks ⟨
        update s.sharedMask p (s.sharedMask p ||| mask ofst n),
        s.exclMask, os⟩ : Grants C) = s.masks.note ⟨p, ofst, n, .lockShared, granted⟩ .ok :=
      fun os => by rw [State.masks, set_mask range]; rfl
    rw [Call.run, unixShmLock]
    cases scanShared s (mask ofst n) (conns.pFirst (conns.process p)) 0 with
    | none => rfl
    | some allShared =>
      dsimp only
      split
      · cases granted with
        | true => exact (marked _).symm
        | false => rfl
      · exact (marked _).symm
  | lockExclusive =>
    have marked : ∀ os : P → Nat → Held, (State.masks ⟨s.sharedMask,
        update s.exclMask p (s.exclMask p ||| mask ofst n), os⟩ : Grants C) =
          s.masks.note ⟨p, ofst, n, .lockExclusive, granted⟩ .ok :=
      fun os => by rw [State.masks, set_mask range]; rfl
    rw [Call.run, unixShmLock]
    split
    · rfl
    · cases granted with
      | true => exact (marked _).symm
      | false => rfl
  | unlockShared =>
    have clear : ∀ i, InCall ofst n i → s.masks.excl p i = false := by
      intro i inside
      obtain rfl : i = ofst := by
        obtain ⟨low, high⟩ := inside
        have one : n = 1 := rule.1
        omega
      refine Bool.eq_false_iff.mpr fun holds => ?_
      exact absurd (rule.2.symm.trans ((sound i).alone p p rfl holds).1) (by decide)
    rcases unlock_masks range conns s with busy | ⟨ok, masks⟩
    · simp only [Call.run, unixShmLock, busy, Grants.note]
    · simp only [Call.run, unixShmLock, ok, masks, Grants.note]
      rw [set_false_self (f := s.masks.excl) clear]
  | unlockExclusive =>
    have clear : ∀ i, InCall ofst n i → s.masks.shared p i = false :=
      fun i inside => ((sound i).alone p p rfl (rule i inside)).1
    rcases unlock_masks range conns s with busy | ⟨ok, masks⟩
    · simp only [Call.run, unixShmLock, busy, Grants.note]
    · simp only [Call.run, unixShmLock, ok, masks, Grants.note]
      rw [set_false_self (f := s.masks.shared) clear]

end

def unlocked : State P C := ⟨fun _ => 0, fun _ => 0, fun _ _ => .unlocked⟩

omit [DecidableEq P] [DecidableEq C] in
private theorem sound_unlocked : Sound conns (unlocked : State P C) := by
  intro i
  refine ⟨fun c c' _ holds => ?_, fun q => ?_, fun q => ?_, fun q q' _ => rfl⟩
  · simp [unlocked] at holds
  · simp [unlocked]
  · simp [unlocked]

/-- A connection that was granted a slot for itself has it alone among all connections of all
processes. -/
def Excludes (grants : Grants C) : Prop :=
  ∀ i c c', c' ≠ c → grants.excl c i = true → grants.shared c' i = false ∧ grants.excl c' i = false

/-- A process has its read lock on a slot exactly while one of its connections was granted to share
it. -/
def ReadKept (conns : Connections P C) (r : State P C × Grants C) : Prop :=
  ∀ q i, r.1.os q (i + unixShmBase) = .read ↔
    ∃ c, conns.process c = q ∧ r.2.shared c i = true

def initial : State P C × Grants C := (unlocked, ⟨fun _ _ => false, fun _ _ => false⟩)

/-- In every run of calls that obey the rules, whatever the system refuses. -/
theorem shm_locks_exclude (conns : Connections P C) (run : List (Call C))
    (allowed : Along (step conns) (fun r call => Rules r.2 call ∧ Posix conns r.1 call) initial
      run) : Visits (step conns) (fun r => Excludes r.2 ∧ ReadKept conns r) initial run := by
  refine visits_of_invariant (I := fun r => Sound conns r.1 ∧ r.2 = r.1.masks)
    (fun r inv => ?_) (fun r call inv allowed => ?_) ⟨sound_unlocked, ?_⟩ allowed
  · obtain ⟨sound, told⟩ := inv
    rw [ReadKept, told]
    exact ⟨fun i c c' other holds => (sound i).excludes other holds, fun q i => (sound i).read q⟩
  · obtain ⟨sound, told⟩ := inv
    rw [told] at allowed
    rw [step, told]
    exact ⟨sound_run r.1 call sound allowed, note_masks allowed.1.2.1 sound allowed.1⟩
  · simp [initial, unlocked, State.masks]

def twoProcesses : Connections Bool (Bool × Bool) where
  process := Prod.fst
  pFirst := fun q => [(q, false), (q, true)]
  listed := fun ⟨q, c⟩ => by cases c <;> simp
  own := fun q c member => by
    rcases List.mem_cons.mp member with rfl | later
    · rfl
    · rw [List.mem_singleton.mp later]

/-- Two siblings share slot 3, one leaves, and another process is refused the slot. -/
def siblings : List (Call (Bool × Bool)) :=
  [⟨(false, false), 3, 1, .lockShared, true⟩, ⟨(false, true), 3, 1, .lockShared, false⟩,
    ⟨(false, false), 3, 1, .unlockShared, false⟩, ⟨(true, false), 3, 2, .lockExclusive, false⟩]

theorem shm_locks_exclude_siblings :
    Along (step twoProcesses) (fun r call => Rules r.2 call ∧ Posix twoProcesses r.1 call) initial
        siblings ∧
      Visits (step twoProcesses) (fun r => Excludes r.2 ∧ ReadKept twoProcesses r) initial
        siblings := by
  have allowed : Along (step twoProcesses)
      (fun r call => Rules r.2 call ∧ Posix twoProcesses r.1 call) initial siblings := by
    refine ⟨⟨⟨by decide, by decide, rfl⟩, fun _ q _ r _ => rfl⟩,
      ⟨⟨by decide, by decide, rfl⟩, fun granted => absurd granted (by decide)⟩,
      ⟨⟨by decide, by decide, rfl, by decide⟩, fun granted => absurd granted (by decide)⟩,
      ⟨⟨by decide, by decide, trivial⟩, fun granted => absurd granted (by decide)⟩, trivial⟩
  exact ⟨allowed, shm_locks_exclude twoProcesses siblings allowed⟩

end

end SeSqlite.Os.ShmLock
