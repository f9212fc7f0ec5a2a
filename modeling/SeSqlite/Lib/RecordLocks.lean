/- scope: general, no program is named here
   digest: Advisory read and write locks on regions of a file, held by the owners that share it. -/
import Mathlib.Logic.Function.Basic

set_option autoImplicit false
set_option relaxedAutoImplicit false

namespace SeSqlite.Lib.RecordLocks

inductive Held where
  | unlocked
  | read
  | write
  deriving DecidableEq

/-- Two owners cannot hold these on the same region. -/
def Held.clash : Held → Held → Bool
  | .write, .unlocked => false
  | .write, _ => true
  | .read, .write => true
  | _, _ => false

theorem Held.clash_symm (a b : Held) : a.clash b = b.clash a := by
  cases a <;> cases b <;> rfl

@[simp] theorem Held.unlocked_clash (b : Held) : Held.unlocked.clash b = false := by
  cases b <;> rfl

theorem Held.write_clash {b : Held} (free : Held.write.clash b = false) : b = .unlocked := by
  cases b <;> simp_all [Held.clash]

variable {ρ : Type*}

structure Request (ρ : Type*) where
  type : Held
  covers : ρ → Bool

def Request.apply (lock : Request ρ) (table : ρ → Held) : ρ → Held :=
  fun r => if lock.covers r then lock.type else table r

def Compatible (table other : ρ → Held) : Prop := ∀ r, (table r).clash (other r) = false

/-- The system can grant the request to an owner when another one has these locks. -/
def Request.Grantable (lock : Request ρ) (other : ρ → Held) : Prop :=
  ∀ r, lock.covers r = true → lock.type.clash (other r) = false

variable {lock : Request ρ} {table other : ρ → Held}

theorem Compatible.symm (compatible : Compatible table other) : Compatible other table := by
  intro r
  rw [Held.clash_symm]
  exact compatible r

theorem Compatible.apply (compatible : Compatible table other) (grantable : lock.Grantable other) :
    Compatible (lock.apply table) other := by
  intro r
  unfold Request.apply
  split
  · exact grantable r ‹_›
  · exact compatible r

end SeSqlite.Lib.RecordLocks
